import SystemsProjects.Cmdparse.Memory
import SystemsProjects.Cmdparse.Wellformed
import Mathlib.Algebra.Order.Group.Multiset
import Mathlib.Data.Multiset.OrderedMonoid
import Mathlib.Tactic.Abel

/-!
# What the parser takes and gives back

Every block belongs to one command that the parser still knows, or is lost: the blocks of a subshell
list that a second parenthesis in the same command overwrites (`cmdparse.c:338-340`). All others are
freed exactly once.
-/

namespace SystemsProjects.Cmdparse

open SystemsProjects.Lib

/-! ## The command in a block -/

mutual

def Node.command : Node → Command
  | ⟨_, argv, files, subshell, op⟩ =>
    ⟨argv.map Str.text, fun fd => (files fd).map Str.text, commands subshell, op⟩

def commands : List Node → List Command
  | [] => []
  | node :: next => node.command :: commands next

end

mutual

/-- The blocks of a command. -/
def Node.blocks : Node → Multiset Nat
  | ⟨block, argv, files, subshell, _⟩ =>
    {block} + (argv.map Str.block : List Nat) + (fileBlocks files : List Nat) + blocks subshell

def blocks : List Node → Multiset Nat
  | [] => 0
  | node :: next => node.blocks + blocks next

end

section
variable (node : Node) (l l' : List Node)

@[simp] theorem commands_nil : commands [] = [] := rfl

@[simp] theorem commands_cons : commands (node :: l) = node.command :: commands l := rfl

@[simp] theorem blocks_nil : blocks [] = 0 := rfl

@[simp] theorem blocks_cons : blocks (node :: l) = node.blocks + blocks l := rfl

@[simp] theorem commands_append : commands (l ++ l') = commands l ++ commands l' := by
  induction l with
  | nil => rfl
  | cons node l ih => rw [List.cons_append, commands_cons, ih, commands_cons, List.cons_append]

@[simp] theorem blocks_append : blocks (l ++ l') = blocks l + blocks l' := by
  induction l with
  | nil => rw [blocks_nil, List.nil_append, zero_add]
  | cons node l ih => rw [List.cons_append, blocks_cons, ih, blocks_cons, add_assoc]

theorem commands_eq_nil : commands l = [] ↔ l = [] := by
  cases l <;> simp

theorem commands_isEmpty : (commands l).isEmpty = l.isEmpty := by
  cases l <;> rfl

theorem Node.command_eq : node.command =
    ⟨node.argv.map Str.text, fun fd => (node.redirectFilename fd).map Str.text,
      commands node.subshell, node.controlop⟩ := by
  cases node
  rfl

theorem Node.blocks_eq : node.blocks = {node.block} + (node.argv.map Str.block : List Nat) +
    (fileBlocks node.redirectFilename : List Nat) + Cmdparse.blocks node.subshell := by
  cases node
  rfl

theorem Node.command_word (word : Str) :
    ({ node with argv := node.argv ++ [word] } : Node).command =
    { node.command with argv := node.command.argv ++ [word.text] } := by
  rw [Node.command_eq, Node.command_eq, List.map_append, List.map_singleton]

theorem Node.command_redirect (fd : Fin 3) (name : Str) :
    ({ node with
        redirectFilename := Function.update node.redirectFilename fd (some name) } : Node).command =
      { node.command with
        redirectFilename :=
          Function.update node.command.redirectFilename fd (some name.text) } := by
  rw [Node.command_eq, Node.command_eq]
  dsimp only
  congr 1
  funext fd'
  rw [Function.update_apply, Function.update_apply]
  split_ifs <;> rfl

theorem Node.command_isEmpty : node.command.isEmpty = node.isEmpty := by
  rw [Node.command_eq, Command.isEmpty, Node.isEmpty, commands_isEmpty, List.isEmpty_map]

end

theorem blocks_eq_zero {l : List Node} : blocks l = 0 ↔ l = [] := by
  cases l with
  | nil => simp
  | cons node l =>
    refine iff_of_false (fun h => ?_) (List.cons_ne_nil node l)
    have hmem : node.block ∈ blocks (node :: l) := by simp [Node.blocks_eq]
    rw [h] at hmem
    exact Multiset.notMem_zero _ hmem

/-! ## `cmd_free` frees it all -/

/-- No command of a list, at any depth, has more words than `cmd_free` frees. -/
inductive Fits : List Node → Prop
  | nil : Fits []
  | cons {node : Node} {next : List Node} : node.argv.length ≤ maxtokens → Fits node.subshell →
      Fits next → Fits (node :: next)

theorem Fits.append {l l' : List Node} (h : Fits l) (h' : Fits l') : Fits (l ++ l') := by
  induction h with
  | nil => exact h'
  | cons hargs hsub _ _ ih => exact .cons hargs hsub ih

theorem fits_singleton {node : Node} :
    Fits [node] ↔ node.argv.length ≤ maxtokens ∧ Fits node.subshell := by
  constructor
  · intro h
    cases h with
    | cons hargs hsub _ => exact ⟨hargs, hsub⟩
  · exact fun h => .cons h.1 h.2 .nil

theorem cmdFree_cons (node : Node) (next : List Node) (h : Heap) : cmdFree (node :: next) h = (do
    guard (node.block ∈ h.live)
    let h ← h.freeAll (fileBlocks node.redirectFilename)
    let h ← cmdFree node.subshell h
    let h ← cmdFree next h
    let h ← h.freeAll ((node.argv.take maxtokens).map Str.block)
    h.free node.block) := by
  cases node
  rfl

theorem Fits.cmdFree {l : List Node} (hfits : Fits l) {h : Heap} {rest : Multiset Nat}
    (hlive : h.live = blocks l + rest) : ∃ h', cmdFree l h = some h' ∧ h'.live = rest := by
  induction hfits generalizing h rest with
  | nil => exact ⟨h, rfl, by simpa using hlive⟩
  | @cons node next hargs hsub hnext ihSub ihNext =>
    have hmem : node.block ∈ h.live := by
      simp [hlive, Node.blocks_eq]
    -- the order in which the blocks are freed
    have horder : h.live = (fileBlocks node.redirectFilename : Multiset Nat) +
        (blocks node.subshell + (blocks next +
          ((node.argv.map Str.block : List Nat) + ({node.block} + rest)))) := by
      rw [hlive, blocks_cons, Node.blocks_eq]
      abel
    obtain ⟨h₁, hfree₁, hlive₁⟩ := Heap.freeAll_of_live horder
    obtain ⟨h₂, hfree₂, hlive₂⟩ := ihSub hlive₁
    obtain ⟨h₃, hfree₃, hlive₃⟩ := ihNext hlive₂
    obtain ⟨h₄, hfree₄, hlive₄⟩ := Heap.freeAll_of_live hlive₃
    obtain ⟨h₅, hfree₅, hlive₅⟩ := Heap.free_of_live hlive₄
    refine ⟨h₅, ?_, hlive₅⟩
    rw [cmdFree_cons, List.take_of_length_le hargs]
    simp [hmem, hfree₁, hfree₂, hfree₃, hfree₄, hfree₅]

/-! ## The bodies of the loops -/

/-- An iteration of the loop of `cmd_parse` on a command and the same one with memory, `rest` being
the blocks of all others. -/
inductive TokenMatch (old : Node) (rest : Multiset Nat) : CmdStep → NodeStep → Prop
  | again {node : Node} {ps : ParseState} {h : Heap} (fits : Fits [node])
      (live : h.live = node.blocks + rest) :
      TokenMatch old rest (.again node.command ps) (.again node ps h)
  | paren {ps : ParseState} {h : Heap} (live : h.live = old.blocks + rest) :
      TokenMatch old rest (.paren ps) (.paren ps h)
  | none {ps : ParseState} {h : Heap} (live : h.live = rest) :
      TokenMatch old rest (.finish none ps) (.finish none ps h)
  | some {node : Node} {ps : ParseState} {h : Heap} (fits : Fits [node])
      (live : h.live = node.blocks + rest) :
      TokenMatch old rest (.finish (some node.command) ps) (.finish (some node) ps h)
  | abort : TokenMatch old rest .abort .abort

section
variable {old node : Node} {ps : ParseState} {h : Heap} {rest : Multiset Nat}

theorem nodeError_match (hfits : Fits [node]) (hlive : h.live = node.blocks + rest) :
    TokenMatch old rest (.finish none ps) (nodeError node ps h) := by
  obtain ⟨h', hfree, hlive'⟩ := @Fits.cmdFree _ hfits h rest (by simpa using hlive)
  rw [nodeError, hfree]
  exact .none hlive'

theorem nodeDone_match (hfits : Fits [node]) (hlive : h.live = node.blocks + rest) :
    TokenMatch old rest (.finish (cmdDone node.command) ps) (nodeDone node ps h) := by
  rw [cmdDone, nodeDone, node.command_isEmpty]
  split_ifs
  · exact nodeError_match hfits hlive
  · exact .some hfits hlive

/-- `goto done`, behind `parse_ungettoken`. -/
theorem ungettoken_match (hfits : Fits [node]) (hlive : h.live = node.blocks + rest) :
    TokenMatch old rest
      (match parseUngettoken ps with
        | none => .abort
        | some ps => .finish (cmdDone node.command) ps)
      (match parseUngettoken ps with
        | none => .abort
        | some ps => nodeDone node ps h) := by
  cases parseUngettoken ps with
  | none => exact .abort
  | some ps => exact nodeDone_match hfits hlive

/-- The blocks of the file names: one of the three, and the others. -/
theorem fileBlocks_split (files : Fin 3 → Option Str) (fd : Fin 3) : ∃ others : Multiset Nat,
    (fileBlocks files : Multiset Nat) = ((files fd).toList.map Str.block : List Nat) + others ∧
      ∀ name, (fileBlocks (Function.update files fd (some name)) : Multiset Nat) =
        {name.block} + others := by
  have hsum : ∀ files : Fin 3 → Option Str, (fileBlocks files : Multiset Nat) =
      ((files 0).toList.map Str.block : List Nat) + ((files 1).toList.map Str.block : List Nat) +
        ((files 2).toList.map Str.block : List Nat) := by
    intro files
    simp [fileBlocks]
  let b (fd : Fin 3) : Multiset Nat := ((files fd).toList.map Str.block : List Nat)
  match fd with
  | 0 =>
    refine ⟨b 1 + b 2, by rw [hsum]; abel, fun name => ?_⟩
    rw [hsum]
    change {name.block} + b 1 + b 2 = {name.block} + (b 1 + b 2)
    abel
  | 1 =>
    refine ⟨b 0 + b 2, by rw [hsum]; abel, fun name => ?_⟩
    rw [hsum]
    change b 0 + {name.block} + b 2 = {name.block} + (b 0 + b 2)
    abel
  | 2 =>
    refine ⟨b 0 + b 1, by rw [hsum]; abel, fun name => ?_⟩
    rw [hsum]
    change b 0 + b 1 + {name.block} = {name.block} + (b 0 + b 1)
    abel

theorem nodeRedirect_match (fd : Fin 3) (hfits : Fits [node])
    (hlive : h.live = node.blocks + rest) :
    TokenMatch old rest (cmdRedirect fd node.command ps) (nodeRedirect fd node ps h) := by
  unfold cmdRedirect nodeRedirect
  rw [node.command_isEmpty]
  split_ifs
  · exact nodeError_match hfits hlive
  rcases parseGettoken ps with ⟨token, ps⟩
  dsimp only
  split_ifs
  · exact nodeError_match hfits hlive
  · obtain ⟨others, hfiles, hname⟩ := fileBlocks_split node.redirectFilename fd
    have horder : h.live = ((node.redirectFilename fd).toList.map Str.block : List Nat) +
        ({node.block} + (node.argv.map Str.block : List Nat) + others + blocks node.subshell +
          rest) := by
      rw [hlive, Node.blocks_eq, hfiles]
      abel
    obtain ⟨h', hfree, hlive'⟩ := Heap.freeAll_of_live horder
    have hfits' := fits_singleton.mp hfits
    rw [hfree]
    dsimp only [strdup]
    rw [← node.command_redirect fd ⟨h'.malloc.1, token.buffer⟩]
    refine .again (fits_singleton.mpr hfits') ?_
    rw [h'.live_malloc, hlive', Node.blocks_eq]
    dsimp only
    rw [hname]
    abel

theorem nodeToken_match (hfits : Fits [node]) (hlive : h.live = node.blocks + rest) :
    TokenMatch node rest (cmdToken node.command ps) (nodeToken node ps h) := by
  unfold cmdToken nodeToken
  rcases parseGettoken ps with ⟨⟨type, buffer⟩, ps⟩
  cases type with
  | tokNormal =>
    dsimp only
    rw [show node.command.argv.length = node.argv.length by simp [Node.command_eq],
      show node.command.subshell.isEmpty = node.subshell.isEmpty by
        rw [Node.command_eq, commands_isEmpty]]
    split_ifs with hfull
    · exact nodeError_match hfits hlive
    · have hfits' := fits_singleton.mp hfits
      dsimp only [strdup]
      rw [← node.command_word ⟨h.malloc.1, buffer⟩]
      refine .again (fits_singleton.mpr ⟨?_, hfits'.2⟩) ?_
      · rw [List.length_append, List.length_singleton]
        omega
      · rw [h.live_malloc, hlive, Node.blocks_eq, Node.blocks_eq]
        simp only [List.map_append, List.map_cons, List.map_nil, ← Multiset.coe_add,
          Multiset.coe_singleton]
        abel
  | tokLessThan => exact nodeRedirect_match 0 hfits hlive
  | tokGreaterThan => exact nodeRedirect_match 1 hfits hlive
  | tok2GreaterThan => exact nodeRedirect_match 2 hfits hlive
  | tokOpenParen => exact .paren hlive
  | _ => exact ungettoken_match hfits hlive

end

/-- What follows a command of the list `head`, in the two models. -/
inductive ListMatch (head : List Node) (rest : Multiset Nat) (h : Heap) : LineStep → ListStep → Prop
  | again {node : Node} {ps : ParseState} (fits : Fits [node])
      (live : h.live = blocks head + node.blocks + rest) :
      ListMatch head rest h (.again node.command ps) (.again node ps)
  | finish {list : List Node} {ps : ParseState} {h' : Heap} (fits : Fits list)
      (live : h'.live = blocks list + rest) :
      ListMatch head rest h (.finish (commands list) ps) (.finish list ps h')
  | abort : ListMatch head rest h .abort .abort

section
variable {head : List Node} {node : Node} {ps : ParseState} {h : Heap} {rest : Multiset Nat}
  {inParens : Bool}

theorem listError_match {list : List Node} (hfits : Fits list)
    (hlive : h.live = blocks list + rest) :
    ListMatch head rest h (.finish [] ps) (listError list ps h) := by
  obtain ⟨h', hfree, hlive'⟩ := hfits.cmdFree hlive
  rw [listError, hfree]
  exact .finish .nil (by rw [blocks_nil, zero_add, hlive'])

variable (hhead : Fits head) (hfits : Fits [node])
  (hlive : h.live = blocks head + node.blocks + rest)

include hhead hfits hlive

theorem listEnder_match (type : TokenType) : ListMatch head rest h
    (lineEnder inParens (commands head) node.command type ps)
    (listEnder inParens head node type ps h) := by
  have hall : h.live = blocks (head ++ [node]) + rest := by
    rw [hlive, blocks_append, blocks_cons, blocks_nil, add_zero]
  have herror := @listError_match head ps h rest _ (hhead.append hfits) hall
  have hop : node.command.controlop = node.controlop := by rw [Node.command_eq]
  unfold lineEnder listEnder
  rw [hop]
  split_ifs
  · exact herror
  · exact herror
  · have hlist : commands (head ++ [node]) = commands head ++ [node.command] := by simp
    rw [← hlist]
    exact .finish (hhead.append hfits) hall

theorem listSeparator_match : ListMatch head rest h
    (connectSeparator inParens (commands head) node.command ps)
    (listSeparator inParens head node ps h) := by
  unfold connectSeparator listSeparator
  rcases parseGettoken ps with ⟨token, ps⟩
  dsimp only
  split_ifs
  · exact listEnder_match hhead hfits hlive token.type
  · cases parseUngettoken ps with
    | none => exact .abort
    | some ps => exact .again hfits hlive

theorem listConnect_match : ListMatch head rest h
    (connect inParens (commands head) node.command ps)
    (listConnect inParens head node ps h) := by
  have hop : ∀ op, ({ node with controlop := op } : Node).command =
      { node.command with controlop := op } := by
    intro op
    rw [Node.command_eq, Node.command_eq]
  have hfits' : ∀ op, Fits [{ node with controlop := op }] := by
    intro op
    obtain ⟨hargs, hsub⟩ := fits_singleton.mp hfits
    exact fits_singleton.mpr ⟨hargs, hsub⟩
  have hlive' : ∀ op, h.live =
      blocks head + ({ node with controlop := op } : Node).blocks + rest := by
    intro op
    rw [hlive, Node.blocks_eq, Node.blocks_eq]
  unfold connect listConnect
  rcases parseGettoken ps with ⟨⟨type, buffer⟩, ps⟩
  simp only [← hop]
  cases type with
  | tokDoubleamp => exact .again (hfits' .cmdAnd) (hlive' .cmdAnd)
  | tokDoublepipe => exact .again (hfits' .cmdOr) (hlive' .cmdOr)
  | tokPipe => exact .again (hfits' .cmdPipe) (hlive' .cmdPipe)
  | tokSemicolon => exact listSeparator_match hhead (hfits' _) (hlive' _)
  | tokAmpersand => exact listSeparator_match hhead (hfits' _) (hlive' _)
  | tokEnd => exact listEnder_match hhead hfits hlive .tokEnd
  | tokCloseParen => exact listEnder_match hhead hfits hlive .tokCloseParen
  | _ =>
    refine listError_match (hhead.append hfits) ?_
    rw [hlive, blocks_append, blocks_cons, blocks_nil, add_zero]

end

/-! ## The machines side by side -/

/-- The commands of a frame fit, and these are their blocks. -/
structure NodeFrame.Fits (f : NodeFrame) : Prop where
  head : Cmdparse.Fits f.head
  node : Cmdparse.Fits [f.node]

def NodeFrame.frame (f : NodeFrame) : Frame := ⟨commands f.head, f.node.command⟩

def NodeFrame.blocks (f : NodeFrame) : Multiset Nat := Cmdparse.blocks f.head + f.node.blocks

/-- The blocks of the open calls outside the innermost one, without those of subshell lists: these
will be overwritten when the call returns. -/
def kept (outer : List NodeFrame) : Multiset Nat :=
  (outer.map fun f => Cmdparse.blocks f.head +
    ({ f.node with subshell := [] } : Node).blocks).sum

/-- The innermost call reads an opening parenthesis in a command that has a subshell. -/
def Config.overwrites (c : Config) : Prop :=
  c.top.cmd.subshell ≠ [] ∧ (parseGettoken c.ps).1.type = .tokOpenParen

/-- The machines are at the same place, and all blocks but those of `base` belong to a command or
are lost, now or when the call that reads a subshell returns. -/
inductive SideBySide (base : Multiset Nat) : Multiset Nat → Config ⊕ Result →
    HeapConfig ⊕ HeapResult → Prop
  | running {lost : Multiset Nat} {c : HeapConfig} (top : c.top.Fits)
      (outer : ∀ f ∈ c.outer, f.Fits)
      (live : c.heap.live = c.top.blocks + (kept c.outer + lost + base)) :
      SideBySide base lost (.inl ⟨c.top.frame, c.outer.map NodeFrame.frame, c.ps⟩) (.inl c)
  | returned {lost : Multiset Nat} {list : List Node} {ps : ParseState} {h : Heap}
      (fits : Fits list) (live : h.live = blocks list + (lost + base)) :
      SideBySide base lost (.inr (.returned (commands list) ps)) (.inr (.returned list ps h))
  | aborted {lost : Multiset Nat} : SideBySide base lost (.inr .aborted) (.inr .aborted)

section
variable {base lost : Multiset Nat} {outer : List NodeFrame} {ps : ParseState} {h : Heap}

theorem Node.blocks_split (node : Node) : node.blocks =
    ({ node with subshell := [] } : Node).blocks + Cmdparse.blocks node.subshell := by
  rw [Node.blocks_eq, Node.blocks_eq, Cmdparse.blocks_nil, add_zero]

theorem enter_side {head : List Node} (hhead : Fits head) (houter : ∀ f ∈ outer, f.Fits)
    (hlive : h.live = blocks head + (kept outer + lost + base)) :
    SideBySide base lost
      (.inl ⟨⟨commands head, cmdAlloc⟩, outer.map NodeFrame.frame, ps⟩)
      (.inl (heapEnter head outer ps h)) := by
  have hnode : Fits [(nodeAlloc h).1] := fits_singleton.mpr ⟨Nat.zero_le maxtokens, .nil⟩
  refine SideBySide.running (c := heapEnter head outer ps h) ⟨hhead, hnode⟩ houter ?_
  change h.malloc.2.live = blocks head + ({h.malloc.1} + 0 + 0 + 0) + (kept outer + lost + base)
  rw [h.live_malloc, hlive]
  abel

theorem resume_side {list : List Node} (hfits : Fits list) (houter : ∀ f ∈ outer, f.Fits)
    (hlive : h.live = blocks list + (kept outer + lost + base)) :
    SideBySide base lost (resume (outer.map NodeFrame.frame) (commands list) ps)
      (heapResume outer list ps h) := by
  cases outer with
  | nil => exact .returned hfits (by rw [hlive, kept, List.map_nil, List.sum_nil, zero_add])
  | cons f outer =>
    obtain ⟨hf, houter⟩ := List.forall_mem_cons.mp houter
    have hcommand : ({ f.node with subshell := list } : Node).command =
        { f.node.command with subshell := commands list } := by
      rw [Node.command_eq, Node.command_eq]
    rw [List.map_cons, resume, heapResume, NodeFrame.frame, ← hcommand]
    have hnode : Fits [{ f.node with subshell := list }] :=
      fits_singleton.mpr ⟨(fits_singleton.mp hf.node).1, hfits⟩
    refine SideBySide.running (c := ⟨⟨f.head, { f.node with subshell := list }⟩, outer, ps, h⟩)
      ⟨hf.head, hnode⟩ houter ?_
    rw [hlive, NodeFrame.blocks, Node.blocks_split, kept, List.map_cons, List.sum_cons, kept]
    abel

theorem connect_side {head : List Node} {s : LineStep} {s' : ListStep} (hhead : Fits head)
    (houter : ∀ f ∈ outer, f.Fits) (hs : ListMatch head (kept outer + lost + base) h s s') :
    SideBySide base lost (afterConnect (commands head) (outer.map NodeFrame.frame) s)
      (heapAfterConnect head outer h s') := by
  cases hs with
  | @again node ps fits live =>
    have hcommands : commands head ++ [node.command] = commands (head ++ [node]) := by simp
    rw [afterConnect, heapAfterConnect, hcommands]
    refine enter_side (hhead.append fits) houter ?_
    rw [live, blocks_append, blocks_cons, blocks_nil, add_zero]
  | finish fits live => exact resume_side fits houter live
  | abort => exact .aborted

/-- `cmd_parse` has returned in the innermost call. -/
theorem cmd_side {head : List Node} {r : Option Node} (hhead : Fits head)
    (hr : ∀ node, r = some node → Fits [node]) (houter : ∀ f ∈ outer, f.Fits)
    (hlive : h.live = blocks head + (r.elim 0 Node.blocks) + (kept outer + lost + base)) :
    SideBySide base lost
      (afterCmd (commands head) (outer.map NodeFrame.frame) (r.map Node.command) ps)
      (heapAfterCmd head outer r ps h) := by
  cases r with
  | none =>
    refine connect_side hhead houter (s := .finish [] ps) (listError_match hhead ?_)
    simpa using hlive
  | some node =>
    have hempty : (outer.map NodeFrame.frame).isEmpty = outer.isEmpty := List.isEmpty_map
    rw [Option.map_some, afterCmd, heapAfterCmd, hempty]
    exact connect_side hhead houter (listConnect_match hhead (hr node rfl) hlive)

theorem cmdToken_paren_iff (cmd : Command) (ps : ParseState) :
    (∃ ps', cmdToken cmd ps = .paren ps') ↔ (parseGettoken ps).1.type = .tokOpenParen := by
  have hredirect : ∀ fd ps ps', cmdRedirect fd cmd ps ≠ .paren ps' := by
    intro fd ps ps'
    rcases cmdRedirect_cases fd cmd ps with ⟨ps'', h⟩ | ⟨files, ps'', h⟩ <;> simp [h]
  have hdone : ∀ ps ps', (match parseUngettoken ps with
      | none => CmdStep.abort
      | some ps => .finish (cmdDone cmd) ps) ≠ .paren ps' := by
    intro ps ps'
    cases parseUngettoken ps <;> simp
  unfold cmdToken
  rcases parseGettoken ps with ⟨⟨type, buffer⟩, ps⟩
  cases type with
  | tokNormal =>
    dsimp only
    split_ifs <;> simp
  | tokOpenParen => exact iff_of_true ⟨ps, rfl⟩ rfl
  | tokLessThan => exact iff_of_false (fun ⟨ps', h⟩ => hredirect 0 ps ps' h) (by simp)
  | tokGreaterThan => exact iff_of_false (fun ⟨ps', h⟩ => hredirect 1 ps ps' h) (by simp)
  | tok2GreaterThan => exact iff_of_false (fun ⟨ps', h⟩ => hredirect 2 ps ps' h) (by simp)
  | _ => exact iff_of_false (fun ⟨ps', h⟩ => hdone ps ps' h) (by simp)

/-- One step: a subshell list is lost when a second one is begun. -/
theorem step_side {c : Config} {y : HeapConfig ⊕ HeapResult}
    (hside : SideBySide base lost (.inl c) y) : ∃ hc lost', y = .inl hc ∧
      SideBySide base lost' c.step hc.step ∧ (lost' = 0 ↔ lost = 0 ∧ ¬ c.overwrites) := by
  cases hside with
  | @running hc top houter live =>
    have hlive : hc.heap.live = hc.top.node.blocks + (blocks hc.top.head +
        (kept hc.outer + lost + base)) := by
      rw [live, NodeFrame.blocks]
      abel
    have htoken : TokenMatch hc.top.node (blocks hc.top.head + (kept hc.outer + lost + base))
        (cmdToken hc.top.node.command hc.ps) (nodeToken hc.top.node hc.ps hc.heap) :=
      nodeToken_match top.node hlive
    have hparen := cmdToken_paren_iff hc.top.node.command hc.ps
    simp only [Config.step, HeapConfig.step, Config.overwrites, NodeFrame.frame, ← hparen]
    refine ⟨hc, ?_⟩
    generalize cmdToken hc.top.node.command hc.ps = q at htoken ⊢
    generalize nodeToken hc.top.node hc.ps hc.heap = q' at htoken ⊢
    cases htoken with
    | @again node ps h fits live' =>
      refine ⟨lost, rfl, ?_, by simp⟩
      refine SideBySide.running (c := ⟨⟨hc.top.head, node⟩, hc.outer, ps, h⟩) ⟨top.head, fits⟩
        houter ?_
      rw [live', NodeFrame.blocks]
      abel
    | @paren ps h live' =>
      refine ⟨lost + blocks hc.top.node.subshell, rfl, ?_, ?_⟩
      · refine @enter_side base _ (hc.top :: hc.outer) ps h [] .nil
          (List.forall_mem_cons.mpr ⟨top, houter⟩) ?_
        rw [live', hc.top.node.blocks_split, blocks_nil, kept, kept, List.map_cons, List.sum_cons]
        abel
      · rw [add_eq_zero, blocks_eq_zero, hc.top.node.command_eq]
        simp [commands_eq_nil]
    | none live' =>
      refine ⟨lost, rfl, ?_, by simp⟩
      refine cmd_side (r := none) top.head (by simp) houter ?_
      rw [live', Option.elim_none, add_zero]
    | @some node ps h fits live' =>
      refine ⟨lost, rfl, ?_, by simp⟩
      refine cmd_side (r := some node) top.head (by simpa using fits) houter ?_
      rw [live', Option.elim_some]
      abel
    | abort => exact ⟨lost, rfl, .aborted, by simp⟩

end

/-! ## Lines -/

theorem init_side (line : List UInt8) (h : Heap) :
    SideBySide h.live 0 (.inl (Config.init line)) (.inl (HeapConfig.init line h)) :=
  @enter_side h.live 0 [] (parseInit line) h [] .nil (by simp) (by simp [kept])

/-- The parser never frees a block that is not in use. -/
theorem not_faulted (line : List UInt8) (h : Heap) :
    ¬ Ends HeapConfig.step (.inl (HeapConfig.init line h)) .faulted := by
  intro hends
  have hinv := hends.invariant (P := fun y => ∃ x lost, SideBySide h.live lost x y) ?_
    ⟨_, _, init_side line h⟩
  · obtain ⟨x, lost, hside⟩ := hinv
    cases hside
  · rintro hc ⟨x, lost, hside⟩
    cases hside with
    | running top outer live =>
      obtain ⟨hc', lost', heq, hside', -⟩ := step_side (.running top outer live)
      obtain rfl := Sum.inl.inj heq
      exact ⟨_, lost', hside'⟩

/-- In the course of parsing the line, a subshell list is overwritten. -/
def Overwrites (line : List UInt8) : Prop :=
  ∃ c, Passes Config.step (.inl (Config.init line)) c ∧ c.overwrites

/-- What is left of a line when its list has been freed. -/
theorem line_memory {line : List UInt8} {l : List Command} (hreturns : Returns line l) (h : Heap) :
    ∃ list ps h₁ h₂ lost,
      Ends HeapConfig.step (.inl (HeapConfig.init line h)) (.returned list ps h₁) ∧
      cmdFree list h₁ = some h₂ ∧ h₂.live = lost + h.live ∧ (lost = 0 ↔ ¬ Overwrites line) := by
  obtain ⟨ps, hends⟩ := (returns_iff_ends line l).mp hreturns
  have hres : ∀ lost r y, SideBySide h.live lost (.inr r) y → ∃ r', y = .inr r' := by
    intro lost r y hside
    cases hside with
    | returned => exact ⟨_, rfl⟩
    | aborted => exact ⟨_, rfl⟩
  obtain ⟨r, lost, hends', hside, hclean⟩ := @Ends.carry _ _ _ _ _ _ _ (SideBySide h.live)
    (fun lost => lost = 0) Config.overwrites hres (fun _ _ _ hside => step_side hside) _ _ _
    (init_side line h) _ hends
  cases hside with
  | @returned list ps h₁ fits live =>
    obtain ⟨h₂, hfree, hlive⟩ := fits.cmdFree live
    refine ⟨list, ps, h₁, h₂, lost, hends', hfree, hlive, ?_⟩
    rw [hclean]
    simp [Overwrites]

/-- Over any lines on which the parser returns, nothing is freed twice, and all memory is given back
exactly when no line makes the parser overwrite a subshell. -/
theorem session_memory (lines : List (List UInt8)) (hlines : ∀ line ∈ lines, ∃ l, Returns line l)
    (h : Heap) : ∃ h', Session lines h h' ∧ h.live ≤ h'.live ∧
      (h'.live = h.live ↔ ∀ line ∈ lines, ¬ Overwrites line) := by
  induction lines generalizing h with
  | nil => exact ⟨h, .done h, le_refl _, by simp⟩
  | cons line lines ih =>
    obtain ⟨⟨l, hreturns⟩, hlines⟩ := List.forall_mem_cons.mp hlines
    obtain ⟨list, ps, h₁, h₂, lost, hends, hfree, hlive, hlost⟩ := line_memory hreturns h
    obtain ⟨h', hsession, hle, hiff⟩ := ih hlines h₂
    have hle₂ : h.live ≤ h₂.live := hlive ▸ Multiset.le_add_left _ _
    refine ⟨h', .line hends hfree hsession, hle₂.trans hle, ?_⟩
    rw [List.forall_mem_cons, ← hlost, ← hiff]
    constructor
    · intro heq
      have heq₂ : h₂.live = h.live := le_antisymm (heq ▸ hle) hle₂
      refine ⟨?_, heq.trans heq₂.symm⟩
      rw [hlive] at heq₂
      exact add_eq_right.mp heq₂
    · rintro ⟨hzero, heq⟩
      rw [heq, hlive, hzero, zero_add]

/-- The line `(a)(b)` leaves memory behind. -/
theorem session_memory_two_subshells : ∃ h', Session [[40, 97, 41, 40, 98, 41]] Heap.empty h' ∧
    h'.live ≠ 0 := by
  obtain ⟨h', hsession, -, hiff⟩ := session_memory [[40, 97, 41, 40, 98, 41]]
    (by
      intro line hmem
      obtain rfl := List.mem_singleton.mp hmem
      exact ⟨_, 20, _, rfl⟩) Heap.empty
  refine ⟨h', hsession, fun hzero => ?_⟩
  refine hiff.mp hzero _ (List.mem_singleton_self _) ⟨_, .next (.next (.next (.here _))), ?_, rfl⟩
  exact List.cons_ne_nil _ _

end SystemsProjects.Cmdparse
