import SystemsProjects.Cmdparse.Machine
import SystemsProjects.Lib.Heap

/-!
# The memory of the parser

The machine of the parser once more, with the blocks that `cmd_alloc` and `strdup` take from the
heap and `cmd_free` gives back. A command knows the block it is in, and so does each of its strings.
-/

namespace SystemsProjects.Cmdparse

open SystemsProjects.Lib

/-- A string made by `strdup`. -/
structure Str where
  block : Nat
  text : List UInt8

/-- `command_t` in its block. -/
structure Node where
  block : Nat
  argv : List Str
  redirectFilename : Fin 3 → Option Str
  subshell : List Node
  controlop : ControlOp

def strdup (text : List UInt8) (h : Heap) : Str × Heap := (⟨h.malloc.1, text⟩, h.malloc.2)

/-- `cmd_alloc` (`cmdparse.c:179-191`). -/
def nodeAlloc (h : Heap) : Node × Heap :=
  (⟨h.malloc.1, [], fun _ => none, [], .cmdEnd⟩, h.malloc.2)

/-- Neither words nor a subshell. -/
def Node.isEmpty (node : Node) : Bool := node.argv.isEmpty && node.subshell.isEmpty

/-! ## `cmd_free` -/

/-- The blocks of the file names, which are freed first. -/
def fileBlocks (files : Fin 3 → Option Str) : List Nat :=
  [0, 1, 2].flatMap fun fd => (files fd).toList.map Str.block

mutual

/-- `cmd_free` on a command, `next` freeing the ones behind it (`cmdparse.c:206-232`). The fields
are read: the block has to be in use. -/
def Node.free (next : Heap → Option Heap) : Node → Heap → Option Heap
  | ⟨block, argv, files, subshell, _⟩, h => do
    guard (block ∈ h.live)
    let h ← h.freeAll (fileBlocks files)
    let h ← cmdFree subshell h
    let h ← next h
    let h ← h.freeAll ((argv.take maxtokens).map Str.block)
    h.free block

/-- `cmd_free`. -/
def cmdFree : List Node → Heap → Option Heap
  | [], h => some h
  | node :: next, h => Node.free (fun h => cmdFree next h) node h

end

/-! ## The parser -/

/-- How the `switch` in the loop of `cmd_parse` ends. -/
inductive NodeStep where
  | again (node : Node) (ps : ParseState) (h : Heap)
  | paren (ps : ParseState) (h : Heap)
  | finish (node : Option Node) (ps : ParseState) (h : Heap)
  | abort
  /-- a block was freed that is not in use. -/
  | fault

/-- `cmd_free (cmd)` and `NULL`: the code at `error:`, and for an empty command. -/
def nodeError (node : Node) (ps : ParseState) (h : Heap) : NodeStep :=
  match cmdFree [node] h with
  | some h => .finish none ps h
  | none => .fault

/-- The block at `done:` (`cmdparse.c:349-359`). -/
def nodeDone (node : Node) (ps : ParseState) (h : Heap) : NodeStep :=
  if node.isEmpty then nodeError node ps h else .finish (some node) ps h

/-- The case of the three redirections (`cmdparse.c:278-293`). -/
def nodeRedirect (fd : Fin 3) (node : Node) (ps : ParseState) (h : Heap) : NodeStep :=
  if node.isEmpty then nodeError node ps h
  else
    match parseGettoken ps with
    | (token, ps) =>
      if token.type ≠ .tokNormal then nodeError node ps h
      else
        match h.freeAll ((node.redirectFilename fd).toList.map Str.block) with
        | none => .fault
        | some h =>
          let (name, h) := strdup token.buffer h
          .again { node with
            redirectFilename := Function.update node.redirectFilename fd (some name) } ps h

/-- One iteration of the loop of `cmd_parse` (`cmdparse.c:257-347`). -/
def nodeToken (node : Node) (ps : ParseState) (h : Heap) : NodeStep :=
  match parseGettoken ps with
  | (token, ps) =>
    match token.type with
    | .tokNormal =>
      if node.argv.length ≥ maxtokens ∨ ¬ node.subshell.isEmpty then nodeError node ps h
      else
        let (word, h) := strdup token.buffer h
        .again { node with argv := node.argv ++ [word] } ps h
    | .tokLessThan => nodeRedirect 0 node ps h
    | .tokGreaterThan => nodeRedirect 1 node ps h
    | .tok2GreaterThan => nodeRedirect 2 node ps h
    | .tokOpenParen => .paren ps h
    | _ =>
      match parseUngettoken ps with
      | none => .abort
      | some ps => nodeDone node ps h

/-- How an iteration of the loop of `cmd_line_parse` ends. -/
inductive ListStep where
  | again (node : Node) (ps : ParseState)
  | finish (list : List Node) (ps : ParseState) (h : Heap)
  | abort
  | fault

/-- The code at `error:` of `cmd_line_parse` (`cmdparse.c:454-456`). -/
def listError (head : List Node) (ps : ParseState) (h : Heap) : ListStep :=
  match cmdFree head h with
  | some h => .finish [] ps h
  | none => .fault

/-- The code at `ender:` and `done:` (`cmdparse.c:432-437, 444-452`); the command is in the list. -/
def listEnder (inParens : Bool) (head : List Node) (node : Node) (type : TokenType)
    (ps : ParseState) (h : Heap) : ListStep :=
  if (type == .tokEnd) = inParens then listError (head ++ [node]) ps h
  else if node.controlop ≠ .cmdEnd ∧ node.controlop ≠ .cmdSemicolon ∧
      node.controlop ≠ .cmdBackground then listError (head ++ [node]) ps h
  else .finish (head ++ [node]) ps h

/-- The cases `;` and `&` (`cmdparse.c:423-430`). -/
def listSeparator (inParens : Bool) (head : List Node) (node : Node) (ps : ParseState) (h : Heap) :
    ListStep :=
  match parseGettoken ps with
  | (token, ps) =>
    if token.type = .tokEnd ∨ token.type = .tokCloseParen then
      listEnder inParens head node token.type ps h
    else
      match parseUngettoken ps with
      | none => .abort
      | some ps => .again node ps

/-- What `cmd_line_parse` does after `cmd_parse` returned a command (`cmdparse.c:403-441`). -/
def listConnect (inParens : Bool) (head : List Node) (node : Node) (ps : ParseState) (h : Heap) :
    ListStep :=
  match parseGettoken ps with
  | (token, ps) =>
    match token.type with
    | .tokDoubleamp => .again { node with controlop := .cmdAnd } ps
    | .tokDoublepipe => .again { node with controlop := .cmdOr } ps
    | .tokPipe => .again { node with controlop := .cmdPipe } ps
    | .tokSemicolon => listSeparator inParens head { node with controlop := .cmdSemicolon } ps h
    | .tokAmpersand => listSeparator inParens head { node with controlop := .cmdBackground } ps h
    | .tokEnd => listEnder inParens head node .tokEnd ps h
    | .tokCloseParen => listEnder inParens head node .tokCloseParen ps h
    | _ => listError (head ++ [node]) ps h

/-! ## The machine -/

/-- A call of `cmd_line_parse` in progress. -/
structure NodeFrame where
  head : List Node
  node : Node

structure HeapConfig where
  top : NodeFrame
  outer : List NodeFrame
  ps : ParseState
  heap : Heap

inductive HeapResult where
  | returned (list : List Node) (ps : ParseState) (h : Heap)
  | aborted
  | faulted

/-- `cmd_parse` is called, behind the commands of `head`. -/
def heapEnter (head : List Node) (outer : List NodeFrame) (ps : ParseState) (h : Heap) :
    HeapConfig :=
  ⟨⟨head, (nodeAlloc h).1⟩, outer, ps, (nodeAlloc h).2⟩

/-- The innermost call returns: `cmd->subshell = subcommand`. -/
def heapResume (outer : List NodeFrame) (list : List Node) (ps : ParseState) (h : Heap) :
    HeapConfig ⊕ HeapResult :=
  match outer with
  | [] => .inr (.returned list ps h)
  | f :: outer => .inl ⟨{ f with node := { f.node with subshell := list } }, outer, ps, h⟩

def heapAfterConnect (head : List Node) (outer : List NodeFrame) (h : Heap) :
    ListStep → HeapConfig ⊕ HeapResult
  | .again node ps => .inl (heapEnter (head ++ [node]) outer ps h)
  | .finish list ps h => heapResume outer list ps h
  | .abort => .inr .aborted
  | .fault => .inr .faulted

def heapAfterCmd (head : List Node) (outer : List NodeFrame) (r : Option Node) (ps : ParseState)
    (h : Heap) : HeapConfig ⊕ HeapResult :=
  match r with
  | none => heapAfterConnect head outer h (listError head ps h)
  | some node => heapAfterConnect head outer h (listConnect (!outer.isEmpty) head node ps h)

def heapAfterToken (top : NodeFrame) (outer : List NodeFrame) : NodeStep → HeapConfig ⊕ HeapResult
  | .again node ps h => .inl ⟨{ top with node := node }, outer, ps, h⟩
  | .paren ps h => .inl (heapEnter [] (top :: outer) ps h)
  | .finish r ps h => heapAfterCmd top.head outer r ps h
  | .abort => .inr .aborted
  | .fault => .inr .faulted

/-- One step. -/
def HeapConfig.step (c : HeapConfig) : HeapConfig ⊕ HeapResult :=
  heapAfterToken c.top c.outer (nodeToken c.top.node c.ps c.heap)

/-- `cmd_line_parse (parsestate, 0)` is called on a line. -/
def HeapConfig.init (line : List UInt8) (h : Heap) : HeapConfig :=
  heapEnter [] [] (parseInit line) h

/-- The loop of `main` (`main.c:39-84`) over lines, as far as it takes memory and gives it back: a
list that was returned is freed. -/
inductive Session : List (List UInt8) → Heap → Heap → Prop
  | done (h : Heap) : Session [] h h
  | line {line : List UInt8} {lines : List (List UInt8)} {list : List Node} {ps : ParseState}
      {h h₁ h₂ h₃ : Heap} :
      Ends HeapConfig.step (.inl (HeapConfig.init line h)) (.returned list ps h₁) →
      cmdFree list h₁ = some h₂ → Session lines h₂ h₃ → Session (line :: lines) h h₃

end SystemsProjects.Cmdparse
