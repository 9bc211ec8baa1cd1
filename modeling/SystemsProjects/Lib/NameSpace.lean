import Mathlib.Data.List.Basic
import Mathlib.Data.List.Infix
import Mathlib.Logic.Function.Basic

/-!
# Hierarchical name spaces

`step n c` is the node that node `n` knows under the name `c`. `follow` walks along a path of names,
and `spaceOf` is what the paths from a root show: for each path the object at its end. When one path
leads to each node (`OnePath`), a new edge to a node without edges is a new path, the loss of such
an edge is the loss of one path, and an edge that gets another name moves a subtree.
-/

namespace SystemsProjects.Lib

variable {β N O : Type} {step step' : β → N → Option β} {obj obj' : β → O} {root n m b : β}
  {c c' : N} {cs ds : List N}

/-- The node at the end of a path. -/
def follow (step : β → N → Option β) : β → List N → Option β
  | n, [] => some n
  | n, c :: cs => (step n c).bind fun m => follow step m cs

theorem follow_append (n : β) (cs ds : List N) :
    follow step n (cs ++ ds) = (follow step n cs).bind fun m => follow step m ds := by
  induction cs generalizing n with
  | nil => rfl
  | cons c cs ih =>
    simp only [List.cons_append, follow, Option.bind_assoc]
    congr 1
    funext m
    exact ih m

theorem follow_concat (n : β) (cs : List N) (c : N) :
    follow step n (cs ++ [c]) = (follow step n cs).bind fun m => step m c := by
  rw [follow_append]
  congr 1
  funext m
  exact Option.bind_fun_some (step m c)

theorem follow_concat_eq_some :
    follow step n (cs ++ [c]) = some m ↔ ∃ k, follow step n cs = some k ∧ step k c = some m := by
  rw [follow_concat, Option.bind_eq_some_iff]

/-- One path at most leads to each node. -/
def OnePath (step : β → N → Option β) (root : β) : Prop :=
  ∀ cs ds n, follow step root cs = some n → follow step root ds = some n → cs = ds

/-- The edges that may differ are `c` of `n` and `c'` of `n`. -/
def SameEdges (step step' : β → N → Option β) (root n : β) (c c' : N) : Prop :=
  ∀ cs k d, follow step root cs = some k → (k = n → d ≠ c ∧ d ≠ c') → step' k d = step k d

/-! ## A new edge, an edge less, an edge renamed -/

section Edges
variable (hone : OnePath step root) (hat : follow step root cs = some n)
include hone hat

theorem follow_attach (hold : step n c = none) (hnew : step' n c = some b)
    (hleaf : ∀ d, step' b d = none) (hsame : SameEdges step step' root n c c) :
    follow step' root ds = some m ↔ follow step root ds = some m ∨ (ds = cs ++ [c] ∧ m = b) := by
  induction ds using List.reverseRecOn generalizing m with
  | nil =>
    constructor
    · exact .inl
    · rintro (h | ⟨h, -⟩)
      · exact h
      · exact absurd h (List.concat_ne_nil c cs).symm
  | append_singleton ds d ih =>
    rw [follow_concat_eq_some, follow_concat_eq_some]
    constructor
    · rintro ⟨k, hk, hstep⟩
      rcases ih.mp hk with hk | ⟨-, rfl⟩
      · by_cases hedge : k = n ∧ d = c
        · obtain ⟨rfl, rfl⟩ := hedge
          obtain rfl := hone ds cs k hk hat
          exact .inr ⟨rfl, Option.some.inj (hstep.symm.trans hnew)⟩
        · refine .inl ⟨k, hk, ?_⟩
          rwa [hsame ds k d hk fun hkn => ⟨fun hd => hedge ⟨hkn, hd⟩, fun hd => hedge ⟨hkn, hd⟩⟩]
            at hstep
      · exact absurd hstep (by simp [hleaf])
    · rintro (⟨k, hk, hstep⟩ | ⟨hds, rfl⟩)
      · refine ⟨k, ih.mpr (.inl hk), ?_⟩
        rwa [hsame ds k d hk]
        rintro rfl
        have hdc : d ≠ c := by
          rintro rfl
          exact absurd (hold.symm.trans hstep) (by simp)
        exact ⟨hdc, hdc⟩
      · obtain ⟨rfl, hd⟩ := List.append_inj' hds rfl
        obtain rfl := List.singleton_inj.mp hd
        exact ⟨n, ih.mpr (.inl hat), hnew⟩

theorem follow_detach (hold : step n c = some b) (hnew : step' n c = none)
    (hleaf : ∀ d, step b d = none) (hsame : SameEdges step step' root n c c) :
    follow step' root ds = some m ↔ follow step root ds = some m ∧ ds ≠ cs ++ [c] := by
  induction ds using List.reverseRecOn generalizing m with
  | nil => exact ⟨fun h => ⟨h, (List.concat_ne_nil c cs).symm⟩, And.left⟩
  | append_singleton ds d ih =>
    rw [follow_concat_eq_some, follow_concat_eq_some]
    constructor
    · rintro ⟨k, hk, hstep⟩
      obtain ⟨hk, -⟩ := ih.mp hk
      have hedge : k = n → d ≠ c := by
        rintro rfl rfl
        exact absurd (hnew.symm.trans hstep) (by simp)
      rw [hsame ds k d hk fun hkn => ⟨hedge hkn, hedge hkn⟩] at hstep
      refine ⟨⟨k, hk, hstep⟩, fun hds => ?_⟩
      obtain ⟨rfl, hd⟩ := List.append_inj' hds rfl
      exact hedge (Option.some.inj (hk.symm.trans hat)) (List.singleton_inj.mp hd)
    · rintro ⟨⟨k, hk, hstep⟩, hne⟩
      refine ⟨k, ih.mpr ⟨hk, ?_⟩, ?_⟩
      · -- nothing is behind the edge that goes
        rintro rfl
        have hb := follow_concat_eq_some.mpr ⟨n, hat, hold⟩
        obtain rfl := Option.some.inj (hk.symm.trans hb)
        exact absurd hstep (by simp [hleaf])
      · have hdc : k = n → d ≠ c := by
          rintro rfl rfl
          exact hne (by rw [hone ds cs k hk hat])
        rwa [hsame ds k d hk fun hkn => ⟨hdc hkn, hdc hkn⟩]

theorem OnePath.detach (hold : step n c = some b) (hnew : step' n c = none)
    (hleaf : ∀ d, step b d = none) (hsame : SameEdges step step' root n c c) :
    OnePath step' root := by
  intro ds es k hds hes
  exact hone ds es k ((follow_detach hone hat hold hnew hleaf hsame).mp hds).1
    ((follow_detach hone hat hold hnew hleaf hsame).mp hes).1

end Edges

/-! ## What the paths show -/

/-- What is behind each path. -/
abbrev Space (N O : Type) : Type := List N → Option O

/-- The objects behind the paths from `root`. -/
def spaceOf (step : β → N → Option β) (obj : β → O) (root : β) : Space N O := fun cs =>
  (follow step root cs).map obj

/-- Everything at and below `p` is moved to `q`. -/
def Space.move [DecidableEq N] (s : Space N O) (p q : List N) : Space N O := fun cs =>
  if q <+: cs then s (p ++ cs.drop q.length) else if p <+: cs then none else s cs

theorem Space.move_target [DecidableEq N] (s : Space N O) (p q : List N) : s.move p q q = s p := by
  simp only [Space.move, List.prefix_rfl, if_true, List.drop_length, List.append_nil]

theorem follow_congr (h : ∀ cs k d, follow step root cs = some k → step' k d = step k d)
    (cs : List N) : follow step' root cs = follow step root cs := by
  induction cs using List.reverseRecOn with
  | nil => rfl
  | append_singleton cs d ih =>
    rw [follow_concat, follow_concat, ih]
    cases hk : follow step root cs with
    | none => rfl
    | some k => exact h cs k d hk

theorem spaceOf_congr (hfollow : ∀ cs, follow step' root cs = follow step root cs)
    (hobj : ∀ cs k, follow step root cs = some k → obj' k = obj k) :
    spaceOf step' obj' root = spaceOf step obj root := by
  funext ds
  unfold spaceOf
  rw [hfollow]
  cases hds : follow step root ds with
  | none => rfl
  | some k => exact congrArg some (hobj ds k hds)

/-- Two descriptions of one space: the nodes of the first are named by `φ` in the second. -/
theorem spaceOf_hom {γ : Type} {step₁ : γ → N → Option γ} {obj₁ : γ → O} {P : γ → Prop}
    (φ : γ → β) (hstep : ∀ g c, P g → step (φ g) c = (step₁ g c).map φ)
    (hkeep : ∀ g c g', P g → step₁ g c = some g' → P g') (hobj : ∀ g, P g → obj (φ g) = obj₁ g)
    {g : γ} (hg : P g) : spaceOf step obj (φ g) = spaceOf step₁ obj₁ g := by
  have hfollow : ∀ cs, follow step (φ g) cs = (follow step₁ g cs).map φ ∧
      ∀ g', follow step₁ g cs = some g' → P g' := by
    intro cs
    induction cs using List.reverseRecOn with
    | nil =>
      refine ⟨rfl, ?_⟩
      rintro g' h
      obtain rfl := Option.some.inj h
      exact hg
    | append_singleton cs c ih =>
      rw [follow_concat, follow_concat, ih.1]
      cases hk : follow step₁ g cs with
      | none => simp
      | some k =>
        have hP := ih.2 k hk
        exact ⟨hstep k c hP, fun g' h => hkeep k c g' hP h⟩
  funext cs
  unfold spaceOf
  rw [(hfollow cs).1]
  cases hk : follow step₁ g cs with
  | none => rfl
  | some k => exact congrArg some (hobj k ((hfollow cs).2 k hk))

section Shows
variable [DecidableEq N] (hone : OnePath step root) (hat : follow step root cs = some n)
include hone hat

/-- The object of one node changes. -/
theorem spaceOf_touch (hfollow : ∀ cs, follow step' root cs = follow step root cs)
    (hobj : ∀ ds k, follow step root ds = some k → k ≠ n → obj' k = obj k) :
    spaceOf step' obj' root = Function.update (spaceOf step obj root) cs (some (obj' n)) := by
  funext ds
  by_cases hds : ds = cs
  · subst hds
    rw [Function.update_self, spaceOf, hfollow, hat]
    rfl
  · rw [Function.update_of_ne hds]
    unfold spaceOf
    rw [hfollow]
    cases hk : follow step root ds with
    | none => rfl
    | some k =>
      refine congrArg some (hobj ds k hk ?_)
      rintro rfl
      exact hds (hone ds cs k hk hat)

theorem spaceOf_attach (hold : step n c = none) (hnew : step' n c = some b)
    (hleaf : ∀ d, step' b d = none) (hsame : SameEdges step step' root n c c)
    (hobj : ∀ ds k, follow step root ds = some k → obj' k = obj k) :
    spaceOf step' obj' root =
      Function.update (spaceOf step obj root) (cs ++ [c]) (some (obj' b)) := by
  funext ds
  by_cases hds : ds = cs ++ [c]
  · subst hds
    rw [Function.update_self, spaceOf,
      (follow_attach hone hat hold hnew hleaf hsame).mpr (.inr ⟨rfl, rfl⟩)]
    rfl
  · rw [Function.update_of_ne hds]
    have hfollow : follow step' root ds = follow step root ds := by
      ext k
      rw [follow_attach hone hat hold hnew hleaf hsame]
      exact or_iff_left fun h => hds h.1
    unfold spaceOf
    rw [hfollow]
    cases hk : follow step root ds with
    | none => rfl
    | some k => exact congrArg some (hobj ds k hk)

theorem spaceOf_detach (hold : step n c = some b) (hnew : step' n c = none)
    (hleaf : ∀ d, step b d = none) (hsame : SameEdges step step' root n c c) :
    spaceOf step' obj root = Function.update (spaceOf step obj root) (cs ++ [c]) none := by
  funext ds
  by_cases hds : ds = cs ++ [c]
  · subst hds
    rw [Function.update_self]
    cases hk : follow step' root (cs ++ [c]) with
    | none => rw [spaceOf, hk]; rfl
    | some k =>
      exact absurd rfl ((follow_detach hone hat hold hnew hleaf hsame).mp hk).2
  · rw [Function.update_of_ne hds]
    have hfollow : follow step' root ds = follow step root ds := by
      ext k
      rw [follow_detach hone hat hold hnew hleaf hsame]
      exact and_iff_left hds
    rw [spaceOf, spaceOf, hfollow]

/-- The edge `c` of a node is called `c'` from now on. -/
theorem spaceOf_move (hold : step n c = some b)
    (hnew : step' n c' = some b) (hgone : step' n c = none)
    (hsame : SameEdges step step' root n c c') :
    spaceOf step' obj root = (spaceOf step obj root).move (cs ++ [c]) (cs ++ [c']) := by
  have hmoved : ∀ ds, follow step' root ds =
      if cs ++ [c'] <+: ds then follow step root (cs ++ [c] ++ ds.drop (cs ++ [c']).length)
      else if cs ++ [c] <+: ds then none else follow step root ds := by
    intro ds
    induction ds using List.reverseRecOn with
    | nil =>
      rw [if_neg (by simp), if_neg (by simp)]
      rfl
    | append_singleton ds d ih =>
      rw [follow_concat, ih]
      by_cases hq : cs ++ [c'] <+: ds
      · -- below the new name: no edge of `n` is on the rest of the way
        rw [if_pos hq, if_pos (hq.trans (List.prefix_append ds [d])),
          List.drop_append_of_le_length hq.length_le, ← List.append_assoc, follow_concat]
        cases hk : follow step root (cs ++ [c] ++ ds.drop (cs ++ [c']).length) with
        | none => rfl
        | some k =>
          refine hsame _ k d hk ?_
          rintro rfl
          have hlen := congrArg List.length (hone _ cs k hk hat)
          simp at hlen
      · rw [if_neg hq]
        by_cases hq' : cs ++ [c'] <+: ds ++ [d]
        · -- the new name itself
          rcases List.prefix_concat_iff.mp hq' with heq | h
          · obtain ⟨rfl, hd⟩ := List.append_inj' heq rfl
            obtain rfl := List.singleton_inj.mp hd
            have hp : ¬ cs ++ [c] <+: cs := fun h => by
              have hle := h.length_le
              rw [List.length_append] at hle
              exact Nat.not_succ_le_self _ hle
            rw [if_pos hq', if_neg hp, hat, Option.bind_some, hnew,
              List.drop_eq_nil_of_le (by simp), List.append_nil, follow_concat, hat,
              Option.bind_some, hold]
          · exact absurd h hq
        · rw [if_neg hq']
          by_cases hp : cs ++ [c] <+: ds
          · rw [if_pos hp, if_pos (hp.trans (List.prefix_append ds [d])), Option.bind_none]
          · rw [if_neg hp]
            by_cases hp' : cs ++ [c] <+: ds ++ [d]
            · rcases List.prefix_concat_iff.mp hp' with heq | h
              · obtain ⟨rfl, hd⟩ := List.append_inj' heq rfl
                obtain rfl := List.singleton_inj.mp hd
                rw [if_pos hp', hat, Option.bind_some, hgone]
              · exact absurd h hp
            · rw [if_neg hp', follow_concat]
              cases hk : follow step root ds with
              | none => rfl
              | some k =>
                refine hsame ds k d hk ?_
                rintro rfl
                obtain rfl := hone ds cs k hk hat
                refine ⟨?_, ?_⟩
                · rintro rfl
                  exact hp' List.prefix_rfl
                · rintro rfl
                  exact hq' List.prefix_rfl
  funext ds
  unfold Space.move spaceOf
  rw [hmoved]
  split_ifs <;> rfl

end Shows

end SystemsProjects.Lib
