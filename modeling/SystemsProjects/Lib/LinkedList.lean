import Mathlib.Data.List.Nodup

/-!
# Singly linked lists in a memory

`link a` is what a memory holds at address `a`: the pointer to the next node and the rest of the
node, or `none` where nothing is allocated. `Chain link p l`: following the pointers from `p`
visits exactly the nodes `l`, all of them allocated, and ends at the null pointer.
-/

namespace SystemsProjects.Lib

variable {α β : Type} {link link' : α → Option (Option α × β)} {p : Option α}
  {l l' : List (α × β)}

/-- The list of nodes reached from a pointer. -/
inductive Chain (link : α → Option (Option α × β)) : Option α → List (α × β) → Prop
  | nil : Chain link none []
  | cons {a : α} {b : β} {p : Option α} {l : List (α × β)} : link a = some (p, b) →
      Chain link p l → Chain link (some a) ((a, b) :: l)

namespace Chain

theorem eq_nil (h : Chain link none l) : l = [] := by
  cases h
  rfl

/-- A pointer leads to one list only. -/
theorem unique (h : Chain link p l) (h' : Chain link p l') : l = l' := by
  induction h generalizing l' with
  | nil => exact h'.eq_nil.symm
  | cons hlink _ ih =>
    cases h' with
    | cons hlink' hrest =>
      obtain ⟨rfl, rfl⟩ := Prod.mk.inj (Option.some.inj (hlink.symm.trans hlink'))
      rw [ih hrest]

/-- The nodes from some point on are reached from the address there. -/
theorem drop {n : α × β} {l₁ l₂ : List (α × β)} (h : Chain link p (l₁ ++ n :: l₂)) :
    Chain link (some n.1) (n :: l₂) := by
  induction l₁ generalizing p with
  | nil =>
    cases h with
    | cons hlink hrest => exact Chain.cons hlink hrest
  | cons m l₁ ih =>
    cases h with
    | cons _ hrest => exact ih hrest

/-- No address is visited twice: two visits would lead to two different lists. -/
theorem nodup (h : Chain link p l) : (l.map Prod.fst).Nodup := by
  induction h with
  | nil => exact List.nodup_nil
  | @cons a b p l hlink hrest ih =>
    refine List.nodup_cons.mpr ⟨?_, ih⟩
    intro hmem
    obtain ⟨n, hn, rfl⟩ := List.mem_map.mp hmem
    obtain ⟨l₁, l₂, rfl⟩ := List.append_of_mem hn
    have hlen := congrArg List.length (unique (Chain.cons hlink hrest) hrest.drop)
    simp only [List.length_cons, List.length_append] at hlen
    omega

/-- Every node of the list is allocated. -/
theorem isSome (h : Chain link p l) {a : α} (ha : a ∈ l.map Prod.fst) : (link a).isSome := by
  induction h with
  | nil => exact absurd ha List.not_mem_nil
  | cons hlink _ ih =>
    rcases List.mem_cons.mp ha with rfl | ha
    · exact Option.isSome_of_eq_some hlink
    · exact ih ha

/-- Only the nodes of the list matter. -/
theorem congr (h : Chain link p l) (heq : ∀ a ∈ l.map Prod.fst, link' a = link a) :
    Chain link' p l := by
  induction h with
  | nil => exact Chain.nil
  | cons hlink _ ih =>
    refine Chain.cons ((heq _ List.mem_cons_self).trans hlink) (ih ?_)
    intro a ha
    exact heq a (List.mem_cons_of_mem _ ha)

/-- The last node holds the null pointer. -/
theorem last {a : α} {b : β} (h : Chain link p (l ++ [(a, b)])) : link a = some (none, b) := by
  cases h.drop with
  | cons hlink hrest =>
    cases hrest
    exact hlink

/-- The last node is none of the nodes before it. -/
theorem last_notMem {a : α} {b : β} (h : Chain link p (l ++ [(a, b)])) : a ∉ l.map Prod.fst := by
  have hd := h.nodup
  rw [List.map_append] at hd
  intro ha
  exact List.disjoint_of_nodup_append hd ha List.mem_cons_self

/-- Linking a new node behind the last one appends it. -/
theorem snoc {a c : α} {b d : β} (h : Chain link p (l ++ [(a, b)]))
    (hlast : link' a = some (some c, b)) (hnew : link' c = some (none, d))
    (heq : ∀ x ∈ l.map Prod.fst, link' x = link x) :
    Chain link' p (l ++ [(a, b)] ++ [(c, d)]) := by
  induction l generalizing p with
  | nil =>
    cases h
    exact Chain.cons hlast (Chain.cons hnew Chain.nil)
  | cons n l ih =>
    cases h with
    | cons hlink hrest =>
      refine Chain.cons ((heq _ List.mem_cons_self).trans hlink) (ih hrest ?_)
      intro x hx
      exact heq x (List.mem_cons_of_mem _ hx)

end Chain

end SystemsProjects.Lib
