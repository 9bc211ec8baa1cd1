import SystemsProjects.Lib.Radix
import Mathlib.Data.List.Infix
import Mathlib.Data.List.Nodup

/-!
# The nodes of a radix tree, children first

`postorder` lists the nodes below a node, each one behind all nodes below it.
-/

namespace SystemsProjects.Lib.Radix

variable {N I E : Type} (child : E → Option N)

/-- The nodes below node `p` of level `l`, children first, with the entries in the order of `is`. -/
def postorder (is : List I) (s : N → I → E) : Nat → N → List N
  | 0, p => [p]
  | l + 1, p => (is.flatMap fun i => (child (s p i)).elim [] (postorder is s l)) ++ [p]

/-- Node `q` is met at level `m` in the tree of node `p` of level `l`. -/
inductive InTree (s : N → I → E) : Nat → N → Nat → N → Prop
  | self (l : Nat) (p : N) : InTree s l p l p
  | step {l m : Nat} {p q c : N} {i : I} : child (s p i) = some c → InTree s l c m q →
      InTree s (l + 1) p m q

variable {child} {is : List I} {s : N → I → E} {l m : Nat} {p q q' c : N} {i : I}

theorem mem_nodes_of_mem_postorder (h : q ∈ postorder child is s l p) : q ∈ nodes child s l p := by
  induction l generalizing p with
  | zero => exact List.mem_singleton.mp h
  | succ l ih =>
    rcases List.mem_append.mp h with h | h
    · obtain ⟨i, -, h⟩ := List.mem_flatMap.mp h
      cases hc : child (s p i) with
      | none =>
        rw [hc] at h
        exact nomatch h
      | some c =>
        rw [hc] at h
        exact nodes_of_child hc (ih h)
    · rw [List.mem_singleton.mp h]
      exact self_mem_nodes

theorem mem_postorder (his : ∀ i, i ∈ is) :
    q ∈ postorder child is s l p ↔ q ∈ nodes child s l p := by
  refine ⟨mem_nodes_of_mem_postorder, fun h => ?_⟩
  induction l generalizing p with
  | zero => exact List.mem_singleton.mpr h
  | succ l ih =>
    apply List.mem_append.mpr
    rcases Set.mem_insert_iff.mp h with h | ⟨i, c, hc, h⟩
    · exact Or.inr (List.mem_singleton.mpr h)
    · refine Or.inl (List.mem_flatMap.mpr ⟨i, his i, ?_⟩)
      rw [hc]
      exact ih h

theorem nodup_postorder (his : is.Nodup) (hd : Distinct child s l p) :
    (postorder child is s l p).Nodup := by
  induction l generalizing p with
  | zero => exact List.nodup_singleton p
  | succ l ih =>
    have hsub : ∀ {i q}, q ∈ (child (s p i)).elim [] (postorder child is s l) →
        ∃ c, child (s p i) = some c ∧ q ∈ nodes child s l c := by
      intro i q hq
      cases hc : child (s p i) with
      | none =>
        rw [hc] at hq
        exact nomatch hq
      | some c =>
        rw [hc] at hq
        exact ⟨c, rfl, mem_nodes_of_mem_postorder hq⟩
    apply List.Nodup.append
    · rw [List.nodup_flatMap]
      refine ⟨?_, his.imp ?_⟩
      · intro i _
        cases hc : child (s p i) with
        | none => exact List.nodup_nil
        | some c => exact ih (hd.1 i c hc).1
      · intro i j hij q hi hj
        obtain ⟨c, hc, hqc⟩ := hsub hi
        obtain ⟨d, hcd, hqd⟩ := hsub hj
        exact Set.disjoint_left.mp (hd.2 i j c d hc hcd hij) hqc hqd
    · exact List.nodup_singleton p
    · intro q hq hp
      obtain ⟨i, -, hq⟩ := List.mem_flatMap.mp hq
      obtain ⟨c, hc, hqc⟩ := hsub hq
      rw [List.mem_singleton.mp hp] at hqc
      exact (hd.1 i c hc).2 hqc

/-- The nodes below a node of the tree come in one piece, with the node at the end. -/
theorem InTree.postorder_infix (his : ∀ i, i ∈ is) (h : InTree child s l p m q) :
    postorder child is s m q <:+: postorder child is s l p := by
  induction h with
  | self l p => exact List.infix_refl _
  | @step l m p q c i hc _ ih =>
    have hpiece : (child (s p i)).elim [] (postorder child is s l) = postorder child is s l c := by
      rw [hc]
      rfl
    have hentry : [i] <:+: is := (List.singleton_infix_iff _ _).mpr (his i)
    have hpieces := hentry.flatMap fun i => (child (s p i)).elim [] (postorder child is s l)
    rw [List.flatMap_singleton, hpiece] at hpieces
    exact (ih.trans hpieces).trans (List.prefix_append _ [p]).isInfix

theorem postorder_concat (child : E → Option N) (is : List I) (s : N → I → E) (l : Nat) (p : N) :
    ∃ init, postorder child is s l p = init ++ [p] := by
  cases l with
  | zero => exact ⟨[], rfl⟩
  | succ l => exact ⟨_, rfl⟩

/-- In the list every node of the tree stands behind all nodes below it. -/
theorem InTree.mem_before (his : ∀ i, i ∈ is) (h : InTree child s l p m q)
    (hnodup : (postorder child is s l p).Nodup) {ds ds' : List N}
    (hsplit : postorder child is s l p = ds ++ q :: ds') (hq' : q' ∈ nodes child s m q)
    (hne : q' ≠ q) : q' ∈ ds := by
  obtain ⟨a, b, hab⟩ := h.postorder_infix his
  obtain ⟨init, hinit⟩ := postorder_concat child is s m q
  have hmem : q' ∈ init := by
    rw [← mem_postorder his, hinit] at hq'
    rcases List.mem_append.mp hq' with hq' | hq'
    · exact hq'
    · exact absurd (List.mem_singleton.mp hq') hne
  have hpieces : a ++ init ++ q :: b = ds ++ q :: ds' := by
    rw [← hsplit, ← hab, hinit]
    simp only [List.append_assoc, List.singleton_append]
  -- the node stands in the list once
  rw [hsplit, ← hpieces] at hnodup
  have honce := List.nodup_middle.mp hnodup
  rw [List.nodup_cons, List.mem_append, not_or] at honce
  obtain ⟨hds, -, -⟩ := (List.append_cons_inj_of_notMem honce.1.1 honce.1.2).mp hpieces
  rw [← hds]
  exact List.mem_append_right a hmem

end SystemsProjects.Lib.Radix
