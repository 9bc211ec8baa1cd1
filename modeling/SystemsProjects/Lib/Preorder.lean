import SystemsProjects.Lib.NameSpace
import Mathlib.Data.List.Nodup

/-!
# Walks of a name space

`preorder visit` goes through a tree from a node: the value of the node, then what comes of each of
its children. It fails where `visit` does and below a given depth. Over a name space that is not
deeper, it comes once to the end of each path.
-/

namespace SystemsProjects.Lib

variable {β N V : Type}

theorem mapM_eq_some_map {α α' : Type} {f : α → Option α'} {g : α → α'} {l : List α}
    (h : ∀ x ∈ l, f x = some (g x)) : l.mapM f = some (l.map g) := by
  induction l with
  | nil => rfl
  | cons x l ih =>
    rw [List.mapM_cons, h x List.mem_cons_self, ih fun y hy => h y (List.mem_cons_of_mem x hy)]
    rfl

/-- The values of a node and of the nodes below it. -/
def preorder (visit : β → Option (V × List β)) : Nat → β → Option (List V)
  | 0, _ => none
  | limit + 1, b => do
    let (v, kids) ← visit b
    let vss ← kids.mapM (preorder visit limit)
    some (v :: vss.flatten)

/-- A visit to `b` has the value `v`, and its children are the nodes that `b` knows by a name, each
once. -/
structure Visits (visit : β → Option (V × List β)) (step : β → N → Option β) (b : β) (v : V)
    (kids : List (N × β)) : Prop where
  visit : visit b = some (v, kids.map Prod.snd)
  once : (kids.map Prod.fst).Nodup
  step : ∀ c m, (c, m) ∈ kids ↔ step b c = some m

/-- The paths from a node and where they end, given those from its children. -/
def belowOf (b : β) (kids : List (N × β)) (below : N × β → List (List N × β)) :
    List (List N × β) :=
  ([], b) :: kids.flatMap fun k => (below k).map fun p => (k.1 :: p.1, p.2)

section Below
variable {step : β → N → Option β} {b : β} {kids : List (N × β)}
  {below : N × β → List (List N × β)}

theorem mem_belowOf (hkids : ∀ c m, (c, m) ∈ kids ↔ step b c = some m)
    (hbelow : ∀ k ∈ kids, ∀ cs m, (cs, m) ∈ below k ↔ follow step k.2 cs = some m)
    (cs : List N) (m : β) : (cs, m) ∈ belowOf b kids below ↔ follow step b cs = some m := by
  unfold belowOf
  rw [List.mem_cons, List.mem_flatMap]
  cases cs with
  | nil => simp [follow, eq_comm]
  | cons c cs =>
    rw [follow, Option.bind_eq_some_iff]
    constructor
    · rintro (h | ⟨k, hk, h⟩)
      · cases h
      · obtain ⟨p, hp, h⟩ := List.mem_map.mp h
        simp only [Prod.mk.injEq, List.cons.injEq] at h
        obtain ⟨⟨rfl, rfl⟩, rfl⟩ := h
        exact ⟨k.2, (hkids k.1 k.2).mp hk, (hbelow k hk p.1 p.2).mp hp⟩
    · rintro ⟨k, hk, h⟩
      have hmem := (hkids c k).mpr hk
      exact .inr ⟨(c, k), hmem, List.mem_map.mpr ⟨(cs, m), (hbelow (c, k) hmem cs m).mpr h, rfl⟩⟩

theorem belowOf_nodup (hnodup : (kids.map Prod.fst).Nodup)
    (hbelow : ∀ k ∈ kids, ((below k).map Prod.fst).Nodup) :
    ((belowOf b kids below).map Prod.fst).Nodup := by
  unfold belowOf
  rw [List.map_cons, List.nodup_cons]
  constructor
  · simp
  · rw [List.map_flatMap, List.nodup_flatMap]
    constructor
    · intro k hk
      rw [List.map_map]
      have h := (hbelow k hk).map (List.cons_injective (a := k.1))
      rwa [List.map_map] at h
    · rw [List.Nodup, List.pairwise_map] at hnodup
      refine hnodup.imp fun {k k'} hne => ?_
      simp only [Function.onFun, List.disjoint_left, List.mem_map]
      rintro _ ⟨_, ⟨p, -, rfl⟩, rfl⟩ ⟨_, ⟨p', -, rfl⟩, h⟩
      exact hne (List.cons.inj h).1.symm

end Below

/-- Where every node can be visited and no path is as long as the limit, a walk comes to the end of
each path once. -/
theorem preorder_eq {visit : β → Option (V × List β)} {step : β → N → Option β} {val : β → V}
    {P : β → Prop} (hvisit : ∀ b, P b → ∃ kids, Visits visit step b (val b) kids)
    (hclosed : ∀ b c m, P b → step b c = some m → P m) : ∀ (limit : Nat) (b : β), P b →
      (∀ cs m, follow step b cs = some m → cs.length < limit) →
      ∃ ps : List (List N × β), preorder visit limit b = some (ps.map fun p => val p.2) ∧
        (ps.map Prod.fst).Nodup ∧ ∀ cs m, (cs, m) ∈ ps ↔ follow step b cs = some m := by
  intro limit
  induction limit with
  | zero => exact fun b _ hdepth => absurd (hdepth [] b rfl) (Nat.not_lt_zero _)
  | succ limit ih =>
    intro b hb hdepth
    obtain ⟨kids, hkids⟩ := hvisit b hb
    have hbelow : ∀ k : N × β, ∃ ps : List (List N × β), k ∈ kids →
        preorder visit limit k.2 = some (ps.map fun p => val p.2) ∧
          (ps.map Prod.fst).Nodup ∧ ∀ cs m, (cs, m) ∈ ps ↔ follow step k.2 cs = some m := by
      intro k
      by_cases hk : k ∈ kids
      · have hstep := (hkids.step k.1 k.2).mp hk
        obtain ⟨ps, hps⟩ := ih k.2 (hclosed b k.1 k.2 hb hstep) fun cs m h => by
          have := hdepth (k.1 :: cs) m (by rw [follow, hstep]; exact h)
          rw [List.length_cons] at this
          omega
        exact ⟨ps, fun _ => hps⟩
      · exact ⟨[], fun h => absurd h hk⟩
    choose below hbelow using hbelow
    refine ⟨belowOf b kids below, ?_, belowOf_nodup hkids.once fun k hk => (hbelow k hk).2.1,
      mem_belowOf hkids.step fun k hk => (hbelow k hk).2.2⟩
    have hmap : (kids.map Prod.snd).mapM (preorder visit limit) =
        some (kids.map fun k => (below k).map fun p => val p.2) := by
      rw [List.mapM_map]
      exact mapM_eq_some_map fun k hk => (hbelow k hk).1
    have hflat : (belowOf b kids below).map (fun p => val p.2) =
        val b :: (kids.map fun k => (below k).map fun p => val p.2).flatten := by
      rw [belowOf, List.map_cons, List.map_flatMap, ← List.flatMap_def]
      simp only [List.map_map, Function.comp_def]
    rw [hflat]
    simp only [preorder, hkids.visit, Option.bind_eq_bind, Option.bind_some, hmap]

end SystemsProjects.Lib
