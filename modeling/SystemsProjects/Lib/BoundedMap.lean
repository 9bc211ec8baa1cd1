import Mathlib.Data.Finmap
import Mathlib.Data.Fintype.Card

/-!
# Maps of bounded size, and tables of slots that represent them

`BoundedMap K V cap` is a finite map with at most `cap` keys. A table of slots
`ι → Option (K × V)` represents a finite map when no key occupies two slots; the lemmas say which
updates of a slot are insertions and removals of the map.
-/

namespace SystemsProjects.Lib

variable {K V ι : Type} [DecidableEq K] {cap : Nat}

theorem keys_insert (m : Finmap fun _ : K => V) (k : K) (v : V) :
    (m.insert k v).keys = Insert.insert k m.keys := by
  ext x
  simp only [Finmap.mem_keys, Finmap.mem_insert, Finset.mem_insert]

/-- A finite map that never has more than `cap` keys. -/
structure BoundedMap (K V : Type) (cap : Nat) where
  entries : Finmap fun _ : K => V
  card_le : entries.keys.card ≤ cap

namespace BoundedMap

def empty : BoundedMap K V cap := ⟨∅, Nat.zero_le cap⟩

/-- There is room for `k`: it is present, or the map is not full. -/
def Fits (m : BoundedMap K V cap) (k : K) : Prop := k ∈ m.entries ∨ m.entries.keys.card < cap

instance (m : BoundedMap K V cap) (k : K) : Decidable (m.Fits k) :=
  inferInstanceAs (Decidable (_ ∨ _))

theorem Fits.card_insert_le {m : BoundedMap K V cap} {k : K} (h : m.Fits k) (v : V) :
    (m.entries.insert k v).keys.card ≤ cap := by
  rw [keys_insert]
  rcases h with hin | hroom
  · rw [Finset.insert_eq_of_mem (Finmap.mem_keys.mpr hin)]
    exact m.card_le
  · exact (Finset.card_insert_le _ _).trans hroom

/-- The value of `k`. -/
def get (m : BoundedMap K V cap) (k : K) : Option V := m.entries.lookup k

/-- Overwrite, or insert while there is room; `none` when the map is full. -/
def put (m : BoundedMap K V cap) (k : K) (v : V) : Option (BoundedMap K V cap) :=
  if h : m.Fits k then some ⟨m.entries.insert k v, h.card_insert_le v⟩ else none

/-- Remove `k`, if it is there. -/
def remove (m : BoundedMap K V cap) (k : K) : BoundedMap K V cap :=
  ⟨m.entries.erase k, by
    rw [Finmap.keys_erase]
    exact (Finset.card_erase_le).trans m.card_le⟩

end BoundedMap

/-- The table `T` represents the map `m`: each key has one slot at most, and the map has the
pairs that are in the slots. -/
structure Represents (T : ι → Option (K × V)) (m : Finmap fun _ : K => V) : Prop where
  inj : ∀ {i j k v w}, T i = some (k, v) → T j = some (k, w) → i = j
  lookup : ∀ k v, m.lookup k = some v ↔ ∃ i, T i = some (k, v)

namespace Represents

variable {T : ι → Option (K × V)} {m : Finmap fun _ : K => V} {i : ι} {k : K} {v : V}

theorem of_empty (h : ∀ i, T i = none) : Represents T ∅ where
  inj := by
    intro i j k v w hi
    rw [h i] at hi
    exact absurd hi (by simp)
  lookup := by
    intro k v
    simp [h]

theorem mem_iff (h : Represents T m) (k : K) : k ∈ m ↔ ∃ i v, T i = some (k, v) := by
  rw [← Finmap.lookup_isSome, Option.isSome_iff_exists]
  constructor
  · rintro ⟨v, hv⟩
    obtain ⟨i, hi⟩ := (h.lookup k v).mp hv
    exact ⟨i, v, hi⟩
  · rintro ⟨i, v, hi⟩
    exact ⟨v, (h.lookup k v).mpr ⟨i, hi⟩⟩

variable [DecidableEq ι]

omit [DecidableEq K] in
/-- A slot that held `k` at most, and still does, matters to no other key. -/
theorem other_key_iff {x : Option (K × V)} {k' : K} {v' : V}
    (hi : ∀ j w, T i = some (j, w) → j = k) (hx : ∀ j w, x = some (j, w) → j = k)
    (hkk : k' ≠ k) :
    (∃ j, T j = some (k', v')) ↔ ∃ j, Function.update T i x j = some (k', v') := by
  refine exists_congr fun j => ?_
  by_cases hji : j = i
  · subst hji
    rw [Function.update_self]
    constructor
    · intro hj
      exact absurd (hi k' v' hj) hkk
    · intro hj
      exact absurd (hx k' v' hj) hkk
  · rw [Function.update_of_ne hji]

/-- Storing a pair in a slot inserts it, provided that the slot is empty or holds the key already
and that no other slot holds the key. -/
theorem update (h : Represents T m) (hi : ∀ k' w, T i = some (k', w) → k' = k)
    (hk : ∀ j w, T j = some (k, w) → j = i) :
    Represents (Function.update T i (some (k, v))) (m.insert k v) where
  inj := by
    intro j₁ j₂ k' v' w' h₁ h₂
    by_cases e₁ : j₁ = i <;> by_cases e₂ : j₂ = i
    · rw [e₁, e₂]
    · subst e₁
      rw [Function.update_self] at h₁
      rw [Function.update_of_ne e₂] at h₂
      obtain ⟨rfl, rfl⟩ := Prod.mk.inj (Option.some.inj h₁)
      exact absurd (hk j₂ w' h₂) e₂
    · subst e₂
      rw [Function.update_self] at h₂
      rw [Function.update_of_ne e₁] at h₁
      obtain ⟨rfl, rfl⟩ := Prod.mk.inj (Option.some.inj h₂)
      exact absurd (hk j₁ v' h₁) e₁
    · rw [Function.update_of_ne e₁] at h₁
      rw [Function.update_of_ne e₂] at h₂
      exact h.inj h₁ h₂
  lookup := by
    intro k' v'
    by_cases hkk : k' = k
    · subst hkk
      rw [Finmap.lookup_insert]
      constructor
      · intro hv
        obtain rfl := Option.some.inj hv
        exact ⟨i, Function.update_self i _ T⟩
      · rintro ⟨j, hj⟩
        by_cases hji : j = i
        · subst hji
          rw [Function.update_self] at hj
          rw [(Prod.mk.inj (Option.some.inj hj)).2]
        · rw [Function.update_of_ne hji] at hj
          exact absurd (hk j v' hj) hji
    · rw [Finmap.lookup_insert_of_ne m hkk, h.lookup]
      apply other_key_iff hi _ hkk
      intro j w hx
      exact (Prod.mk.inj (Option.some.inj hx)).1.symm

/-- Emptying the slot of a key removes the key. -/
theorem clear (h : Represents T m) (hi : T i = some (k, v)) :
    Represents (Function.update T i none) (m.erase k) where
  inj := by
    intro j₁ j₂ k' v' w' h₁ h₂
    have e₁ : j₁ ≠ i := by rintro rfl; simp at h₁
    have e₂ : j₂ ≠ i := by rintro rfl; simp at h₂
    rw [Function.update_of_ne e₁] at h₁
    rw [Function.update_of_ne e₂] at h₂
    exact h.inj h₁ h₂
  lookup := by
    intro k' v'
    by_cases hkk : k' = k
    · subst hkk
      rw [Finmap.lookup_erase]
      constructor
      · intro hv
        exact absurd hv (by simp)
      · rintro ⟨j, hj⟩
        have hji : j ≠ i := by rintro rfl; simp at hj
        rw [Function.update_of_ne hji] at hj
        exact absurd (h.inj hj hi) hji
    · rw [Finmap.lookup_erase_ne hkk, h.lookup]
      apply other_key_iff _ _ hkk
      · intro j w hj
        rw [hi] at hj
        exact (Prod.mk.inj (Option.some.inj hj)).1.symm
      · intro j w hx
        exact absurd hx (by simp)

omit [DecidableEq ι] in
/-- A map has as many keys as its table has slots in use. -/
theorem card_keys [Fintype ι] (h : Represents T m) :
    m.keys.card = (Finset.univ.filter fun i => T i ≠ none).card := by
  symm
  refine Finset.card_bij (fun i hi => ((T i).get (Option.isSome_iff_ne_none.mpr
    (Finset.mem_filter.mp hi).2)).1) ?_ ?_ ?_
  · intro i hi
    obtain ⟨⟨k, v⟩, hkv⟩ := Option.ne_none_iff_exists'.mp (Finset.mem_filter.mp hi).2
    simp only [hkv, Option.get_some, Finmap.mem_keys]
    exact (h.mem_iff k).mpr ⟨i, v, hkv⟩
  · intro i hi j hj hij
    obtain ⟨⟨k, v⟩, hkv⟩ := Option.ne_none_iff_exists'.mp (Finset.mem_filter.mp hi).2
    obtain ⟨⟨k', w⟩, hkw⟩ := Option.ne_none_iff_exists'.mp (Finset.mem_filter.mp hj).2
    simp only [hkv, hkw, Option.get_some] at hij
    subst hij
    exact h.inj hkv hkw
  · intro k hk
    obtain ⟨i, v, hi⟩ := (h.mem_iff k).mp (Finmap.mem_keys.mp hk)
    refine ⟨i, Finset.mem_filter.mpr ⟨Finset.mem_univ i, by simp [hi]⟩, ?_⟩
    simp only [hi, Option.get_some]

end Represents

end SystemsProjects.Lib
