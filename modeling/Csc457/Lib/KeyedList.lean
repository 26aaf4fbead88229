import Mathlib.Data.List.Sort

/-!
# Lists with increasing keys

The entries a partial function has at the indices of a list, each with its key.  Where the
keys increase, two such lists are equal as soon as they have the same members.
-/

set_option autoImplicit false

namespace Csc457.Lib.KeyedList

variable {ι κ α : Type} [Preorder κ]

def Increasing (l : List (κ × α)) : Prop := l.Pairwise fun a b => a.1 < b.1

omit [Preorder κ] in
/-- The entries of `f`, with their keys. -/
def entries (key : ι → κ) (f : ι → Option α) (l : List ι) : List (κ × α) :=
  l.filterMap fun i => (f i).map (Prod.mk (key i))

theorem Increasing.eq_iff {l l' : List (κ × α)} (increasing : Increasing l)
    (increasing' : Increasing l') : l = l' ↔ ∀ x, x ∈ l ↔ x ∈ l' := by
  let before : κ × α → κ × α → Prop := fun a b => a.1 < b.1
  have irrefl : Std.Irrefl before := ⟨fun a => lt_irrefl a.1⟩
  have antisymm : Std.Antisymm before := ⟨fun _ _ low high => absurd high (lt_asymm low)⟩
  constructor
  · rintro rfl x
    rfl
  · intro same
    exact List.Pairwise.eq_of_mem_iff (r := before) increasing increasing' same

omit [Preorder κ] in
theorem mem_entries {key : ι → κ} {f : ι → Option α} {l : List ι} {k : κ} {a : α} :
    (k, a) ∈ entries key f l ↔ ∃ i ∈ l, key i = k ∧ f i = some a := by
  simp only [entries, List.mem_filterMap, Option.map_eq_some_iff, Prod.mk.injEq]
  constructor
  · rintro ⟨i, member, _, isSome, rfl, rfl⟩
    exact ⟨i, member, rfl, isSome⟩
  · rintro ⟨i, member, rfl, isSome⟩
    exact ⟨i, member, a, isSome, rfl, rfl⟩

theorem increasing_entries {key : ι → κ} {f : ι → Option α} {l : List ι}
    (sorted : l.Pairwise fun i j => key i < key j) : Increasing (entries key f l) := by
  unfold Increasing entries
  rw [List.pairwise_filterMap]
  refine sorted.imp ?_
  intro i j less a isA b isB
  obtain ⟨_, _, rfl⟩ := Option.map_eq_some_iff.mp isA
  obtain ⟨_, _, rfl⟩ := Option.map_eq_some_iff.mp isB
  exact less

theorem increasing_flatMap {f : ι → List (κ × α)} {l : List ι}
    (inside : ∀ i ∈ l, Increasing (f i))
    (across : l.Pairwise fun i j => ∀ a ∈ f i, ∀ b ∈ f j, a.1 < b.1) :
    Increasing (l.flatMap f) := by
  unfold Increasing
  rw [List.pairwise_flatMap]
  exact ⟨inside, across⟩

end Csc457.Lib.KeyedList
