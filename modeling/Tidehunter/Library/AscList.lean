import Mathlib

/-!
# Nonempty strictly ascending lists

A value of `AscList` is never empty, so its latest element is total. The list is
determined by its members, which lets proofs replace list surgery by membership.
-/

namespace Tidehunter.Library

universe u

/-- A nonempty list in strictly ascending order. -/
structure AscList (α : Type u) [LinearOrder α] where
  toList : List α
  nonempty : toList ≠ []
  ascending : toList.Pairwise (· < ·)

namespace AscList

variable {α : Type u} [LinearOrder α]

instance : DecidableEq (AscList α) := fun first second =>
  decidable_of_iff (first.toList = second.toList) (by
    cases first; cases second; simp)

instance [Repr α] : Repr (AscList α) := ⟨fun positions => reprPrec positions.toList⟩

instance : Membership α (AscList α) := ⟨fun positions member => member ∈ positions.toList⟩

theorem mem_toList {positions : AscList α} {member : α} :
    member ∈ positions.toList ↔ member ∈ positions := Iff.rfl

instance (positions : AscList α) (member : α) : Decidable (member ∈ positions) :=
  inferInstanceAs (Decidable (member ∈ positions.toList))

def singleton (value : α) : AscList α :=
  ⟨[value], by simp, by simp⟩

@[simp]
theorem mem_singleton {value member : α} : member ∈ singleton value ↔ member = value :=
  List.mem_singleton

/-- The greatest element. -/
def latest (positions : AscList α) : α :=
  positions.toList.getLast positions.nonempty

@[simp]
theorem latest_singleton (value : α) : (singleton value).latest = value := rfl

theorem latest_mem (positions : AscList α) : positions.latest ∈ positions :=
  List.getLast_mem positions.nonempty

theorem le_getLast {values : List α} (nonempty : values ≠ []) {member : α}
    (ascending : values.Pairwise (· < ·)) (present : member ∈ values) :
    member ≤ values.getLast nonempty := by
  induction values with
  | nil => exact absurd rfl nonempty
  | cons first rest ih =>
      obtain ⟨above, tailAscending⟩ := List.pairwise_cons.mp ascending
      cases rest with
      | nil => simpa using le_of_eq (List.mem_singleton.mp present)
      | cons second tail =>
          rw [List.getLast_cons_cons]
          rcases List.mem_cons.mp present with rfl | later
          · exact (above _ (List.getLast_mem (List.cons_ne_nil second tail))).le
          · exact ih (List.cons_ne_nil second tail) tailAscending later

theorem le_latest {positions : AscList α} {member : α} (present : member ∈ positions) :
    member ≤ positions.latest :=
  le_getLast positions.nonempty positions.ascending present

theorem latest_eq_iff {positions : AscList α} {value : α} :
    positions.latest = value ↔
      value ∈ positions ∧ ∀ member ∈ positions, member ≤ value := by
  constructor
  · rintro rfl
    exact ⟨positions.latest_mem, fun _ present => le_latest present⟩
  · rintro ⟨present, greatest⟩
    exact le_antisymm (greatest _ positions.latest_mem) (le_latest present)

/-- Ascending lists are determined by their members. -/
theorem eq_of_mem_iff {first second : List α} (inFirst : first.Pairwise (· < ·))
    (inSecond : second.Pairwise (· < ·)) (agree : ∀ member, member ∈ first ↔ member ∈ second) :
    first = second := by
  have permutation : first.Perm second := by
    rw [List.perm_ext_iff_of_nodup (inFirst.imp ne_of_lt) (inSecond.imp ne_of_lt)]
    exact agree
  exact permutation.eq_of_pairwise
    (fun a b _ _ less more => absurd less (not_lt.mpr more.le)) inFirst inSecond

theorem ext_mem {first second : AscList α}
    (agree : ∀ member, member ∈ first ↔ member ∈ second) : first = second := by
  have same := eq_of_mem_iff first.ascending second.ascending agree
  cases first
  cases second
  simpa using same

/-! ## Insertion -/

/-- Ordered insertion with set semantics. -/
def insertOrdered (value : α) : List α → List α
  | [] => [value]
  | first :: rest =>
      if value < first then value :: first :: rest
      else if value = first then first :: rest
      else first :: insertOrdered value rest

theorem mem_insertOrdered {value member : α} {values : List α} :
    member ∈ insertOrdered value values ↔ member = value ∨ member ∈ values := by
  induction values with
  | nil => simp [insertOrdered]
  | cons first rest ih =>
      rw [insertOrdered]
      split_ifs with less same
      · simp
      · subst same
        simp
      · rw [List.mem_cons, ih, List.mem_cons]
        exact or_left_comm

theorem insertOrdered_ascending (value : α) {values : List α}
    (ascending : values.Pairwise (· < ·)) : (insertOrdered value values).Pairwise (· < ·) := by
  induction values with
  | nil => simp [insertOrdered]
  | cons first rest ih =>
      obtain ⟨above, tailAscending⟩ := List.pairwise_cons.mp ascending
      rw [insertOrdered]
      split_ifs with less same
      · refine List.pairwise_cons.mpr ⟨?_, ascending⟩
        intro member present
        rcases List.mem_cons.mp present with rfl | later
        · exact less
        · exact less.trans (above member later)
      · exact ascending
      · refine List.pairwise_cons.mpr ⟨?_, ih tailAscending⟩
        intro member present
        rcases mem_insertOrdered.mp present with rfl | later
        · exact lt_of_le_of_ne (not_lt.mp less) (Ne.symm same)
        · exact above member later

theorem insertOrdered_ne_nil (value : α) (values : List α) : insertOrdered value values ≠ [] :=
  List.ne_nil_of_mem (mem_insertOrdered.mpr (Or.inl rfl))

def insert (positions : AscList α) (value : α) : AscList α :=
  ⟨insertOrdered value positions.toList, insertOrdered_ne_nil value _,
    insertOrdered_ascending value positions.ascending⟩

@[simp]
theorem mem_insert {positions : AscList α} {value member : α} :
    member ∈ positions.insert value ↔ member = value ∨ member ∈ positions :=
  mem_insertOrdered

/-- Replace the latest element by another value, kept in order. -/
def replaceLatest (positions : AscList α) (value : α) : AscList α :=
  ⟨insertOrdered value positions.toList.dropLast, insertOrdered_ne_nil value _,
    insertOrdered_ascending value
      (positions.ascending.sublist (List.dropLast_sublist positions.toList))⟩

theorem mem_replaceLatest_of {positions : AscList α} {value member : α}
    (present : member ∈ positions.replaceLatest value) : member = value ∨ member ∈ positions :=
  (mem_insertOrdered.mp present).imp id fun old => (List.dropLast_sublist _).subset old

theorem mem_replaceLatest_self (positions : AscList α) (value : α) :
    value ∈ positions.replaceLatest value :=
  mem_insertOrdered.mpr (Or.inl rfl)

/-- Replacing the latest element by a value at least as great makes it the latest. -/
theorem latest_replaceLatest {positions : AscList α} {value : α}
    (greater : positions.latest ≤ value) : (positions.replaceLatest value).latest = value := by
  refine latest_eq_iff.mpr ⟨mem_replaceLatest_self positions value, ?_⟩
  intro member present
  rcases mem_replaceLatest_of present with rfl | old
  · exact le_refl _
  · exact (le_latest old).trans greater

/-! ## Selection -/

/-- Keep the elements a predicate accepts, if there are any. -/
def filter (positions : AscList α) (keep : α → Bool) : Option (AscList α) :=
  if found : positions.toList.filter keep ≠ [] then
    some ⟨positions.toList.filter keep, found, positions.ascending.filter _⟩
  else none

theorem mem_of_filter_eq_some {positions kept : AscList α} {keep : α → Bool}
    (result : positions.filter keep = some kept) (member : α) :
    member ∈ kept ↔ member ∈ positions ∧ keep member = true := by
  unfold filter at result
  split at result
  · cases result
    exact List.mem_filter
  · cases result

theorem filter_eq_none_iff {positions : AscList α} {keep : α → Bool} :
    positions.filter keep = none ↔ ∀ member ∈ positions, keep member = false := by
  unfold filter
  split
  · rename_i found
    simp only [reduceCtorEq, false_iff, not_forall]
    obtain ⟨member, present⟩ := List.exists_mem_of_ne_nil _ found
    obtain ⟨inside, kept⟩ := List.mem_filter.mp present
    exact ⟨member, inside, by simp [kept]⟩
  · rename_i missing
    simp only [true_iff]
    intro member present
    have nothing : positions.toList.filter keep = [] := by simpa using missing
    simpa using List.filter_eq_nil_iff.mp nothing member present

theorem filter_eq_self {positions : AscList α} {keep : α → Bool}
    (all : ∀ member ∈ positions, keep member = true) :
    positions.filter keep = some positions := by
  cases result : positions.filter keep with
  | none =>
      have rejected := filter_eq_none_iff.mp result _ positions.latest_mem
      rw [all _ positions.latest_mem] at rejected
      cases rejected
  | some kept =>
      congr 1
      refine ext_mem fun member => ?_
      rw [mem_of_filter_eq_some result]
      exact ⟨fun present => present.1, fun present => ⟨present, all member present⟩⟩

/-- The greatest element a predicate accepts. -/
def latestWhere (positions : AscList α) (keep : α → Bool) : Option α :=
  (positions.filter keep).map latest

theorem latestWhere_eq_some_iff {positions : AscList α} {keep : α → Bool} {value : α} :
    positions.latestWhere keep = some value ↔
      value ∈ positions ∧ keep value = true ∧
        ∀ member ∈ positions, keep member = true → member ≤ value := by
  unfold latestWhere
  cases result : positions.filter keep with
  | none =>
      simp only [Option.map_none, reduceCtorEq, false_iff, not_and]
      intro present kept
      rw [filter_eq_none_iff.mp result value present] at kept
      cases kept
  | some kept =>
      simp only [Option.map_some, Option.some.injEq, latest_eq_iff,
        mem_of_filter_eq_some result]
      constructor
      · rintro ⟨⟨present, accepted⟩, greatest⟩
        exact ⟨present, accepted, fun member inside ok => greatest member ⟨inside, ok⟩⟩
      · rintro ⟨present, accepted, greatest⟩
        exact ⟨⟨present, accepted⟩, fun member both => greatest member both.1 both.2⟩

theorem latestWhere_eq_none_iff {positions : AscList α} {keep : α → Bool} :
    positions.latestWhere keep = none ↔ ∀ member ∈ positions, keep member = false := by
  rw [latestWhere, Option.map_eq_none_iff, filter_eq_none_iff]

end AscList

end Tidehunter.Library
