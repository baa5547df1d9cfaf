import Mathlib

/-!
# Ordered maps with computable contents

A map is its list of bindings in strictly ascending key order, so two maps with
the same lookups are the same value, iteration is key order, and every operation
runs by structural recursion. Each operation has one lookup equation; proofs
about tables go through those equations key by key.
-/

namespace Tidehunter.Library

universe u v w x

/-- A finite map kept as its bindings in strictly ascending key order. -/
structure SortedMap (K : Type u) (V : Type v) [LinearOrder K] where
  entries : List (K × V)
  sorted : entries.Pairwise (fun first second => first.1 < second.1)

namespace SortedMap

variable {K : Type u} {V : Type v} {W : Type w} {X : Type x} [LinearOrder K]

instance [DecidableEq V] : DecidableEq (SortedMap K V) := fun first second =>
  decidable_of_iff (first.entries = second.entries) (by
    cases first; cases second; simp)

instance [Repr K] [Repr V] : Repr (SortedMap K V) := ⟨fun map => reprPrec map.entries⟩

def empty : SortedMap K V := ⟨[], List.Pairwise.nil⟩

instance : Inhabited (SortedMap K V) := ⟨empty⟩

/-- The value bound to a key. -/
def lookup (map : SortedMap K V) (key : K) : Option V :=
  map.entries.lookup key

def contains (map : SortedMap K V) (key : K) : Bool :=
  (map.lookup key).isSome

def keys (map : SortedMap K V) : List K :=
  map.entries.map Prod.fst

def size (map : SortedMap K V) : Nat :=
  map.entries.length

def isEmpty (map : SortedMap K V) : Bool :=
  map.entries.isEmpty

@[simp]
theorem lookup_empty (key : K) : (empty : SortedMap K V).lookup key = none := rfl

/-! ## Lookup in ascending bindings -/

theorem lookup_cons_eq (first : K × V) (rest : List (K × V)) (key : K) :
    (first :: rest).lookup key = if key = first.1 then some first.2 else rest.lookup key := by
  rw [List.lookup_cons]
  by_cases same : key = first.1
  · simp [same]
  · have different : (key == first.1) = false := by simpa using same
    simp [different, same]

theorem lookup_eq_none_of_lt {bindings : List (K × V)} {key : K}
    (below : ∀ binding ∈ bindings, key < binding.1) : bindings.lookup key = none := by
  rw [List.lookup_eq_none_iff]
  intro binding member
  simpa using ne_of_lt (below binding member)

theorem mem_entries_of_lookup {map : SortedMap K V} {key : K} {value : V}
    (found : map.lookup key = some value) : (key, value) ∈ map.entries := by
  obtain ⟨entries, sorted⟩ := map
  simp only [lookup] at found
  induction entries with
  | nil => simp at found
  | cons first rest ih =>
      rw [lookup_cons_eq] at found
      split_ifs at found with same
      · cases found
        exact same ▸ List.mem_cons_self
      · exact List.mem_cons_of_mem _ (ih (List.Pairwise.of_cons sorted) found)

theorem lookup_of_mem_entries {map : SortedMap K V} {key : K} {value : V}
    (member : (key, value) ∈ map.entries) : map.lookup key = some value := by
  obtain ⟨entries, sorted⟩ := map
  simp only [lookup]
  induction entries with
  | nil => simp at member
  | cons first rest ih =>
      rw [lookup_cons_eq]
      rcases List.mem_cons.mp member with head | tail
      · simp [← head]
      · have less : first.1 < key := (List.pairwise_cons.mp sorted).1 (key, value) tail
        rw [if_neg (ne_of_gt less)]
        exact ih (List.Pairwise.of_cons sorted) tail

theorem lookup_eq_some_iff {map : SortedMap K V} {key : K} {value : V} :
    map.lookup key = some value ↔ (key, value) ∈ map.entries :=
  ⟨mem_entries_of_lookup, lookup_of_mem_entries⟩

theorem mem_keys_iff {map : SortedMap K V} {key : K} :
    key ∈ map.keys ↔ ∃ value, map.lookup key = some value := by
  simp only [keys, List.mem_map, lookup_eq_some_iff]
  constructor
  · rintro ⟨⟨name, value⟩, member, rfl⟩
    exact ⟨value, member⟩
  · rintro ⟨value, member⟩
    exact ⟨(key, value), member, rfl⟩

theorem contains_iff {map : SortedMap K V} {key : K} :
    map.contains key = true ↔ ∃ value, map.lookup key = some value := by
  simp only [contains, Option.isSome_iff_exists]

theorem isEmpty_iff {map : SortedMap K V} :
    map.isEmpty = true ↔ ∀ key, map.lookup key = none := by
  constructor
  · intro emptyMap key
    have noEntries : map.entries = [] := by simpa [isEmpty] using emptyMap
    simp [lookup, noEntries]
  · intro absent
    cases shape : map.entries with
    | nil => simp [isEmpty, shape]
    | cons first rest =>
        have found : map.lookup first.1 = some first.2 :=
          lookup_of_mem_entries (by simp [shape])
        rw [absent] at found
        cases found

/-- A map is determined by its lookups. -/
theorem ext_lookup {first second : SortedMap K V}
    (agree : ∀ key, first.lookup key = second.lookup key) : first = second := by
  have nodup : ∀ map : SortedMap K V, map.entries.Nodup := by
    intro map
    exact map.sorted.imp fun less same => by
      rw [same] at less
      exact lt_irrefl _ less
  have permutation : first.entries.Perm second.entries := by
    rw [List.perm_ext_iff_of_nodup (nodup first) (nodup second)]
    rintro ⟨key, value⟩
    rw [← lookup_eq_some_iff, ← lookup_eq_some_iff, agree]
  have same : first.entries = second.entries :=
    permutation.eq_of_pairwise
      (fun a b _ _ less more => absurd less (not_lt.mpr more.le)) first.sorted second.sorted
  cases first
  cases second
  simpa using same

/-! ## Building maps -/

/-- Insertion into ascending bindings, replacing an equal key. -/
def insertEntry (key : K) (value : V) : List (K × V) → List (K × V)
  | [] => [(key, value)]
  | first :: rest =>
      if key < first.1 then (key, value) :: first :: rest
      else if key = first.1 then (key, value) :: rest
      else first :: insertEntry key value rest

theorem mem_insertEntry {key : K} {value : V} {bindings : List (K × V)} {binding : K × V}
    (member : binding ∈ insertEntry key value bindings) :
    binding = (key, value) ∨ binding ∈ bindings := by
  induction bindings with
  | nil => simpa [insertEntry] using member
  | cons first rest ih =>
      rw [insertEntry] at member
      split_ifs at member with less same
      · simpa using member
      · rcases List.mem_cons.mp member with head | tail
        · exact Or.inl head
        · exact Or.inr (List.mem_cons_of_mem _ tail)
      · rcases List.mem_cons.mp member with head | tail
        · exact Or.inr (head ▸ List.mem_cons_self)
        · exact (ih tail).imp id (List.mem_cons_of_mem _)

theorem insertEntry_sorted (key : K) (value : V) {bindings : List (K × V)}
    (sorted : bindings.Pairwise (fun first second => first.1 < second.1)) :
    (insertEntry key value bindings).Pairwise (fun first second => first.1 < second.1) := by
  induction bindings with
  | nil => simp [insertEntry]
  | cons first rest ih =>
      obtain ⟨above, tailSorted⟩ := List.pairwise_cons.mp sorted
      rw [insertEntry]
      split_ifs with less same
      · refine List.pairwise_cons.mpr ⟨?_, sorted⟩
        intro binding member
        rcases List.mem_cons.mp member with rfl | tail
        · exact less
        · exact less.trans (above binding tail)
      · exact List.pairwise_cons.mpr ⟨fun binding member => same ▸ above binding member, tailSorted⟩
      · refine List.pairwise_cons.mpr ⟨?_, ih tailSorted⟩
        intro binding member
        rcases mem_insertEntry member with rfl | tail
        · exact lt_of_le_of_ne (not_lt.mp less) (Ne.symm same)
        · exact above binding tail

theorem lookup_insertEntry (key other : K) (value : V) (bindings : List (K × V)) :
    (insertEntry key value bindings).lookup other =
      if other = key then some value else bindings.lookup other := by
  induction bindings with
  | nil => simp [insertEntry, lookup_cons_eq]
  | cons first rest ih =>
      rw [insertEntry]
      by_cases less : key < first.1
      · rw [if_pos less, lookup_cons_eq]
      · rw [if_neg less]
        by_cases equal : key = first.1
        · rw [if_pos equal, lookup_cons_eq, lookup_cons_eq]
          by_cases same : other = key
          · simp [same]
          · simp [same, equal ▸ same]
        · rw [if_neg equal, lookup_cons_eq, lookup_cons_eq, ih]
          by_cases same : other = key
          · simp [same, equal]
          · simp [same]

/-- Bind a key, replacing its previous value. -/
def insert (map : SortedMap K V) (key : K) (value : V) : SortedMap K V :=
  ⟨insertEntry key value map.entries, insertEntry_sorted key value map.sorted⟩

theorem lookup_insert (map : SortedMap K V) (key other : K) (value : V) :
    (map.insert key value).lookup other = if other = key then some value else map.lookup other :=
  lookup_insertEntry key other value map.entries

@[simp]
theorem lookup_insert_self (map : SortedMap K V) (key : K) (value : V) :
    (map.insert key value).lookup key = some value := by
  simp [lookup_insert]

theorem lookup_insert_of_ne (map : SortedMap K V) {key other : K} (value : V)
    (different : other ≠ key) : (map.insert key value).lookup other = map.lookup other := by
  simp [lookup_insert, different]

/-- Binding a key replaces the weight of its old value by that of the new one. -/
theorem sum_insert (map : SortedMap K V) (key : K) (value : V) (weight : K × V → Nat) :
    ((map.insert key value).entries.map weight).sum +
        ((map.lookup key).map fun old => weight (key, old)).getD 0 =
      (map.entries.map weight).sum + weight (key, value) := by
  obtain ⟨bindings, sorted⟩ := map
  change ((insertEntry key value bindings).map weight).sum +
    ((bindings.lookup key).map fun old => weight (key, old)).getD 0 =
      (bindings.map weight).sum + weight (key, value)
  induction bindings with
  | nil => simp [insertEntry]
  | cons first rest ih =>
      obtain ⟨above, tailSorted⟩ := List.pairwise_cons.mp sorted
      rw [insertEntry, lookup_cons_eq]
      split_ifs with less same same
      · exact absurd less (same ▸ lt_irrefl _)
      · have absent : rest.lookup key = none :=
          lookup_eq_none_of_lt fun binding member => less.trans (above binding member)
        simp only [absent, List.map_cons, List.sum_cons, Option.map_none, Option.getD_none]
        omega
      · subst same
        simp only [List.map_cons, List.sum_cons, Option.map_some, Option.getD_some, Prod.mk.eta]
        omega
      · have inner := ih tailSorted
        simp only [List.map_cons, List.sum_cons]
        omega

/-- A key behind all others goes to the end. -/
theorem entries_insert_last (map : SortedMap K V) {key : K} (value : V)
    (last : ∀ binding ∈ map.entries, binding.1 < key) :
    (map.insert key value).entries = map.entries ++ [(key, value)] := by
  obtain ⟨bindings, sorted⟩ := map
  change ∀ binding ∈ bindings, binding.1 < key at last
  change insertEntry key value bindings = bindings ++ [(key, value)]
  clear sorted
  induction bindings with
  | nil => rfl
  | cons first rest ih =>
      have less : first.1 < key := last first List.mem_cons_self
      rw [insertEntry, if_neg less.not_gt, if_neg less.ne', List.cons_append,
        ih fun binding member => last binding (List.mem_cons_of_mem _ member)]

/-- Transform or drop each binding. -/
def filterMap (map : SortedMap K V) (change : K → V → Option W) : SortedMap K W where
  entries := map.entries.filterMap fun binding => (change binding.1 binding.2).map (binding.1, ·)
  sorted := by
    refine List.Pairwise.filterMap _ ?_ map.sorted
    intro first second less result isResult other isOther
    simp only [Option.map_eq_some_iff] at isResult isOther
    obtain ⟨_, _, rfl⟩ := isResult
    obtain ⟨_, _, rfl⟩ := isOther
    exact less

@[simp]
theorem lookup_filterMap (map : SortedMap K V) (change : K → V → Option W) (key : K) :
    (map.filterMap change).lookup key = (map.lookup key).bind (change key) := by
  have equivalent : ∀ value,
      (map.filterMap change).lookup key = some value ↔
        (map.lookup key).bind (change key) = some value := by
    intro value
    rw [lookup_eq_some_iff]
    simp only [filterMap, List.mem_filterMap, Option.map_eq_some_iff, Option.bind_eq_some_iff,
      lookup_eq_some_iff, Prod.mk.injEq]
    constructor
    · rintro ⟨⟨name, old⟩, member, new, changed, rfl, rfl⟩
      exact ⟨old, member, changed⟩
    · rintro ⟨old, member, changed⟩
      exact ⟨(key, old), member, value, changed, rfl, rfl⟩
  exact Option.ext equivalent

/-- Keep the bindings a predicate accepts. -/
def filter (map : SortedMap K V) (keep : K → V → Bool) : SortedMap K V :=
  map.filterMap fun key value => if keep key value then some value else none

@[simp]
theorem lookup_filter (map : SortedMap K V) (keep : K → V → Bool) (key : K) :
    (map.filter keep).lookup key = (map.lookup key).filter (keep key) := by
  rw [filter, lookup_filterMap]
  cases map.lookup key <;> rfl

/-- A map that agrees with another below a bound continues it behind the bound. -/
theorem entries_eq_append {map longer : SortedMap K V} {bound : K}
    (below : ∀ binding ∈ map.entries, binding.1 < bound)
    (agree : ∀ key, key < bound → longer.lookup key = map.lookup key) :
    longer.entries = map.entries ++ longer.entries.filter fun binding => bound ≤ binding.1 := by
  have sorted : (map.entries ++ longer.entries.filter fun binding => decide (bound ≤ binding.1)).Pairwise
      fun first second => first.1 < second.1 := by
    refine List.pairwise_append.mpr ⟨map.sorted, longer.sorted.filter _, ?_⟩
    intro first inFirst second inSecond
    exact lt_of_lt_of_le (below first inFirst) (of_decide_eq_true (List.mem_filter.mp inSecond).2)
  have same : longer = ⟨_, sorted⟩ := by
    refine ext_lookup fun key => Option.ext fun value => ?_
    rw [lookup_eq_some_iff, lookup_eq_some_iff, List.mem_append, List.mem_filter, decide_eq_true_eq]
    by_cases low : key < bound
    · rw [← lookup_eq_some_iff, ← lookup_eq_some_iff, agree key low]
      simp [not_le.mpr low]
    · have absent : (key, value) ∉ map.entries := fun inside => low (below _ inside)
      simp [absent, not_lt.mp low]
  exact congrArg entries same

/-- Remove a key. -/
def erase (map : SortedMap K V) (key : K) : SortedMap K V :=
  map.filter fun name _ => name ≠ key

theorem lookup_erase (map : SortedMap K V) (key other : K) :
    (map.erase key).lookup other = if other = key then none else map.lookup other := by
  rw [erase, lookup_filter]
  by_cases same : other = key <;> cases map.lookup other <;> simp [same]

/-- Insert bindings one after another, later ones winning. -/
def insertAll (map : SortedMap K V) (bindings : List (K × V)) : SortedMap K V :=
  bindings.foldl (fun current binding => current.insert binding.1 binding.2) map

theorem lookup_insertAll (map extra : SortedMap K V) (key : K) :
    (map.insertAll extra.entries).lookup key = (extra.lookup key).or (map.lookup key) := by
  obtain ⟨bindings, sorted⟩ := extra
  simp only [insertAll, lookup]
  induction bindings generalizing map with
  | nil => rfl
  | cons first rest ih =>
      obtain ⟨above, tailSorted⟩ := List.pairwise_cons.mp sorted
      have inserted := lookup_insertEntry first.1 key first.2 map.entries
      rw [List.foldl_cons, ih _ tailSorted, lookup_cons_eq]
      change (rest.lookup key).or ((insertEntry first.1 first.2 map.entries).lookup key) = _
      rw [inserted]
      by_cases same : key = first.1
      · have absent : rest.lookup key = none := lookup_eq_none_of_lt (same ▸ above)
        simp [same ▸ absent, same]
      · simp [same]

/-- Combine two maps key by key. -/
def merge (combine : K → Option V → Option W → Option X) (left : SortedMap K V)
    (right : SortedMap K W) : SortedMap K X :=
  (left.filterMap fun key value => combine key (some value) (right.lookup key)).insertAll
    (right.filterMap fun key value =>
      if left.contains key then none else combine key none (some value)).entries

theorem lookup_merge (combine : K → Option V → Option W → Option X) (left : SortedMap K V)
    (right : SortedMap K W) (key : K) (absent : combine key none none = none) :
    (left.merge combine right).lookup key = combine key (left.lookup key) (right.lookup key) := by
  rw [merge, lookup_insertAll, lookup_filterMap, lookup_filterMap]
  cases inLeft : left.lookup key <;> cases inRight : right.lookup key <;>
    simp [contains, inLeft, absent]

end SortedMap

end Tidehunter.Library
