import Tidehunter.Library.SortedMap

/-!
# Laying one sorted list over another

Two lists of bindings in ascending key order are walked together. A key of both takes its
value from the upper list.
-/

namespace Tidehunter.Library

universe u v

variable {K : Type u} {V : Type v} [LinearOrder K]

/-- Walk two ascending lists together; on equal keys the upper binding is taken and the lower
one is skipped. -/
def layOver : List (K × V) → List (K × V) → List (K × V)
  | [], upper => upper
  | low :: lower, [] => low :: lower
  | low :: lower, up :: upper =>
      if low.1 < up.1 then low :: layOver lower (up :: upper)
      else if up.1 < low.1 then up :: layOver (low :: lower) upper
      else up :: layOver lower upper
termination_by lower upper => lower.length + upper.length

theorem layOver_nil (lower : List (K × V)) : layOver lower [] = lower := by
  cases lower <;> rw [layOver]

/-- Keys of a walk come from one of the lists. -/
theorem mem_of_mem_layOver {lower upper : List (K × V)} {binding : K × V}
    (member : binding ∈ layOver lower upper) : binding ∈ lower ∨ binding ∈ upper := by
  induction lower, upper using layOver.induct with
  | case1 upper =>
      rw [layOver] at member
      exact Or.inr member
  | case2 low lower =>
      rw [layOver] at member
      exact Or.inl member
  | case3 low lower up upper less ih =>
      rw [layOver, if_pos less] at member
      rcases List.mem_cons.mp member with rfl | later
      · exact Or.inl List.mem_cons_self
      · exact (ih later).imp_left (List.mem_cons_of_mem _)
  | case4 low lower up upper notLess greater ih =>
      rw [layOver, if_neg notLess, if_pos greater] at member
      rcases List.mem_cons.mp member with rfl | later
      · exact Or.inr List.mem_cons_self
      · exact (ih later).imp_right (List.mem_cons_of_mem _)
  | case5 low lower up upper notLess notGreater ih =>
      rw [layOver, if_neg notLess, if_neg notGreater] at member
      rcases List.mem_cons.mp member with rfl | later
      · exact Or.inr List.mem_cons_self
      · exact (ih later).imp (List.mem_cons_of_mem _) (List.mem_cons_of_mem _)

/-- The walk is in ascending key order again. -/
theorem layOver_sorted {lower upper : List (K × V)}
    (lowerSorted : lower.Pairwise fun first second => first.1 < second.1)
    (upperSorted : upper.Pairwise fun first second => first.1 < second.1) :
    (layOver lower upper).Pairwise fun first second => first.1 < second.1 := by
  induction lower, upper using layOver.induct with
  | case1 upper =>
      rw [layOver]
      exact upperSorted
  | case2 low lower =>
      rw [layOver]
      exact lowerSorted
  | case3 low lower up upper less ih =>
      rw [layOver, if_pos less]
      obtain ⟨lowBefore, lowerRest⟩ := List.pairwise_cons.mp lowerSorted
      refine List.pairwise_cons.mpr ⟨fun binding member => ?_, ih lowerRest upperSorted⟩
      rcases mem_of_mem_layOver member with inLower | inUpper
      · exact lowBefore binding inLower
      · rcases List.mem_cons.mp inUpper with rfl | later
        · exact less
        · exact less.trans ((List.pairwise_cons.mp upperSorted).1 binding later)
  | case4 low lower up upper notLess greater ih =>
      rw [layOver, if_neg notLess, if_pos greater]
      obtain ⟨upBefore, upperRest⟩ := List.pairwise_cons.mp upperSorted
      refine List.pairwise_cons.mpr ⟨fun binding member => ?_, ih lowerSorted upperRest⟩
      rcases mem_of_mem_layOver member with inLower | inUpper
      · rcases List.mem_cons.mp inLower with rfl | later
        · exact greater
        · exact greater.trans ((List.pairwise_cons.mp lowerSorted).1 binding later)
      · exact upBefore binding inUpper
  | case5 low lower up upper notLess notGreater ih =>
      rw [layOver, if_neg notLess, if_neg notGreater]
      have same : low.1 = up.1 := le_antisymm (not_lt.mp notGreater) (not_lt.mp notLess)
      obtain ⟨lowBefore, lowerRest⟩ := List.pairwise_cons.mp lowerSorted
      obtain ⟨upBefore, upperRest⟩ := List.pairwise_cons.mp upperSorted
      refine List.pairwise_cons.mpr ⟨fun binding member => ?_, ih lowerRest upperRest⟩
      rcases mem_of_mem_layOver member with inLower | inUpper
      · exact same ▸ lowBefore binding inLower
      · exact upBefore binding inUpper

/-- A key reads in the walk as in the upper list, and below it as in the lower one. -/
theorem lookup_layOver {lower upper : List (K × V)}
    (lowerSorted : lower.Pairwise fun first second => first.1 < second.1)
    (upperSorted : upper.Pairwise fun first second => first.1 < second.1) (key : K) :
    (layOver lower upper).lookup key = (upper.lookup key).or (lower.lookup key) := by
  induction lower, upper using layOver.induct with
  | case1 upper => rw [layOver, List.lookup_nil, Option.or_none]
  | case2 low lower => rw [layOver, List.lookup_nil, Option.none_or]
  | case3 low lower up upper less ih =>
      obtain ⟨lowBefore, lowerRest⟩ := List.pairwise_cons.mp lowerSorted
      rw [layOver, if_pos less, SortedMap.lookup_cons_eq, SortedMap.lookup_cons_eq low,
        ih lowerRest upperSorted]
      by_cases same : key = low.1
      · have absent : (up :: upper).lookup key = none := by
          refine SortedMap.lookup_eq_none_of_lt ?_
          intro binding member
          rcases List.mem_cons.mp member with rfl | later
          · exact same ▸ less
          · exact same ▸ less.trans ((List.pairwise_cons.mp upperSorted).1 binding later)
        rw [if_pos same, absent, Option.none_or, if_pos same]
      · rw [if_neg same, if_neg same]
  | case4 low lower up upper notLess greater ih =>
      obtain ⟨-, upperRest⟩ := List.pairwise_cons.mp upperSorted
      rw [layOver, if_neg notLess, if_pos greater, SortedMap.lookup_cons_eq,
        SortedMap.lookup_cons_eq up, ih lowerSorted upperRest]
      by_cases same : key = up.1
      · rw [if_pos same, if_pos same, Option.some_or]
      · rw [if_neg same, if_neg same]
  | case5 low lower up upper notLess notGreater ih =>
      have equal : low.1 = up.1 := le_antisymm (not_lt.mp notGreater) (not_lt.mp notLess)
      obtain ⟨-, lowerRest⟩ := List.pairwise_cons.mp lowerSorted
      obtain ⟨-, upperRest⟩ := List.pairwise_cons.mp upperSorted
      rw [layOver, if_neg notLess, if_neg notGreater, SortedMap.lookup_cons_eq,
        SortedMap.lookup_cons_eq up, SortedMap.lookup_cons_eq low, ih lowerRest upperRest]
      by_cases same : key = up.1
      · rw [if_pos same, if_pos same, Option.some_or]
      · rw [if_neg same, if_neg same, if_neg (equal ▸ same)]

namespace SortedMap

/-- One sorted map laid over another. -/
def laidOver (lower upper : SortedMap K V) : SortedMap K V :=
  ⟨layOver lower.entries upper.entries, layOver_sorted lower.sorted upper.sorted⟩

theorem lookup_laidOver (lower upper : SortedMap K V) (key : K) :
    (lower.laidOver upper).lookup key = (upper.lookup key).or (lower.lookup key) :=
  lookup_layOver lower.sorted upper.sorted key

theorem eq_of_entries_eq {first second : SortedMap K V} (same : first.entries = second.entries) :
    first = second := by
  cases first
  cases second
  cases same
  rfl

end SortedMap

end Tidehunter.Library
