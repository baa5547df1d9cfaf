import Tidehunter.Library.SortedMap
import Mathlib

/-!
# Cursors over ordered keys

A cursor moves through the keys of a partial map in one of two directions. A step is right
when it gives the first key ahead that the map binds; the first of several maps that binds a
key hides the others, and the step over all of them is the first of the steps over each. A
list of right steps enumerates the bindings ahead, in order and each once.
-/

namespace Tidehunter.Library

universe u v

variable {K : Type u} {V : Type v} [LinearOrder K]

inductive Direction where
  | forward
  | backward
  deriving DecidableEq, Repr

namespace Direction

def ofBool (reverse : Bool) : Direction := if reverse then .backward else .forward

/-- One key comes before another in a direction. -/
def Before : Direction → K → K → Prop
  | .forward, first, second => first < second
  | .backward, first, second => second < first

instance (direction : Direction) (first second : K) : Decidable (direction.Before first second) :=
  match direction with
  | .forward => inferInstanceAs (Decidable (first < second))
  | .backward => inferInstanceAs (Decidable (second < first))

/-- A key lies behind the previous one, if there was one. -/
def Past (direction : Direction) : Option K → K → Prop
  | none, _ => True
  | some prev, key => direction.Before prev key

instance (direction : Direction) (prev : Option K) (key : K) :
    Decidable (direction.Past prev key) :=
  match prev with
  | none => isTrue trivial
  | some prev => inferInstanceAs (Decidable (direction.Before prev key))

variable {direction : Direction} {first second third : K}

theorem Before.trans (left : direction.Before first second)
    (right : direction.Before second third) : direction.Before first third := by
  cases direction with
  | forward => exact lt_trans left right
  | backward => exact lt_trans right left

theorem Before.irrefl (key : K) : ¬direction.Before key key := by
  cases direction <;> exact lt_irrefl key

theorem Before.asymm (before : direction.Before first second) : ¬direction.Before second first :=
  fun after => Before.irrefl first (before.trans after)

theorem before_or_eq_or_before (direction : Direction) (first second : K) :
    direction.Before first second ∨ first = second ∨ direction.Before second first := by
  cases direction with
  | forward => exact lt_trichotomy first second
  | backward =>
      rcases lt_trichotomy first second with below | same | above
      · exact Or.inr (Or.inr below)
      · exact Or.inr (Or.inl same)
      · exact Or.inl above

/-- What lies behind a key that lies behind the cursor. -/
theorem Past.of_before {prev : Option K} (past : direction.Past prev first)
    (before : direction.Before first second) : direction.Past prev second := by
  cases prev with
  | none => trivial
  | some key => exact Before.trans past before

end Direction

/-! ## Steps -/

/-- A right step: the first binding of a map among the keys ahead, or nothing when there is
none. -/
def NextIn (direction : Direction) (ahead : K → Prop) (map : K → Option V) :
    Option (K × V) → Prop
  | none => ∀ key, ahead key → map key = none
  | some (key, value) => ahead key ∧ map key = some value ∧
      ∀ other, ahead other → direction.Before other key → map other = none

namespace NextIn

variable {direction : Direction} {ahead : K → Prop} {map upper under : K → Option V}

theorem congr {other : K → Option V} {found : Option (K × V)}
    (same : ∀ key, ahead key → map key = other key) (next : NextIn direction ahead map found) :
    NextIn direction ahead other found := by
  cases found with
  | none => exact fun key inside => (same key inside).symm.trans (next key inside)
  | some binding =>
      refine ⟨next.1, (same _ next.1).symm.trans next.2.1, fun key inside before => ?_⟩
      exact (same key inside).symm.trans (next.2.2 key inside before)

/-- There is only one right step. -/
theorem unique {first second : Option (K × V)} (left : NextIn direction ahead map first)
    (right : NextIn direction ahead map second) : first = second := by
  cases first with
  | none =>
      cases second with
      | none => rfl
      | some binding => cases (left _ right.1).symm.trans right.2.1
  | some binding =>
      cases second with
      | none => cases (right _ left.1).symm.trans left.2.1
      | some other =>
          obtain ⟨key, value⟩ := binding
          obtain ⟨key', value'⟩ := other
          rcases direction.before_or_eq_or_before key key' with before | rfl | before
          · cases (right.2.2 key left.1 before).symm.trans left.2.1
          · rw [Option.some.inj (left.2.1.symm.trans right.2.1)]
          · cases (left.2.2 key' right.1 before).symm.trans right.2.1

end NextIn

/-- A step over a map with changed values. -/
theorem NextIn.map {W : Type v} {direction : Direction} {ahead : K → Prop} {map : K → Option V}
    {found : Option (K × V)} (change : V → W) (next : NextIn direction ahead map found) :
    NextIn direction ahead (fun key => (map key).map change)
      (found.map fun binding => (binding.1, change binding.2)) := by
  cases found with
  | none =>
      intro key inside
      simp only [next key inside, Option.map_none]
  | some binding =>
      refine ⟨next.1, by simp only [next.2.1, Option.map_some], fun other inside before => ?_⟩
      simp only [next.2.2 other inside before, Option.map_none]

/-- The earlier of two candidates; the first one wins when they have the same key. -/
def earlier (direction : Direction) : Option (K × V) → Option (K × V) → Option (K × V)
  | none, second => second
  | some first, none => some first
  | some first, some second =>
      if direction.Before second.1 first.1 then some second else some first

/-- A step over two maps is the earlier of the steps over each. -/
theorem NextIn.or {direction : Direction} {ahead : K → Prop} {upper under : K → Option V}
    {first second : Option (K × V)} (left : NextIn direction ahead upper first)
    (right : NextIn direction ahead under second) :
    NextIn direction ahead (fun key => (upper key).or (under key))
      (earlier direction first second) := by
  cases first with
  | none =>
      refine right.congr fun key inside => ?_
      rw [left key inside, Option.none_or]
  | some binding =>
      obtain ⟨key, value⟩ := binding
      obtain ⟨inside, bound, before⟩ := left
      cases second with
      | none =>
          refine ⟨inside, by simp only [bound, Option.some_or], fun other ahead earlier => ?_⟩
          simp only [before other ahead earlier, right other ahead, Option.or_none]
      | some candidate =>
          obtain ⟨key', value'⟩ := candidate
          obtain ⟨inside', bound', before'⟩ := right
          simp only [earlier]
          split
          · rename_i wins
            refine ⟨inside', ?_, fun other ahead earlier => ?_⟩
            · simp only [before key' inside' wins, Option.none_or, bound']
            · simp only [before other ahead (earlier.trans wins), before' other ahead earlier,
                Option.or_none]
          · rename_i loses
            refine ⟨inside, by simp only [bound, Option.some_or], fun other ahead earlier => ?_⟩
            have first : direction.Before other key' := by
              rcases direction.before_or_eq_or_before key key' with behind | rfl | behind
              · exact earlier.trans behind
              · exact earlier
              · exact absurd behind loses
            simp only [before other ahead earlier, before' other ahead first, Option.or_none]

/-- A step over some of the keys ahead is a step over all of them when the others are unbound. -/
theorem NextIn.widen {direction : Direction} {ahead narrow : K → Prop} {map : K → Option V}
    {found : Option (K × V)} (inside : ∀ key, narrow key → ahead key)
    (unbound : ∀ key, ahead key → ¬narrow key → map key = none)
    (next : NextIn direction narrow map found) : NextIn direction ahead map found := by
  cases found with
  | none => exact fun key isAhead => by_cases (next key) (unbound key isAhead)
  | some binding =>
      exact ⟨inside _ next.1, next.2.1, fun other isAhead before =>
        by_cases (fun isNarrow => next.2.2 other isNarrow before) (unbound other isAhead)⟩

/-- A later cursor has less weight behind it, by the weight of its own key. -/
theorem sum_past_add_le {direction : Direction} {prev : Option K} {key : K} {keys : List K}
    (weight : K → Nat) (member : key ∈ keys) (past : direction.Past prev key) :
    ((keys.filter fun other => direction.Past (some key) other).map weight).sum + weight key ≤
      ((keys.filter fun other => direction.Past prev other).map weight).sum := by
  have lighter : ∀ list : List K,
      ((list.filter fun other => direction.Past (some key) other).map weight).sum ≤
        ((list.filter fun other => direction.Past prev other).map weight).sum := fun list =>
    ((List.monotone_filter_right list fun other behind =>
      decide_eq_true (past.of_before (of_decide_eq_true behind))).map weight).sum_le_sum
        fun _ _ => Nat.zero_le _
  obtain ⟨before, after, rfl⟩ := List.append_of_mem member
  have here : ¬direction.Past (some key) key := Direction.Before.irrefl key
  have front := lighter before
  have back := lighter after
  rw [List.filter_append, List.filter_append, List.filter_cons_of_neg (by simpa using here),
    List.filter_cons_of_pos (by simpa using past)]
  simp only [List.map_append, List.map_cons, List.sum_append, List.sum_cons]
  omega

/-- Fewer keys lie behind a later cursor. -/
theorem countP_past_lt {direction : Direction} {prev : Option K} {key : K} {keys : List K}
    (member : key ∈ keys) (past : direction.Past prev key) :
    keys.countP (fun other => direction.Past (some key) other) <
      keys.countP (fun other => direction.Past prev other) := by
  have counted := sum_past_add_le (fun _ => 1) member past
  simp only [List.map_const', List.sum_replicate_nat, Nat.mul_one] at counted
  simpa only [List.countP_eq_length_filter] using Nat.lt_of_succ_le counted

/-! ## Sorted maps -/

namespace SortedMap

/-- The entries of a sorted map in a direction. -/
def ordered (map : SortedMap K V) : Direction → List (K × V)
  | .forward => map.entries
  | .backward => map.entries.reverse

theorem ordered_pairwise (map : SortedMap K V) (direction : Direction) :
    (map.ordered direction).Pairwise fun first second => direction.Before first.1 second.1 := by
  cases direction with
  | forward => exact map.sorted
  | backward => exact List.pairwise_reverse.mpr map.sorted

theorem mem_ordered {map : SortedMap K V} {direction : Direction} {binding : K × V} :
    binding ∈ map.ordered direction ↔ map.lookup binding.1 = some binding.2 := by
  rw [lookup_eq_some_iff]
  cases direction with
  | forward => exact Iff.rfl
  | backward => exact List.mem_reverse

/-- The first entry behind the previous key whose value is kept. -/
theorem nextIn_findSome {W : Type v} (map : SortedMap K V) (direction : Direction)
    (prev : Option K) (change : V → Option W) :
    NextIn direction (direction.Past prev) (fun key => (map.lookup key).bind change)
      ((map.ordered direction).findSome? fun binding =>
        if direction.Past prev binding.1 then (change binding.2).map (binding.1, ·) else none) := by
  cases found : (map.ordered direction).findSome? fun binding =>
      if direction.Past prev binding.1 then (change binding.2).map (binding.1, ·) else none with
  | none =>
      intro key past
      rw [List.findSome?_eq_none_iff] at found
      refine Option.bind_eq_none_iff.mpr fun value bound => ?_
      have refused := found (key, value) (mem_ordered.mpr bound)
      rw [if_pos past] at refused
      exact Option.map_eq_none_iff.mp refused
  | some binding =>
      obtain ⟨key, value⟩ := binding
      obtain ⟨before, ⟨held, old⟩, after, split, accepted, rejected⟩ :=
        List.findSome?_eq_some_iff.mp found
      split at accepted
      · rename_i past
        obtain ⟨_, kept, same⟩ := Option.map_eq_some_iff.mp accepted
        cases same
        have sorted := map.ordered_pairwise direction
        have member : (held, old) ∈ map.ordered direction := by
          rw [split]
          exact List.mem_append_right _ List.mem_cons_self
        refine ⟨past, Option.bind_eq_some_iff.mpr ⟨old, mem_ordered.mp member, kept⟩,
          fun other ahead earlier => Option.bind_eq_none_iff.mpr fun shown bound => ?_⟩
        have inside : (other, shown) ∈ map.ordered direction := mem_ordered.mpr bound
        rw [split] at inside sorted
        rcases List.mem_append.mp inside with front | back
        · have refused := rejected _ front
          rw [if_pos ahead] at refused
          exact Option.map_eq_none_iff.mp refused
        · rcases List.mem_cons.mp back with same | behind
          · cases same
            exact absurd earlier (Direction.Before.irrefl _)
          · have later := (List.pairwise_cons.mp (List.pairwise_append.mp sorted).2.1).1 _ behind
            exact absurd earlier later.asymm
      · cases accepted

/-- The entry behind the previous key in a direction. -/
def next (map : SortedMap K V) (direction : Direction) (prev : Option K) : Option (K × V) :=
  (map.ordered direction).find? fun binding => direction.Past prev binding.1

theorem nextIn_next (map : SortedMap K V) (direction : Direction) (prev : Option K) :
    NextIn direction (direction.Past prev) map.lookup (map.next direction prev) := by
  have step := map.nextIn_findSome direction prev some
  have found : map.next direction prev = (map.ordered direction).findSome? fun binding =>
      if direction.Past prev binding.1 then (some binding.2).map (binding.1, ·) else none := by
    rw [next, List.find?_eq_findSome?_guard]
    congr 1
    funext binding
    rw [Option.guard_apply]
    simp only [decide_eq_true_eq, Option.map_some]
  rw [found]
  refine NextIn.congr (fun key _ => ?_) step
  cases map.lookup key <;> rfl

end SortedMap

/-! ## Enumerations -/

/-- Two lists in order are the same when their members are. -/
theorem eq_of_mem_iff {direction : Direction} {first second : List (K × V)}
    (left : first.Pairwise fun one other => direction.Before one.1 other.1)
    (right : second.Pairwise fun one other => direction.Before one.1 other.1)
    (members : ∀ binding, binding ∈ first ↔ binding ∈ second) : first = second := by
  have nodup : ∀ list : List (K × V),
      (list.Pairwise fun one other => direction.Before one.1 other.1) → list.Nodup :=
    fun list sorted => sorted.imp fun before same => by
      rw [same] at before
      exact Direction.Before.irrefl _ before
  have same := (List.perm_ext_iff_of_nodup (nodup first left) (nodup second right)).mpr members
  exact same.eq_of_pairwise (fun _ _ _ _ before after => absurd after before.asymm) left right

/-- A list is all bindings ahead, in order and each once. -/
structure Enumerates (direction : Direction) (ahead : K → Prop) (map : K → Option V)
    (list : List (K × V)) : Prop where
  sorted : list.Pairwise fun first second => direction.Before first.1 second.1
  complete : ∀ key value, (key, value) ∈ list ↔ ahead key ∧ map key = some value

namespace Enumerates

variable {direction : Direction} {ahead : K → Prop} {map : K → Option V}

theorem nil (next : NextIn direction ahead map none) : Enumerates direction ahead map [] where
  sorted := List.Pairwise.nil
  complete key value := by
    refine ⟨nofun, fun ⟨inside, bound⟩ => ?_⟩
    cases (next key inside).symm.trans bound

theorem cons {key : K} {value : V} {rest : List (K × V)}
    (next : NextIn direction ahead map (some (key, value)))
    (tail : Enumerates direction (fun other => ahead other ∧ direction.Before key other) map rest) :
    Enumerates direction ahead map ((key, value) :: rest) where
  sorted := List.pairwise_cons.mpr
    ⟨fun binding member => ((tail.complete _ _).mp member).1.2, tail.sorted⟩
  complete other held := by
    rw [List.mem_cons, tail.complete]
    constructor
    · rintro (same | ⟨⟨inside, _⟩, bound⟩)
      · cases same
        exact ⟨next.1, next.2.1⟩
      · exact ⟨inside, bound⟩
    · rintro ⟨inside, bound⟩
      rcases direction.before_or_eq_or_before key other with behind | rfl | before
      · exact Or.inr ⟨⟨inside, behind⟩, bound⟩
      · rw [Option.some.inj (bound.symm.trans next.2.1)]
        exact Or.inl rfl
      · cases (next.2.2 other inside before).symm.trans bound

/-- Only the bindings ahead matter. -/
theorem congr {other : K → Prop} {list : List (K × V)}
    (same : ∀ key value, map key = some value → (ahead key ↔ other key))
    (listed : Enumerates direction ahead map list) : Enumerates direction other map list where
  sorted := listed.sorted
  complete key value := by
    rw [listed.complete]
    constructor
    · rintro ⟨inside, bound⟩
      exact ⟨(same key value bound).mp inside, bound⟩
    · rintro ⟨inside, bound⟩
      exact ⟨(same key value bound).mpr inside, bound⟩

end Enumerates

end Tidehunter.Library
