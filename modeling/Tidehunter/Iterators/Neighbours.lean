import Tidehunter.Library.ByteOrder
import Tidehunter.Library.Cursor
import Tidehunter.Wal.Log

/-!
# Neighbouring keys of one length

A bound of an iterator is turned into a cursor by stepping to the neighbouring byte string of
the same length. Stepping up and stepping down carry from the last byte to the first alike: a
byte at its end wraps and the byte in front of it is stepped, too.
-/

namespace Tidehunter.Iterators

open Library Wal

/-! ## Stepping -/

/-- Step a number given by its bytes from the last to the first. A byte at its end wraps; the
number ends when all bytes do. -/
def carryReversed (atEnd wrapped : Byte) (change : Byte → Byte) : Bytes → Option Bytes
  | [] => none
  | byte :: rest =>
      if byte = atEnd then (carryReversed atEnd wrapped change rest).map (wrapped :: ·)
      else some (change byte :: rest)

def carry (atEnd wrapped : Byte) (change : Byte → Byte) (original : Bytes) : Option Bytes :=
  (carryReversed atEnd wrapped change original.reverse).map List.reverse

def decrement : Bytes → Option Bytes := carry 0 255 fun byte => byte - 1

def increment : Bytes → Option Bytes := carry 255 0 fun byte => byte + 1

def saturatedDecrementVec (original : Bytes) : Bytes := (decrement original).getD original

def saturatedIncrementVec (original : Bytes) : Bytes := (increment original).getD original

def isNonzero (bytes : Bytes) : Bool := bytes.any fun byte => byte ≠ 0

def isNonmax (bytes : Bytes) : Bool := bytes.any fun byte => byte ≠ 255

/-! ## Carrying from the front -/

variable {atEnd wrapped : Byte} {change : Byte → Byte}

theorem carryReversed_append (front : Bytes) (byte : Byte) :
    carryReversed atEnd wrapped change (front ++ [byte]) =
      match carryReversed atEnd wrapped change front with
      | some stepped => some (stepped ++ [byte])
      | none => if byte = atEnd then none
          else some (front.map (fun _ => wrapped) ++ [change byte]) := by
  induction front with
  | nil =>
      simp only [List.nil_append, carryReversed, Option.map_none, List.map_nil]
  | cons first rest ih =>
      rw [List.cons_append, carryReversed, carryReversed]
      split
      · rw [ih]
        cases carryReversed atEnd wrapped change rest with
        | some stepped => rfl
        | none =>
            simp only [Option.map_none, List.map_cons, List.cons_append]
            split <;> rfl
      · rfl

theorem carry_cons (byte : Byte) (rest : Bytes) :
    carry atEnd wrapped change (byte :: rest) =
      match carry atEnd wrapped change rest with
      | some stepped => some (byte :: stepped)
      | none => if byte = atEnd then none
          else some (change byte :: rest.map fun _ => wrapped) := by
  rw [carry, List.reverse_cons, carryReversed_append, carry]
  cases carryReversed atEnd wrapped change rest.reverse with
  | some stepped =>
      simp only [Option.map_some, List.reverse_append, List.reverse_cons, List.reverse_nil,
        List.nil_append, List.cons_append]
  | none =>
      simp only [Option.map_none]
      split
      · rfl
      · rw [Option.map_some, List.reverse_append, ← List.map_reverse, List.reverse_reverse]
        rfl

theorem length_carry {original stepped : Bytes}
    (steps : carry atEnd wrapped change original = some stepped) :
    stepped.length = original.length := by
  induction original generalizing stepped with
  | nil => cases steps
  | cons byte rest ih =>
      rw [carry_cons] at steps
      cases isRest : carry atEnd wrapped change rest with
      | some steppedRest =>
          rw [isRest] at steps
          rw [← Option.some.inj steps, List.length_cons, ih isRest, List.length_cons]
      | none =>
          rw [isRest] at steps
          simp only at steps
          split at steps
          · cases steps
          · rw [← Option.some.inj steps, List.length_cons, List.length_map, List.length_cons]

theorem carry_eq_none_iff (original : Bytes) :
    carry atEnd wrapped change original = none ↔ original.any (fun byte => byte ≠ atEnd) = false := by
  induction original with
  | nil => exact iff_of_true rfl rfl
  | cons byte rest ih =>
      rw [carry_cons, List.any_cons, Bool.or_eq_false_iff, ← ih]
      cases carry atEnd wrapped change rest with
      | some stepped => simp
      | none => simp

/-! ## The order of neighbours -/

/-- Stepping a byte in a direction: it ends at the last byte, wraps to the first, and leaves no
byte out. -/
structure Steps (direction : Direction) (atEnd wrapped : Byte) (change : Byte → Byte) : Prop where
  last : ∀ byte, ¬direction.Before atEnd byte
  first : ∀ byte, ¬direction.Before byte wrapped
  before : ∀ byte, byte ≠ atEnd → direction.Before byte (change byte)
  between : ∀ byte, byte ≠ atEnd → ∀ other, direction.Before byte other →
    ¬direction.Before other (change byte)

variable {direction : Direction}

theorem before_cons {byte other : Byte} {rest otherRest : Bytes} :
    direction.Before (byte :: rest) (other :: otherRest) ↔
      direction.Before byte other ∨ byte = other ∧ direction.Before rest otherRest := by
  cases direction with
  | forward => exact List.cons_lt_cons_iff
  | backward =>
      refine List.cons_lt_cons_iff.trans (or_congr Iff.rfl (and_congr ?_ Iff.rfl))
      exact eq_comm

theorem not_before_map_wrapped (steps : Steps direction atEnd wrapped change) {key rest : Bytes}
    (length : key.length = rest.length) :
    ¬direction.Before key (rest.map fun _ => wrapped) := by
  induction rest generalizing key with
  | nil =>
      rw [List.eq_nil_of_length_eq_zero length]
      exact Direction.Before.irrefl _
  | cons byte rest ih =>
      cases key with
      | nil => cases length
      | cons keyByte keyRest =>
          rw [List.map_cons, before_cons]
          rintro (before | ⟨-, before⟩)
          · exact steps.first _ before
          · exact ih (Nat.succ.inj length) before

/-- A string that cannot be stepped is the last of its length. -/
theorem not_before_of_carry_eq_none (steps : Steps direction atEnd wrapped change)
    {original other : Bytes} (ends : carry atEnd wrapped change original = none)
    (length : other.length = original.length) : ¬direction.Before original other := by
  induction original generalizing other with
  | nil =>
      rw [List.eq_nil_of_length_eq_zero length]
      exact Direction.Before.irrefl _
  | cons byte rest ih =>
      cases other with
      | nil => cases length
      | cons otherByte otherRest =>
          rw [carry_cons] at ends
          cases isRest : carry atEnd wrapped change rest with
          | some stepped => simp [isRest] at ends
          | none =>
              simp only [isRest, ite_eq_left_iff, reduceCtorEq, imp_false, not_not] at ends
              subst ends
              rw [before_cons]
              rintro (before | ⟨-, before⟩)
              · exact steps.last _ before
              · exact ih isRest (Nat.succ.inj length) before

/-- The stepped string is the next one of its length. -/
theorem before_carry (steps : Steps direction atEnd wrapped change) {original stepped : Bytes}
    (isStepped : carry atEnd wrapped change original = some stepped) :
    direction.Before original stepped ∧ ∀ other : Bytes, other.length = original.length →
      direction.Before original other → ¬direction.Before other stepped := by
  induction original generalizing stepped with
  | nil => cases isStepped
  | cons byte rest ih =>
      rw [carry_cons] at isStepped
      cases isRest : carry atEnd wrapped change rest with
      | some steppedRest =>
          rw [isRest] at isStepped
          obtain rfl := Option.some.inj isStepped
          obtain ⟨before, between⟩ := ih isRest
          refine ⟨before_cons.mpr (.inr ⟨rfl, before⟩), fun other length after front => ?_⟩
          cases other with
          | nil => cases length
          | cons otherByte otherRest =>
              rcases before_cons.mp after with up | ⟨rfl, up⟩
              · rcases before_cons.mp front with down | ⟨rfl, -⟩
                · exact up.asymm down
                · exact Direction.Before.irrefl _ up
              · rcases before_cons.mp front with down | ⟨-, down⟩
                · exact Direction.Before.irrefl _ down
                · exact between otherRest (Nat.succ.inj length) up down
      | none =>
          rw [isRest] at isStepped
          simp only at isStepped
          split at isStepped
          · cases isStepped
          · rename_i notEnd
            obtain rfl := Option.some.inj isStepped
            refine ⟨before_cons.mpr (.inl (steps.before byte notEnd)),
              fun other length after front => ?_⟩
            cases other with
            | nil => cases length
            | cons otherByte otherRest =>
                have restLength : otherRest.length = rest.length := Nat.succ.inj length
                rcases before_cons.mp front with down | ⟨-, down⟩
                · rcases before_cons.mp after with up | ⟨-, up⟩
                  · exact steps.between byte notEnd otherByte up down
                  · exact not_before_of_carry_eq_none steps isRest restLength up
                · exact not_before_map_wrapped steps restLength down

theorem val_sub_one {byte : Byte} (nonzero : byte ≠ 0) : (byte - 1).val = byte.val - 1 := by
  have one_le : (1 : Byte) ≤ byte :=
    Fin.le_def.mpr (Nat.pos_of_ne_zero fun zero => nonzero (Fin.ext zero))
  exact Fin.sub_val_of_le one_le

theorem steps_decrement : Steps .backward 0 255 fun byte => byte - 1 where
  last byte := (Fin.zero_le byte).not_gt
  first byte := (Fin.le_last byte).not_gt
  before byte notEnd := by
    have pos : 0 < byte.val := Nat.pos_of_ne_zero fun zero => notEnd (Fin.ext zero)
    show byte - 1 < byte
    rw [Fin.lt_def, val_sub_one notEnd]
    omega
  between byte notEnd other below above := by
    have less : other.val < byte.val := below
    have more : (byte - 1).val < other.val := above
    rw [val_sub_one notEnd] at more
    omega

theorem steps_increment : Steps .forward 255 0 fun byte => byte + 1 where
  last byte := (Fin.le_last byte).not_gt
  first byte := (Fin.zero_le byte).not_gt
  before byte notEnd := Fin.lt_add_one_iff.mpr (Fin.lt_last_iff_ne_last.mpr notEnd)
  between byte notEnd other above below := by
    have value : (byte + 1).val = byte.val + 1 :=
      Fin.val_add_one_of_lt (Fin.lt_last_iff_ne_last.mpr notEnd)
    have more : byte.val < other.val := above
    have less : other.val < (byte + 1).val := below
    omega

/-! ## Saturated steps -/

theorem length_saturatedIncrementVec (key : Bytes) :
    (saturatedIncrementVec key).length = key.length := by
  unfold saturatedIncrementVec
  cases step : increment key with
  | some greater => exact length_carry step
  | none => rfl

theorem le_saturatedIncrementVec (key : Bytes) : key ≤ saturatedIncrementVec key := by
  unfold saturatedIncrementVec
  cases step : increment key with
  | some greater => exact le_of_lt (before_carry steps_increment step).1
  | none => exact le_refl key

theorem lt_saturatedIncrementVec {key : Bytes}
    (nonmax : isNonmax (saturatedIncrementVec key) = true) : key < saturatedIncrementVec key := by
  unfold saturatedIncrementVec at nonmax ⊢
  cases step : increment key with
  | some greater => exact (before_carry steps_increment step).1
  | none =>
      rw [step, Option.getD_none] at nonmax
      exact absurd (nonmax.symm.trans ((carry_eq_none_iff key).mp step)) nofun

theorem isNonzero_of_decrement {key smaller : Bytes} (step : decrement key = some smaller) :
    isNonzero key = true := by
  by_contra zero
  have ends := (@carry_eq_none_iff 0 255 (fun byte => byte - 1) key).mpr (Bool.eq_false_iff.mpr zero)
  cases ends.symm.trans step

end Tidehunter.Iterators
