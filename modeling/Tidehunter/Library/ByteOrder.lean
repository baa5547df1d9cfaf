import Mathlib

/-!
# Byte strings in lexicographic order

What is read off the front of a byte string follows the order of byte strings: the number
in its first bytes, the string cut after some bytes, and a string whose last byte went
through a monotone function.
-/

namespace Tidehunter.Library

/-- The number in the first bytes of a string, the highest first; missing bytes are zero. -/
def leadingBe : Nat → List (Fin 256) → Nat
  | 0, _ => 0
  | _ + 1, [] => 0
  | width + 1, byte :: rest => byte.val * 256 ^ width + leadingBe width rest

theorem leadingBe_lt (width : Nat) (key : List (Fin 256)) : leadingBe width key < 256 ^ width := by
  induction width generalizing key with
  | zero => exact Nat.one_pos
  | succ width ih =>
      cases key with
      | nil => exact Nat.pow_pos (by decide)
      | cons byte rest =>
          calc byte.val * 256 ^ width + leadingBe width rest
              < byte.val * 256 ^ width + 256 ^ width := Nat.add_lt_add_left (ih rest) _
            _ = (byte.val + 1) * 256 ^ width := (Nat.succ_mul _ _).symm
            _ ≤ 256 * 256 ^ width := Nat.mul_le_mul_right _ byte.isLt
            _ = 256 ^ (width + 1) := by rw [Nat.pow_succ, Nat.mul_comm]

theorem leadingBe_replicate_zero (width count : Nat) :
    leadingBe width (List.replicate count 0) = 0 := by
  induction width generalizing count with
  | zero => rfl
  | succ width ih =>
      cases count with
      | zero => rfl
      | succ count => rw [List.replicate_succ, leadingBe, ih, Fin.val_zero, Nat.zero_mul]

theorem cons_le_cons {byte other : Fin 256} {rest otherRest : List (Fin 256)} :
    byte :: rest ≤ other :: otherRest ↔ byte < other ∨ byte = other ∧ rest ≤ otherRest := by
  rw [le_iff_lt_or_eq, List.cons_lt_cons_iff, List.cons.injEq, le_iff_lt_or_eq]
  tauto

theorem nil_le (key : List (Fin 256)) : [] ≤ key :=
  not_lt.mp (List.not_lt_nil key)

theorem leadingBe_mono (width : Nat) {key other : List (Fin 256)} (le : key ≤ other) :
    leadingBe width key ≤ leadingBe width other := by
  induction width generalizing key other with
  | zero => exact Nat.le_refl 0
  | succ width ih =>
      cases key with
      | nil => exact Nat.zero_le _
      | cons byte rest =>
          cases other with
          | nil => exact absurd le (List.nil_lt_cons byte rest).not_ge
          | cons otherByte otherRest =>
              rcases cons_le_cons.mp le with less | ⟨rfl, restLe⟩
              · calc byte.val * 256 ^ width + leadingBe width rest
                    ≤ (byte.val + 1) * 256 ^ width := by
                      rw [Nat.succ_mul]
                      exact Nat.add_le_add_left (leadingBe_lt width rest).le _
                  _ ≤ otherByte.val * 256 ^ width := Nat.mul_le_mul_right _ less
                  _ ≤ otherByte.val * 256 ^ width + leadingBe width otherRest :=
                      Nat.le_add_right _ _
              · exact Nat.add_le_add_left (ih restLe) _

theorem take_le_take (count : Nat) {key other : List (Fin 256)} (le : key ≤ other) :
    key.take count ≤ other.take count := by
  induction count generalizing key other with
  | zero => exact le_refl _
  | succ count ih =>
      cases key with
      | nil => exact nil_le _
      | cons byte rest =>
          cases other with
          | nil => exact absurd le (List.nil_lt_cons byte rest).not_ge
          | cons otherByte otherRest =>
              rcases cons_le_cons.mp le with less | ⟨rfl, restLe⟩
              · exact cons_le_cons.mpr (.inl less)
              · exact cons_le_cons.mpr (.inr ⟨rfl, ih restLe⟩)

/-- Behind a common front the order of the strings is the order of the rests. -/
theorem drop_le_drop (count : Nat) {key other : List (Fin 256)} (le : key ≤ other)
    (common : key.take count = other.take count) : key.drop count ≤ other.drop count := by
  induction count generalizing key other with
  | zero => exact le
  | succ count ih =>
      cases key with
      | nil => rw [List.drop_nil]; exact nil_le _
      | cons byte rest =>
          cases other with
          | nil => exact absurd le (List.nil_lt_cons byte rest).not_ge
          | cons otherByte otherRest =>
              obtain ⟨rfl, restCommon⟩ := List.cons.inj common
              rcases cons_le_cons.mp le with less | ⟨-, restLe⟩
              · exact absurd less (lt_irrefl _)
              · exact ih restLe restCommon

/-- A front whose last byte went through a monotone function follows the order. -/
theorem take_append_le {change : Fin 256 → Fin 256} (mono : Monotone change) (count : Nat)
    {key other : List (Fin 256)} {last otherLast : Fin 256} (le : key ≤ other)
    (atLast : key[count]? = some last) (atOtherLast : other[count]? = some otherLast) :
    key.take count ++ [change last] ≤ other.take count ++ [change otherLast] := by
  induction count generalizing key other with
  | zero =>
      cases key with
      | nil => cases atLast
      | cons byte rest =>
          cases other with
          | nil => cases atOtherLast
          | cons otherByte otherRest =>
              rw [← Option.some.inj atLast, ← Option.some.inj atOtherLast]
              have bytes : byte ≤ otherByte :=
                (cons_le_cons.mp le).elim le_of_lt fun same => same.1.le
              rcases (mono bytes).lt_or_eq with less | same
              · exact cons_le_cons.mpr (.inl less)
              · exact cons_le_cons.mpr (.inr ⟨same, le_refl []⟩)
  | succ count ih =>
      cases key with
      | nil => cases atLast
      | cons byte rest =>
          cases other with
          | nil => cases atOtherLast
          | cons otherByte otherRest =>
              rcases cons_le_cons.mp le with less | ⟨rfl, restLe⟩
              · exact cons_le_cons.mpr (.inl less)
              · exact cons_le_cons.mpr (.inr ⟨rfl, ih restLe atLast atOtherLast⟩)

/-- Among strings of one length the zeros are the least. -/
theorem replicate_zero_le (count : Nat) {key : List (Fin 256)} (length : key.length = count) :
    List.replicate count 0 ≤ key := by
  subst length
  induction key with
  | nil => exact nil_le _
  | cons byte rest ih =>
      rw [List.length_cons, List.replicate_succ]
      rcases (Fin.zero_le byte).lt_or_eq with less | same
      · exact cons_le_cons.mpr (.inl less)
      · exact cons_le_cons.mpr (.inr ⟨same, ih⟩)

/-- Among strings of one length the strings of the greatest byte are the greatest. -/
theorem le_replicate_max (count : Nat) {key : List (Fin 256)} (length : key.length = count) :
    key ≤ List.replicate count 255 := by
  subst length
  induction key with
  | nil => exact nil_le _
  | cons byte rest ih =>
      rw [List.length_cons, List.replicate_succ]
      rcases (Fin.le_last byte).lt_or_eq with less | same
      · exact cons_le_cons.mpr (.inl less)
      · exact cons_le_cons.mpr (.inr ⟨same, ih⟩)

end Tidehunter.Library
