import Mathlib

/-!
# Bytes: numbers in network order, readers and memory

Numbers are written with a fixed width, the highest byte first. A reader takes what it
reads off the front of a list of bytes, and its law says that it gives back what was put
there and leaves the rest. A memory is an address space of bytes; a slice of it is a list.
-/

namespace Tidehunter.Library

/-! ## Numbers -/

/-- The bytes of a number, the highest first; what does not fit the width is cut off. -/
def putBe : Nat → Nat → List (Fin 256)
  | 0, _ => []
  | width + 1, value => Fin.ofNat 256 (value / 256 ^ width) :: putBe width value

/-- The number written in bytes. -/
def getBe : List (Fin 256) → Nat
  | [] => 0
  | byte :: rest => byte.val * 256 ^ rest.length + getBe rest

@[simp]
theorem length_putBe (width value : Nat) : (putBe width value).length = width := by
  induction width with
  | zero => rfl
  | succ width ih => rw [putBe, List.length_cons, ih]

theorem getBe_putBe (width value : Nat) : getBe (putBe width value) = value % 256 ^ width := by
  induction width with
  | zero => rw [putBe, getBe, Nat.pow_zero, Nat.mod_one]
  | succ width ih =>
      rw [putBe, getBe, ih, length_putBe, Fin.val_ofNat, Nat.pow_succ, Nat.mod_mul, Nat.mul_comm,
        Nat.add_comm]

theorem getBe_putBe_of_lt {width value : Nat} (fits : value < 256 ^ width) :
    getBe (putBe width value) = value := by
  rw [getBe_putBe, Nat.mod_eq_of_lt fits]

/-! ## Readers -/

/-- Take a number off the front; nothing when there are too few bytes. -/
def takeBe (width : Nat) (bytes : List (Fin 256)) : Option (Nat × List (Fin 256)) :=
  if bytes.length < width then none else some (getBe (bytes.take width), bytes.drop width)

theorem takeBe_append {width : Nat} {front : List (Fin 256)} (wide : front.length = width)
    (rest : List (Fin 256)) : takeBe width (front ++ rest) = some (getBe front, rest) := by
  rw [takeBe, if_neg (by rw [List.length_append]; omega), ← wide, List.take_left, List.drop_left]

theorem takeBe_putBe {width value : Nat} (fits : value < 256 ^ width) (rest : List (Fin 256)) :
    takeBe width (putBe width value ++ rest) = some (value, rest) := by
  rw [takeBe_append (length_putBe width value), getBe_putBe_of_lt fits]

/-- Take a number of bytes off the front. -/
def takeBytes (count : Nat) (bytes : List (Fin 256)) :
    Option (List (Fin 256) × List (Fin 256)) :=
  if bytes.length < count then none else some (bytes.take count, bytes.drop count)

theorem takeBytes_append (front rest : List (Fin 256)) :
    takeBytes front.length (front ++ rest) = some (front, rest) := by
  rw [takeBytes, if_neg (by rw [List.length_append]; omega), List.take_left, List.drop_left]

/-! ## Memory -/

/-- The bytes from an address on. -/
def slice (memory : Nat → Fin 256) (start len : Nat) : List (Fin 256) :=
  (List.range' start len).map memory

/-- The memory with some bytes written at an address. -/
def writeAt (memory : Nat → Fin 256) (start : Nat) (bytes : List (Fin 256)) : Nat → Fin 256 :=
  fun address =>
    if start ≤ address then (bytes[address - start]?).getD (memory address) else memory address

variable {memory other : Nat → Fin 256}

@[simp]
theorem length_slice (start len : Nat) : (slice memory start len).length = len := by
  rw [slice, List.length_map, List.length_range']

theorem slice_add (start first second : Nat) :
    slice memory start (first + second) =
      slice memory start first ++ slice memory (start + first) second := by
  rw [slice, slice, slice, ← List.map_append, List.range'_append_1]

theorem drop_slice {start skip len : Nat} (fits : skip ≤ len) :
    (slice memory start len).drop skip = slice memory (start + skip) (len - skip) := by
  have split := @slice_add memory start skip (len - skip)
  rw [Nat.add_sub_cancel' fits] at split
  rw [split, List.drop_left' (length_slice start skip)]

theorem slice_congr {start len : Nat}
    (same : ∀ address, start ≤ address → address < start + len → other address = memory address) :
    slice other start len = slice memory start len := by
  refine List.map_congr_left fun address member => ?_
  obtain ⟨low, high⟩ := List.mem_range'_1.mp member
  exact same address low high

theorem slice_of_zero {start len : Nat}
    (zero : ∀ address, start ≤ address → address < start + len → memory address = 0) :
    slice memory start len = List.replicate len 0 := by
  refine List.eq_replicate_iff.mpr ⟨length_slice start len, fun byte member => ?_⟩
  obtain ⟨address, inside, rfl⟩ := List.mem_map.mp member
  obtain ⟨low, high⟩ := List.mem_range'_1.mp inside
  exact zero address low high

theorem writeAt_of_lt (bytes : List (Fin 256)) {start address : Nat} (before : address < start) :
    writeAt memory start bytes address = memory address :=
  if_neg (Nat.not_le.mpr before)

theorem writeAt_of_le {bytes : List (Fin 256)} {start address : Nat}
    (behind : start + bytes.length ≤ address) :
    writeAt memory start bytes address = memory address := by
  rw [writeAt, if_pos (by omega), List.getElem?_eq_none (by omega), Option.getD_none]

/-- What was written is read back. -/
theorem slice_writeAt (start : Nat) (bytes : List (Fin 256)) :
    slice (writeAt memory start bytes) start bytes.length = bytes := by
  refine List.ext_getElem (length_slice _ _) fun index _ inside => ?_
  simp [slice, writeAt, List.getElem_range', inside]

end Tidehunter.Library
