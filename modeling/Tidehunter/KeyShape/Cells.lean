import Tidehunter.Index.HeaderFormat
import Tidehunter.Index.UniformFormat
import Tidehunter.Library.ByteOrder
import Tidehunter.Wal.Log
import Mathlib

/-!
# Cells of a key space

A key space places its keys in cells. A uniform key space scales the first four bytes of a
key down to the number of its cells; a prefixed one takes the first bytes of a key, with the
low bits of the last of them cleared. The cells follow the order of the keys, and inside a
cell the micro cells of the header format do too.
-/

namespace Tidehunter.KeyShape

open Library Wal Index

/-! ## Cell ids -/

inductive CellId where
  | integer (cell : Nat)
  | bytes (cell : Bytes)
  deriving DecidableEq, Repr

namespace CellId

/-- A key space has ids of one kind; ids of different kinds are not compared. -/
def toLex : CellId → Nat ⊕ₗ Bytes
  | integer cell => Sum.inlₗ cell
  | bytes cell => Sum.inrₗ cell

theorem toLex_injective : Function.Injective toLex := by
  intro first second same
  cases first <;> cases second <;> simp_all [toLex, Sum.inlₗ, Sum.inrₗ]

instance : LinearOrder CellId := LinearOrder.lift' toLex toLex_injective

@[simp]
theorem integer_le_integer {first second : Nat} : integer first ≤ integer second ↔ first ≤ second :=
  Sum.Lex.inl_le_inl_iff

@[simp]
theorem bytes_le_bytes {first second : Bytes} : bytes first ≤ bytes second ↔ first ≤ second :=
  Sum.Lex.inr_le_inr_iff

@[simp]
theorem integer_lt_integer {first second : Nat} : integer first < integer second ↔ first < second :=
  Sum.Lex.inl_lt_inl_iff

end CellId

/-! ## Numbers at the start of a key -/

def startingU32 (key : Bytes) : Nat := leadingBe 4 key

def startingU64 (key : Bytes) : Nat := leadingBe 8 key

def rescaleU32 (value fromUpperBoundExclusive toUpperBoundExclusive : Nat) : Nat :=
  value * toUpperBoundExclusive / fromUpperBoundExclusive

def maxU32PlusOne : Nat := 2 ^ 32

def downscaleU32 (value upperBoundExclusive : Nat) : Nat :=
  rescaleU32 value maxU32PlusOne upperBoundExclusive

theorem startingU32_lt (key : Bytes) : startingU32 key < maxU32PlusOne :=
  leadingBe_lt 4 key

theorem rescaleU32_lt {value bound target : Nat} (less : value < bound) (pos : 0 < target) :
    rescaleU32 value bound target < target :=
  (Nat.div_lt_iff_lt_mul (Nat.zero_lt_of_lt less)).mpr
    (Nat.mul_comm target bound ▸ Nat.mul_lt_mul_of_pos_right less pos)

theorem rescaleU32_mono {value other : Nat} (le : value ≤ other) (bound target : Nat) :
    rescaleU32 value bound target ≤ rescaleU32 other bound target :=
  Nat.div_le_div_right (Nat.mul_le_mul_right target le)

/-! ## Key types -/

theorem one_eq_two_pow : ∃ exponent, 1 = 2 ^ exponent := ⟨0, rfl⟩

structure UniformKeyConfig where
  cellsPerMutex : Nat
  powerOfTwo : ∃ exponent, cellsPerMutex = 2 ^ exponent

structure PrefixedUniformKeyConfig where
  prefixLenBytes : Nat
  clusterBits : Nat
  prefixLenBytes_pos : 0 < prefixLenBytes
  clusterBits_lt : clusterBits < 8

namespace PrefixedUniformKeyConfig

variable (config : PrefixedUniformKeyConfig)

def makeResetMask (clusterBits : Nat) : Byte := Fin.ofNat 256 (255 - (2 ^ clusterBits - 1))

def resetMask : Byte := makeResetMask config.clusterBits

def hasClusterBits : Bool := config.resetMask ≠ 255

/-- The bytes at the start of a key that are the same in the whole cell. -/
def discardPrefixBytes : Nat :=
  if config.hasClusterBits then config.prefixLenBytes - 1 else config.prefixLenBytes

/-- Clear the low bits of the last byte of the prefix. -/
def cluster (byte : Byte) : Byte := byte &&& config.resetMask

/-- The bytes that share their high bits with this one, as the first and the last of them. -/
def prefixRangeU8 (lastByte : Byte) : Byte × Byte :=
  let minByte := lastByte &&& config.resetMask
  (minByte, minByte + (255 - config.resetMask))

/-- The range of the numbers behind the common bytes of a cell. -/
def prefixRange (lastByte : Byte) : Nat × Nat :=
  if config.hasClusterBits then
    let range := config.prefixRangeU8 lastByte
    (range.1.val * 2 ^ 24, range.2.val * 2 ^ 24 + 2 ^ 24)
  else (0, maxU32PlusOne)

end PrefixedUniformKeyConfig

inductive KeyType where
  | uniform (config : UniformKeyConfig)
  | prefixedUniform (config : PrefixedUniformKeyConfig)

/-- How a key space is divided into cells. -/
structure CellShape where
  mutexes : Nat
  keyType : KeyType
  powerOfTwo : ∃ exponent, mutexes = 2 ^ exponent
  /-- The number of cells of a uniform key space is a machine number. -/
  fits : ∀ config, keyType = .uniform config → config.cellsPerMutex * mutexes < maxU32PlusOne

namespace CellShape

variable (shape : CellShape)

def numCells (config : UniformKeyConfig) : Nat := config.cellsPerMutex * shape.mutexes

/-- The cell of a key. A prefixed key space has no cell for a key shorter than its prefix. -/
def cellId (key : Bytes) : Option CellId :=
  match shape.keyType with
  | .uniform config => some (.integer (downscaleU32 (startingU32 key) (shape.numCells config)))
  | .prefixedUniform config =>
      (key[config.prefixLenBytes - 1]?).map fun last =>
        .bytes (key.take (config.prefixLenBytes - 1) ++ [config.cluster last])

def firstCell : CellId :=
  match shape.keyType with
  | .uniform _ => .integer 0
  | .prefixedUniform config => .bytes (List.replicate config.prefixLenBytes 0)

def lastCell : CellId :=
  match shape.keyType with
  | .uniform config => .integer (shape.numCells config - 1)
  | .prefixedUniform config => .bytes (List.replicate config.prefixLenBytes 255)

/-- A key without the bytes that its whole cell shares. -/
def indexPrefix (key : Bytes) : Bytes :=
  match shape.keyType with
  | .uniform _ => key
  | .prefixedUniform config => key.drop config.discardPrefixBytes

def indexPrefixU32 (key : Bytes) : Nat := startingU32 (shape.indexPrefix key)

def indexPrefixU64 (key : Bytes) : Nat := startingU64 (shape.indexPrefix key)

/-- The range of the prefix numbers of a cell; nothing for an id of the other kind. -/
def indexPrefixRange (cell : CellId) : Option (Nat × Nat) :=
  match shape.keyType, cell with
  | .uniform config, .integer cell =>
      let cellSize := maxU32PlusOne / shape.numCells config
      some (cell * cellSize, (cell + 1) * cellSize)
  | .prefixedUniform config, .bytes cell => cell.getLast?.map config.prefixRange
  | .uniform _, .bytes _ => none
  | .prefixedUniform _, .integer _ => none

/-- The prefix range of the cell of a key. -/
def cellPrefixRange (key : Bytes) : Option (Nat × Nat) :=
  (shape.cellId key).bind shape.indexPrefixRange

/-- The micro cell of a key in the header format. -/
def keyMicroCell (key : Bytes) : Nat :=
  match shape.cellPrefixRange key with
  | some (start, stop) =>
      rescaleU32 (shape.indexPrefixU32 key - start) (stop - start) headerElements
  | none => 0

/-- The least prefix of eight bytes of a cell, and the width of the range. -/
def longPrefixRange (range : Nat × Nat) : Nat × Nat :=
  let start := min (range.1 * 2 ^ 32) u64Max
  let stop := min (range.2 * 2 ^ 32) u64Max
  (start, stop - start)

/-- The place of a key in the prefix range of its cell, for the estimate of the uniform format. -/
def prefixPos (key : Bytes) : Nat :=
  match shape.cellPrefixRange key with
  | some range => shape.indexPrefixU64 key - (longPrefixRange range).1
  | none => 0

def cellWidth (key : Bytes) : Nat :=
  match shape.cellPrefixRange key with
  | some range => (longPrefixRange range).2
  | none => 0

end CellShape

/-! ## The cells follow the order of the keys -/

namespace PrefixedUniformKeyConfig

variable (config : PrefixedUniformKeyConfig)

theorem masks : ∀ bits : Fin 8, ∀ byte : Byte,
    (byte &&& makeResetMask bits.val).val = byte.val / 2 ^ bits.val * 2 ^ bits.val := by
  decide +kernel

theorem cluster_val (byte : Byte) :
    (config.cluster byte).val = byte.val / 2 ^ config.clusterBits * 2 ^ config.clusterBits :=
  masks ⟨config.clusterBits, config.clusterBits_lt⟩ byte

theorem cluster_mono : Monotone config.cluster := by
  intro byte other le
  rw [Fin.le_def, cluster_val, cluster_val]
  exact Nat.mul_le_mul_right _ (Nat.div_le_div_right le)

theorem masks_again : ∀ bits : Fin 8, ∀ byte : Byte,
    (byte &&& makeResetMask bits.val) &&& makeResetMask bits.val =
        byte &&& makeResetMask bits.val ∧
      byte ≤ (byte &&& makeResetMask bits.val) + (255 - makeResetMask bits.val) := by
  decide +kernel

/-- A number that starts with a byte is in the range of the bytes of its cluster. -/
theorem mem_prefixRange (byte : Byte) (rest : Bytes) :
    (config.prefixRangeU8 (config.cluster byte)).1.val * 2 ^ 24 ≤ startingU32 (byte :: rest) ∧
      startingU32 (byte :: rest) <
        (config.prefixRangeU8 (config.cluster byte)).2.val * 2 ^ 24 + 2 ^ 24 := by
  obtain ⟨again, upTo⟩ := masks_again ⟨config.clusterBits, config.clusterBits_lt⟩ byte
  have first : (config.prefixRangeU8 (config.cluster byte)).1 = config.cluster byte := again
  have last : byte ≤ (config.prefixRangeU8 (config.cluster byte)).2 := by
    refine upTo.trans_eq ?_
    simp only [prefixRangeU8, cluster, resetMask, again]
  have value : startingU32 (byte :: rest) = byte.val * 2 ^ 24 + leadingBe 3 rest := rfl
  have small : leadingBe 3 rest < 2 ^ 24 := leadingBe_lt 3 rest
  have below : (config.cluster byte).val ≤ byte.val := by
    rw [cluster_val]
    exact Nat.div_mul_le_self _ _
  rw [first, value]
  rw [Fin.le_def] at last
  constructor <;> omega

/-- Without cluster bits the prefix is the same in the whole cell. -/
theorem cluster_of_not_hasClusterBits (without : config.hasClusterBits = false) (byte : Byte) :
    config.cluster byte = byte := by
  have mask : config.resetMask = 255 := by simpa [hasClusterBits] using without
  have full : ∀ byte : Byte, byte &&& 255 = byte := by decide +kernel
  rw [cluster, mask, full]

end PrefixedUniformKeyConfig

namespace CellShape

variable {shape : CellShape}

theorem cellId_uniform {config : UniformKeyConfig} (uniform : shape.keyType = .uniform config)
    (key : Bytes) :
    shape.cellId key = some (.integer (downscaleU32 (startingU32 key) (shape.numCells config))) := by
  simp only [cellId, uniform]

theorem cellId_prefixed {config : PrefixedUniformKeyConfig}
    (prefixed : shape.keyType = .prefixedUniform config) {key : Bytes} {cell : CellId}
    (at_ : shape.cellId key = some cell) :
    ∃ last, key[config.prefixLenBytes - 1]? = some last ∧
      cell = .bytes (key.take (config.prefixLenBytes - 1) ++ [config.cluster last]) := by
  simp only [cellId, prefixed, Option.map_eq_some_iff] at at_
  obtain ⟨last, atLast, rfl⟩ := at_
  exact ⟨last, atLast, rfl⟩

theorem numCells_pos (config : UniformKeyConfig) : 0 < shape.numCells config := by
  obtain ⟨first, firstEq⟩ := config.powerOfTwo
  obtain ⟨second, secondEq⟩ := shape.powerOfTwo
  rw [numCells, firstEq, secondEq]
  exact Nat.mul_pos (Nat.two_pow_pos _) (Nat.two_pow_pos _)

theorem cellId_mono {key other : Bytes} {cell otherCell : CellId} (le : key ≤ other)
    (ofKey : shape.cellId key = some cell) (ofOther : shape.cellId other = some otherCell) :
    cell ≤ otherCell := by
  cases type : shape.keyType with
  | uniform config =>
      rw [cellId_uniform type] at ofKey ofOther
      rw [← Option.some.inj ofKey, ← Option.some.inj ofOther, CellId.integer_le_integer]
      exact rescaleU32_mono (leadingBe_mono 4 le) _ _
  | prefixedUniform config =>
      obtain ⟨last, atLast, rfl⟩ := cellId_prefixed type ofKey
      obtain ⟨otherLast, atOtherLast, rfl⟩ := cellId_prefixed type ofOther
      rw [CellId.bytes_le_bytes]
      exact take_append_le config.cluster_mono _ le atLast atOtherLast

theorem length_prefixed {config : PrefixedUniformKeyConfig} {key : Bytes} {last : Byte}
    (atLast : key[config.prefixLenBytes - 1]? = some last) :
    (key.take (config.prefixLenBytes - 1) ++ [config.cluster last]).length =
      config.prefixLenBytes := by
  have within := (List.getElem?_eq_some_iff.mp atLast).1
  have pos := config.prefixLenBytes_pos
  simp only [List.length_append, List.length_take, List.length_singleton]
  omega

/-- Whether a key has a cell is up to its length. -/
theorem cellId_ne_none_of_length {key other : Bytes} (length : key.length = other.length)
    (located : shape.cellId key ≠ none) : shape.cellId other ≠ none := by
  unfold cellId at located ⊢
  cases type : shape.keyType with
  | uniform config => exact nofun
  | prefixedUniform config =>
      simp only [type, ne_eq, Option.map_eq_none_iff, List.getElem?_eq_none_iff] at located ⊢
      rwa [← length]

/-- A string of zeros is in the first of the cells. -/
theorem cellId_zeros_le {count : Nat} {key : Bytes} {first cell : CellId}
    (ofZeros : shape.cellId (List.replicate count 0) = some first)
    (ofKey : shape.cellId key = some cell) : first ≤ cell := by
  cases type : shape.keyType with
  | uniform config =>
      rw [cellId_uniform type, startingU32, leadingBe_replicate_zero] at ofZeros
      rw [cellId_uniform type] at ofKey
      rw [← Option.some.inj ofZeros, ← Option.some.inj ofKey, CellId.integer_le_integer]
      exact rescaleU32_mono (Nat.zero_le _) _ _
  | prefixedUniform config =>
      obtain ⟨zero, atZero, rfl⟩ := cellId_prefixed type ofZeros
      obtain ⟨last, atLast, rfl⟩ := cellId_prefixed type ofKey
      have within : config.prefixLenBytes - 1 < count :=
        (List.getElem?_eq_some_iff.mp atZero).1.trans_eq List.length_replicate
      rw [List.getElem?_replicate_of_lt within] at atZero
      obtain rfl := Option.some.inj atZero
      have zeros : List.take (config.prefixLenBytes - 1) (List.replicate count (0 : Byte)) ++
          [config.cluster 0] = List.replicate config.prefixLenBytes 0 := by
        have clustered : config.cluster 0 = 0 :=
          Fin.ext ((config.cluster_val 0).trans (by rw [Fin.val_zero, Nat.zero_div, Nat.zero_mul]))
        rw [List.take_replicate, Nat.min_eq_left within.le, clustered, ← List.replicate_succ',
          Nat.sub_add_cancel config.prefixLenBytes_pos]
      rw [CellId.bytes_le_bytes, zeros]
      exact replicate_zero_le _ (length_prefixed atLast)

theorem firstCell_le {key : Bytes} {cell : CellId} (ofKey : shape.cellId key = some cell) :
    shape.firstCell ≤ cell := by
  cases type : shape.keyType with
  | uniform config =>
      rw [cellId_uniform type] at ofKey
      simp only [firstCell, type, ← Option.some.inj ofKey, CellId.integer_le_integer, Nat.zero_le]
  | prefixedUniform config =>
      obtain ⟨last, atLast, rfl⟩ := cellId_prefixed type ofKey
      simp only [firstCell, type, CellId.bytes_le_bytes]
      exact replicate_zero_le _ (length_prefixed atLast)

theorem le_lastCell {key : Bytes} {cell : CellId} (ofKey : shape.cellId key = some cell) :
    cell ≤ shape.lastCell := by
  cases type : shape.keyType with
  | uniform config =>
      rw [cellId_uniform type] at ofKey
      simp only [lastCell, type, ← Option.some.inj ofKey, CellId.integer_le_integer]
      exact Nat.le_sub_one_of_lt (rescaleU32_lt (startingU32_lt key) (numCells_pos config))
  | prefixedUniform config =>
      obtain ⟨last, atLast, rfl⟩ := cellId_prefixed type ofKey
      simp only [lastCell, type, CellId.bytes_le_bytes]
      exact le_replicate_max _ (length_prefixed atLast)

/-! ## The micro cells follow the order inside a cell -/

/-- Inside a cell the prefix behind the common bytes follows the order of the keys. -/
theorem indexPrefix_le {key other : Bytes} {cell : CellId} (le : key ≤ other)
    (ofKey : shape.cellId key = some cell) (ofOther : shape.cellId other = some cell) :
    shape.indexPrefix key ≤ shape.indexPrefix other := by
  cases type : shape.keyType with
  | uniform config => simpa only [indexPrefix, type] using le
  | prefixedUniform config =>
      obtain ⟨last, atLast, rfl⟩ := cellId_prefixed type ofKey
      obtain ⟨otherLast, atOtherLast, same⟩ := cellId_prefixed type ofOther
      obtain ⟨sameFront, sameLast⟩ := List.append_inj' (CellId.bytes.inj same) rfl
      simp only [indexPrefix, type]
      refine drop_le_drop _ le ?_
      rw [PrefixedUniformKeyConfig.discardPrefixBytes]
      cases clusters : config.hasClusterBits with
      | true => simpa using sameFront
      | false =>
          rw [List.singleton_inj, config.cluster_of_not_hasClusterBits clusters,
            config.cluster_of_not_hasClusterBits clusters] at sameLast
          obtain ⟨front, frontEq⟩ : ∃ front, config.prefixLenBytes = front + 1 :=
            ⟨_, (Nat.sub_add_cancel config.prefixLenBytes_pos).symm⟩
          rw [frontEq, Nat.add_sub_cancel] at sameFront atLast atOtherLast
          simp only [Bool.false_eq_true, if_false, frontEq]
          rw [List.take_add_one, List.take_add_one, sameFront, atLast, atOtherLast, sameLast]

/-- The prefix of a key is in the range of its cell. -/
theorem indexPrefixU32_mem {key : Bytes} {cell : CellId} (ofKey : shape.cellId key = some cell) :
    ∃ start stop, shape.indexPrefixRange cell = some (start, stop) ∧
      start ≤ shape.indexPrefixU32 key ∧ shape.indexPrefixU32 key < stop := by
  cases type : shape.keyType with
  | uniform config =>
      rw [cellId_uniform type] at ofKey
      obtain rfl := Option.some.inj ofKey
      simp only [indexPrefixRange, type, indexPrefixU32, indexPrefix]
      obtain ⟨exponent, exponentEq⟩ : ∃ exponent, shape.numCells config = 2 ^ exponent := by
        obtain ⟨first, firstEq⟩ := config.powerOfTwo
        obtain ⟨second, secondEq⟩ := shape.powerOfTwo
        exact ⟨first + second, by rw [numCells, firstEq, secondEq, Nat.pow_add]⟩
      have small : exponent < 32 :=
        (Nat.pow_lt_pow_iff_right (a := 2) (by decide)).mp (by
          rw [← exponentEq]
          exact shape.fits config type)
      have whole : maxU32PlusOne = 2 ^ (32 - exponent) * 2 ^ exponent := by
        rw [maxU32PlusOne, ← Nat.pow_add, Nat.sub_add_cancel small.le]
      have size : maxU32PlusOne / 2 ^ exponent = 2 ^ (32 - exponent) := by
        rw [whole, Nat.mul_div_cancel _ (Nat.two_pow_pos _)]
      have scaled : downscaleU32 (startingU32 key) (2 ^ exponent) =
          startingU32 key / 2 ^ (32 - exponent) := by
        rw [downscaleU32, rescaleU32, whole, Nat.mul_div_mul_right _ _ (Nat.two_pow_pos _)]
      rw [exponentEq, size, scaled]
      refine ⟨_, _, rfl, Nat.div_mul_le_self _ _, ?_⟩
      rw [Nat.succ_mul]
      exact Nat.lt_div_mul_add (Nat.two_pow_pos _)
  | prefixedUniform config =>
      obtain ⟨last, atLast, rfl⟩ := cellId_prefixed type ofKey
      simp only [indexPrefixRange, type, indexPrefixU32, indexPrefix, List.getLast?_append,
        List.getLast?_singleton, Option.some_or, Option.map_some,
        PrefixedUniformKeyConfig.prefixRange, PrefixedUniformKeyConfig.discardPrefixBytes]
      cases clusters : config.hasClusterBits with
      | false => exact ⟨_, _, rfl, Nat.zero_le _, startingU32_lt _⟩
      | true =>
          have dropped : key.drop (config.prefixLenBytes - 1) =
              last :: key.drop (config.prefixLenBytes - 1 + 1) := by
            obtain ⟨within, atPlace⟩ := List.getElem?_eq_some_iff.mp atLast
            rw [List.drop_eq_getElem_cons within, atPlace]
          rw [if_pos rfl, if_pos rfl, dropped]
          exact ⟨_, _, rfl, config.mem_prefixRange last _⟩

theorem orders_cell (cell : CellId) {index : LookupHeaderIndex Bytes}
    (micro : index.keyMicroCell = shape.keyMicroCell) :
    index.Orders fun key => shape.cellId key = some cell := by
  constructor
  · intro key ofKey
    obtain ⟨start, stop, range, above, below⟩ := indexPrefixU32_mem ofKey
    simp only [micro, keyMicroCell, cellPrefixRange, ofKey, Option.bind_some, range]
    exact rescaleU32_lt (by omega) (by decide)
  · intro key other ofKey ofOther le
    obtain ⟨start, stop, range, -, -⟩ := indexPrefixU32_mem ofKey
    simp only [micro, keyMicroCell, cellPrefixRange, ofKey, ofOther, Option.bind_some, range]
    exact rescaleU32_mono
      (Nat.sub_le_sub_right (leadingBe_mono 4 (indexPrefix_le le ofKey ofOther)) _) _ _

end CellShape

end Tidehunter.KeyShape
