import Tidehunter.Library.Bytes
import Tidehunter.Wal.Log

/-!
# Entries as bytes

An entry starts with a byte that says what it is, and each kind lays out its fields behind
it. Lengths that are not given run to the end of the payload. Decoding stops with a panic on
bytes that no entry starts with and on a payload that is too short.
-/

namespace Tidehunter.Wal.Format

open Library

/-- Largest 16-bit value. -/
def u16Max : Nat := 2 ^ 16 - 1

/-- Take a byte off the front. -/
def takeByte : Bytes → Option (Byte × Bytes)
  | [] => none
  | byte :: rest => some (byte, rest)

/-! ## Cell ids -/

inductive CellId where
  | integer (value : UInt64)
  | bytes (data : Bytes)
  deriving DecidableEq, Repr

namespace CellId

def cellIdInteger : Byte := 0

def cellIdBytes : Byte := 1

def len : CellId → Nat
  | .integer _ => 1 + 8
  | .bytes data => 1 + 2 + data.length

/-- The bytes of a cell id. None is the panic on a prefix whose length has no 16 bits. -/
def writeIntoBytes : CellId → Option Bytes
  | .integer value => some (cellIdInteger :: putBe 8 value.toNat)
  | .bytes data =>
      if data.length ≤ u16Max then some (cellIdBytes :: putBe 2 data.length ++ data) else none

def fromBytes (b : Bytes) : Option (CellId × Bytes) := do
  let (cellType, b) ← takeByte b
  if cellType = cellIdInteger then do
    let (value, b) ← takeBe 8 b
    return (.integer (UInt64.ofNat value), b)
  else if cellType = cellIdBytes then do
    let (len, b) ← takeBe 2 b
    let (data, b) ← takeBytes len b
    return (.bytes data, b)
  else none

/-- The length of a cell id can be written down. -/
def Encodable : CellId → Prop
  | .integer _ => True
  | .bytes data => data.length ≤ u16Max

theorem length_of_writeIntoBytes {cell : CellId} {written : Bytes}
    (encoded : cell.writeIntoBytes = some written) : written.length = cell.len := by
  cases cell with
  | integer value =>
      cases encoded
      rw [List.length_cons, length_putBe, len, Nat.add_comm]
  | bytes data =>
      simp only [writeIntoBytes] at encoded
      split at encoded
      · cases encoded
        rw [List.length_append, List.length_cons, length_putBe, len]
      · cases encoded

theorem exists_writeIntoBytes {cell : CellId} (encodable : cell.Encodable) :
    ∃ written, cell.writeIntoBytes = some written := by
  cases cell with
  | integer value => exact ⟨_, rfl⟩
  | bytes data => exact ⟨_, if_pos encodable⟩

theorem fromBytes_writeIntoBytes {cell : CellId} {written : Bytes}
    (encoded : cell.writeIntoBytes = some written) (rest : Bytes) :
    fromBytes (written ++ rest) = some (cell, rest) := by
  cases cell with
  | integer value =>
      cases encoded
      have fits : value.toNat < 256 ^ 8 := value.toNat_lt
      simp only [fromBytes, takeByte, List.cons_append, Option.bind_eq_bind, Option.bind_some, if_true,
        takeBe_putBe fits, UInt64.ofNat_toNat]
      rfl
  | bytes data =>
      simp only [writeIntoBytes] at encoded
      split at encoded
      · rename_i short
        cases encoded
        have fits : data.length < 256 ^ 2 := by
          rw [u16Max] at short
          omega
        have other : ¬cellIdBytes = cellIdInteger := by decide
        simp only [fromBytes, takeByte, List.cons_append, List.append_assoc, Option.bind_eq_bind,
          Option.bind_some, if_neg other, if_true, takeBe_putBe fits, takeBytes_append]
        rfl
      · cases encoded

end CellId

/-! ## Entries -/

inductive BatchCodec where
  | lz4
  deriving DecidableEq, Repr

def BatchCodec.toU8 : BatchCodec → Byte
  | .lz4 => 1

def BatchCodec.fromU8 (byte : Byte) : Option BatchCodec := if byte = 1 then some .lz4 else none

/-- An entry of a log with all its fields, as it is written. -/
inductive WalEntry where
  | record (ks : Byte) (key value : Bytes) (relocated : Bool)
  | index (ks : Byte) (data : Bytes)
  | remove (ks : Byte) (key : Bytes)
  | batchStart (size : UInt32)
  | dropCells (ks : Byte) (fromCell toCell : CellId)
  | compressedBatch (codec : BatchCodec) (uncompressedLen : UInt32) (body : Bytes)
  deriving DecidableEq, Repr

namespace WalEntry

def walEntryRecord : Byte := 1

def walEntryIndex : Byte := 2

def walEntryRemove : Byte := 3

def walEntryBatchStart : Byte := 4

def walEntryRelocatedRecord : Byte := 5

def walEntryDropCells : Byte := 6

def walEntryCompressedBatch : Byte := 7

def recordLen (key value : Bytes) : Nat := 1 + 1 + 2 + key.length + value.length

def len : WalEntry → Nat
  | .record _ key value _ => recordLen key value
  | .index _ data => 1 + 1 + data.length
  | .remove _ key => 1 + 1 + key.length
  | .batchStart _ => 1 + 4
  | .dropCells _ fromCell toCell => 1 + 1 + fromCell.len + toCell.len
  | .compressedBatch _ _ body => 1 + 1 + 4 + body.length

/-- The bytes of an entry. Only a cell id can panic; a key that is too long is written with
a length that is cut off. -/
def writeIntoBytes : WalEntry → Option Bytes
  | .record ks key value relocated =>
      some ((if relocated then walEntryRelocatedRecord else walEntryRecord) :: ks ::
        (putBe 2 key.length ++ (key ++ value)))
  | .index ks data => some (walEntryIndex :: ks :: data)
  | .remove ks key => some (walEntryRemove :: ks :: key)
  | .batchStart size => some (walEntryBatchStart :: putBe 4 size.toNat)
  | .dropCells ks fromCell toCell => do
      let first ← fromCell.writeIntoBytes
      let last ← toCell.writeIntoBytes
      return walEntryDropCells :: ks :: (first ++ last)
  | .compressedBatch codec uncompressedLen body =>
      some (walEntryCompressedBatch :: codec.toU8 :: (putBe 4 uncompressedLen.toNat ++ body))

/-- Decode a payload. -/
def fromBytes (bytes : Bytes) : Option WalEntry := do
  let (entryType, b) ← takeByte bytes
  if entryType = walEntryRecord ∨ entryType = walEntryRelocatedRecord then do
    let (ks, b) ← takeByte b
    let (keyLen, b) ← takeBe 2 b
    let (key, value) ← takeBytes keyLen b
    return .record ks key value (entryType = walEntryRelocatedRecord)
  else if entryType = walEntryIndex then do
    let (ks, data) ← takeByte b
    return .index ks data
  else if entryType = walEntryRemove then do
    let (ks, key) ← takeByte b
    return .remove ks key
  else if entryType = walEntryBatchStart then do
    let (size, _) ← takeBe 4 b
    return .batchStart (UInt32.ofNat size)
  else if entryType = walEntryDropCells then do
    let (ks, b) ← takeByte b
    let (fromCell, b) ← CellId.fromBytes b
    let (toCell, _) ← CellId.fromBytes b
    return .dropCells ks fromCell toCell
  else if entryType = walEntryCompressedBatch then do
    let (codec, b) ← takeByte b
    let codec ← BatchCodec.fromU8 codec
    let (uncompressedLen, body) ← takeBe 4 b
    return .compressedBatch codec (UInt32.ofNat uncompressedLen) body
  else none

/-- The lengths in front of keys and cell ids can be written down. -/
def Encodable : WalEntry → Prop
  | .record _ key _ _ => key.length ≤ u16Max
  | .index _ _ => True
  | .remove _ _ => True
  | .batchStart _ => True
  | .dropCells _ fromCell toCell => fromCell.Encodable ∧ toCell.Encodable
  | .compressedBatch _ _ _ => True

theorem exists_writeIntoBytes {entry : WalEntry} (encodable : entry.Encodable) :
    ∃ written, entry.writeIntoBytes = some written := by
  cases entry with
  | record ks key value relocated => exact ⟨_, rfl⟩
  | index ks data => exact ⟨_, rfl⟩
  | remove ks key => exact ⟨_, rfl⟩
  | batchStart size => exact ⟨_, rfl⟩
  | dropCells ks fromCell toCell =>
      obtain ⟨first, firstWritten⟩ := CellId.exists_writeIntoBytes encodable.1
      obtain ⟨last, lastWritten⟩ := CellId.exists_writeIntoBytes encodable.2
      refine ⟨walEntryDropCells :: ks :: (first ++ last), ?_⟩
      rw [writeIntoBytes, firstWritten, lastWritten]
      rfl
  | compressedBatch codec uncompressedLen body => exact ⟨_, rfl⟩

/-- An entry takes as many bytes as it says beforehand. -/
theorem length_of_writeIntoBytes {entry : WalEntry} {written : Bytes}
    (encoded : entry.writeIntoBytes = some written) : written.length = entry.len := by
  cases entry with
  | record ks key value relocated =>
      cases encoded
      simp only [List.length_cons, List.length_append, length_putBe, len, recordLen]
      omega
  | index ks data =>
      cases encoded
      simp only [List.length_cons, len]
      omega
  | remove ks key =>
      cases encoded
      simp only [List.length_cons, len]
      omega
  | batchStart size =>
      cases encoded
      rw [List.length_cons, length_putBe, len, Nat.add_comm]
  | dropCells ks fromCell toCell =>
      simp only [writeIntoBytes, Option.bind_eq_bind, Option.bind_eq_some_iff] at encoded
      obtain ⟨first, firstWritten, last, lastWritten, done⟩ := encoded
      cases done
      simp only [List.length_cons, List.length_append,
        CellId.length_of_writeIntoBytes firstWritten,
        CellId.length_of_writeIntoBytes lastWritten, len]
      omega
  | compressedBatch codec uncompressedLen body =>
      cases encoded
      simp only [List.length_cons, List.length_append, length_putBe, len]
      omega

/-- Every entry decodes to itself. -/
theorem fromBytes_writeIntoBytes {entry : WalEntry} {written : Bytes}
    (encodable : entry.Encodable) (encoded : entry.writeIntoBytes = some written) :
    fromBytes written = some entry := by
  cases entry with
  | record ks key value relocated =>
      cases encoded
      have fits : key.length < 256 ^ 2 := by
        have short : key.length ≤ u16Max := encodable
        rw [u16Max] at short
        omega
      have kind : (if relocated then walEntryRelocatedRecord else walEntryRecord) =
            walEntryRecord ∨
          (if relocated then walEntryRelocatedRecord else walEntryRecord) =
            walEntryRelocatedRecord := by
        cases relocated <;> decide
      simp only [fromBytes, takeByte, Option.bind_eq_bind, Option.bind_some, if_pos kind,
        takeBe_putBe fits, takeBytes_append]
      cases relocated <;> rfl
  | index ks data =>
      cases encoded
      rfl
  | remove ks key =>
      cases encoded
      rfl
  | batchStart size =>
      cases encoded
      have fits : size.toNat < 256 ^ 4 := size.toNat_lt
      have read := takeBe_putBe fits []
      rw [List.append_nil] at read
      simp only [fromBytes, takeByte, Option.bind_eq_bind, Option.bind_some, read,
        UInt32.ofNat_toNat]
      rfl
  | dropCells ks fromCell toCell =>
      simp only [writeIntoBytes, Option.bind_eq_bind, Option.bind_eq_some_iff] at encoded
      obtain ⟨first, firstWritten, last, lastWritten, done⟩ := encoded
      cases done
      have read := CellId.fromBytes_writeIntoBytes lastWritten []
      rw [List.append_nil] at read
      simp only [fromBytes, takeByte, Option.bind_eq_bind, Option.bind_some,
        CellId.fromBytes_writeIntoBytes firstWritten, read]
      rfl
  | compressedBatch codec uncompressedLen body =>
      cases encoded
      have fits : uncompressedLen.toNat < 256 ^ 4 := uncompressedLen.toNat_lt
      have read := takeBe_putBe fits body
      cases codec
      simp only [fromBytes, takeByte, Option.bind_eq_bind, Option.bind_some, read,
        UInt32.ofNat_toNat]
      rfl

end WalEntry

end Tidehunter.Wal.Format
