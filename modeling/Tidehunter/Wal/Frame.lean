import Tidehunter.Wal.Format

/-!
# Frames

A frame is a payload behind its length and its checksum. Space that was never written reads
as a length of zero, and no payload is that short: the checksum of nothing is not zero, and
the reader that does not verify checksums refuses an empty payload. A skip marker has the
largest length and checksum, and no frame is that long.

The checksum is a parameter: nothing here depends on which function it is.
-/

namespace Tidehunter.Wal.Format

open Library

inductive CrcReadError where
  | outOfBoundsHeader
  | outOfBoundsBody (len : Nat)
  | crcMismatch
  | skipMarker
  deriving DecidableEq, Repr

namespace CrcFrame

/-- Frames are smaller than a gibibyte, two bits of their length are used elsewhere. -/
def maxFrameSize : Nat := 2 ^ 30

variable (crc32 : Bytes → UInt32)

def crc (b : Bytes) : Nat := if b = [] then u32Max else (crc32 b).toNat

/-- The frame of a payload whose length was given beforehand. -/
def new (len : Nat) (payload : Bytes) : Bytes :=
  putBe 4 len ++ (putBe 4 (crc crc32 payload) ++ payload)

def skipMarker : Bytes := List.replicate 8 255

def dataRange (b : Bytes) (pos len : Nat) : Bytes := (b.drop (pos + crcHeaderLength)).take len

/-- Length and checksum at a place. -/
def header (b : Bytes) (pos : Nat) : Nat × Nat :=
  (getBe ((b.drop pos).take 4), getBe (((b.drop pos).drop 4).take 4))

def checkedRead (b : Bytes) (pos : Nat) : Except CrcReadError Nat :=
  if b.length < pos + crcHeaderLength then .error .outOfBoundsHeader
  else
    let (len, expected) := header b pos
    if len = u32Max ∧ expected = u32Max then .error .skipMarker
    else if b.length < pos + crcHeaderLength + len then .error (.outOfBoundsBody len)
    else if crc crc32 (dataRange b pos len) = expected then .ok len
    else .error .crcMismatch

/-- Like a checked read, without the checksum. -/
def parseHeader (b : Bytes) (pos : Nat) : Except CrcReadError Nat :=
  if b.length < pos + crcHeaderLength then .error .outOfBoundsHeader
  else
    let (len, expected) := header b pos
    if len = u32Max ∧ expected = u32Max then .error .skipMarker
    else if len = 0 then .error .crcMismatch
    else if b.length < pos + crcHeaderLength + len then .error (.outOfBoundsBody len)
    else .ok len

def readFromBytes (b : Bytes) (pos : Nat) : Except CrcReadError Bytes :=
  (checkedRead crc32 b pos).map (dataRange b pos)

def readUncheckedFromBytes (b : Bytes) (pos : Nat) : Except CrcReadError Bytes :=
  (parseHeader b pos).map (dataRange b pos)

/-- The read of an iterator, which may skip checksums. -/
def read (skipCrc : Bool) (b : Bytes) (pos : Nat) : Except CrcReadError Bytes :=
  if skipCrc then readUncheckedFromBytes b pos else readFromBytes crc32 b pos

variable {crc32}

theorem crc_lt (b : Bytes) : crc crc32 b < 256 ^ 4 := by
  unfold crc
  split
  · decide
  · exact (crc32 b).toNat_lt

@[simp]
theorem length_new (len : Nat) (payload : Bytes) :
    (new crc32 len payload).length = payload.length + crcHeaderLength := by
  rw [new, List.length_append, List.length_append, length_putBe, length_putBe, crcHeaderLength]
  omega

/-- The header of bytes that start with two numbers, and what is behind it. -/
theorem header_of_drop {b rest : Bytes} {pos len expected : Nat} (lenFits : len < 256 ^ 4)
    (crcFits : expected < 256 ^ 4)
    (found : b.drop pos = putBe 4 len ++ (putBe 4 expected ++ rest)) :
    header b pos = (len, expected) ∧ b.drop (pos + crcHeaderLength) = rest ∧
      b.length = pos + crcHeaderLength + rest.length := by
  refine ⟨?_, ?_, ?_⟩
  · rw [header, found, List.take_left' (length_putBe 4 len), List.drop_left' (length_putBe 4 len),
      List.take_left' (length_putBe 4 expected), getBe_putBe_of_lt lenFits,
      getBe_putBe_of_lt crcFits]
  · rw [crcHeaderLength, ← List.drop_drop, found, ← List.append_assoc, List.drop_left']
    rw [List.length_append, length_putBe, length_putBe]
  · have total := congrArg List.length found
    rw [List.length_drop, List.length_append, List.length_append, length_putBe,
      length_putBe] at total
    rw [crcHeaderLength]
    omega

/-- A frame is read back, with or without its checksum. -/
theorem read_new {b payload rest : Bytes} {pos : Nat} (skipCrc : Bool) (nonempty : payload ≠ [])
    (small : payload.length < u32Max)
    (found : b.drop pos = new crc32 payload.length payload ++ rest) :
    read crc32 skipCrc b pos = .ok payload := by
  rw [new, List.append_assoc, List.append_assoc] at found
  have fits : payload.length < 256 ^ 4 := by
    rw [u32Max] at small
    omega
  obtain ⟨head, behind, total⟩ := header_of_drop fits (crc_lt payload) found
  have inHeader : ¬b.length < pos + crcHeaderLength := by omega
  have inBody : ¬b.length < pos + crcHeaderLength + payload.length := by
    rw [total, List.length_append]
    omega
  have noMarker : ¬(payload.length = u32Max ∧ crc crc32 payload = u32Max) := fun both =>
    absurd both.1 (Nat.ne_of_lt small)
  have data : dataRange b pos payload.length = payload := by
    rw [dataRange, behind, List.take_left]
  have positive : payload.length ≠ 0 := fun zero => nonempty (List.length_eq_zero_iff.mp zero)
  cases skipCrc with
  | true =>
      simp only [read, if_true, readUncheckedFromBytes, parseHeader, if_neg inHeader, head,
        if_neg noMarker, if_neg positive, if_neg inBody, Except.map, data]
  | false =>
      simp only [read, Bool.false_eq_true, if_false, readFromBytes, checkedRead, if_neg inHeader,
        head, if_neg noMarker, if_neg inBody, data, if_true, Except.map]

theorem skipMarker_eq : skipMarker = putBe 4 u32Max ++ putBe 4 u32Max := by decide

theorem read_skipMarker {b rest : Bytes} {pos : Nat} (skipCrc : Bool)
    (found : b.drop pos = skipMarker ++ rest) :
    read crc32 skipCrc b pos = .error .skipMarker := by
  rw [skipMarker_eq, List.append_assoc] at found
  obtain ⟨head, -, total⟩ := header_of_drop (by decide) (by decide) found
  have inHeader : ¬b.length < pos + crcHeaderLength := by omega
  cases skipCrc <;>
    simp [read, readUncheckedFromBytes, parseHeader, readFromBytes, checkedRead, inHeader, head,
      Except.map]

/-- Space that was never written fails every read. -/
theorem read_zeroed {b rest : Bytes} {pos : Nat} (skipCrc : Bool)
    (found : b.drop pos = List.replicate crcHeaderLength 0 ++ rest) :
    read crc32 skipCrc b pos = .error .crcMismatch := by
  have zeros : List.replicate crcHeaderLength (0 : Byte) = putBe 4 0 ++ putBe 4 0 := by decide
  rw [zeros, List.append_assoc] at found
  obtain ⟨head, behind, total⟩ := header_of_drop (by decide) (by decide) found
  have inHeader : ¬b.length < pos + crcHeaderLength := by omega
  have noMarker : ¬(0 = u32Max ∧ 0 = u32Max) := by decide
  have mismatch : ¬crc crc32 (dataRange b pos 0) = 0 := by
    rw [dataRange, List.take_zero, crc, if_pos rfl]
    decide
  cases skipCrc with
  | true =>
      simp only [read, if_true, readUncheckedFromBytes, parseHeader, if_neg inHeader, head,
        if_neg noMarker, Except.map]
  | false =>
      simp only [read, Bool.false_eq_true, if_false, readFromBytes, checkedRead, if_neg inHeader,
        head, if_neg noMarker, Nat.add_zero, if_neg mismatch, Except.map]

end CrcFrame

/-- The frame of an entry. None is a panic. -/
def prepare (crc32 : Bytes → UInt32) (entry : WalEntry) : Option Bytes :=
  entry.writeIntoBytes.map (CrcFrame.new crc32 entry.len)

/-- A frame as an entry leaves it: its payload decodes to the entry. -/
theorem exists_prepare {crc32 : Bytes → UInt32} {entry : WalEntry} (encodable : entry.Encodable) :
    ∃ payload, prepare crc32 entry = some (CrcFrame.new crc32 payload.length payload) ∧
      payload.length = entry.len ∧ WalEntry.fromBytes payload = some entry := by
  obtain ⟨payload, encoded⟩ := WalEntry.exists_writeIntoBytes encodable
  have length := WalEntry.length_of_writeIntoBytes encoded
  refine ⟨payload, ?_, length, WalEntry.fromBytes_writeIntoBytes encodable encoded⟩
  rw [prepare, encoded, length]
  rfl

end Tidehunter.Wal.Format
