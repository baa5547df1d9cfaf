import Tidehunter.Flusher.Command
import Tidehunter.Wal.Log

/-!
# Keys and records of a key space

A key space indexes its records under a reduced key: the key itself, a slice of it, or
a digest. A position found in the index is turned back into a record by reading its
frame, which holds the full key.
-/

namespace Tidehunter.Db

open Library Wal Index Flusher

/-! ## Key indexing -/

def maxKeyLen : Nat := 65535

def hashSize : Nat := 16

inductive KeyIndexing where
  | fixed (keyLength : Nat)
  | reduction (keyLength start stop : Nat)
  | variableLength
  | hash
  deriving DecidableEq, Repr

namespace KeyIndexing

/-- The key sizes that pass the check in front of every operation. -/
def checkKeySize : KeyIndexing → Nat → Bool
  | .fixed keyLength, size => size = keyLength
  | .reduction keyLength _ _, size => size = keyLength
  | .variableLength, size => size ≤ maxKeyLen
  | .hash, size => size ≤ maxKeyLen

/-- The key a record is indexed under; none is the panic of a slice out of range. -/
def reduceKey (hashKey : Bytes → Bytes) : KeyIndexing → Bytes → Option Bytes
  | .fixed _, key => some key
  | .variableLength, key => some key
  | .reduction _ start stop, key =>
      if start ≤ stop ∧ stop ≤ key.length then some ((key.drop start).take (stop - start)) else none
  | .hash, key => some (hashKey key)

/-- The size of the index keys, if they all have one. -/
def indexKeySize : KeyIndexing → Option Nat
  | .fixed keyLength => some keyLength
  | .reduction _ start stop => some (stop - start)
  | .hash => some hashSize
  | .variableLength => none

/-- Whether a record found under an index key may belong to another key. -/
def needCheckIndexKey : KeyIndexing → Bool
  | .fixed _ => false
  | .reduction _ _ _ => true
  | .hash => false
  | .variableLength => false

end KeyIndexing

/-! ## Key spaces -/

inductive Decision where
  | keep
  | remove
  | stopRelocation
  deriving DecidableEq, Repr

abbrev RelocationFilter := Bytes → Bytes → Decision

/-- A key space: how it indexes keys and maps them to cells, what its cells read, and
its relocation filter. -/
structure KeySpaceDesc where
  id : Nat
  keyIndexing : KeyIndexing
  hashKey : Bytes → Bytes
  cellId : Bytes → Nat
  config : KsConfig Bytes
  relocationFilter : Option RelocationFilter

namespace KeySpaceDesc

variable (ks : KeySpaceDesc)

def reduceKey (key : Bytes) : Option Bytes := ks.keyIndexing.reduceKey ks.hashKey key

def checkKey (key : Bytes) : Bool := ks.keyIndexing.checkKeySize key.length

end KeySpaceDesc

/-! ## Reading a record -/

/-- What a frame resolves to: one record, or the operations of a compressed batch. -/
inductive RecordFrame where
  | record (key value : Bytes)
  | batch (body : List BatchOp)
  deriving DecidableEq, Repr

/-- Resolve the frame at a position. The index never points at another kind of frame. -/
def resolveRecordFrame (log : Log) (position : WalPosition) : Option RecordFrame :=
  match log.read position with
  | some (.record _ key value _) => some (.record key value)
  | some (.compressedBatch inner _) => some (.batch inner)
  | some (.remove _ _) => none
  | some (.batchStart _) => none
  | some (.dropCells _ _ _ _) => none
  | none => none

/-- The first write of a key space in a batch whose key matches. -/
def findRecordBy (body : List BatchOp) (ks : Nat) (isMatch : Bytes → Bool) :
    Option (Bytes × Bytes) :=
  body.findSome? fun op =>
    if op.ks = ks ∧ isMatch op.key then op.value.map fun value => (op.key, value) else none

def findRecord (body : List BatchOp) (ks : Nat) (key : Bytes) : Option Bytes :=
  (findRecordBy body ks fun other => other = key).map Prod.snd

/-- The value of a key at a position. A frame just long enough for the key is an empty
value and is not read, unless it might be the record of another key or a batch. -/
def readRecordCheckKey (ks : KeySpaceDesc) (batchCodec : Bool) (log : Log) (key : Bytes)
    (position : WalPosition) : Option Bytes :=
  if !ks.keyIndexing.needCheckIndexKey && !batchCodec &&
      decide (position.payloadLen = WalEntry.recordLen key []) then some []
  else
    match resolveRecordFrame log position with
    | none => none
    | some (.record walKey value) => if walKey ≠ key then none else some value
    | some (.batch body) => findRecord body ks.id key

/-- The record behind an index key at a position. -/
def readRecordForIndexedKey (ks : KeySpaceDesc) (log : Log) (position : WalPosition)
    (indexedKey : Bytes) : Option (Bytes × Bytes) :=
  match resolveRecordFrame log position with
  | none => none
  | some (.record key value) => some (key, value)
  | some (.batch body) => findRecordBy body ks.id fun key => ks.reduceKey key = some indexedKey

/-! ## Records across reclamation -/

theorem resolveRecordFrame_gc (log : Log) (watermark : Nat) (mapped : List Nat)
    (position : WalPosition) :
    resolveRecordFrame (log.gc watermark mapped) position = none ∨
      resolveRecordFrame (log.gc watermark mapped) position = resolveRecordFrame log position := by
  unfold resolveRecordFrame
  rcases log.read_gc watermark mapped position with gone | same
  · rw [gone]
    exact Or.inl rfl
  · rw [same]
    exact Or.inr rfl

/-- Reclaiming files never gives a key another value. -/
theorem readRecordCheckKey_gc (ks : KeySpaceDesc) (batchCodec : Bool) (log : Log)
    (watermark : Nat) (mapped : List Nat) (key : Bytes) (position : WalPosition) :
    readRecordCheckKey ks batchCodec (log.gc watermark mapped) key position = none ∨
      readRecordCheckKey ks batchCodec (log.gc watermark mapped) key position =
        readRecordCheckKey ks batchCodec log key position := by
  unfold readRecordCheckKey
  split
  · exact Or.inr rfl
  · rcases resolveRecordFrame_gc log watermark mapped position with gone | same
    · rw [gone]
      exact Or.inl rfl
    · rw [same]
      exact Or.inr rfl

end Tidehunter.Db
