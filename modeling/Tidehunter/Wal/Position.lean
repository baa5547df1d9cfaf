import Mathlib

/-!
# WAL positions and index positions

A `WalPosition` names a frame of the value log. The index stores each position
with the kind of the write it came from; a tombstone keeps the offset of the
remove in memory and the sentinel `INVALID` on disk.
-/

namespace Tidehunter.Wal

/-- Offset of the sentinel position, the largest 64-bit value. -/
def u64Max : Nat := 2 ^ 64 - 1

theorem zero_le_eighty : 0 ≤ 80 := by decide

theorem eighty_le_u64Max : 80 ≤ u64Max := by decide

/-- Length of the sentinel position, the largest 32-bit value. -/
def u32Max : Nat := 2 ^ 32 - 1

/-- A frame of the value log: its offset and its unaligned length. -/
structure WalPosition where
  offset : Nat
  len : Nat
  deriving DecidableEq, Repr

namespace WalPosition

def invalid : WalPosition := ⟨u64Max, u32Max⟩

def isValid (position : WalPosition) : Bool := position ≠ invalid

def valid (position : WalPosition) : Option WalPosition :=
  if position = invalid then none else some position

theorem valid_invalid : invalid.valid = none := rfl

theorem valid_eq_some_iff {position found : WalPosition} :
    position.valid = some found ↔ position = found ∧ position ≠ invalid := by
  unfold valid
  split <;> simp_all

end WalPosition

/-- A position is processed when it lies strictly below the frontier. -/
def isProcessed (lastProcessed offset : Nat) : Bool := offset < lastProcessed

@[simp]
theorem isProcessed_iff {lastProcessed offset : Nat} :
    isProcessed lastProcessed offset = true ↔ offset < lastProcessed := by
  simp [isProcessed]

end Tidehunter.Wal

namespace Tidehunter.Index

open Wal

inductive IndexEntryKind where
  | clean
  | modified
  | removed
  deriving DecidableEq, Repr

/-- Declaration order of the kinds, used by the derived ordering of positions. -/
def IndexEntryKind.rank : IndexEntryKind → Nat
  | .clean => 0
  | .modified => 1
  | .removed => 2

/-- A position held by the index, with the kind of the write behind it. -/
structure IndexWalPosition where
  offset : Nat
  len : Nat
  kind : IndexEntryKind
  deriving DecidableEq, Repr

namespace IndexWalPosition

/-- Field order of the derived comparison: offset, then length, then kind. -/
def sortKey (position : IndexWalPosition) : Nat ×ₗ Nat ×ₗ Nat :=
  toLex (position.offset, toLex (position.len, position.kind.rank))

theorem sortKey_injective : Function.Injective sortKey := by
  rintro ⟨offset, len, kind⟩ ⟨offset', len', kind'⟩ same
  have parts := toLex.injective same
  simp only [Prod.mk.injEq] at parts
  obtain ⟨rfl, inner⟩ := parts
  have rest := toLex.injective inner
  simp only [Prod.mk.injEq] at rest
  obtain ⟨rfl, rank⟩ := rest
  cases kind <;> cases kind' <;> first | rfl | cases rank

instance : LinearOrder IndexWalPosition := LinearOrder.lift' sortKey sortKey_injective

theorem le_iff {first second : IndexWalPosition} :
    first ≤ second ↔ first.offset < second.offset ∨
      (first.offset = second.offset ∧ (first.len < second.len ∨
        (first.len = second.len ∧ first.kind.rank ≤ second.kind.rank))) := by
  change first.sortKey ≤ second.sortKey ↔ _
  simp [sortKey, Prod.Lex.toLex_le_toLex]

theorem offset_le_of_le {first second : IndexWalPosition} (ordered : first ≤ second) :
    first.offset ≤ second.offset := by
  rcases le_iff.mp ordered with less | ⟨same, _⟩
  · exact Nat.le_of_lt less
  · exact Nat.le_of_eq same

theorem lt_of_offset_lt {first second : IndexWalPosition} (less : first.offset < second.offset) :
    first < second :=
  (Prod.Lex.lt_iff).mpr (Or.inl less)

def newClean (position : WalPosition) : IndexWalPosition :=
  ⟨position.offset, position.len, .clean⟩

def newModified (position : WalPosition) : IndexWalPosition :=
  ⟨position.offset, position.len, .modified⟩

def newRemoved (position : WalPosition) : IndexWalPosition :=
  ⟨position.offset, position.len, .removed⟩

/-- Decode a position read off disk; the sentinel marks a tombstone. -/
def fromDisk (position : WalPosition) : IndexWalPosition :=
  if position = WalPosition.invalid then ⟨position.offset, 0, .removed⟩ else newClean position

def isRemoved (position : IndexWalPosition) : Bool := position.kind = .removed

def isClean (position : IndexWalPosition) : Bool := position.kind = .clean

/-- The readable position of an entry; a tombstone gives the sentinel. -/
def intoWalPosition (position : IndexWalPosition) : WalPosition :=
  match position.kind with
  | .clean => ⟨position.offset, position.len⟩
  | .modified => ⟨position.offset, position.len⟩
  | .removed => WalPosition.invalid

/-- The offset and length of an entry whatever its kind. -/
def intoUpdatePosition (position : IndexWalPosition) : WalPosition :=
  ⟨position.offset, position.len⟩

def replaceWalPosition (position : IndexWalPosition) (target : WalPosition) : IndexWalPosition :=
  { position with offset := target.offset, len := target.len }

/-- Change a modified entry into a clean one. -/
def asCleanModified (position : IndexWalPosition) : IndexWalPosition :=
  { position with kind := .clean }

theorem intoWalPosition_of_isRemoved {position : IndexWalPosition}
    (removed : position.isRemoved = true) : position.intoWalPosition = WalPosition.invalid := by
  have kind : position.kind = .removed := by simpa [isRemoved] using removed
  simp [intoWalPosition, kind]

theorem intoWalPosition_of_not_isRemoved {position : IndexWalPosition}
    (present : position.isRemoved = false) :
    position.intoWalPosition = ⟨position.offset, position.len⟩ := by
  have kind : position.kind ≠ .removed := by simpa [isRemoved] using present
  cases shape : position.kind <;> simp_all [intoWalPosition]

end IndexWalPosition

end Tidehunter.Index
