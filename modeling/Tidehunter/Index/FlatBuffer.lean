import Tidehunter.Library.Bytes
import Tidehunter.Library.Search
import Tidehunter.Index.Table
import Tidehunter.Wal.Log

/-!
# The flat buffer of a table

The sorted part of a table is one block of bytes. Keys of one length are packed without
anything between them. Keys of any length stand behind a count and a table of offsets, which
the writer fills in as it reaches the entries. The kind of an entry is kept in the two highest
bits of its length.
-/

namespace Tidehunter.Index.Flat

open Library Wal

/-- A key with its position, as the buffer stores it. -/
abbrev FlatEntry := Bytes × IndexWalPosition

/-- Bytes of a stored position: offset and length. -/
def positionLength : Nat := 8 + 4

/-! ## Kinds and lengths -/

def kindOfU8 (value : Nat) : IndexEntryKind :=
  if value = 1 then .modified else if value = 2 then .removed else .clean

/-- Pack a kind into the length of an entry. -/
def packedLen (len : Nat) (kind : IndexEntryKind) : Nat := len ||| (kind.rank <<< 30)

/-- Pack a kind into a length. None is the panic on a length that uses the bits of the kind. -/
def encodeKindInLen (len : Nat) (kind : IndexEntryKind) : Option Nat :=
  if len < 2 ^ 30 then some (packedLen len kind) else none

def decodeKindFromLen (encoded : Nat) : Nat × IndexEntryKind :=
  (encoded &&& (2 ^ 30 - 1), kindOfU8 (encoded >>> 30))

theorem packedLen_eq {len : Nat} (short : len < 2 ^ 30) (kind : IndexEntryKind) :
    packedLen len kind = 2 ^ 30 * kind.rank + len := by
  rw [packedLen, Nat.or_comm, Nat.shiftLeft_eq, Nat.mul_comm]
  exact (Nat.two_pow_add_eq_or_of_lt short kind.rank).symm

theorem packedLen_lt {len : Nat} (short : len < 2 ^ 30) (kind : IndexEntryKind) :
    packedLen len kind < 256 ^ 4 := by
  rw [packedLen_eq short]
  cases kind <;> simp only [IndexEntryKind.rank] <;> omega

/-- The two bits of the kind and the length are read back. -/
theorem decode_packedLen {len : Nat} (short : len < 2 ^ 30) (kind : IndexEntryKind) :
    decodeKindFromLen (packedLen len kind) = (len, kind) := by
  have low : packedLen len kind % 2 ^ 30 = len := by
    rw [packedLen_eq short, Nat.mul_add_mod, Nat.mod_eq_of_lt short]
  have high : packedLen len kind / 2 ^ 30 = kind.rank := by
    rw [packedLen_eq short, Nat.mul_add_div (by decide), Nat.div_eq_of_lt short, Nat.add_zero]
  rw [decodeKindFromLen, Nat.and_two_pow_sub_one_eq_mod, Nat.shiftRight_eq_div_pow, low, high]
  cases kind <;> rfl

theorem decode_len_lt (encoded : Nat) : (decodeKindFromLen encoded).1 < 2 ^ 30 := by
  rw [decodeKindFromLen, Nat.and_two_pow_sub_one_eq_mod]
  exact Nat.mod_lt _ (by decide)

/-! ## Reading -/

/-- A number of some width at a place of the buffer. -/
def readBe (bytes : Bytes) (start width : Nat) : Nat := getBe ((bytes.drop start).take width)

/-- The bytes at a place of the buffer. -/
def readBytes (bytes : Bytes) (start len : Nat) : Bytes := (bytes.drop start).take len

def varFlatEntryCount (flat : Bytes) : Nat := if flat.length < 4 then 0 else readBe flat 0 4

def varFlatEntriesSectionStart (count : Nat) : Nat := 4 + 4 * count

def varFlatReadEntryOffset (flat : Bytes) (idx : Nat) : Nat := readBe flat (4 + 4 * idx) 4

/-- The position stored at a place. -/
def readPosition (bytes : Bytes) (start : Nat) : IndexWalPosition :=
  let decoded := decodeKindFromLen (readBe bytes (start + 8) 4)
  ⟨readBe bytes start 8, decoded.1, decoded.2⟩

/-- The entry at an offset behind the offset table: length of the key, key, position. -/
def varFlatParseEntry (entriesSection : Bytes) (byteOffset : Nat) : FlatEntry :=
  let keyLen := readBe entriesSection byteOffset 2
  (readBytes entriesSection (byteOffset + 2) keyLen,
    readPosition entriesSection (byteOffset + 2 + keyLen))

/-- Number of entries of a buffer. -/
def flatCount (flat : Bytes) (keySize : Option Nat) : Nat :=
  if flat.isEmpty then 0
  else match keySize with
    | none => varFlatEntryCount flat
    | some size => flat.length / (size + positionLength)

/-- The entry of a buffer at an index. -/
def flatEntryAt (flat : Bytes) (keySize : Option Nat) (idx : Nat) : FlatEntry :=
  match keySize with
  | none =>
      varFlatParseEntry (flat.drop (varFlatEntriesSectionStart (varFlatEntryCount flat)))
        (varFlatReadEntryOffset flat idx)
  | some size =>
      let start := idx * (size + positionLength)
      (readBytes flat start size, readPosition flat (start + size))

/-- The entries of a buffer from front to back. -/
def flatIter (flat : Bytes) (keySize : Option Nat) : List FlatEntry :=
  (List.range (flatCount flat keySize)).map (flatEntryAt flat keySize)

/-- The smallest index with a key at or above the target. -/
def flatLowerBound (flat : Bytes) (keySize : Option Nat) (target : Bytes) : Nat :=
  bisect (fun mid => (flatEntryAt flat keySize mid).1 < target) (flatCount flat keySize)

/-- The smallest index with a key above the target. -/
def flatUpperBound (flat : Bytes) (keySize : Option Nat) (target : Bytes) : Nat :=
  bisect (fun mid => (flatEntryAt flat keySize mid).1 ≤ target) (flatCount flat keySize)

/-! ## Writing -/

/-- Overwrite bytes in the middle of a buffer. -/
def overwrite (out : Bytes) (start : Nat) (bytes : Bytes) : Bytes :=
  out.take start ++ bytes ++ out.drop (start + bytes.length)

/-- Append one entry of fixed key length. -/
def pushFixedEntry (out : Bytes) (entry : FlatEntry) : Option Bytes :=
  (encodeKindInLen entry.2.len entry.2.kind).map fun encoded =>
    out ++ entry.1 ++ putBe 8 entry.2.offset ++ putBe 4 encoded

/-- Append one entry of any key length and fill in its offset. None is the panic on an offset
that has no 32 bits, or on a length that uses the bits of the kind. -/
def pushVarEntry (offsetsStart dataStart : Nat) (state : Bytes × Nat) (entry : FlatEntry) :
    Option (Bytes × Nat) :=
  let entryOffset := state.1.length - dataStart
  if entryOffset < 2 ^ 32 then
    (encodeKindInLen entry.2.len entry.2.kind).map fun encoded =>
      (overwrite state.1 (offsetsStart + 4 * state.2) (putBe 4 entryOffset) ++
        putBe 2 entry.1.length ++ entry.1 ++ putBe 8 entry.2.offset ++ putBe 4 encoded,
        state.2 + 1)
  else none

/-- Append entries of any key length: room for the count and the offsets, then the entries. -/
def appendFlatVarlen (entries : List FlatEntry) (out : Bytes) : Option Bytes :=
  if entries.isEmpty then some out
  else
    let headerStart := out.length
    let offsetsStart := headerStart + 4
    let dataStart := offsetsStart + 4 * entries.length
    let reserved := out ++ putBe 4 entries.length ++ List.replicate (4 * entries.length) 0
    (entries.foldlM (pushVarEntry offsetsStart dataStart) (reserved, 0)).map fun state =>
      overwrite state.1 headerStart (putBe 4 entries.length)

/-- A buffer of sorted entries. -/
def buildFlatBytes (entries : List FlatEntry) : Option Nat → Option Bytes
  | some _ => entries.foldlM pushFixedEntry []
  | none => appendFlatVarlen entries []

/-! ## What a buffer can hold -/

/-- The length of a key that a layout can hold. -/
def KeyFits (len : Nat) : Option Nat → Prop
  | none => len < 2 ^ 16
  | some size => len = size

instance (len : Nat) (keySize : Option Nat) : Decidable (KeyFits len keySize) :=
  match keySize with
  | none => inferInstanceAs (Decidable (len < 2 ^ 16))
  | some size => inferInstanceAs (Decidable (len = size))

/-- A position whose numbers have their width. -/
def PositionFits (position : IndexWalPosition) : Prop :=
  position.offset < 2 ^ 64 ∧ position.len < 2 ^ 30

instance (position : IndexWalPosition) : Decidable (PositionFits position) :=
  inferInstanceAs (Decidable (_ ∧ _))

/-- An entry that a layout can hold. -/
structure Fits (keySize : Option Nat) (entry : FlatEntry) : Prop where
  key : KeyFits entry.1.length keySize
  position : PositionFits entry.2

/-! ## Fixed key length -/

/-- The stored form of a position. -/
def positionBytes (position : IndexWalPosition) : Bytes :=
  putBe 8 position.offset ++ putBe 4 (packedLen position.len position.kind)

@[simp]
theorem length_positionBytes (position : IndexWalPosition) :
    (positionBytes position).length = positionLength := by
  simp [positionBytes, positionLength]

theorem encodeKindInLen_of_lt {len : Nat} (short : len < 2 ^ 30) (kind : IndexEntryKind) :
    encodeKindInLen len kind = some (packedLen len kind) := if_pos short

theorem readBe_append {front middle rest : Bytes} :
    readBe (front ++ (middle ++ rest)) front.length middle.length = getBe middle := by
  rw [readBe, List.drop_left, List.take_left]

theorem readBytes_append {front middle rest : Bytes} :
    readBytes (front ++ (middle ++ rest)) front.length middle.length = middle := by
  rw [readBytes, List.drop_left, List.take_left]

/-- A number that stands at a place is read back. -/
theorem readBe_putBe {bytes front rest : Bytes} {start width value : Nat}
    (stands : bytes = front ++ (putBe width value ++ rest)) (place : front.length = start)
    (small : value < 256 ^ width) : readBe bytes start width = value := by
  have read := @readBe_append front (putBe width value) rest
  rw [length_putBe, getBe_putBe_of_lt small, place] at read
  rw [stands, read]

/-- A position that stands at a place is read back. -/
theorem readPosition_positionBytes {bytes front rest : Bytes} {start : Nat}
    {position : IndexWalPosition} (stands : bytes = front ++ (positionBytes position ++ rest))
    (place : front.length = start) (fits : PositionFits position) :
    readPosition bytes start = position := by
  obtain ⟨offset, len⟩ := fits
  have wide : position.offset < 256 ^ 8 := by omega
  have offsetRead : readBe bytes start 8 = position.offset := by
    refine @readBe_putBe bytes front (putBe 4 (packedLen position.len position.kind) ++ rest)
      start 8 _ ?_ place wide
    rw [stands, positionBytes, List.append_assoc]
  have lenRead : readBe bytes (start + 8) 4 = packedLen position.len position.kind := by
    refine @readBe_putBe bytes (front ++ putBe 8 position.offset) rest (start + 8) 4 _ ?_ ?_
      (packedLen_lt len position.kind)
    · rw [stands, positionBytes]
      simp only [List.append_assoc]
    · rw [List.length_append, length_putBe, place]
  rw [readPosition, offsetRead, lenRead, decode_packedLen len]

theorem foldlM_pushFixedEntry {keySize : Option Nat} {entries : List FlatEntry}
    (fits : ∀ entry ∈ entries, Fits keySize entry) (out : Bytes) :
    entries.foldlM pushFixedEntry out =
      some (out ++ entries.flatMap fun entry => entry.1 ++ positionBytes entry.2) := by
  induction entries generalizing out with
  | nil => simp
  | cons entry rest ih =>
      obtain ⟨first, later⟩ := List.forall_mem_cons.mp fits
      rw [List.foldlM_cons, pushFixedEntry, encodeKindInLen_of_lt first.position.2, Option.map_some]
      change rest.foldlM pushFixedEntry _ = _
      rw [ih later, List.flatMap_cons, positionBytes]
      simp only [List.append_assoc]

theorem length_fixedEntries {size : Nat} {entries : List FlatEntry}
    (fits : ∀ entry ∈ entries, Fits (some size) entry) :
    (entries.flatMap fun entry => entry.1 ++ positionBytes entry.2).length =
      entries.length * (size + positionLength) := by
  induction entries with
  | nil => simp
  | cons entry rest ih =>
      obtain ⟨first, later⟩ := List.forall_mem_cons.mp fits
      have keyLength : entry.1.length = size := first.key
      rw [List.flatMap_cons, List.length_append, ih later, List.length_append,
        length_positionBytes, keyLength, List.length_cons, Nat.succ_mul, Nat.add_comm]

/-- The entry behind a front part of packed entries is read back. -/
theorem flatEntryAt_fixed {size : Nat} {before after : List FlatEntry} {entry : FlatEntry}
    (fits : ∀ other ∈ before ++ entry :: after, Fits (some size) other) :
    flatEntryAt ((before ++ entry :: after).flatMap fun entry => entry.1 ++ positionBytes entry.2)
      (some size) before.length = entry := by
  obtain ⟨beforeFits, behind⟩ := List.forall_mem_append.mp fits
  obtain ⟨entryFits, -⟩ := List.forall_mem_cons.mp behind
  have keyLength : entry.1.length = size := entryFits.key
  have place := length_fixedEntries beforeFits
  rw [List.flatMap_append, List.flatMap_cons]
  generalize (before.flatMap fun entry => entry.1 ++ positionBytes entry.2) = front at place ⊢
  generalize (after.flatMap fun entry => entry.1 ++ positionBytes entry.2) = rest
  have key := @readBytes_append front entry.1 (positionBytes entry.2 ++ rest)
  have position := @readPosition_positionBytes (front ++ (entry.1 ++ positionBytes entry.2 ++ rest))
    (front ++ entry.1) rest (before.length * (size + positionLength) + size) entry.2
    (by simp only [List.append_assoc]) (by rw [List.length_append, place, keyLength])
    entryFits.position
  rw [place, keyLength] at key
  rw [flatEntryAt]
  rw [List.append_assoc, key]
  rw [List.append_assoc] at position
  rw [position]

/-! ## Any key length -/

/-- The stored form of an entry with a key of any length. -/
def varEntryBytes (entry : FlatEntry) : Bytes :=
  putBe 2 entry.1.length ++ (entry.1 ++ positionBytes entry.2)

theorem length_varEntryBytes (entry : FlatEntry) :
    (varEntryBytes entry).length = 14 + entry.1.length := by
  simp [varEntryBytes, positionLength]
  omega

/-- The offsets of entries, the first one given. -/
def offsetsFrom (start : Nat) : List FlatEntry → List Nat
  | [] => []
  | entry :: rest => start :: offsetsFrom (start + (varEntryBytes entry).length) rest

@[simp]
theorem length_offsetsFrom (start : Nat) (entries : List FlatEntry) :
    (offsetsFrom start entries).length = entries.length := by
  induction entries generalizing start with
  | nil => rfl
  | cons entry rest ih => rw [offsetsFrom, List.length_cons, List.length_cons, ih]

theorem offsetsFrom_append (start : Nat) (before after : List FlatEntry) :
    offsetsFrom start (before ++ after) =
      offsetsFrom start before ++
        offsetsFrom (start + (before.flatMap varEntryBytes).length) after := by
  induction before generalizing start with
  | nil => simp [offsetsFrom]
  | cons entry rest ih =>
      rw [List.cons_append, offsetsFrom, ih, offsetsFrom, List.flatMap_cons, List.length_append,
        Nat.add_assoc]
      rfl

/-- The offset table. -/
def offsetTable (offsets : List Nat) : Bytes := offsets.flatMap (putBe 4)

@[simp]
theorem length_offsetTable (offsets : List Nat) : (offsetTable offsets).length = 4 * offsets.length := by
  induction offsets with
  | nil => rfl
  | cons offset rest ih =>
      rw [offsetTable, List.flatMap_cons, List.length_append, length_putBe, ← offsetTable, ih,
        List.length_cons]
      omega

/-- Entries behind their count and their offsets. -/
def varLayout (entries : List FlatEntry) : Bytes :=
  putBe 4 entries.length ++ (offsetTable (offsetsFrom 0 entries) ++ entries.flatMap varEntryBytes)

/-- Every offset has 32 bits. -/
def OffsetsFit (start : Nat) (entries : List FlatEntry) : Prop :=
  ∀ offset ∈ offsetsFrom start entries, offset < 2 ^ 32

instance (start : Nat) (entries : List FlatEntry) : Decidable (OffsetsFit start entries) :=
  inferInstanceAs (Decidable (∀ offset ∈ _, _))

theorem overwrite_append {front old new rest : Bytes} (same : old.length = new.length) :
    overwrite (front ++ (old ++ rest)) front.length new = front ++ (new ++ rest) := by
  rw [overwrite, List.take_left, ← List.drop_drop, List.drop_left, ← same, List.drop_left,
    List.append_assoc]

/-- The writer's state after a front part: the offsets of the rest are still zero. -/
theorem foldlM_pushVarEntry {entries : List FlatEntry}
    (fits : ∀ entry ∈ entries, Fits none entry) (header done written : Bytes) (index : Nat)
    (filled : done.length = 4 * index) :
    entries.foldlM (pushVarEntry header.length (header.length + 4 * (index + entries.length)))
        (header ++ (done ++ (List.replicate (4 * entries.length) 0 ++ written)), index) =
      if OffsetsFit written.length entries then
        some (header ++ (done ++ (offsetTable (offsetsFrom written.length entries) ++
          (written ++ entries.flatMap varEntryBytes))), index + entries.length)
      else none := by
  induction entries generalizing done written index with
  | nil => simp [OffsetsFit, offsetsFrom, offsetTable]
  | cons entry rest ih =>
      obtain ⟨entryFits, restFits⟩ := List.forall_mem_cons.mp fits
      have offset : (header ++ (done ++ (List.replicate (4 * (entry :: rest).length) 0 ++
          written))).length - (header.length + 4 * (index + (entry :: rest).length)) =
            written.length := by
        simp only [List.length_append, List.length_replicate, filled]
        omega
      rw [List.foldlM_cons, pushVarEntry]
      simp only [offset]
      by_cases small : written.length < 2 ^ 32
      · rw [if_pos small, encodeKindInLen_of_lt entryFits.position.2, Option.map_some]
        have zeros : List.replicate (4 * (entry :: rest).length) (0 : Byte) =
            List.replicate 4 0 ++ List.replicate (4 * rest.length) 0 := by
          rw [List.replicate_append_replicate, List.length_cons]
          congr 1
          omega
        have place : header.length + 4 * index = (header ++ done).length := by
          rw [List.length_append, filled]
        have replaced : overwrite (header ++ (done ++ (List.replicate (4 * (entry :: rest).length) 0 ++
            written))) (header.length + 4 * index) (putBe 4 written.length) =
              header ++ ((done ++ putBe 4 written.length) ++
                (List.replicate (4 * rest.length) 0 ++ written)) := by
          rw [zeros, place, ← List.append_assoc, List.append_assoc (List.replicate 4 0),
            overwrite_append (by simp)]
          simp only [List.append_assoc]
        have more := ih restFits (done ++ putBe 4 written.length) (written ++ varEntryBytes entry)
          (index + 1) (by rw [List.length_append, filled, length_putBe]; omega)
        have count : index + 1 + rest.length = index + (entry :: rest).length := by
          rw [List.length_cons]
          omega
        rw [count, List.length_append] at more
        have fitsIff : OffsetsFit written.length (entry :: rest) ↔
            OffsetsFit (written.length + (varEntryBytes entry).length) rest :=
          List.forall_mem_cons.trans (and_iff_right small)
        rw [replaced]
        simp only [fitsIff, offsetsFrom, List.flatMap_cons]
        rw [show offsetTable (written.length :: offsetsFrom
          (written.length + (varEntryBytes entry).length) rest) = putBe 4 written.length ++
            offsetTable (offsetsFrom (written.length + (varEntryBytes entry).length) rest) from rfl]
        simp only [varEntryBytes, positionBytes, List.append_assoc] at more ⊢
        exact more
      · rw [if_neg small]
        have missed : ¬OffsetsFit written.length (entry :: rest) := fun all =>
          small (all _ List.mem_cons_self)
        rw [if_neg missed]
        rfl

/-- Appending entries of any key length. -/
theorem appendFlatVarlen_eq {entries : List FlatEntry} (some_entries : entries ≠ [])
    (fits : ∀ entry ∈ entries, Fits none entry) (out : Bytes) :
    appendFlatVarlen entries out =
      if OffsetsFit 0 entries then some (out ++ varLayout entries) else none := by
  have written := foldlM_pushVarEntry fits (out ++ putBe 4 entries.length) [] [] 0 rfl
  rw [appendFlatVarlen, if_neg (by simpa using some_entries)]
  simp only [List.nil_append, List.append_nil, List.length_append, length_putBe, Nat.zero_add,
    List.length_nil] at written ⊢
  rw [written]
  by_cases small : OffsetsFit 0 entries
  · rw [if_pos small, if_pos small, Option.map_some, List.append_assoc,
      overwrite_append (by simp), varLayout]
  · rw [if_neg small, if_neg small]
    rfl

theorem length_lt_of_offsetsFit {entries : List FlatEntry} (small : OffsetsFit 0 entries) :
    entries.length < 2 ^ 32 := by
  rcases List.eq_nil_or_concat entries with rfl | ⟨front, last, rfl⟩
  · decide
  · have atLeast : ∀ list : List FlatEntry,
        14 * list.length ≤ (list.flatMap varEntryBytes).length := by
      intro list
      induction list with
      | nil => simp
      | cons entry rest ih =>
          rw [List.flatMap_cons, List.length_append, length_varEntryBytes, List.length_cons]
          omega
    have offset := small (0 + (front.flatMap varEntryBytes).length) (by
      rw [List.concat_eq_append, offsetsFrom_append]
      exact List.mem_append_right _ List.mem_cons_self)
    have bound := atLeast front
    rw [List.length_concat]
    omega

theorem varFlatEntryCount_varLayout {entries : List FlatEntry} (small : OffsetsFit 0 entries) :
    varFlatEntryCount (varLayout entries) = entries.length := by
  have count := length_lt_of_offsetsFit small
  rw [varFlatEntryCount, if_neg (by rw [varLayout, List.length_append, length_putBe]; omega)]
  exact @readBe_putBe _ [] _ 0 4 _ rfl rfl (by omega)

/-- The entry behind a front part is found through its offset. -/
theorem flatEntryAt_varLayout {before after : List FlatEntry} {entry : FlatEntry}
    (fits : Fits none entry) (small : OffsetsFit 0 (before ++ entry :: after)) :
    flatEntryAt (varLayout (before ++ entry :: after)) none before.length = entry := by
  have offsets := offsetsFrom_append 0 before (entry :: after)
  rw [Nat.zero_add, offsetsFrom] at offsets
  have place := small (before.flatMap varEntryBytes).length (by
    rw [offsets]
    exact List.mem_append_right _ List.mem_cons_self)
  have data : (before ++ entry :: after).flatMap varEntryBytes =
      before.flatMap varEntryBytes ++ (varEntryBytes entry ++ after.flatMap varEntryBytes) := by
    rw [List.flatMap_append, List.flatMap_cons]
  -- the offset table
  have offsetRead : varFlatReadEntryOffset (varLayout (before ++ entry :: after)) before.length =
      (before.flatMap varEntryBytes).length := by
    refine @readBe_putBe _ (putBe 4 (before ++ entry :: after).length ++
      offsetTable (offsetsFrom 0 before)) (offsetTable (offsetsFrom
        ((before.flatMap varEntryBytes).length + (varEntryBytes entry).length) after) ++
          (before ++ entry :: after).flatMap varEntryBytes) _ 4 _ ?_ ?_ (by omega)
    · rw [varLayout, offsets]
      simp only [offsetTable, List.flatMap_append, List.flatMap_cons, List.append_assoc]
    · rw [List.length_append, length_putBe, length_offsetTable, length_offsetsFrom]
  -- the entries behind it
  have sectionIs : (varLayout (before ++ entry :: after)).drop
      (varFlatEntriesSectionStart (before ++ entry :: after).length) =
        (before ++ entry :: after).flatMap varEntryBytes := by
    rw [varLayout, ← List.append_assoc]
    refine List.drop_left' ?_
    rw [List.length_append, length_putBe, length_offsetTable, length_offsetsFrom]
    rfl
  rw [flatEntryAt, varFlatEntryCount_varLayout small, sectionIs, offsetRead, data]
  generalize before.flatMap varEntryBytes = front
  generalize after.flatMap varEntryBytes = rest
  have keyLength : entry.1.length < 2 ^ 16 := fits.key
  have lengthRead : readBe (front ++ (varEntryBytes entry ++ rest)) front.length 2 =
      entry.1.length := by
    refine @readBe_putBe _ front (entry.1 ++ (positionBytes entry.2 ++ rest)) _ 2 _ ?_ rfl
      (by omega)
    simp only [varEntryBytes, List.append_assoc]
  have keyRead : readBytes (front ++ (varEntryBytes entry ++ rest)) (front.length + 2)
      entry.1.length = entry.1 := by
    have read := @readBytes_append (front ++ putBe 2 entry.1.length) entry.1
      (positionBytes entry.2 ++ rest)
    rw [List.length_append, length_putBe] at read
    simpa only [varEntryBytes, List.append_assoc] using read
  have positionRead : readPosition (front ++ (varEntryBytes entry ++ rest))
      (front.length + 2 + entry.1.length) = entry.2 := by
    refine @readPosition_positionBytes _ (front ++ (putBe 2 entry.1.length ++ entry.1)) rest _ _
      ?_ ?_ fits.position
    · simp only [varEntryBytes, List.append_assoc]
    · simp only [List.length_append, length_putBe]
      omega
  simp only [varFlatParseEntry, lengthRead, keyRead, positionRead]

/-! ## Round trip -/

/-- Entries read one by one from places that hold them. -/
theorem map_range_eq {entries : List FlatEntry} {read : Nat → FlatEntry}
    (places : ∀ before entry after, entries = before ++ entry :: after →
      read before.length = entry) :
    (List.range entries.length).map read = entries := by
  refine List.ext_getElem (by simp) fun index _ inside => ?_
  rw [List.getElem_map, List.getElem_range]
  have split : entries = entries.take index ++ entries[index] :: entries.drop (index + 1) := by
    rw [List.getElem_cons_drop, List.take_append_drop]
  have found := places _ _ _ split
  rwa [List.length_take, Nat.min_eq_left inside.le] at found

theorem flatIter_fixed {size : Nat} {entries : List FlatEntry}
    (fits : ∀ entry ∈ entries, Fits (some size) entry) :
    flatIter (entries.flatMap fun entry => entry.1 ++ positionBytes entry.2) (some size) =
      entries := by
  have count : flatCount (entries.flatMap fun entry => entry.1 ++ positionBytes entry.2)
      (some size) = entries.length := by
    have length := length_fixedEntries fits
    unfold flatCount
    split
    · rename_i nothing
      rw [List.isEmpty_iff.mp nothing, List.length_nil] at length
      rcases Nat.mul_eq_zero.mp length.symm with none | zero
      · exact none.symm
      · rw [positionLength] at zero
        omega
    · simp only [length]
      exact Nat.mul_div_cancel _ (by rw [positionLength]; omega)
  rw [flatIter, count]
  refine map_range_eq fun before entry after split => ?_
  subst split
  exact flatEntryAt_fixed fits

theorem flatIter_varLayout {entries : List FlatEntry} (some_entries : entries ≠ [])
    (fits : ∀ entry ∈ entries, Fits none entry) (small : OffsetsFit 0 entries) :
    flatIter (varLayout entries) none = entries := by
  have count : flatCount (varLayout entries) none = entries.length := by
    unfold flatCount
    rw [if_neg (by rw [List.isEmpty_iff_length_eq_zero, varLayout, List.length_append,
      length_putBe]; omega)]
    exact varFlatEntryCount_varLayout small
  rw [flatIter, count]
  refine map_range_eq fun before entry after split => ?_
  subst split
  exact flatEntryAt_varLayout (fits entry (by simp)) small

/-- When a buffer can be built from entries that fit its layout. -/
def Buildable (entries : List FlatEntry) : Option Nat → Prop
  | none => OffsetsFit 0 entries
  | some _ => True

instance (entries : List FlatEntry) (keySize : Option Nat) : Decidable (Buildable entries keySize) :=
  match keySize with
  | none => inferInstanceAs (Decidable (OffsetsFit 0 entries))
  | some _ => inferInstanceAs (Decidable True)

/-- A buffer holds the entries it was built from. It can be built when every offset has
32 bits. -/
theorem buildFlatBytes_spec {entries : List FlatEntry} {keySize : Option Nat}
    (fits : ∀ entry ∈ entries, Fits keySize entry) :
    (Buildable entries keySize ↔ (buildFlatBytes entries keySize).isSome = true) ∧
      ∀ flat, buildFlatBytes entries keySize = some flat → flatIter flat keySize = entries := by
  cases keySize with
  | some size =>
      have built := foldlM_pushFixedEntry fits []
      simp only [buildFlatBytes, built, List.nil_append]
      refine ⟨by simp [Buildable], fun flat same => ?_⟩
      cases same
      exact flatIter_fixed fits
  | none =>
      by_cases nothing : entries = []
      · subst nothing
        refine ⟨by simp [Buildable, OffsetsFit, offsetsFrom, buildFlatBytes, appendFlatVarlen],
          fun flat same => ?_⟩
        cases same
        rfl
      · have built := appendFlatVarlen_eq nothing fits []
        simp only [buildFlatBytes, built, List.nil_append]
        by_cases small : OffsetsFit 0 entries
        · rw [if_pos small]
          refine ⟨by simp [Buildable, small], fun flat same => ?_⟩
          cases same
          exact flatIter_varLayout nothing fits small
        · rw [if_neg small]
          refine ⟨by simp [Buildable, small], ?_⟩
          intro flat same
          cases same

theorem getBe_lt (bytes : Bytes) : getBe bytes < 256 ^ bytes.length := by
  induction bytes with
  | nil => exact Nat.one_pos
  | cons byte rest ih =>
      rw [getBe, List.length_cons, Nat.pow_succ]
      have small := byte.isLt
      calc byte.val * 256 ^ rest.length + getBe rest
          < byte.val * 256 ^ rest.length + 256 ^ rest.length := Nat.add_lt_add_left ih _
        _ = (byte.val + 1) * 256 ^ rest.length := (Nat.succ_mul _ _).symm
        _ ≤ 256 * 256 ^ rest.length := Nat.mul_le_mul_right _ small
        _ = 256 ^ rest.length * 256 := Nat.mul_comm _ _

theorem readBe_lt (bytes : Bytes) (start width : Nat) : readBe bytes start width < 256 ^ width :=
  (getBe_lt _).trans_le (Nat.pow_le_pow_right (by decide) (List.length_take_le _ _))

theorem positionFits_readPosition (bytes : Bytes) (start : Nat) :
    PositionFits (readPosition bytes start) := by
  have wide := readBe_lt bytes start 8
  exact ⟨by simp only [readPosition]; omega, decode_len_lt _⟩

/-- What a buffer holds fits its layout. -/
theorem fits_of_mem_flatIter {flat : Bytes} {keySize : Option Nat} {entry : FlatEntry}
    (member : entry ∈ flatIter flat keySize) : Fits keySize entry := by
  obtain ⟨index, inside, rfl⟩ := List.mem_map.mp member
  have within := List.mem_range.mp inside
  cases keySize with
  | none =>
      refine ⟨?_, positionFits_readPosition _ _⟩
      have wide := readBe_lt
        (flat.drop (varFlatEntriesSectionStart (varFlatEntryCount flat)))
        (varFlatReadEntryOffset flat index) 2
      refine Nat.lt_of_le_of_lt (List.length_take_le _ _) ?_
      omega
  | some size =>
      refine ⟨?_, positionFits_readPosition _ _⟩
      have room : index * (size + positionLength) + (size + positionLength) ≤ flat.length := by
        unfold flatCount at within
        split at within
        · cases within
        · simp only at within
          rw [← Nat.succ_mul]
          exact (Nat.mul_le_mul_right _ within).trans (Nat.div_mul_le_self _ _)
      change (readBytes flat (index * (size + positionLength)) size).length = size
      rw [readBytes, List.length_take, List.length_drop]
      omega

end Tidehunter.Index.Flat
