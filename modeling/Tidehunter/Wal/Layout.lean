import Tidehunter.Wal.Position
import Mathlib

/-!
# Layout of a log: alignment, fragments and files

A log is one address space cut into fragments and files. An allocation never
crosses a fragment boundary: when it does not fit in the rest of the current
fragment it starts at the next one, and the gap is closed by a skip marker.
-/

namespace Tidehunter.Wal

def alignDown (value alignment : Nat) : Nat := value / alignment * alignment

def alignUp (value alignment : Nat) : Nat := alignDown (value + alignment - 1) alignment

/-- Alignment of frames with and without direct IO. -/
def alignment (directIo : Bool) : Nat := if directIo then 512 else 8

theorem alignment_pos (directIo : Bool) : 0 < alignment directIo := by
  cases directIo <;> decide

theorem le_alignUp (value : Nat) {alignment : Nat} (positive : 0 < alignment) :
    value ≤ alignUp value alignment := by
  have division := Nat.div_add_mod (value + alignment - 1) alignment
  have remainder := Nat.mod_lt (value + alignment - 1) positive
  rw [alignUp, alignDown, Nat.mul_comm]
  omega

theorem dvd_alignUp (value alignment : Nat) : alignment ∣ alignUp value alignment :=
  Nat.dvd_mul_left _ _

theorem alignUp_of_dvd {value alignment : Nat} (positive : 0 < alignment)
    (multiple : alignment ∣ value) : alignUp value alignment = value := by
  obtain ⟨count, rfl⟩ := multiple
  have quotient : (alignment * count + alignment - 1) / alignment = count := by
    rw [Nat.add_sub_assoc positive, Nat.mul_add_div positive,
      Nat.div_eq_of_lt (Nat.sub_lt positive Nat.one_pos), Nat.add_zero]
  rw [alignUp, alignDown, quotient, Nat.mul_comm]

/-- The layout of a log, with the checks made when a log is opened. -/
structure WalLayout where
  fragSize : Nat
  walFileSize : Nat
  directIo : Bool
  fragSize_pos : 0 < fragSize
  fragSize_small : fragSize ≤ u32Max
  fragSize_aligned : alignUp fragSize (alignment directIo) = fragSize
  walFileSize_pos : 0 < walFileSize
  fragSize_dvd : walFileSize % fragSize = 0

namespace WalLayout

variable (layout : WalLayout)

def align (value : Nat) : Nat := alignUp value (alignment layout.directIo)

theorem le_align (value : Nat) : value ≤ layout.align value :=
  le_alignUp value (alignment_pos layout.directIo)

/-- A multiple of the alignment of frames. -/
def Aligned (position : Nat) : Prop := alignment layout.directIo ∣ position

theorem aligned_align (value : Nat) : layout.Aligned (layout.align value) := dvd_alignUp _ _

theorem aligned_fragSize : layout.Aligned layout.fragSize := by
  have aligned := dvd_alignUp layout.fragSize (alignment layout.directIo)
  rwa [layout.fragSize_aligned] at aligned

theorem align_of_aligned {value : Nat} (aligned : layout.Aligned value) :
    layout.align value = value :=
  alignUp_of_dvd (alignment_pos layout.directIo) aligned

/-- Where an allocation of an aligned length goes when the log ends at `position`. -/
def nextPosition (position lenAligned : Nat) : Nat :=
  if position / layout.fragSize = (position + lenAligned - 1) / layout.fragSize then position
  else (position / layout.fragSize + 1) * layout.fragSize

theorem le_nextPosition (position lenAligned : Nat) :
    position ≤ layout.nextPosition position lenAligned := by
  unfold nextPosition
  split
  · exact Nat.le_refl _
  · have division := Nat.div_add_mod position layout.fragSize
    have remainder := Nat.mod_lt position layout.fragSize_pos
    rw [Nat.add_mul, Nat.one_mul, Nat.mul_comm]
    omega

/-- The fragment holding an offset. -/
def locate (offset : Nat) : Nat := offset / layout.fragSize

/-- First offset of a fragment. -/
def mapStart (map : Nat) : Nat := layout.fragSize * map

theorem locate_eq_iff {offset map : Nat} :
    layout.locate offset = map ↔
      layout.mapStart map ≤ offset ∧ offset < layout.mapStart (map + 1) := by
  rw [locate, mapStart, mapStart, Nat.div_eq_iff layout.fragSize_pos, Nat.mul_comm,
    Nat.mul_add_one, Nat.mul_comm]
  have positive := layout.fragSize_pos
  omega

theorem lt_mapStart_locate (offset : Nat) : offset < layout.mapStart (layout.locate offset + 1) :=
  (layout.locate_eq_iff.mp rfl).2

theorem mapStart_locate_le (offset : Nat) : layout.mapStart (layout.locate offset) ≤ offset :=
  (layout.locate_eq_iff.mp rfl).1

theorem locate_mapStart (map : Nat) : layout.locate (layout.mapStart map) = map := by
  rw [locate, mapStart, Nat.mul_div_cancel_left _ layout.fragSize_pos]

theorem aligned_mapStart (map : Nat) : layout.Aligned (layout.mapStart map) :=
  Nat.dvd_trans layout.aligned_fragSize (Nat.dvd_mul_right _ _)

/-- The file holding an offset. -/
def locateFile (offset : Nat) : Nat := offset / layout.walFileSize

/-- First offset of a file. -/
def fileStart (file : Nat) : Nat := layout.walFileSize * file

theorem locateFile_lt_iff {offset file : Nat} :
    layout.locateFile offset < file ↔ offset < layout.fileStart file := by
  rw [locateFile, fileStart, Nat.div_lt_iff_lt_mul layout.walFileSize_pos, Nat.mul_comm]

theorem le_locateFile_iff {offset file : Nat} :
    file ≤ layout.locateFile offset ↔ layout.fileStart file ≤ offset := by
  rw [← Nat.not_lt, locateFile_lt_iff, Nat.not_lt]

/-- The file holding a fragment. -/
def fileForMap (map : Nat) : Nat := layout.locateFile (layout.mapStart map)

theorem fileForMap_locate (offset : Nat) :
    layout.fileForMap (layout.locate offset) = layout.locateFile offset := by
  obtain ⟨count, size⟩ := Nat.dvd_of_mod_eq_zero layout.fragSize_dvd
  have positive : 0 < count := by
    rcases Nat.eq_zero_or_pos count with rfl | positive
    · have sized := layout.walFileSize_pos
      rw [size, Nat.mul_zero] at sized
      exact absurd sized (Nat.lt_irrefl 0)
    · exact positive
  rw [fileForMap, mapStart, locateFile, locateFile, locate, size,
    Nat.mul_div_mul_left _ _ layout.fragSize_pos, ← Nat.div_div_eq_div_mul]

theorem fileForMap_mono {first second : Nat} (ordered : first ≤ second) :
    layout.fileForMap first ≤ layout.fileForMap second :=
  Nat.div_le_div_right (Nat.mul_le_mul_left _ ordered)

theorem fileForMap_succ_le (map : Nat) :
    layout.fileForMap (map + 1) ≤ layout.fileForMap map + 1 := by
  have small : layout.fragSize ≤ layout.walFileSize :=
    Nat.le_of_dvd layout.walFileSize_pos (Nat.dvd_of_mod_eq_zero layout.fragSize_dvd)
  rw [fileForMap, fileForMap, mapStart, mapStart, locateFile, locateFile, Nat.mul_add_one,
    ← Nat.add_div_right _ layout.walFileSize_pos]
  exact Nat.div_le_div_right (Nat.add_le_add_left small _)

/-- A layout with one fragment of 64 bytes to a file. -/
def small : WalLayout where
  fragSize := 64
  walFileSize := 64
  directIo := false
  fragSize_pos := by decide
  fragSize_small := by decide
  fragSize_aligned := by decide
  walFileSize_pos := by decide
  fragSize_dvd := by decide

end WalLayout

/-- An allocation: the end of the log before it and the region it takes. -/
structure AllocationResult where
  previousPosition : Nat
  allocatedPosition : Nat
  lenAligned : Nat
  deriving DecidableEq, Repr

namespace AllocationResult

def nextPosition (result : AllocationResult) : Nat :=
  result.allocatedPosition + result.lenAligned

/-- The offset that gets a skip marker when the allocation left a gap. -/
def needSkipMarker (result : AllocationResult) : Option Nat :=
  if result.previousPosition ≠ result.allocatedPosition then some result.previousPosition else none

end AllocationResult

/-- Allocate a length at the end of a log. An entry larger than a fragment is a panic. -/
def WalLayout.allocate (layout : WalLayout) (position len : Nat) : Option AllocationResult :=
  if layout.align len ≤ layout.fragSize then
    some ⟨position, layout.nextPosition position (layout.align len), layout.align len⟩
  else none

/-- An allocation lies in one fragment: the one the log ends in, or the next one. -/
theorem WalLayout.allocate_place {layout : WalLayout} {position len : Nat}
    {result : AllocationResult} (allocated : layout.allocate position len = some result) :
    (result.allocatedPosition = position ∨
        result.allocatedPosition = layout.mapStart (layout.locate position + 1)) ∧
      result.nextPosition ≤ layout.mapStart (layout.locate result.allocatedPosition + 1) := by
  unfold allocate at allocated
  split at allocated
  · rename_i fits
    cases allocated
    simp only [AllocationResult.nextPosition, nextPosition]
    split
    · rename_i same
      refine ⟨Or.inl rfl, ?_⟩
      have last : position + layout.align len - 1 < layout.mapStart (layout.locate position + 1) :=
        (layout.locate_eq_iff.mp same.symm).2
      omega
    · have place : (position / layout.fragSize + 1) * layout.fragSize =
          layout.mapStart (layout.locate position + 1) := Nat.mul_comm _ _
      rw [place, layout.locate_mapStart, mapStart, mapStart, Nat.mul_add_one _ (layout.locate position + 1)]
      exact ⟨Or.inr rfl, Nat.add_le_add_left fits _⟩
  · cases allocated

/-- At the start of a fragment every allocation fits. -/
theorem WalLayout.allocate_at_start {layout : WalLayout} {position len : Nat}
    {result : AllocationResult} (allocated : layout.allocate position len = some result)
    (first : layout.mapStart (layout.locate position) = position) (positive : 0 < layout.align len) :
    result.allocatedPosition = position := by
  unfold allocate at allocated
  split at allocated
  · rename_i fits
    cases allocated
    have inside : layout.locate (position + layout.align len - 1) = layout.locate position := by
      refine layout.locate_eq_iff.mpr ⟨by omega, ?_⟩
      have last : layout.mapStart (layout.locate position + 1) = position + layout.fragSize := by
        rw [mapStart, Nat.mul_add_one, ← mapStart, first]
      omega
    exact if_pos inside.symm
  · cases allocated

theorem WalLayout.allocate_spec {layout : WalLayout} {position len : Nat}
    {result : AllocationResult} (allocated : layout.allocate position len = some result) :
    result.previousPosition = position ∧ position ≤ result.allocatedPosition ∧
      result.lenAligned = layout.align len := by
  unfold allocate at allocated
  split at allocated
  · cases allocated
    exact ⟨rfl, layout.le_nextPosition _ _, rfl⟩
  · cases allocated

end Tidehunter.Wal
