import Tidehunter.Library.Machine
import Tidehunter.Wal.Log

/-!
# The allocator of the log

Any number of threads take space at the end of the log without a lock. A thread loads the
position, computes the region it would take and exchanges the position for the end of that
region, if the position is still the one it loaded; otherwise it starts over. Loads and
exchanges of different threads interleave in any order.
-/

namespace Tidehunter.Wal

open Library

/-- Where a thread is in its call. -/
inductive AllocatePhase where
  | idle
  /-- At the top of the loop. -/
  | retry (len : Nat)
  | loaded (len currentPos : Nat)
  deriving DecidableEq, Repr

/-- The length a thread in a call asked for. -/
def AllocatePhase.wanted : AllocatePhase → Option Nat
  | .idle => none
  | .retry len => some len
  | .loaded len _ => some len

/-- The shared position, the threads, and the allocations made so far with the lengths
asked for, in the order of their exchanges. -/
structure WalAllocator where
  position : Nat
  threads : Nat → AllocatePhase
  results : List (Nat × AllocationResult)

namespace WalAllocator

def new (initialPosition : Nat) : WalAllocator := ⟨initialPosition, fun _ => .idle, []⟩

inductive Event where
  /-- A thread calls allocate with a length. -/
  | call (thread len : Nat)
  | load (thread : Nat)
  | compareExchange (thread : Nat)
  deriving DecidableEq, Repr

/-- Move a thread. -/
def goto (allocator : WalAllocator) (thread : Nat) (phase : AllocatePhase) : WalAllocator :=
  { allocator with threads := Function.update allocator.threads thread phase }

@[simp]
theorem goto_threads_self (allocator : WalAllocator) (thread : Nat) (phase : AllocatePhase) :
    (allocator.goto thread phase).threads thread = phase :=
  Function.update_self ..

theorem goto_threads_of_ne (allocator : WalAllocator) {thread other : Nat}
    (phase : AllocatePhase) (different : other ≠ thread) :
    (allocator.goto thread phase).threads other = allocator.threads other :=
  Function.update_of_ne different ..

/-- One step of one thread. None where the thread is not there, and the panic on an entry
larger than a fragment. -/
def step (layout : WalLayout) (allocator : WalAllocator) : Event → Option WalAllocator
  | .call thread len =>
      match allocator.threads thread with
      | .idle => some (allocator.goto thread (.retry len))
      | .retry _ => none
      | .loaded _ _ => none
  | .load thread =>
      match allocator.threads thread with
      | .idle => none
      | .retry len => some (allocator.goto thread (.loaded len allocator.position))
      | .loaded _ _ => none
  | .compareExchange thread =>
      match allocator.threads thread with
      | .idle => none
      | .retry _ => none
      | .loaded len currentPos =>
          (layout.allocate currentPos len).map fun result =>
            if allocator.position = currentPos then
              { allocator.goto thread .idle with
                position := result.nextPosition
                results := allocator.results ++ [(len, result)] }
            else allocator.goto thread (.retry len)

/-- What a step can do: move one thread and nothing else, or take space at the position. -/
theorem step_cases {layout : WalLayout} {allocator next : WalAllocator} {event : Event}
    (stepped : step layout allocator event = some next) :
    (∃ thread len, event = .call thread len ∧ next = allocator.goto thread (.retry len)) ∨
    (∃ thread len, allocator.threads thread = .retry len ∧
      next = allocator.goto thread (.loaded len allocator.position)) ∨
    (∃ thread len currentPos, allocator.threads thread = .loaded len currentPos ∧
      next = allocator.goto thread (.retry len)) ∨
    ∃ thread len result, allocator.threads thread = .loaded len allocator.position ∧
      layout.allocate allocator.position len = some result ∧
      next = { allocator.goto thread .idle with
        position := result.nextPosition
        results := allocator.results ++ [(len, result)] } := by
  cases event with
  | call thread len =>
      simp only [step] at stepped
      split at stepped
      · cases stepped
        exact Or.inl ⟨thread, len, rfl, rfl⟩
      · cases stepped
      · cases stepped
  | load thread =>
      simp only [step] at stepped
      split at stepped
      · cases stepped
      · rename_i len phase
        cases stepped
        exact Or.inr (Or.inl ⟨thread, len, phase, rfl⟩)
      · cases stepped
  | compareExchange thread =>
      simp only [step] at stepped
      split at stepped
      · cases stepped
      · cases stepped
      · rename_i len currentPos phase
        obtain ⟨result, allocated, taken⟩ := Option.map_eq_some_iff.mp stepped
        split at taken
        · rename_i current
          subst current
          exact Or.inr (Or.inr (Or.inr ⟨thread, len, result, phase, allocated, taken.symm⟩))
        · exact Or.inr (Or.inr (Or.inl ⟨thread, len, currentPos, phase, taken.symm⟩))

end WalAllocator

/-! ## One allocation -/

/-- A region taken for a length: aligned and in one fragment, behind the end of the log or at
the start of the next fragment. A gap lies in one fragment and has room for the skip
marker. -/
structure WalLayout.Placed (layout : WalLayout) (len : Nat) (result : AllocationResult) :
    Prop where
  aligned : layout.Aligned result.allocatedPosition
  lenAligned : layout.Aligned result.lenAligned
  len_pos : 0 < len
  len_le : len ≤ result.lenAligned
  inFragment : layout.locate result.allocatedPosition = layout.locate (result.nextPosition - 1)
  starts : result.allocatedPosition = result.previousPosition ∨
    result.allocatedPosition = layout.mapStart (layout.locate result.previousPosition + 1)
  gap : ∀ marker, result.needSkipMarker = some marker →
    marker = result.previousPosition ∧
      layout.locate marker = layout.locate (result.allocatedPosition - 1) ∧
      marker + crcHeaderLength ≤ result.allocatedPosition

theorem crcHeaderLength_dvd_alignment (directIo : Bool) :
    crcHeaderLength ∣ alignment directIo := by
  cases directIo <;> decide

/-- Two different aligned positions are at least a header apart. -/
theorem WalLayout.Aligned.add_header_le {layout : WalLayout} {first second : Nat}
    (left : layout.Aligned first) (right : layout.Aligned second) (before : first < second) :
    first + crcHeaderLength ≤ second := by
  have apart : crcHeaderLength ∣ second - first :=
    Nat.dvd_trans (crcHeaderLength_dvd_alignment layout.directIo) (Nat.dvd_sub right left)
  have wide := Nat.le_of_dvd (Nat.sub_pos_of_lt before) apart
  omega

theorem WalLayout.placed_of_allocate {layout : WalLayout} {position len : Nat}
    {result : AllocationResult} (aligned : layout.Aligned position) (positive : 0 < len)
    (allocated : layout.allocate position len = some result) : layout.Placed len result := by
  obtain ⟨previous, ordered, taken⟩ := allocate_spec allocated
  obtain ⟨place, inside⟩ := allocate_place allocated
  have covers : len ≤ result.lenAligned := taken ▸ layout.le_align len
  have stop : result.nextPosition = result.allocatedPosition + result.lenAligned := rfl
  have start : layout.Aligned result.allocatedPosition := by
    rcases place with same | next
    · rwa [same]
    · rw [next]
      exact layout.aligned_mapStart _
  refine ⟨start, taken ▸ layout.aligned_align len, positive, covers, ?_, previous ▸ place, ?_⟩
  · refine (layout.locate_eq_iff.mpr ⟨?_, by omega⟩).symm
    have low := layout.mapStart_locate_le result.allocatedPosition
    omega
  · intro marker needed
    rw [AllocationResult.needSkipMarker] at needed
    split at needed
    · rename_i moved
      cases needed
      rw [previous] at moved ⊢
      have before : position < result.allocatedPosition := lt_of_le_of_ne ordered moved
      have next := place.resolve_left (Ne.symm moved)
      refine ⟨rfl, (layout.locate_eq_iff.mpr ⟨?_, by omega⟩).symm,
        aligned.add_header_le start before⟩
      have low := layout.mapStart_locate_le position
      omega
    · cases needed

/-- The end of an allocation at an aligned position is aligned. -/
theorem WalLayout.Placed.aligned_next {layout : WalLayout} {len : Nat} {result : AllocationResult}
    (placed : layout.Placed len result) : layout.Aligned result.nextPosition :=
  Nat.dvd_add placed.aligned placed.lenAligned

namespace WalAllocator

/-! ## All interleavings -/

/-- Allocations one behind the other: each one's previous position is where the one before
it ended. -/
def Linked : Nat → List (Nat × AllocationResult) → Nat → Prop
  | start, [], stop => start = stop
  | start, (_, result) :: rest, stop =>
      result.previousPosition = start ∧ Linked result.nextPosition rest stop

theorem Linked.append {results : List (Nat × AllocationResult)} {start middle stop : Nat}
    {len : Nat} {result : AllocationResult} (linked : Linked start results middle)
    (previous : result.previousPosition = middle) (next : result.nextPosition = stop) :
    Linked start (results ++ [(len, result)]) stop := by
  induction results generalizing start with
  | nil =>
      cases linked
      exact ⟨previous, next⟩
  | cons _ _ ih => exact ⟨linked.1, ih linked.2⟩

/-- The chain of allocations up to the position of the allocator. -/
structure Sound (layout : WalLayout) (start : Nat) (allocator : WalAllocator) : Prop where
  linked : Linked start allocator.results allocator.position
  aligned : layout.Aligned allocator.position
  placed : ∀ taken ∈ allocator.results, layout.Placed taken.1 taken.2
  wanted : ∀ thread len, (allocator.threads thread).wanted = some len → 0 < len

/-- Moving a thread that asked for a positive length. -/
theorem Sound.goto {layout : WalLayout} {start : Nat} {allocator : WalAllocator}
    (sound : Sound layout start allocator) (thread : Nat) {phase : AllocatePhase}
    (wanted : ∀ len, phase.wanted = some len → 0 < len) :
    Sound layout start (allocator.goto thread phase) where
  linked := sound.linked
  aligned := sound.aligned
  placed := sound.placed
  wanted := by
    intro other len moved
    rcases eq_or_ne other thread with rfl | different
    · rw [goto_threads_self] at moved
      exact wanted len moved
    · rw [goto_threads_of_ne _ _ different] at moved
      exact sound.wanted other len moved

/-- Space is asked for by the byte, at most a fragment at once. -/
def Event.Sized (layout : WalLayout) (event : Event) : Prop :=
  ∀ thread len, event = .call thread len → 1 ≤ len ∧ len ≤ layout.fragSize

theorem sound_step {layout : WalLayout} {start : Nat} {allocator next : WalAllocator}
    {event : Event} (sound : Sound layout start allocator) (sized : event.Sized layout)
    (stepped : step layout allocator event = some next) : Sound layout start next := by
  rcases step_cases stepped with ⟨thread, len, called, rfl⟩ | ⟨thread, len, phase, rfl⟩ |
    ⟨thread, len, currentPos, phase, rfl⟩ | ⟨thread, len, result, phase, allocated, rfl⟩
  · refine sound.goto thread fun other same => ?_
    cases same
    exact (sized thread len called).1
  · refine sound.goto thread fun other same => ?_
    cases same
    exact sound.wanted thread len (by rw [phase]; rfl)
  · refine sound.goto thread fun other same => ?_
    cases same
    exact sound.wanted thread len (by rw [phase]; rfl)
  · have positive := sound.wanted thread len (by rw [phase]; rfl)
    have placed := layout.placed_of_allocate sound.aligned positive allocated
    have moved : Sound layout start (allocator.goto thread .idle) := sound.goto thread fun _ => nofun
    refine ⟨sound.linked.append (WalLayout.allocate_spec allocated).1 rfl, placed.aligned_next,
      ?_, moved.wanted⟩
    intro taken member
    rcases List.mem_append.mp member with old | fresh
    · exact sound.placed taken old
    · rw [List.mem_singleton.mp fresh]
      exact placed

/-- Everything in a chain starts at or behind its start, and regions follow each other. -/
theorem Linked.ordered {layout : WalLayout} {results : List (Nat × AllocationResult)}
    {start stop : Nat} (linked : Linked start results stop)
    (placed : ∀ taken ∈ results, layout.Placed taken.1 taken.2) :
    (∀ taken ∈ results, start ≤ taken.2.allocatedPosition) ∧
      results.Pairwise fun first second =>
        first.2.nextPosition ≤ second.2.allocatedPosition := by
  induction results generalizing start with
  | nil => exact ⟨fun _ member => absurd member List.not_mem_nil, List.Pairwise.nil⟩
  | cons taken rest ih =>
      obtain ⟨len, result⟩ := taken
      obtain ⟨previous, tail⟩ := linked
      obtain ⟨behind, apart⟩ := ih tail fun other member =>
        placed other (List.mem_cons_of_mem _ member)
      have here : layout.Placed len result := placed _ List.mem_cons_self
      have forward : start ≤ result.allocatedPosition := by
        have next := layout.lt_mapStart_locate result.previousPosition
        rcases here.starts with same | moved
        · exact (same.trans previous).ge
        · omega
      refine ⟨fun other member => ?_, List.Pairwise.cons behind apart⟩
      rcases List.mem_cons.mp member with rfl | later
      · exact forward
      · have stop : result.nextPosition = result.allocatedPosition + result.lenAligned := rfl
        have after := behind other later
        omega

/-- However the loads and exchanges of the threads interleave, the regions taken form one
contiguous chain from the first position to the current one, do not overlap, and each of
them is placed as one allocation places it. -/
theorem regions_placed {layout : WalLayout} {start : Nat} (aligned : layout.Aligned start)
    {events : List Event} (sized : ∀ event ∈ events, event.Sized layout)
    {allocator : WalAllocator} (ran : runEvents (step layout) events (new start) = some allocator) :
    Linked start allocator.results allocator.position ∧
      allocator.results.Pairwise (fun first second =>
        first.2.nextPosition ≤ second.2.allocatedPosition) ∧
      ∀ taken ∈ allocator.results, layout.Placed taken.1 taken.2 := by
  have fresh : Sound layout start (new start) :=
    ⟨rfl, aligned, fun _ member => absurd member List.not_mem_nil, fun _ _ => nofun⟩
  have sound := runEvents_invariant sound_step fresh
    (allSteps_of_mem (fun event member _ => sized event member) _) ran
  exact ⟨sound.linked, (sound.linked.ordered sound.placed).2, sound.placed⟩

/-- Two threads load the same position; the second exchange fails and is tried again, in the
next fragment. -/
def contended : List Event :=
  [.call 0 40, .call 1 32, .load 0, .load 1, .compareExchange 0, .compareExchange 1, .load 1,
    .compareExchange 1]

theorem regions_placed_contended :
    WalLayout.small.Aligned 0 ∧ (∀ event ∈ contended, event.Sized WalLayout.small) ∧
      ∃ allocator, runEvents (step WalLayout.small) contended (new 0) = some allocator ∧
        allocator.results = [(40, ⟨0, 0, 40⟩), (32, ⟨40, 64, 32⟩)] ∧
        Linked 0 allocator.results allocator.position ∧
        allocator.results.Pairwise (fun first second =>
          first.2.nextPosition ≤ second.2.allocatedPosition) ∧
        ∀ taken ∈ allocator.results, WalLayout.small.Placed taken.1 taken.2 := by
  have aligned : WalLayout.small.Aligned 0 := Nat.dvd_zero _
  have sized : ∀ event ∈ contended, event.Sized WalLayout.small := by
    simp [contended, Event.Sized, WalLayout.small]
  have reached : (runEvents (step WalLayout.small) contended (new 0)).any (fun allocator =>
      decide (allocator.results = [(40, ⟨0, 0, 40⟩), (32, ⟨40, 64, 32⟩)])) = true := by
    decide +kernel
  obtain ⟨allocator, ran, met⟩ := (Option.any_eq_true _ _).mp reached
  exact ⟨aligned, sized, allocator, ran, of_decide_eq_true met,
    regions_placed aligned sized ran⟩

end WalAllocator

end Tidehunter.Wal
