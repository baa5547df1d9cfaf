import Tidehunter.Wal.Allocator

/-!
# The tracker of processed positions

The tracker receives allocations in any order, each once its guard is dropped, and moves its
frontier along the chain that they form. An allocation whose predecessor is missing is parked
under the position of that predecessor's end. The frontier that others see is held back by
latches; latches and waits are answered when everything received before them is processed.
-/

namespace Tidehunter.Wal

open Library

/-! ## The frontier -/

structure WalTrackerState where
  /-- Received allocations that the chain has not reached. -/
  pending : List AllocationResult
  lastProcessed : Nat
  highestSeen : Nat
  deriving DecidableEq, Repr

namespace WalTrackerState

def newEmpty (lastProcessed : Nat) : WalTrackerState := ⟨[], lastProcessed, lastProcessed⟩

/-- Park an allocation under the end of its predecessor. -/
def park (pending : List AllocationResult) (result : AllocationResult) : List AllocationResult :=
  result :: pending.filter fun other => other.previousPosition ≠ result.previousPosition

/-- Take parked allocations out as long as they continue the chain. Gives what stays parked and
the allocations of the chain, the first one included. -/
def drainPending : Nat → List AllocationResult → AllocationResult →
    List AllocationResult × List AllocationResult
  | 0, pending, result => (pending, [result])
  | fuel + 1, pending, result =>
      match pending.find? fun next => next.previousPosition = result.nextPosition with
      | none => (pending, [result])
      | some next =>
          let (rest, processed) := drainPending fuel
            (pending.filter fun other => other.previousPosition ≠ result.nextPosition) next
          (rest, result :: processed)

/-- The end of a chain of allocations that starts at a position. -/
def chainEnd : Nat → List AllocationResult → Nat
  | start, [] => start
  | _, result :: rest => chainEnd result.nextPosition rest

/-- Account for an allocation. Gives the allocations that became processed, in their order;
there are none when the allocation is parked. -/
def addProcessed (state : WalTrackerState) (result : AllocationResult) :
    WalTrackerState × List AllocationResult :=
  let highestSeen := max state.highestSeen result.nextPosition
  if state.lastProcessed ≠ result.previousPosition then
    ({ state with pending := park state.pending result, highestSeen }, [])
  else
    let (pending, processed) := drainPending state.pending.length state.pending result
    (⟨pending, chainEnd state.lastProcessed processed, highestSeen⟩, processed)

end WalTrackerState

/-! ## The thread -/

structure WalTrackerLatch where
  id : Nat
  position : Nat
  deriving DecidableEq, Repr

/-- A latch request that is not answered yet. -/
structure PendingLatchRequest where
  target : Nat
  id : Nat
  response : Nat
  deriving DecidableEq, Repr

structure PendingWait where
  target : Nat
  response : Nat
  deriving DecidableEq, Repr

/-- An answer goes to the channel that came with the request. -/
inductive TrackerReply where
  | latch (response : Nat) (latch : WalTrackerLatch)
  | processed (response : Nat)
  deriving DecidableEq, Repr

inductive WalTrackerMessage where
  | allocation (result : AllocationResult)
  | latchRequest (response : Nat)
  | latchRelease (latch : WalTrackerLatch)
  | waitProcessed (response : Nat)
  | barrier
  deriving DecidableEq, Repr

structure WalTrackerThread where
  state : WalTrackerState
  /-- The frontier that others see. -/
  lastProcessed : Nat
  /-- Active latches with their positions and ids. -/
  latches : List (Nat × Nat)
  nextLatchId : Nat
  pendingRequests : List PendingLatchRequest
  pendingWaits : List PendingWait
  deriving DecidableEq, Repr

namespace WalTrackerThread

def start (lastProcessed : Nat) : WalTrackerThread :=
  ⟨.newEmpty lastProcessed, lastProcessed, [], 0, [], []⟩

/-- The internal frontier, held back by the latches. -/
def external (thread : WalTrackerThread) : Nat :=
  thread.latches.foldl (fun lowest latch => min lowest latch.1) thread.state.lastProcessed

def publish (thread : WalTrackerThread) : WalTrackerThread :=
  { thread with lastProcessed := thread.external }

/-- Answer the requests that are reached. -/
def fulfillPendingRequests (thread : WalTrackerThread) : WalTrackerThread × List TrackerReply :=
  let reached := thread.state.lastProcessed
  ({ thread with
      pendingRequests := thread.pendingRequests.filter fun request => ¬request.target ≤ reached
      pendingWaits := thread.pendingWaits.filter fun wait => ¬wait.target ≤ reached },
    ((thread.pendingRequests.filter fun request => request.target ≤ reached).map fun request =>
      .latch request.response ⟨request.id, request.target⟩) ++
    (thread.pendingWaits.filter fun wait => wait.target ≤ reached).map fun wait =>
      .processed wait.response)

/-- The fragment behind which an allocation opens a new one. -/
def leftFragment (layout : WalLayout) (result : AllocationResult) : Option Nat :=
  if result.allocatedPosition = layout.mapStart (layout.locate result.allocatedPosition) then
    match layout.locate result.allocatedPosition with
    | 0 => none
    | map + 1 => some map
  else none

/-- Handle a message. Gives the answers and the fragments to finalize. -/
def handle (layout : WalLayout) (thread : WalTrackerThread) :
    WalTrackerMessage → WalTrackerThread × List TrackerReply × List Nat
  | .allocation result =>
      let (state, processed) := thread.state.addProcessed result
      let finalized := processed.filterMap (leftFragment layout)
      if processed.isEmpty then ({ thread with state }, [], finalized)
      else
        let (thread, replies) := fulfillPendingRequests (publish { thread with state })
        (thread, replies, finalized)
  | .latchRequest response =>
      let id := thread.nextLatchId
      let target := thread.state.highestSeen
      let latched := { thread with
        nextLatchId := id + 1
        latches := (target, id) :: thread.latches }
      if target ≤ thread.state.lastProcessed then
        (publish latched, [.latch response ⟨id, target⟩], [])
      else
        (publish { latched with
          pendingRequests := thread.pendingRequests ++ [⟨target, id, response⟩] }, [], [])
  | .latchRelease latch =>
      (publish { thread with
        latches := thread.latches.filter fun other => other ≠ (latch.position, latch.id) }, [], [])
  | .waitProcessed response =>
      let target := thread.state.highestSeen
      if target ≤ thread.state.lastProcessed then (thread, [.processed response], [])
      else
        ({ thread with pendingWaits := thread.pendingWaits ++ [⟨target, response⟩] }, [], [])
  | .barrier => (thread, [], [])

end WalTrackerThread

/-! ## Chains -/

/-- Allocations one behind the other. -/
def AllocationChain : Nat → List AllocationResult → Nat → Prop
  | start, [], stop => start = stop
  | start, result :: rest, stop =>
      result.previousPosition = start ∧ result.previousPosition < result.nextPosition ∧
        AllocationChain result.nextPosition rest stop

namespace AllocationChain

variable {start middle stop : Nat} {first second : List AllocationResult}

theorem append_iff :
    AllocationChain start (first ++ second) stop ↔
      ∃ middle, AllocationChain start first middle ∧ AllocationChain middle second stop := by
  induction first generalizing start with
  | nil => exact ⟨fun chained => ⟨start, rfl, chained⟩, fun ⟨_, same, chained⟩ => same ▸ chained⟩
  | cons result rest ih =>
      constructor
      · rintro ⟨previous, forward, chained⟩
        obtain ⟨middle, front, back⟩ := ih.mp chained
        exact ⟨middle, ⟨previous, forward, front⟩, back⟩
      · rintro ⟨middle, ⟨previous, forward, front⟩, back⟩
        exact ⟨previous, forward, ih.mpr ⟨middle, front, back⟩⟩

theorem le (chained : AllocationChain start first stop) : start ≤ stop := by
  induction first generalizing start with
  | nil => exact chained.le
  | cons result rest ih =>
      obtain ⟨previous, forward, chained⟩ := chained
      have later := ih chained
      omega

/-- The allocations of a chain lie between its ends. -/
theorem mem_bounds (chained : AllocationChain start first stop) {result : AllocationResult}
    (member : result ∈ first) :
    start ≤ result.previousPosition ∧ result.previousPosition < result.nextPosition ∧
      result.nextPosition ≤ stop := by
  induction first generalizing start with
  | nil => exact absurd member List.not_mem_nil
  | cons head rest ih =>
      obtain ⟨previous, forward, chained⟩ := chained
      rcases List.mem_cons.mp member with rfl | later
      · exact ⟨previous.ge, forward, chained.le⟩
      · obtain ⟨low, between, high⟩ := ih chained later
        exact ⟨by omega, between, high⟩

/-- An allocation of a chain is known by the end of its predecessor. -/
theorem eq_of_previous (chained : AllocationChain start first stop) {result other : AllocationResult}
    (member : result ∈ first) (otherMember : other ∈ first)
    (same : result.previousPosition = other.previousPosition) : result = other := by
  induction first generalizing start with
  | nil => exact absurd member List.not_mem_nil
  | cons head rest ih =>
      obtain ⟨previous, forward, chained⟩ := chained
      rcases List.mem_cons.mp member with rfl | later
      · rcases List.mem_cons.mp otherMember with rfl | otherLater
        · rfl
        · have := (chained.mem_bounds otherLater).1
          omega
      · rcases List.mem_cons.mp otherMember with rfl | otherLater
        · have := (chained.mem_bounds later).1
          omega
        · exact ih chained later otherLater

theorem chainEnd_eq (chained : AllocationChain start first stop) :
    WalTrackerState.chainEnd start first = stop := by
  induction first generalizing start with
  | nil => exact chained
  | cons head rest ih =>
      obtain ⟨-, -, chained⟩ := chained
      exact ih chained

end AllocationChain

/-- The regions of the allocator form a chain. -/
theorem WalAllocator.Sound.chained {layout : WalLayout} {start : Nat} {allocator : WalAllocator}
    (sound : WalAllocator.Sound layout start allocator) :
    AllocationChain start (allocator.results.map Prod.snd) allocator.position := by
  have chain {results : List (Nat × AllocationResult)} {first stop : Nat}
      (linked : WalAllocator.Linked first results stop)
      (placed : ∀ taken ∈ results, layout.Placed taken.1 taken.2) :
      AllocationChain first (results.map Prod.snd) stop := by
    induction results generalizing first with
    | nil => exact linked
    | cons taken rest ih =>
        obtain ⟨len, result⟩ := taken
        have here : layout.Placed len result := placed _ List.mem_cons_self
        refine ⟨linked.1, ?_, ih linked.2 fun other member =>
          placed other (List.mem_cons_of_mem _ member)⟩
        show result.previousPosition < result.nextPosition
        have stop : result.nextPosition = result.allocatedPosition + result.lenAligned := rfl
        have next := layout.lt_mapStart_locate result.previousPosition
        have positive := here.len_pos
        have covers := here.len_le
        rcases here.starts with same | moved <;> omega
  exact chain sound.linked sound.placed

/-! ## The longest chain -/

/-- A position that a chain of some allocations reaches. -/
inductive Reached (start : Nat) (received : List AllocationResult) : Nat → Prop where
  | start : Reached start received start
  | next {result : AllocationResult} (member : result ∈ received)
      (reached : Reached start received result.previousPosition) :
      Reached start received result.nextPosition

/-- The end of the longest chain of some allocations. -/
structure IsFrontier (start : Nat) (received : List AllocationResult) (frontier : Nat) : Prop where
  reached : Reached start received frontier
  longest : ∀ position, Reached start received position → position ≤ frontier

/-- The highest end of some allocations. -/
def highestEnd (start : Nat) (received : List AllocationResult) : Nat :=
  received.foldl (fun highest result => max highest result.nextPosition) start

theorem highestEnd_concat (start : Nat) (received : List AllocationResult)
    (result : AllocationResult) :
    highestEnd start (received ++ [result]) =
      max (highestEnd start received) result.nextPosition :=
  List.foldl_concat ..

theorem le_highestEnd (start : Nat) (received : List AllocationResult) :
    start ≤ highestEnd start received ∧
      ∀ result ∈ received, result.nextPosition ≤ highestEnd start received := by
  induction received generalizing start with
  | nil => exact ⟨Nat.le_refl _, nofun⟩
  | cons first rest ih =>
      obtain ⟨above, bounds⟩ := ih (max start first.nextPosition)
      exact ⟨(Nat.le_max_left _ _).trans above,
        List.forall_mem_cons.mpr ⟨(Nat.le_max_right _ _).trans above, bounds⟩⟩

theorem Reached.le_highestEnd {start position : Nat} {received : List AllocationResult}
    (reached : Reached start received position) : position ≤ highestEnd start received := by
  cases reached with
  | start => exact (Wal.le_highestEnd start received).1
  | next member _ => exact (Wal.le_highestEnd start received).2 _ member

theorem Reached.mono {start position : Nat} {received more : List AllocationResult}
    (reached : Reached start received position) (subset : ∀ result ∈ received, result ∈ more) :
    Reached start more position := by
  induction reached with
  | start => exact .start
  | next member _ ih => exact .next (subset _ member) ih

namespace WalTrackerState

/-- What the tracker knows of a chain: it received the allocations up to the frontier and the
parked ones, and the one at the frontier is not among these. -/
structure Tracks (state : WalTrackerState) (start : Nat) (results received : List AllocationResult) :
    Prop where
  split : ∃ done rest stop, results = done ++ rest ∧ AllocationChain start done state.lastProcessed ∧
    AllocationChain state.lastProcessed rest stop ∧ (∀ result ∈ state.pending, result ∈ rest) ∧
    ∀ result, result ∈ received ↔ result ∈ done ∨ result ∈ state.pending
  gap : ∀ result ∈ state.pending, result.previousPosition ≠ state.lastProcessed
  highest : state.highestSeen = highestEnd start received

variable {state : WalTrackerState} {start : Nat} {results received : List AllocationResult}

theorem reached_of_chained {done : List AllocationResult} {first stop : Nat}
    (chained : AllocationChain first done stop) (reached : Reached start received first)
    (known : ∀ result ∈ done, result ∈ received) : Reached start received stop := by
  induction done generalizing first with
  | nil => exact chained ▸ reached
  | cons result rest ih =>
      obtain ⟨rfl, -, chained⟩ := chained
      obtain ⟨member, known⟩ := List.forall_mem_cons.mp known
      exact ih chained (.next member reached) known

/-- The internal frontier is the end of the longest chain of received allocations. -/
theorem Tracks.isFrontier (tracks : state.Tracks start results received) :
    IsFrontier start received state.lastProcessed := by
  obtain ⟨done, rest, stop, rfl, doneChain, restChain, parked, known⟩ := tracks.split
  refine ⟨reached_of_chained doneChain .start fun result member => (known result).mpr (.inl member),
    fun position reached => ?_⟩
  induction reached with
  | start => exact doneChain.le
  | @next result member _ below =>
      rcases (known result).mp member with isDone | isParked
      · exact (doneChain.mem_bounds isDone).2.2
      · have behind := (restChain.mem_bounds (parked result isParked)).1
        exact absurd (Nat.le_antisymm below behind) (tracks.gap result isParked)

/-- Taking parked allocations out follows the chain up to its next gap. -/
theorem drainPending_spec {fuel : Nat} {pending : List AllocationResult} {result : AllocationResult}
    {rest : List AllocationResult} {stop : Nat} (enough : pending.length ≤ fuel)
    (chained : AllocationChain result.nextPosition rest stop) (parked : ∀ other ∈ pending, other ∈ rest) :
    ∃ more later, rest = more ++ later ∧
      (drainPending fuel pending result).2 = result :: more ∧
      (∀ other ∈ (drainPending fuel pending result).1, other ∈ later) ∧
      (∀ other, other ∈ pending ↔
        other ∈ more ∨ other ∈ (drainPending fuel pending result).1) ∧
      ∀ other ∈ (drainPending fuel pending result).1,
        other.previousPosition ≠ chainEnd result.nextPosition more := by
  induction fuel generalizing pending result rest with
  | zero =>
      obtain rfl := List.eq_nil_of_length_eq_zero (Nat.le_zero.mp enough)
      exact ⟨[], rest, rfl, rfl, nofun, fun other => by simp [drainPending], nofun⟩
  | succ fuel ih =>
      rw [drainPending]
      cases found : pending.find? fun next => next.previousPosition = result.nextPosition with
      | none =>
          refine ⟨[], rest, rfl, rfl, parked, fun other => by simp, fun other member => ?_⟩
          have differs : ¬other.previousPosition = result.nextPosition := by
            simpa using List.find?_eq_none.mp found other member
          exact differs
      | some next =>
          have isParked := List.mem_of_find?_eq_some found
          have follows : next.previousPosition = result.nextPosition := by
            simpa using List.find?_some found
          cases rest with
          | nil => exact absurd (parked next isParked) List.not_mem_nil
          | cons head rest =>
              have isNext : next = head := chained.eq_of_previous (parked next isParked)
                List.mem_cons_self (follows.trans chained.1.symm)
              subst isNext
              have stillParked : ∀ other ∈ pending.filter fun other =>
                  other.previousPosition ≠ result.nextPosition, other ∈ rest := by
                intro other member
                obtain ⟨member, differs⟩ := List.mem_filter.mp member
                rcases List.mem_cons.mp (parked other member) with rfl | inRest
                · exact absurd follows (of_decide_eq_true differs)
                · exact inRest
              have fewer : (pending.filter fun other =>
                  other.previousPosition ≠ result.nextPosition).length ≤ fuel := by
                refine Nat.le_of_lt_succ (Nat.lt_of_lt_of_le ?_ enough)
                exact List.length_filter_lt_length_iff_exists.mpr
                  ⟨next, isParked, by simp [follows]⟩
              obtain ⟨more, later, rfl, processed, parked', known, gap⟩ :=
                ih fewer chained.2.2 stillParked
              refine ⟨next :: more, later, rfl, by simp only [processed], parked', fun other => ?_, ?_⟩
              · constructor
                · intro member
                  by_cases isNext : other.previousPosition = result.nextPosition
                  · exact .inl (chained.eq_of_previous (parked other member) List.mem_cons_self
                      (isNext.trans follows.symm) ▸ List.mem_cons_self)
                  · rcases (known other).mp
                      (List.mem_filter.mpr ⟨member, decide_eq_true isNext⟩) with isMore | stays
                    · exact .inl (List.mem_cons_of_mem _ isMore)
                    · exact .inr stays
                · rintro (isMore | stays)
                  · rcases List.mem_cons.mp isMore with rfl | isMore
                    · exact isParked
                    · exact (List.mem_filter.mp ((known other).mpr (.inl isMore))).1
                  · exact (List.mem_filter.mp ((known other).mpr (.inr stays))).1
              · exact gap

/-- The allocations that become processed continue the chain from the frontier to the next
one. -/
def Continues (state next : WalTrackerState) (start : Nat)
    (results processed : List AllocationResult) : Prop :=
  ∃ done later stop, results = done ++ (processed ++ later) ∧
    AllocationChain start done state.lastProcessed ∧
    AllocationChain state.lastProcessed processed next.lastProcessed ∧
    AllocationChain next.lastProcessed later stop

/-- Accounting for an allocation of the chain that was not received before. -/
theorem Tracks.addProcessed_spec (tracks : state.Tracks start results received)
    {result : AllocationResult} (taken : result ∈ results) (fresh : result ∉ received) :
    (state.addProcessed result).1.Tracks start results (received ++ [result]) ∧
      Continues state (state.addProcessed result).1 start results (state.addProcessed result).2 := by
  obtain ⟨done, rest, stop, isResults, doneChain, restChain, parked, known⟩ := tracks.split
  have highest : max state.highestSeen result.nextPosition =
      highestEnd start (received ++ [result]) := by
    rw [highestEnd_concat, tracks.highest]
  have inRest : result ∈ rest := by
    rw [isResults] at taken
    exact (List.mem_append.mp taken).resolve_left fun isDone => fresh ((known result).mpr (.inl isDone))
  unfold WalTrackerState.addProcessed
  by_cases atFrontier : state.lastProcessed = result.previousPosition
  · rw [if_neg (not_not.mpr atFrontier)]
    cases rest with
    | nil => exact absurd inRest List.not_mem_nil
    | cons head rest =>
        have isHead : result = head := restChain.eq_of_previous inRest List.mem_cons_self
          (atFrontier.symm.trans restChain.1.symm)
        subst isHead
        have stillParked : ∀ other ∈ state.pending, other ∈ rest := by
          intro other member
          rcases List.mem_cons.mp (parked other member) with rfl | inRest
          · exact absurd ((known other).mpr (.inr member)) fresh
          · exact inRest
        obtain ⟨more, later, rfl, processed, parked', known', gap⟩ :=
          drainPending_spec (Nat.le_refl _) restChain.2.2 stillParked
        have isEnd : chainEnd state.lastProcessed (drainPending state.pending.length state.pending
            result).2 = chainEnd result.nextPosition more := by
          rw [processed]
          rfl
        obtain ⟨middle, moreChain, laterChain⟩ := AllocationChain.append_iff.mp restChain.2.2
        have isMiddle := isEnd.trans moreChain.chainEnd_eq
        have processedChain : AllocationChain state.lastProcessed (result :: more) middle :=
          ⟨restChain.1, restChain.2.1, moreChain⟩
        have fromMiddle : AllocationChain (chainEnd state.lastProcessed
            (drainPending state.pending.length state.pending result).2) later stop := by
          rw [isMiddle]
          exact laterChain
        refine ⟨⟨⟨done ++ result :: more, later, stop, ?_, ?_, fromMiddle, parked',
          fun other => ?_⟩, ?_, highest⟩, done, later, stop, ?_, doneChain, ?_, fromMiddle⟩
        · rw [isResults, List.append_assoc]
          rfl
        · show AllocationChain start _ (chainEnd state.lastProcessed _)
          rw [isMiddle]
          exact AllocationChain.append_iff.mpr ⟨_, doneChain, processedChain⟩
        · rw [List.mem_append, known other, known' other, List.mem_singleton, List.mem_append,
            List.mem_cons]
          tauto
        · intro other member
          show other.previousPosition ≠ chainEnd state.lastProcessed _
          rw [isEnd]
          exact gap other member
        · show results = done ++ ((drainPending state.pending.length state.pending result).2 ++ later)
          rw [processed, isResults]
          rfl
        · show AllocationChain state.lastProcessed (drainPending state.pending.length state.pending result).2
            (chainEnd state.lastProcessed _)
          rw [isMiddle, processed]
          exact processedChain
  · rw [if_pos atFrontier]
    have stillParked : ∀ other ∈ state.pending, other.previousPosition ≠ result.previousPosition := by
      intro other member same
      have isResult := restChain.eq_of_previous (parked other member) inRest same
      exact fresh ((known result).mpr (.inr (isResult ▸ member)))
    have isPark : park state.pending result = result :: state.pending := by
      rw [park, List.filter_eq_self.mpr fun other member => decide_eq_true (stillParked other member)]
    refine ⟨⟨⟨done, rest, stop, isResults, doneChain, restChain, ?_, fun other => ?_⟩, ?_, highest⟩,
      done, rest, stop, isResults, doneChain, rfl, restChain⟩
    · show ∀ other ∈ park state.pending result, other ∈ rest
      rw [isPark]
      exact List.forall_mem_cons.mpr ⟨inRest, parked⟩
    · show other ∈ received ++ [result] ↔ other ∈ done ∨ other ∈ park state.pending result
      rw [isPark, List.mem_append, known other, List.mem_singleton, List.mem_cons, or_assoc,
        or_comm (a := other ∈ state.pending)]
    · show ∀ other ∈ park state.pending result, other.previousPosition ≠ state.lastProcessed
      rw [isPark]
      exact List.forall_mem_cons.mpr ⟨fun same => atFrontier same.symm, tracks.gap⟩

theorem Tracks.addProcessed (tracks : state.Tracks start results received)
    {result : AllocationResult} (taken : result ∈ results) (fresh : result ∉ received) :
    (state.addProcessed result).1.Tracks start results (received ++ [result]) :=
  (tracks.addProcessed_spec taken fresh).1

/-- More allocations at the end of the chain. -/
theorem Tracks.extend (tracks : state.Tracks start results received) {more : List AllocationResult}
    {stop : Nat} (chained : AllocationChain start (results ++ more) stop) :
    state.Tracks start (results ++ more) received := by
  obtain ⟨done, rest, oldStop, rfl, doneChain, -, parked, known⟩ := tracks.split
  rw [List.append_assoc] at chained
  obtain ⟨middle, doneChain', restChain⟩ := AllocationChain.append_iff.mp chained
  have isMiddle : middle = state.lastProcessed :=
    doneChain'.chainEnd_eq.symm.trans doneChain.chainEnd_eq
  exact ⟨⟨done, rest ++ more, stop, List.append_assoc .., doneChain, isMiddle ▸ restChain,
    fun result member => List.mem_append_left _ (parked result member), known⟩, tracks.gap,
    tracks.highest⟩

theorem tracks_newEmpty {stop : Nat} (chained : AllocationChain start results stop) :
    (newEmpty start).Tracks start results [] :=
  ⟨⟨[], results, stop, rfl, rfl, chained, nofun, fun _ => by simp [newEmpty]⟩, nofun, rfl⟩

/-- The frontier does not move back. -/
theorem Tracks.lastProcessed_le (tracks : state.Tracks start results received)
    {result : AllocationResult} (taken : result ∈ results) (fresh : result ∉ received) :
    state.lastProcessed ≤ (state.addProcessed result).1.lastProcessed :=
  (tracks.addProcessed taken fresh).isFrontier.longest _
    (tracks.isFrontier.reached.mono fun _ => List.mem_append_left _)

theorem Tracks.lastProcessed_le_highestSeen (tracks : state.Tracks start results received) :
    state.lastProcessed ≤ state.highestSeen :=
  tracks.highest ▸ tracks.isFrontier.reached.le_highestEnd

end WalTrackerState

/-! ## The frontier that others see -/

namespace WalTrackerThread

variable {thread : WalTrackerThread}

theorem foldl_min_le (latches : List (Nat × Nat)) (frontier : Nat) :
    latches.foldl (fun lowest latch => min lowest latch.1) frontier ≤ frontier ∧
      ∀ latch ∈ latches,
        latches.foldl (fun lowest latch => min lowest latch.1) frontier ≤ latch.1 := by
  induction latches generalizing frontier with
  | nil => exact ⟨Nat.le_refl _, nofun⟩
  | cons first rest ih =>
      obtain ⟨below, bounds⟩ := ih (min frontier first.1)
      exact ⟨below.trans (Nat.min_le_left _ _),
        List.forall_mem_cons.mpr ⟨below.trans (Nat.min_le_right _ _), bounds⟩⟩

theorem le_foldl_min {latches : List (Nat × Nat)} {frontier bound : Nat}
    (below : bound ≤ frontier) (bounds : ∀ latch ∈ latches, bound ≤ latch.1) :
    bound ≤ latches.foldl (fun lowest latch => min lowest latch.1) frontier := by
  induction latches generalizing frontier with
  | nil => exact below
  | cons first rest ih =>
      obtain ⟨first, rest⟩ := List.forall_mem_cons.mp bounds
      exact ih (Nat.le_min.mpr ⟨below, first⟩) rest

/-- The frontier that others see: at most the internal one and every active latch, and it does
not fall when the internal one rises or a latch at or above it comes. -/
structure Published (thread : WalTrackerThread) : Prop where
  internal : thread.lastProcessed ≤ thread.state.lastProcessed
  latched : ∀ latch ∈ thread.latches, thread.lastProcessed ≤ latch.1

theorem published_publish (thread : WalTrackerThread) : thread.publish.Published :=
  ⟨(foldl_min_le thread.latches _).1, (foldl_min_le thread.latches _).2⟩

theorem Published.le_publish (published : thread.Published) :
    thread.lastProcessed ≤ thread.publish.lastProcessed :=
  le_foldl_min published.internal published.latched

end WalTrackerThread

end Tidehunter.Wal
