import Tidehunter.Wal.Tracker

/-!
# Runs of the tracker

Threads allocate space, send the allocation to the tracker while they hold its guard, and drop
the guard when the write is in the index. Others ask for latches, release them, wait, or pass a
barrier. The tracker takes one message after the other from its channel; it takes an allocation
when its guard is dropped. All of this interleaves in any order.
-/

namespace Tidehunter.Wal

open Library

structure TrackedWal where
  allocator : WalAllocator
  /-- Allocations whose message is sent. -/
  sent : List AllocationResult
  /-- Allocations whose guard is not dropped. -/
  held : List AllocationResult
  channel : List WalTrackerMessage
  thread : WalTrackerThread
  /-- Each request has a response channel of its own. -/
  responses : Nat
  /-- The allocations that the tracker has taken from its channel. -/
  received : List AllocationResult
  /-- The requests that the tracker has taken from its channel, with the allocations that it had
  received before. -/
  asked : List (Nat × List AllocationResult)
  replies : List TrackerReply
  /-- The fragments that the tracker told the mapper to finalize. -/
  finalized : List Nat

namespace TrackedWal

def start (position : Nat) : TrackedWal :=
  ⟨.new position, [], [], [], .start position, 0, [], [], [], []⟩

inductive Event where
  | allocate (event : WalAllocator.Event)
  /-- Send an allocation to the tracker, with its guard held. -/
  | allocated (result : AllocationResult)
  | dropGuard (result : AllocationResult)
  | requestLatch
  | releaseLatch (latch : WalTrackerLatch)
  | requestWait
  | barrier
  /-- The tracker handles the next message. -/
  | receive
  deriving DecidableEq, Repr

def send (wal : TrackedWal) (message : WalTrackerMessage) : TrackedWal :=
  { wal with channel := wal.channel ++ [message] }

/-- The allocations that a message brings. -/
def receivedBy : WalTrackerMessage → List AllocationResult
  | .allocation result => [result]
  | .latchRequest _ => []
  | .latchRelease _ => []
  | .waitProcessed _ => []
  | .barrier => []

/-- The requests that a message brings. -/
def askedBy (received : List AllocationResult) :
    WalTrackerMessage → List (Nat × List AllocationResult)
  | .allocation _ => []
  | .latchRequest response => [(response, received)]
  | .latchRelease _ => []
  | .waitProcessed response => [(response, received)]
  | .barrier => []

def handleMessage (layout : WalLayout) (wal : TrackedWal) (message : WalTrackerMessage)
    (channel : List WalTrackerMessage) : TrackedWal :=
  let handled := wal.thread.handle layout message
  { wal with
    channel
    thread := handled.1
    received := wal.received ++ receivedBy message
    asked := wal.asked ++ askedBy wal.received message
    replies := wal.replies ++ handled.2.1
    finalized := wal.finalized ++ handled.2.2 }

def step (layout : WalLayout) (wal : TrackedWal) : Event → Option TrackedWal
  | .allocate event =>
      (wal.allocator.step layout event).map fun allocator => { wal with allocator }
  | .allocated result =>
      if result ∈ wal.allocator.results.map Prod.snd ∧ result ∉ wal.sent then
        some { wal.send (.allocation result) with
          sent := result :: wal.sent
          held := result :: wal.held }
      else none
  | .dropGuard result => some { wal with held := wal.held.filter fun other => other ≠ result }
  | .requestLatch =>
      some { wal.send (.latchRequest wal.responses) with responses := wal.responses + 1 }
  | .releaseLatch latch => some (wal.send (.latchRelease latch))
  | .requestWait =>
      some { wal.send (.waitProcessed wal.responses) with responses := wal.responses + 1 }
  | .barrier => some (wal.send .barrier)
  | .receive =>
      match wal.channel with
      | [] => none
      | message :: channel =>
          -- The tracker waits for the guard of an allocation.
          if ∀ result ∈ receivedBy message, result ∉ wal.held then
            some (wal.handleMessage layout message channel)
          else none

end TrackedWal

/-! ## Handling a message -/

/-- A request for everything received before it. -/
def RequestFor (start : Nat) (asked : List (Nat × List AllocationResult)) (response target : Nat) :
    Prop :=
  ∃ before, (response, before) ∈ asked ∧ target = highestEnd start before

/-- An answer to a request: everything received before the request is processed, and a latch is
at the highest end of it. -/
def Answered (start : Nat) (asked : List (Nat × List AllocationResult)) (frontier : Nat) :
    TrackerReply → Prop
  | .latch response latch => ∃ before, (response, before) ∈ asked ∧
      (∀ result ∈ before, result.nextPosition ≤ frontier) ∧
      latch.position = highestEnd start before
  | .processed response => ∃ before, (response, before) ∈ asked ∧
      ∀ result ∈ before, result.nextPosition ≤ frontier

section Requests

variable {start : Nat} {asked : List (Nat × List AllocationResult)} {response target : Nat}

theorem RequestFor.append (request : RequestFor start asked response target)
    (more : List (Nat × List AllocationResult)) :
    RequestFor start (asked ++ more) response target := by
  obtain ⟨before, isAsked, isTarget⟩ := request
  exact ⟨before, List.mem_append_left _ isAsked, isTarget⟩

theorem RequestFor.processed (request : RequestFor start asked response target) {frontier : Nat}
    (reached : target ≤ frontier) :
    ∃ before, (response, before) ∈ asked ∧
      (∀ result ∈ before, result.nextPosition ≤ frontier) ∧ target = highestEnd start before := by
  obtain ⟨before, isAsked, rfl⟩ := request
  exact ⟨before, isAsked, fun result member =>
    ((le_highestEnd start before).2 result member).trans reached, rfl⟩

theorem Answered.mono {frontier later : Nat} {reply : TrackerReply}
    (answered : Answered start asked frontier reply) (advances : frontier ≤ later)
    (more : List (Nat × List AllocationResult)) : Answered start (asked ++ more) later reply := by
  cases reply with
  | latch response latch =>
      obtain ⟨before, isAsked, processed, position⟩ := answered
      exact ⟨before, List.mem_append_left _ isAsked,
        fun result member => (processed result member).trans advances, position⟩
  | processed response =>
      obtain ⟨before, isAsked, processed⟩ := answered
      exact ⟨before, List.mem_append_left _ isAsked,
        fun result member => (processed result member).trans advances⟩

end Requests

namespace WalTrackerThread

structure Ok (thread : WalTrackerThread) (start : Nat) (results received : List AllocationResult)
    (asked : List (Nat × List AllocationResult)) : Prop where
  tracks : thread.state.Tracks start results received
  published : thread.Published
  requests : ∀ request ∈ thread.pendingRequests,
    RequestFor start asked request.response request.target
  waits : ∀ wait ∈ thread.pendingWaits, RequestFor start asked wait.response wait.target

variable {thread : WalTrackerThread} {start : Nat} {results received : List AllocationResult}
  {asked : List (Nat × List AllocationResult)}

theorem Ok.ask (ok : thread.Ok start results received asked)
    (more : List (Nat × List AllocationResult)) :
    thread.Ok start results received (asked ++ more) :=
  ⟨ok.tracks, ok.published, fun request member => (ok.requests request member).append more,
    fun wait member => (ok.waits wait member).append more⟩

/-- A request is for what the tracker has seen. -/
theorem Ok.requestFor (ok : thread.Ok start results received asked) (response : Nat) :
    RequestFor start (asked ++ [(response, received)]) response thread.state.highestSeen :=
  ⟨received, List.mem_append_right _ (List.mem_singleton_self _), ok.tracks.highest⟩

/-- What handling a message keeps and gives. -/
structure Handled (thread next : WalTrackerThread) (start : Nat)
    (results received : List AllocationResult) (asked : List (Nat × List AllocationResult))
    (replies : List TrackerReply) : Prop where
  ok : next.Ok start results received asked
  rises : thread.lastProcessed ≤ next.lastProcessed
  advances : thread.state.lastProcessed ≤ next.state.lastProcessed
  answers : ∀ reply ∈ replies, Answered start asked next.state.lastProcessed reply

theorem handled_fulfillPendingRequests (ok : thread.Ok start results received asked) :
    Handled thread thread.fulfillPendingRequests.1 start results received asked
      thread.fulfillPendingRequests.2 := by
  refine ⟨⟨ok.tracks, ⟨ok.published.internal, ok.published.latched⟩,
    fun request member => ok.requests request (List.mem_filter.mp member).1,
    fun wait member => ok.waits wait (List.mem_filter.mp member).1⟩, Nat.le_refl _, Nat.le_refl _,
    fun reply member => ?_⟩
  rcases List.mem_append.mp member with isLatch | isWait
  · obtain ⟨request, isReached, rfl⟩ := List.mem_map.mp isLatch
    obtain ⟨isPending, reached⟩ := List.mem_filter.mp isReached
    exact (ok.requests request isPending).processed (of_decide_eq_true reached)
  · obtain ⟨wait, isReached, rfl⟩ := List.mem_map.mp isWait
    obtain ⟨isPending, reached⟩ := List.mem_filter.mp isReached
    obtain ⟨before, isAsked, processed, -⟩ :=
      (ok.waits wait isPending).processed (of_decide_eq_true reached)
    exact ⟨before, isAsked, processed⟩

theorem Handled.trans {next final : WalTrackerThread} {replies : List TrackerReply}
    (rises : thread.lastProcessed ≤ next.lastProcessed)
    (advances : thread.state.lastProcessed ≤ next.state.lastProcessed)
    (handled : Handled next final start results received asked replies) :
    Handled thread final start results received asked replies :=
  ⟨handled.ok, rises.trans handled.rises, advances.trans handled.advances, handled.answers⟩

theorem handled_allocation (layout : WalLayout) (ok : thread.Ok start results received asked)
    {result : AllocationResult} (taken : result ∈ results) (fresh : result ∉ received) :
    Handled thread (thread.handle layout (.allocation result)).1 start results
      (received ++ [result]) asked (thread.handle layout (.allocation result)).2.1 := by
  have tracks := ok.tracks.addProcessed taken fresh
  have advances := ok.tracks.lastProcessed_le taken fresh
  generalize found : thread.state.addProcessed result = outcome at tracks advances
  obtain ⟨state, processed⟩ := outcome
  have published : Published { thread with state } :=
    ⟨ok.published.internal.trans advances, ok.published.latched⟩
  simp only [handle, found]
  split
  · exact ⟨⟨tracks, published, ok.requests, ok.waits⟩, Nat.le_refl _, advances, nofun⟩
  · have publishedOk : Ok (publish { thread with state }) start results (received ++ [result]) asked :=
      ⟨tracks, published_publish _, ok.requests, ok.waits⟩
    exact (handled_fulfillPendingRequests publishedOk).trans published.le_publish advances

theorem handled_latchRequest (layout : WalLayout) (ok : thread.Ok start results received asked)
    (response : Nat) :
    Handled thread (thread.handle layout (.latchRequest response)).1 start results received
      (asked ++ [(response, received)]) (thread.handle layout (.latchRequest response)).2.1 := by
  have request := ok.requestFor response
  obtain ⟨-, -, requests, waits⟩ := ok.ask [(response, received)]
  have below : thread.lastProcessed ≤ thread.state.highestSeen :=
    ok.published.internal.trans ok.tracks.lastProcessed_le_highestSeen
  -- The new latch is at or above the frontier that others see.
  have published : Published { thread with
      nextLatchId := thread.nextLatchId + 1
      latches := (thread.state.highestSeen, thread.nextLatchId) :: thread.latches } :=
    ⟨ok.published.internal, List.forall_mem_cons.mpr ⟨below, ok.published.latched⟩⟩
  simp only [handle]
  split
  · rename_i reached
    refine ⟨⟨ok.tracks, published_publish _, requests, waits⟩, published.le_publish,
      Nat.le_refl _, fun reply member => ?_⟩
    obtain rfl := List.mem_singleton.mp member
    exact request.processed reached
  · refine ⟨⟨ok.tracks, published_publish _, fun pending member => ?_, waits⟩, published.le_publish,
      Nat.le_refl _, nofun⟩
    rcases List.mem_append.mp member with old | new
    · exact requests pending old
    · obtain rfl := List.mem_singleton.mp new
      exact request

theorem handled_waitProcessed (layout : WalLayout) (ok : thread.Ok start results received asked)
    (response : Nat) :
    Handled thread (thread.handle layout (.waitProcessed response)).1 start results received
      (asked ++ [(response, received)]) (thread.handle layout (.waitProcessed response)).2.1 := by
  have request := ok.requestFor response
  obtain ⟨-, -, requests, waits⟩ := ok.ask [(response, received)]
  simp only [handle]
  split
  · rename_i reached
    refine ⟨⟨ok.tracks, ok.published, requests, waits⟩, Nat.le_refl _, Nat.le_refl _,
      fun reply member => ?_⟩
    obtain rfl := List.mem_singleton.mp member
    obtain ⟨before, isBefore, processed, -⟩ := request.processed reached
    exact ⟨before, isBefore, processed⟩
  · refine ⟨⟨ok.tracks, ⟨ok.published.internal, ok.published.latched⟩, requests,
      fun pending member => ?_⟩, Nat.le_refl _, Nat.le_refl _, nofun⟩
    rcases List.mem_append.mp member with old | new
    · exact waits pending old
    · obtain rfl := List.mem_singleton.mp new
      exact request

theorem handled_latchRelease (layout : WalLayout) (ok : thread.Ok start results received asked)
    (latch : WalTrackerLatch) :
    Handled thread (thread.handle layout (.latchRelease latch)).1 start results received asked
      (thread.handle layout (.latchRelease latch)).2.1 := by
  have published : Published { thread with
      latches := thread.latches.filter fun other => other ≠ (latch.position, latch.id) } :=
    ⟨ok.published.internal, fun other member => ok.published.latched other
      (List.mem_filter.mp member).1⟩
  exact ⟨⟨ok.tracks, published_publish _, ok.requests, ok.waits⟩, published.le_publish,
    Nat.le_refl _, nofun⟩

/-- Handling a message keeps the frontier right, lets it only rise, and answers only what is
processed. -/
theorem handled (layout : WalLayout) (ok : thread.Ok start results received asked)
    {message : WalTrackerMessage}
    (brings : ∀ result ∈ TrackedWal.receivedBy message, result ∈ results ∧ result ∉ received) :
    Handled thread (thread.handle layout message).1 start results
      (received ++ TrackedWal.receivedBy message) (asked ++ TrackedWal.askedBy received message)
      (thread.handle layout message).2.1 := by
  cases message with
  | allocation result =>
      obtain ⟨taken, fresh⟩ := brings result (List.mem_singleton_self _)
      exact (List.append_nil asked).symm ▸ handled_allocation layout ok taken fresh
  | latchRequest response =>
      exact (List.append_nil received).symm ▸ handled_latchRequest layout ok response
  | latchRelease latch =>
      rw [TrackedWal.receivedBy, TrackedWal.askedBy, List.append_nil, List.append_nil]
      exact handled_latchRelease layout ok latch
  | waitProcessed response =>
      exact (List.append_nil received).symm ▸ handled_waitProcessed layout ok response
  | barrier =>
      rw [TrackedWal.receivedBy, TrackedWal.askedBy, List.append_nil, List.append_nil]
      exact ⟨ok, Nat.le_refl _, Nat.le_refl _, nofun⟩

end WalTrackerThread

/-! ## Runs -/

namespace TrackedWal

/-- The response channels of the requests in a message. -/
def responsesOf (message : WalTrackerMessage) : List Nat := (askedBy [] message).map Prod.fst

theorem responsesOf_eq (received : List AllocationResult) (message : WalTrackerMessage) :
    (askedBy received message).map Prod.fst = responsesOf message := by
  cases message <;> rfl

/-- Every allocation is sent once and received with its guard dropped, every request is made
once, and the tracker is right about what it received. -/
structure Ok (layout : WalLayout) (start : Nat) (wal : TrackedWal) : Prop where
  sound : WalAllocator.Sound layout start wal.allocator
  thread : wal.thread.Ok start (wal.allocator.results.map Prod.snd) wal.received wal.asked
  sent : ∀ result ∈ wal.sent, result ∈ wal.allocator.results.map Prod.snd
  inFlight : ∀ result ∈ wal.channel.flatMap receivedBy ++ wal.received, result ∈ wal.sent
  once : (wal.channel.flatMap receivedBy ++ wal.received).Nodup
  dropped : ∀ result ∈ wal.received, result ∉ wal.held
  requests : ∀ response ∈ wal.channel.flatMap responsesOf ++ wal.asked.map Prod.fst,
    response < wal.responses
  requestedOnce : (wal.channel.flatMap responsesOf ++ wal.asked.map Prod.fst).Nodup
  replies : ∀ reply ∈ wal.replies,
    Answered start wal.asked wal.thread.state.lastProcessed reply

variable {layout : WalLayout} {start : Nat} {wal next : TrackedWal}

theorem ok_start (aligned : layout.Aligned start) : (TrackedWal.start start).Ok layout start := by
  have sound : WalAllocator.Sound layout start (.new start) :=
    ⟨rfl, aligned, nofun, fun _ _ => nofun⟩
  exact ⟨sound, ⟨WalTrackerState.tracks_newEmpty sound.chained, ⟨Nat.le_refl _, nofun⟩, nofun, nofun⟩,
    nofun, nofun, List.Pairwise.nil, nofun, nofun, List.Pairwise.nil, nofun⟩

/-- Space is asked for by the byte, at most a fragment at once. -/
def Event.Sized (layout : WalLayout) : Event → Prop
  | .allocate event => event.Sized layout
  | _ => True

/-- A step of the allocator leaves its regions where they are. -/
theorem results_of_step {allocator moved : WalAllocator} {event : WalAllocator.Event}
    (stepped : allocator.step layout event = some moved) :
    ∃ more, moved.results = allocator.results ++ more := by
  rcases WalAllocator.step_cases stepped with ⟨thread, len, -, rfl⟩ | ⟨thread, len, -, rfl⟩ |
    ⟨thread, len, currentPos, -, rfl⟩ | ⟨thread, len, result, -, -, rfl⟩
  · exact ⟨[], (List.append_nil _).symm⟩
  · exact ⟨[], (List.append_nil _).symm⟩
  · exact ⟨[], (List.append_nil _).symm⟩
  · exact ⟨[(len, result)], rfl⟩

theorem Ok.allocate (ok : wal.Ok layout start) {event : WalAllocator.Event}
    (sized : event.Sized layout) {allocator : WalAllocator}
    (stepped : wal.allocator.step layout event = some allocator) :
    Ok layout start { wal with allocator } := by
  have sound := WalAllocator.sound_step ok.sound sized stepped
  obtain ⟨more, results⟩ := results_of_step stepped
  have isResults : allocator.results.map Prod.snd =
      wal.allocator.results.map Prod.snd ++ more.map Prod.snd := by
    rw [results, List.map_append]
  refine ⟨sound, ⟨?_, ok.thread.published, ok.thread.requests, ok.thread.waits⟩,
    fun result member => ?_, ok.inFlight, ok.once, ok.dropped, ok.requests, ok.requestedOnce,
    ok.replies⟩
  · show wal.thread.state.Tracks start (allocator.results.map Prod.snd) wal.received
    rw [isResults]
    exact ok.thread.tracks.extend (isResults ▸ sound.chained)
  · show result ∈ allocator.results.map Prod.snd
    rw [isResults]
    exact List.mem_append_left _ (ok.sent result member)

/-- Sending a message that brings neither an allocation nor a request. -/
theorem Ok.send (ok : wal.Ok layout start) {message : WalTrackerMessage}
    (noAllocation : receivedBy message = []) (noRequest : responsesOf message = []) :
    (wal.send message).Ok layout start := by
  have sameAllocations : (wal.channel ++ [message]).flatMap receivedBy =
      wal.channel.flatMap receivedBy := by
    simp [noAllocation]
  have sameRequests : (wal.channel ++ [message]).flatMap responsesOf =
      wal.channel.flatMap responsesOf := by
    simp [noRequest]
  exact ⟨ok.sound, ok.thread, ok.sent, sameAllocations ▸ ok.inFlight, sameAllocations ▸ ok.once,
    ok.dropped, sameRequests ▸ ok.requests, sameRequests ▸ ok.requestedOnce, ok.replies⟩

private theorem mem_middle {α : Type} {front back : List α} {item other : α}
    (member : other ∈ front ++ [item] ++ back) : other = item ∨ other ∈ front ++ back := by
  rw [List.append_assoc] at member
  exact List.mem_cons.mp (List.perm_middle.mem_iff.mp member)

private theorem nodup_middle {α : Type} {front back : List α} {item : α}
    (nodup : (front ++ back).Nodup) (fresh : item ∉ front ++ back) :
    (front ++ [item] ++ back).Nodup := by
  rw [List.append_assoc]
  exact List.perm_middle.nodup_iff.mpr (List.nodup_cons.mpr ⟨fresh, nodup⟩)

private theorem perm_received {α : Type} (first rest done : List α) :
    (first ++ rest ++ done).Perm (rest ++ (done ++ first)) := by
  rw [List.append_assoc, ← List.append_assoc rest]
  exact List.perm_append_comm

theorem Ok.allocated (ok : wal.Ok layout start) {result : AllocationResult}
    (taken : result ∈ wal.allocator.results.map Prod.snd) (fresh : result ∉ wal.sent) :
    Ok layout start { wal.send (.allocation result) with
      sent := result :: wal.sent
      held := result :: wal.held } := by
  have oneMore : (wal.channel ++ [WalTrackerMessage.allocation result]).flatMap receivedBy =
      wal.channel.flatMap receivedBy ++ [result] := by
    simp [receivedBy]
  have sameRequests : (wal.channel ++ [WalTrackerMessage.allocation result]).flatMap responsesOf =
      wal.channel.flatMap responsesOf := by
    simp [responsesOf, askedBy]
  refine ⟨ok.sound, ok.thread, List.forall_mem_cons.mpr ⟨taken, ok.sent⟩, fun other member => ?_,
    ?_, fun other member => ?_, sameRequests ▸ ok.requests, sameRequests ▸ ok.requestedOnce,
    ok.replies⟩
  · change other ∈ (wal.channel ++ [WalTrackerMessage.allocation result]).flatMap receivedBy ++
      wal.received at member
    rw [oneMore] at member
    rcases mem_middle member with rfl | old
    · exact List.mem_cons_self
    · exact List.mem_cons_of_mem _ (ok.inFlight other old)
  · show ((wal.channel ++ [WalTrackerMessage.allocation result]).flatMap receivedBy ++
      wal.received).Nodup
    rw [oneMore]
    exact nodup_middle ok.once fun old => fresh (ok.inFlight result old)
  · rw [List.mem_cons, not_or]
    refine ⟨?_, ok.dropped other member⟩
    rintro rfl
    exact fresh (ok.inFlight other (List.mem_append_right _ member))

theorem Ok.request (ok : wal.Ok layout start) {message : WalTrackerMessage}
    (noAllocation : receivedBy message = []) (isRequest : responsesOf message = [wal.responses]) :
    Ok layout start { wal.send message with responses := wal.responses + 1 } := by
  have sameAllocations : (wal.channel ++ [message]).flatMap receivedBy =
      wal.channel.flatMap receivedBy := by
    simp [noAllocation]
  have oneMore : (wal.channel ++ [message]).flatMap responsesOf =
      wal.channel.flatMap responsesOf ++ [wal.responses] := by
    simp [isRequest]
  refine ⟨ok.sound, ok.thread, ok.sent, sameAllocations ▸ ok.inFlight, sameAllocations ▸ ok.once,
    ok.dropped, fun response member => ?_, ?_, ok.replies⟩
  · change response ∈ (wal.channel ++ [message]).flatMap responsesOf ++ _ at member
    rw [oneMore] at member
    rcases mem_middle member with rfl | old
    · exact Nat.lt_succ_self _
    · exact (ok.requests response old).trans (Nat.lt_succ_self _)
  · show ((wal.channel ++ [message]).flatMap responsesOf ++ _).Nodup
    rw [oneMore]
    exact nodup_middle ok.requestedOnce fun old => (ok.requests _ old).ne rfl

/-- What the next message brings was sent and is new to the tracker. -/
theorem Ok.brings (ok : wal.Ok layout start) {message : WalTrackerMessage}
    {rest : List WalTrackerMessage} (isNext : wal.channel = message :: rest) :
    ∀ result ∈ receivedBy message,
      result ∈ wal.allocator.results.map Prod.snd ∧ result ∉ wal.received := by
  intro result member
  have inChannel : result ∈ wal.channel.flatMap receivedBy := by
    rw [isNext, List.flatMap_cons]
    exact List.mem_append_left _ member
  exact ⟨ok.sent result (ok.inFlight result (List.mem_append_left _ inChannel)),
    fun received => (List.nodup_append.mp ok.once).2.2 result inChannel result received rfl⟩

theorem Ok.handledMessage (ok : wal.Ok layout start) {message : WalTrackerMessage}
    {rest : List WalTrackerMessage} (isNext : wal.channel = message :: rest) :
    WalTrackerThread.Handled wal.thread (wal.thread.handle layout message).1 start
      (wal.allocator.results.map Prod.snd) (wal.received ++ receivedBy message)
      (wal.asked ++ askedBy wal.received message) (wal.thread.handle layout message).2.1 :=
  WalTrackerThread.handled layout ok.thread (ok.brings isNext)

theorem Ok.receive (ok : wal.Ok layout start) {message : WalTrackerMessage}
    {rest : List WalTrackerMessage} (isNext : wal.channel = message :: rest)
    (released : ∀ result ∈ receivedBy message, result ∉ wal.held) :
    (wal.handleMessage layout message rest).Ok layout start := by
  have handled := ok.handledMessage isNext
  have allocations : (wal.channel.flatMap receivedBy ++ wal.received).Perm
      (rest.flatMap receivedBy ++ (wal.received ++ receivedBy message)) := by
    rw [isNext, List.flatMap_cons]
    exact perm_received _ _ _
  have requests : (wal.channel.flatMap responsesOf ++ wal.asked.map Prod.fst).Perm
      (rest.flatMap responsesOf ++ (wal.asked ++ askedBy wal.received message).map Prod.fst) := by
    rw [isNext, List.flatMap_cons, List.map_append, responsesOf_eq]
    exact perm_received _ _ _
  refine ⟨ok.sound, handled.ok, ok.sent,
    fun result member => ok.inFlight result (allocations.mem_iff.mpr member),
    allocations.nodup_iff.mp ok.once, fun result member => ?_,
    fun response member => ok.requests response (requests.mem_iff.mpr member),
    requests.nodup_iff.mp ok.requestedOnce, fun reply member => ?_⟩
  · rcases List.mem_append.mp member with old | new
    · exact ok.dropped result old
    · exact released result new
  · rcases List.mem_append.mp member with old | new
    · exact (ok.replies reply old).mono handled.advances _
    · exact handled.answers reply new

/-- A step keeps the tracker right and lets both frontiers only rise. -/
theorem Ok.step (ok : wal.Ok layout start) {event : Event} (sized : event.Sized layout)
    (stepped : wal.step layout event = some next) :
    next.Ok layout start ∧ wal.thread.lastProcessed ≤ next.thread.lastProcessed ∧
      wal.thread.state.lastProcessed ≤ next.thread.state.lastProcessed := by
  cases event with
  | allocate event =>
      obtain ⟨allocator, moved, rfl⟩ := Option.map_eq_some_iff.mp stepped
      exact ⟨ok.allocate sized moved, Nat.le_refl _, Nat.le_refl _⟩
  | allocated result =>
      simp only [TrackedWal.step] at stepped
      split at stepped
      · rename_i isNew
        cases stepped
        exact ⟨ok.allocated isNew.1 isNew.2, Nat.le_refl _, Nat.le_refl _⟩
      · cases stepped
  | dropGuard result =>
      cases stepped
      exact ⟨⟨ok.sound, ok.thread, ok.sent, ok.inFlight, ok.once,
        fun other member isHeld => ok.dropped other member (List.mem_filter.mp isHeld).1,
        ok.requests, ok.requestedOnce, ok.replies⟩, Nat.le_refl _, Nat.le_refl _⟩
  | requestLatch =>
      cases stepped
      exact ⟨ok.request rfl rfl, Nat.le_refl _, Nat.le_refl _⟩
  | releaseLatch latch =>
      cases stepped
      exact ⟨ok.send rfl rfl, Nat.le_refl _, Nat.le_refl _⟩
  | requestWait =>
      cases stepped
      exact ⟨ok.request rfl rfl, Nat.le_refl _, Nat.le_refl _⟩
  | barrier =>
      cases stepped
      exact ⟨ok.send rfl rfl, Nat.le_refl _, Nat.le_refl _⟩
  | receive =>
      simp only [TrackedWal.step] at stepped
      split at stepped
      · cases stepped
      · rename_i message rest isNext
        split at stepped
        · rename_i released
          cases stepped
          exact ⟨ok.receive isNext released, (ok.handledMessage isNext).rises,
            (ok.handledMessage isNext).advances⟩
        · cases stepped

theorem Ok.run {events : List Event} (sized : ∀ event ∈ events, event.Sized layout)
    (ok : wal.Ok layout start) (ran : runEvents (TrackedWal.step layout) events wal = some next) :
    next.Ok layout start ∧ wal.thread.lastProcessed ≤ next.thread.lastProcessed := by
  induction events generalizing wal with
  | nil =>
      cases ran
      exact ⟨ok, Nat.le_refl _⟩
  | cons event rest ih =>
      obtain ⟨middle, stepped, ran⟩ := Option.bind_eq_some_iff.mp ran
      obtain ⟨sizedHere, sizedRest⟩ := List.forall_mem_cons.mp sized
      obtain ⟨middleOk, rises, -⟩ := ok.step sizedHere stepped
      obtain ⟨finalOk, later⟩ := ih sizedRest middleOk ran
      exact ⟨finalOk, rises.trans later⟩

/-- What the tracker guarantees in a state. -/
structure FrontierRight (start : Nat) (wal : TrackedWal) : Prop where
  /-- The internal frontier is the end of the longest chain of received allocations; -/
  internal : IsFrontier start wal.received wal.thread.state.lastProcessed
  /-- their guards are dropped. -/
  dropped : ∀ result ∈ wal.received, result ∉ wal.held
  published : wal.thread.lastProcessed ≤ wal.thread.state.lastProcessed
  latched : ∀ latch ∈ wal.thread.latches, wal.thread.lastProcessed ≤ latch.1
  /-- A request is asked once, -/
  askedOnce : (wal.asked.map Prod.fst).Nodup
  /-- and answered when everything received before it is processed. -/
  answered : ∀ reply ∈ wal.replies,
    Answered start wal.asked wal.thread.state.lastProcessed reply

/-- However messages, guards and allocations interleave, the frontier is right in every state,
and what others see of it does not decrease. -/
theorem frontier_right {position : Nat} (aligned : layout.Aligned position)
    {events more : List Event} {later : TrackedWal}
    (sized : ∀ event ∈ events ++ more, event.Sized layout)
    (reached : runEvents (TrackedWal.step layout) events (TrackedWal.start position) = some wal)
    (ran : runEvents (TrackedWal.step layout) more wal = some later) :
    FrontierRight position wal ∧ FrontierRight position later ∧
      wal.thread.lastProcessed ≤ later.thread.lastProcessed := by
  have right {reached : TrackedWal} (ok : reached.Ok layout position) :
      FrontierRight position reached :=
    ⟨ok.thread.tracks.isFrontier, ok.dropped, ok.thread.published.internal,
      ok.thread.published.latched, (List.nodup_append.mp ok.requestedOnce).2.1, ok.replies⟩
  obtain ⟨ok, -⟩ := (ok_start aligned).run
    (fun event member => sized event (List.mem_append_left _ member)) reached
  obtain ⟨laterOk, rises⟩ := ok.run
    (fun event member => sized event (List.mem_append_right _ member)) ran
  exact ⟨right ok, right laterOk, rises⟩

/-- The second of two allocations arrives first; a latch is asked for before the first one
arrives. -/
def overtaken : List Event :=
  (WalAllocator.contended.map Event.allocate) ++
    [.allocated ⟨40, 64, 32⟩, .dropGuard ⟨40, 64, 32⟩, .requestLatch, .receive, .receive]

def caughtUp : List Event := [.allocated ⟨0, 0, 40⟩, .dropGuard ⟨0, 0, 40⟩, .receive]

theorem frontier_right_overtaken :
    ∃ wal later, runEvents (TrackedWal.step WalLayout.small) overtaken (TrackedWal.start 0) = some wal ∧
      runEvents (TrackedWal.step WalLayout.small) caughtUp wal = some later ∧
      wal.thread.lastProcessed = 0 ∧ wal.replies = [] ∧
      later.thread.lastProcessed = 96 ∧ later.replies = [.latch 0 ⟨0, 96⟩] ∧
      FrontierRight 0 wal ∧ FrontierRight 0 later ∧
      wal.thread.lastProcessed ≤ later.thread.lastProcessed := by
  have aligned : WalLayout.small.Aligned 0 := Nat.dvd_zero _
  have sized : ∀ event ∈ overtaken ++ caughtUp, event.Sized WalLayout.small := by
    simp [overtaken, caughtUp, WalAllocator.contended, Event.Sized, WalAllocator.Event.Sized,
      WalLayout.small]
  have runs : (runEvents (TrackedWal.step WalLayout.small) overtaken (TrackedWal.start 0)).any
      (fun wal => (runEvents (TrackedWal.step WalLayout.small) caughtUp wal).any fun later =>
        decide (wal.thread.lastProcessed = 0 ∧ wal.replies = [] ∧
          later.thread.lastProcessed = 96 ∧ later.replies = [.latch 0 ⟨0, 96⟩])) = true := by
    decide +kernel
  obtain ⟨wal, reached, met⟩ := (Option.any_eq_true _ _).mp runs
  obtain ⟨later, ran, met⟩ := (Option.any_eq_true _ _).mp met
  obtain ⟨before, noReply, after, reply⟩ := of_decide_eq_true met
  exact ⟨wal, later, reached, ran, before, noReply, after, reply,
    frontier_right aligned sized reached ran⟩

end TrackedWal

end Tidehunter.Wal
