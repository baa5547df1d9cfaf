import Tidehunter.LargeTable.CellRuns

/-!
# The value cache of a cell

A cell may keep the records it served last in an LRU cache. A write replaces or drops the record
of its key under the row lock, unless a newer operation of the key is already in the index. A
get or an iterator step that misses the cache looks the position up under the lock, reads the log
without it, and puts the record into the cache under the lock again, whatever happened meanwhile.
-/

namespace Tidehunter.LargeTable

open Library Wal Index Flusher

variable {K R : Type} [LinearOrder K]

/-! ## Caches -/

/-- An LRU cache finds what was put in last, as long as it is not evicted. -/
structure LruCache (K R : Type) where
  Cache : Type
  new : Cache
  peek : Cache → K → Option R
  /-- Mark an entry as used. -/
  touch : Cache → K → Cache
  push : Cache → K → R → Cache
  pop : Cache → K → Cache
  clear : Cache → Cache
  peek_new : ∀ key, peek new key = none
  peek_touch : ∀ cache used key, peek (touch cache used) key = peek cache key
  peek_push_self : ∀ cache key record, peek (push cache key record) key = some record
  peek_of_peek_push : ∀ cache pushed record key found, key ≠ pushed →
    peek (push cache pushed record) key = some found → peek cache key = some found
  peek_pop_self : ∀ cache key, peek (pop cache key) key = none
  peek_of_peek_pop : ∀ cache popped key found,
    peek (pop cache popped) key = some found → peek cache key = some found
  peek_clear : ∀ cache key, peek (clear cache) key = none

/-- A record on its way into the cache. -/
structure Fill (K : Type) where
  key : K
  position : WalPosition
  deriving DecidableEq, Repr

/-- Whether a write is newer than every operation of its key in the overlay. -/
def Cell.writeOrder {blooms : BloomFilter K} (cell : Cell K blooms) (key : K) (isModified : Bool)
    (position : WalPosition) : Option WriteOrder :=
  (if isModified then cell.entry.data.insert key position
    else cell.entry.data.remove key position).map Prod.snd

/-- The log never hands out the sentinel position. -/
def LiveCell.Event.logged : LiveCell.Event K → Bool
  | .write _ _ position => position.isValid
  | .addPending update => update.position.isValid
  | _ => true

/-! ## The machine -/

structure CachedCell (K R : Type) [LinearOrder K] (blooms : BloomFilter K) (caches : LruCache K R)
    where
  live : LiveCell K blooms
  lru : caches.Cache
  fills : List (Fill K)
  /-- The operations that took effect since the cell was last dropped. -/
  since : List (K × Mark)

namespace CachedCell

variable {blooms : BloomFilter K} {caches : LruCache K R}

def new (bloom : Option blooms.Filter) : CachedCell K R blooms caches :=
  ⟨LiveCell.new bloom, caches.new, [], []⟩

/-- The cache after a write of a key. -/
def updateLru (records : K → WalPosition → R) (cached : CachedCell K R blooms caches) (key : K)
    (isModified : Bool) (position : WalPosition) : caches.Cache :=
  match cached.live.cell.writeOrder key isModified position with
  | some .latest =>
      if isModified then caches.push cached.lru key (records key position)
      else caches.pop cached.lru key
  | some .stale => cached.lru
  | none => cached.lru

/-- Apply an operation to the index and to the cache. -/
def apply (records : K → WalPosition → R) (cached : CachedCell K R blooms caches)
    (update : PendingUpdate K) : Option (CachedCell K R blooms caches) :=
  (cached.live.cell.write cached.live.frontier update.key update.isModified update.position).map
    fun cell =>
      { cached with
        live := { cached.live with cell := cell }
        lru := cached.updateLru records update.key update.isModified update.position }

/-- Apply the committed batch operations and forget the reverted ones. -/
def promotePending (records : K → WalPosition → R) (cached : CachedCell K R blooms caches) :
    Option (CachedCell K R blooms caches) :=
  (cached.live.cell.pending.filter fun update =>
    cached.live.status update.transaction = .committed).foldlM (apply records)
    { cached with
      live := { cached.live with
        cell := { cached.live.cell with
          pending := cached.live.cell.pending.filter fun update =>
            cached.live.status update.transaction = .pending } } }

/-- What a get returns: the cached record, or the one at the position in the index. None is a
panic. -/
def get (records : K → WalPosition → R) (cached : CachedCell K R blooms caches) (key : K) :
    Option (Option R) :=
  (cached.promotePending records).map fun promoted =>
    (caches.peek promoted.lru key).or ((promoted.live.cell.get key).map (records key))

inductive Event (K : Type) where
  | live (event : LiveCell.Event K)
  /-- A get looks its key up. -/
  | lookup (key : K)
  /-- An iterator step finds a key. -/
  | walk (key : K)
  /-- An iterator step looks for its record in the cache. -/
  | consult (index : Nat)
  /-- A record read from the log is put into the cache. -/
  | fill (index : Nat)
  /-- The record was not found in the log. -/
  | abandon (index : Nat)
  /-- The cell is dropped: in place, or its entry is removed. -/
  | drop (removesEntry : Bool)

/-- The cache after a step of the index. -/
def lruAfter (records : K → WalPosition → R) (cached : CachedCell K R blooms caches) :
    LiveCell.Event K → caches.Cache
  | .write key isModified position => cached.updateLru records key isModified position
  | .work (.promote index) =>
      match cached.live.cell.pending[index]? with
      | some update => cached.updateLru records update.key update.isModified update.position
      | none => cached.lru
  | _ => cached.lru

/-- The operations that a step makes effective. -/
def effective (cached : CachedCell K R blooms caches) : LiveCell.Event K → List (K × Mark)
  | .write key isModified position => [(key, ⟨position.offset, position.len, !isModified⟩)]
  | .commit transaction =>
      (cached.live.cell.pending.filter fun update => update.transaction = transaction).map
        PendingUpdate.op
  | _ => []

def step (config : KsConfig K) (records : K → WalPosition → R)
    (cached : CachedCell K R blooms caches) : Event K → Option (CachedCell K R blooms caches)
  | .live event =>
      if event.logged then
        (cached.live.step config event).map fun live =>
          { cached with
            live := live
            lru := cached.lruAfter records event
            since := cached.effective event ++ cached.since }
      else none
  | .lookup key =>
      (cached.promotePending records).map fun promoted =>
        match caches.peek promoted.lru key, promoted.live.cell.get key with
        | some _, _ => { promoted with lru := caches.touch promoted.lru key }
        | none, some position => { promoted with fills := promoted.fills ++ [⟨key, position⟩] }
        | none, none => promoted
  | .walk key =>
      (cached.promotePending records).map fun promoted =>
        match promoted.live.cell.get key with
        | some position => { promoted with fills := promoted.fills ++ [⟨key, position⟩] }
        | none => promoted
  | .consult index =>
      cached.fills[index]?.map fun fill =>
        match caches.peek cached.lru fill.key with
        | some _ =>
            { cached with
              lru := caches.touch cached.lru fill.key
              fills := cached.fills.eraseIdx index }
        | none => cached
  | .fill index =>
      cached.fills[index]?.map fun fill =>
        { cached with
          lru := caches.push cached.lru fill.key (records fill.key fill.position)
          fills := cached.fills.eraseIdx index }
  | .abandon index => some { cached with fills := cached.fills.eraseIdx index }
  | .drop removesEntry =>
      if cached.live.cell.entry.pendingLastProcessed = none then
        some { cached with
          live := { cached.live with
            cell := if removesEntry then cached.live.cell.removeEntry else cached.live.cell.clear }
          lru := if removesEntry then caches.new else caches.clear cached.lru
          since := [] }
      else none

/-! ## Coherence -/

/-- Every cached record is the one at the live position of its key. -/
def Coherent (records : K → WalPosition → R) (cached : CachedCell K R blooms caches) : Prop :=
  ∀ key record, caches.peek cached.lru key = some record →
    (cached.live.cell.get key).map (records key) = some record

/-- A record that is put into the cache is still the one at the live position of its key. -/
def FillsCurrent (records : K → WalPosition → R) (cached : CachedCell K R blooms caches) :
    Event K → Prop
  | .fill index => ∀ fill ∈ cached.fills[index]?,
      (cached.live.cell.get fill.key).map (records fill.key) =
        some (records fill.key fill.position)
  | _ => True

instance [DecidableEq R] (records : K → WalPosition → R) (cached : CachedCell K R blooms caches) :
    ∀ event, Decidable (cached.FillsCurrent records event)
  | .fill index => inferInstanceAs (Decidable (∀ fill ∈ cached.fills[index]?,
      (cached.live.cell.get fill.key).map (records fill.key) =
        some (records fill.key fill.position)))
  | .live _ | .lookup _ | .walk _ | .consult _ | .abandon _ | .drop _ => isTrue trivial

/-- A cell is dropped in place only if no committed operation waits in its pending table. -/
def DropsSettled (cached : CachedCell K R blooms caches) : Event K → Prop
  | .drop false => cached.live.cell.committed cached.live.status = []
  | _ => True

instance (cached : CachedCell K R blooms caches) : ∀ event, Decidable (cached.DropsSettled event)
  | .drop false => inferInstanceAs (Decidable (cached.live.cell.committed cached.live.status = []))
  | .drop true | .live _ | .lookup _ | .walk _ | .consult _ | .fill _ | .abandon _ =>
      isTrue trivial

def Event.wholeLog : Event K → Bool
  | .live event => event.wholeLog
  | _ => true

/-- What holds in every state of a run whose fills are current. -/
structure Sound (records : K → WalPosition → R) (cached : CachedCell K R blooms caches) : Prop where
  cell : cached.live.cell.Sound id cached.live.frontier cached.live.status
  coherent : cached.Coherent records
  logged : ∀ update ∈ cached.live.cell.pending, update.position.isValid = true

variable {records : K → WalPosition → R} {cached next : CachedCell K R blooms caches}

theorem sound_new (records : K → WalPosition → R) (bloom : Option blooms.Filter) :
    (new bloom : CachedCell K R blooms caches).Sound records where
  cell := Cell.sound_new id 0 _ bloom
  coherent := fun key _ found => absurd ((caches.peek_new key).symm.trans found) nofun
  logged := nofun

/-- A write of a key leaves the records of other keys. -/
theorem peek_updateLru {key other : K} {isModified : Bool} {position : WalPosition} {record : R}
    (different : other ≠ key)
    (found : caches.peek (cached.updateLru records key isModified position) other = some record) :
    caches.peek cached.lru other = some record := by
  unfold updateLru at found
  split at found
  · split at found
    · exact caches.peek_of_peek_push _ _ _ _ _ different found
    · exact caches.peek_of_peek_pop _ _ _ _ found
  · exact found
  · exact found

theorem writeOrder_eq (cell : Cell K blooms) (key : K) (isModified : Bool) (position : WalPosition) :
    cell.writeOrder key isModified position =
      (cell.entry.data.checkedInsert key (Entry.written isModified position)).map Prod.snd := by
  cases isModified <;> rfl

/-- The write order tells whether the write is now the newest operation of its key. -/
theorem writeOrder_cases {cell result : Cell K blooms} {frontier published : Nat}
    {status : Nat → TransactionStatus} (sound : cell.Sound id frontier status) {key : K}
    {isModified : Bool} {position : WalPosition}
    (written : cell.write published key isModified position = some result)
    (above : cell.settled ≤ position.offset) :
    cell.writeOrder key isModified position = some .latest ∧
        latestOf result.applied key =
          readable (some (Mark.position ⟨position.offset, position.len, !isModified⟩)) ∨
      cell.writeOrder key isModified position = some .stale ∧
        latestOf result.applied key = latestOf cell.applied key := by
  obtain ⟨entry, isEntry, rfl⟩ := Option.map_eq_some_iff.mp written
  rw [Entry.write_eq] at isEntry
  obtain ⟨⟨table, order⟩, inserted, rfl⟩ := Option.map_eq_some_iff.mp isEntry
  rw [writeOrder_eq, inserted]
  rcases IndexTable.checkedInsert_order inserted with ⟨rfl, latest⟩ | ⟨rfl, newer, member, stale⟩
  · refine Or.inl ⟨rfl, latestOf_cons_of_latest fun other member => ?_⟩
    -- an operation that has left the overlay lies below what the cell has settled
    by_cases high : cell.promoteThreshold ≤ other.offset
    · have below := latest other ((sound.keeps.buffered key).kept other member high)
      rwa [Entry.offset_written] at below
    · exact (Nat.lt_of_not_le high).trans_le (sound.threshold_le.trans above)
  · rw [Entry.offset_written] at stale
    exact Or.inr ⟨rfl, latestOf_cons_of_stale ((sound.keeps.buffered key).subset newer member) stale⟩

/-- A write keeps the cache coherent. -/
theorem coherent_write {cell : Cell K blooms} (coherent : cached.Coherent records)
    (sound : cached.live.cell.Sound id cached.live.frontier cached.live.status)
    (resultSound : cell.Sound id cached.live.frontier cached.live.status) {key : K}
    {isModified : Bool} {position : WalPosition} {published : Nat}
    (written : cached.live.cell.write published key isModified position = some cell)
    (above : cached.live.cell.settled ≤ position.offset) (valid : position.isValid = true)
    {other : K} {record : R}
    (found : caches.peek (cached.updateLru records key isModified position) other = some record) :
    (cell.get other).map (records other) = some record := by
  rw [show cell.get other = latestOf cell.applied other from resultSound.get_eq other]
  have before : cached.live.cell.get other = latestOf cached.live.cell.applied other :=
    sound.get_eq other
  by_cases same : other = key
  · subst same
    rcases writeOrder_cases sound written above with ⟨order, newest⟩ | ⟨order, newest⟩
    · simp only [updateLru, order] at found
      split at found
      · rename_i modified
        rw [caches.peek_push_self] at found
        rw [newest, modified]
        have isPosition : readable (some (Mark.position ⟨position.offset, position.len, !true⟩)) =
            some position := by
          have real : position ≠ WalPosition.invalid := by simpa [WalPosition.isValid] using valid
          exact WalPosition.valid_eq_some_iff.mpr ⟨rfl, real⟩
        rw [isPosition]
        exact found
      · rw [caches.peek_pop_self] at found
        cases found
    · simp only [updateLru, order] at found
      rw [newest, ← before]
      exact coherent other record found
  · have unchanged : latestOf cell.applied other = latestOf cached.live.cell.applied other := by
      obtain ⟨entry, _, rfl⟩ := Option.map_eq_some_iff.mp written
      exact latestOf_cons_of_ne (Ne.symm same)
    rw [unchanged, ← before]
    exact coherent other record (peek_updateLru same found)

/-- Steps that keep the applied operations keep what the cache is compared with. -/
theorem coherent_congr {result : CachedCell K R blooms caches} (coherent : cached.Coherent records)
    (sound : cached.live.cell.Sound id cached.live.frontier cached.live.status)
    (resultSound : result.live.cell.Sound id result.live.frontier result.live.status)
    (applied : result.live.cell.applied = cached.live.cell.applied)
    (fewer : ∀ key record, caches.peek result.lru key = some record →
      caches.peek cached.lru key = some record) : result.Coherent records := by
  intro key record found
  have same : result.live.cell.get key = cached.live.cell.get key :=
    (resultSound.get_eq key).trans ((congrArg (latestOf · key) applied).trans
      (sound.get_eq key).symm)
  rw [same]
  exact coherent key record (fewer key record found)

/-- What a get has not changed while it applies the committed operations. -/
structure Promoting (records : K → WalPosition → R) (cached state : CachedCell K R blooms caches) :
    Prop where
  coherent : state.Coherent records
  pending : state.live.cell.pending = (cached.live.cell.pending.filter fun update =>
    cached.live.status update.transaction = .pending)
  frontier : state.live.frontier = cached.live.frontier
  status : state.live.status = cached.live.status
  since : state.since = cached.since

theorem Promoting.apply {state : CachedCell K R blooms caches}
    (promoting : cached.Promoting records state) {update : PendingUpdate K}
    {result : Cell K blooms} (valid : update.position.isValid = true)
    (sound : state.live.cell.Sound id cached.live.frontier cached.live.status)
    (ahead : state.live.cell.settled ≤ update.position.offset)
    (written : state.live.cell.write cached.live.frontier update.key update.isModified
      update.position = some result)
    (resultSound : result.Sound id cached.live.frontier cached.live.status) :
    ∃ after, state.apply records update = some after ∧ after.live.cell = result ∧
      cached.Promoting records after := by
  refine ⟨{ state with
    live := { state.live with cell := result }
    lru := state.updateLru records update.key update.isModified update.position }, ?_, rfl,
    fun other record found => ?_, ?_, promoting.frontier, promoting.status, promoting.since⟩
  · rw [CachedCell.apply, promoting.frontier, written]
    rfl
  · rw [← promoting.frontier, ← promoting.status] at sound resultSound
    exact coherent_write promoting.coherent sound resultSound written ahead valid found
  · obtain ⟨entry, _, rfl⟩ := Option.map_eq_some_iff.mp written
    exact promoting.pending

/-- A get applies what is committed, and nothing else. -/
theorem Sound.promotePending (sound : cached.Sound records) :
    ∃ promoted, cached.promotePending records = some promoted ∧ promoted.Sound records ∧
      cached.Promoting records promoted ∧
      promoted.live.cell.applied =
        cached.live.cell.committed cached.live.status ++ cached.live.cell.applied := by
  have waiting := sound.cell.unpend (List.filter_sublist
    (p := fun update => cached.live.status update.transaction = .pending)
    (l := cached.live.cell.pending))
  have start : cached.Promoting records { cached with
      live := { cached.live with
        cell := { cached.live.cell with
          pending := cached.live.cell.pending.filter fun update =>
            cached.live.status update.transaction = .pending } } } :=
    ⟨coherent_congr sound.coherent sound.cell waiting rfl fun _ _ found => found, rfl, rfl, rfl, rfl⟩
  obtain ⟨promoted, isPromoted, promotedSound, promoting, ops⟩ :=
    @Cell.Sound.promoteAll _ _ _ _ _ _ _ cached.live.cell (CachedCell K R blooms caches)
      (fun state => state.live.cell) (CachedCell.apply records) (cached.Promoting records)
      cached.live.frontier (le_refl _) sound.cell
      (fun _ update member _ stateSound promoting ahead written resultSound =>
        promoting.apply (sound.logged update member) stateSound ahead written resultSound)
      _ start rfl
  refine ⟨promoted, isPromoted, ⟨?_, promoting.coherent, ?_⟩, promoting, ops⟩
  · rw [promoting.frontier, promoting.status]
    exact promotedSound
  · rw [promoting.pending]
    exact fun update member => sound.logged update (List.mem_filter.mp member).1

/-! ## Steps -/

/-- A committed operation is applied by a step of its own. -/
theorem coherent_promote {index : Nat} {update : PendingUpdate K} {cell : Cell K blooms}
    (sound : cached.Sound records) (found : cached.live.cell.pending[index]? = some update)
    (committed : cached.live.status update.transaction = .committed)
    (written : ({ cached.live.cell with
        pending := cached.live.cell.pending.eraseIdx index } : Cell K blooms).write
      cached.live.frontier update.key update.isModified update.position = some cell)
    (resultSound : cell.Sound id cached.live.frontier cached.live.status) {key : K} {record : R}
    (peeked : caches.peek (cached.updateLru records update.key update.isModified update.position)
      key = some record) : (cell.get key).map (records key) = some record := by
  have member := List.mem_of_getElem? found
  have fewer := sound.cell.unpend (List.eraseIdx_sublist cached.live.cell.pending index)
  have kept : cached.live.status update.transaction ≠ .reverted := by simp [committed]
  set waiting : CachedCell K R blooms caches :=
    { cached with
      live := { cached.live with
        cell := { cached.live.cell with
          pending := cached.live.cell.pending.eraseIdx index } } } with isWaiting
  have coherent : waiting.Coherent records :=
    coherent_congr sound.coherent sound.cell fewer rfl fun _ _ found => found
  exact @coherent_write _ _ _ _ _ records waiting cell coherent fewer resultSound _ _ _ _ written
    (sound.cell.waits.ahead update member kept) (sound.logged update member) key record peeked

theorem sound_live {config : KsConfig K} (noCompactor : config.compactor = none)
    {event : LiveCell.Event K} {live : LiveCell K blooms} (sound : cached.Sound records)
    (whole : event.wholeLog = true) (logged : event.logged = true)
    (stepped : cached.live.step config event = some live) (since : List (K × Mark)) :
    ({ cached with live := live, lru := cached.lruAfter records event, since := since } :
      CachedCell K R blooms caches).Sound records := by
  have cellSound : live.cell.Sound id live.frontier live.status := by
    refine LiveCell.sound_step sound.cell (fun task isTask => ?_) stepped
    rw [isTask] at whole
    exact LiveCell.unfiltered_of_wholeLog noCompactor whole
  have unchanged (applied : live.cell.applied = cached.live.cell.applied)
      (lru : cached.lruAfter records event = cached.lru) :
      ({ cached with live := live, lru := cached.lruAfter records event, since := since } :
        CachedCell K R blooms caches).Coherent records :=
    coherent_congr sound.coherent sound.cell cellSound applied fun _ _ found => lru ▸ found
  cases event with
  | write key isModified position =>
      simp only [LiveCell.step] at stepped
      split at stepped
      · rename_i arrived
        obtain ⟨cell, written, rfl⟩ := Option.map_eq_some_iff.mp stepped
        have above := (sound.cell.settled_le.trans sound.cell.shown_le).trans
          (LiveCell.arrives_iff.mp arrived).1
        refine ⟨cellSound, fun other record found => ?_, ?_⟩
        · exact coherent_write sound.coherent sound.cell cellSound written above logged found
        · obtain ⟨entry, _, rfl⟩ := Option.map_eq_some_iff.mp written
          exact sound.logged
      · cases stepped
  | addPending update =>
      simp only [LiveCell.step] at stepped
      split at stepped
      · cases stepped
        refine ⟨cellSound, unchanged rfl rfl, fun other member => ?_⟩
        rcases List.mem_append.mp member with old | new
        · exact sound.logged other old
        · rw [List.mem_singleton.mp new]
          exact logged
      · cases stepped
  | commit transaction =>
      simp only [LiveCell.step, LiveCell.finish] at stepped
      split at stepped
      · cases stepped
        exact ⟨cellSound, unchanged rfl rfl, sound.logged⟩
      · cases stepped
  | revert transaction =>
      simp only [LiveCell.step, LiveCell.finish] at stepped
      split at stepped
      · cases stepped
        exact ⟨cellSound, unchanged rfl rfl, sound.logged⟩
      · cases stepped
  | publish frontier =>
      simp only [LiveCell.step] at stepped
      split at stepped
      · cases stepped
        exact ⟨cellSound, unchanged rfl rfl, sound.logged⟩
      · cases stepped
  | work task =>
      obtain ⟨cell, worked, rfl⟩ := Option.map_eq_some_iff.mp stepped
      rcases Cell.work_cases worked with ⟨index, update, rfl, found, committed, written⟩ |
        ⟨index, update, rfl, _, _, rfl⟩ | ⟨notPromote, applied, pending⟩
      · refine ⟨cellSound, fun key record peeked => ?_, ?_⟩
        · simp only [lruAfter, found] at peeked
          exact coherent_promote sound found committed written cellSound peeked
        · obtain ⟨entry, _, rfl⟩ := Option.map_eq_some_iff.mp written
          exact fun other member => sound.logged other (List.mem_of_mem_eraseIdx member)
      · exact ⟨cellSound, unchanged rfl rfl,
          fun other member => sound.logged other (List.mem_of_mem_eraseIdx member)⟩
      · refine ⟨cellSound, unchanged applied ?_, fun other member => ?_⟩
        · cases task with
          | promote index => exact absurd rfl (notPromote index)
          | _ => rfl
        · rw [pending] at member
          exact sound.logged other member

/-- Every step whose fills are current keeps the cache coherent. -/
theorem sound_step {config : KsConfig K} (noCompactor : config.compactor = none)
    {event : Event K} (sound : cached.Sound records) (whole : event.wholeLog = true)
    (current : cached.FillsCurrent records event)
    (stepped : cached.step config records event = some next) : next.Sound records := by
  have touched {state : CachedCell K R blooms caches} (held : state.Sound records)
      (fills : List (Fill K)) (key : K) :
      ({ state with lru := caches.touch state.lru key, fills := fills } :
        CachedCell K R blooms caches).Sound records :=
    ⟨held.cell, fun other record found => held.coherent other record
      ((caches.peek_touch _ _ _).symm.trans found), held.logged⟩
  have refilled {state : CachedCell K R blooms caches} (held : state.Sound records)
      (fills : List (Fill K)) :
      ({ state with fills := fills } : CachedCell K R blooms caches).Sound records :=
    ⟨held.cell, held.coherent, held.logged⟩
  cases event with
  | live event =>
      simp only [step] at stepped
      split at stepped
      · rename_i logged
        obtain ⟨live, isLive, rfl⟩ := Option.map_eq_some_iff.mp stepped
        exact sound_live noCompactor sound whole logged isLive _
      · cases stepped
  | lookup key =>
      obtain ⟨promoted, isPromoted, promotedSound, _⟩ := sound.promotePending
      simp only [step, isPromoted, Option.map_some, Option.some.injEq] at stepped
      subst stepped
      split
      · exact touched promotedSound _ _
      · exact refilled promotedSound _
      · exact promotedSound
  | walk key =>
      obtain ⟨promoted, isPromoted, promotedSound, _⟩ := sound.promotePending
      simp only [step, isPromoted, Option.map_some, Option.some.injEq] at stepped
      subst stepped
      split
      · exact refilled promotedSound _
      · exact promotedSound
  | consult index =>
      obtain ⟨fill, _, rfl⟩ := Option.map_eq_some_iff.mp stepped
      split
      · exact touched sound _ _
      · exact sound
  | fill index =>
      obtain ⟨fill, isFill, rfl⟩ := Option.map_eq_some_iff.mp stepped
      refine ⟨sound.cell, fun key record found => ?_, sound.logged⟩
      by_cases same : key = fill.key
      · subst same
        exact (current fill isFill).trans ((caches.peek_push_self _ _ _).symm.trans found)
      · exact sound.coherent key record (caches.peek_of_peek_push _ _ _ _ _ same found)
  | abandon index =>
      cases stepped
      exact refilled sound _
  | drop removesEntry =>
      simp only [step] at stepped
      split at stepped
      · rename_i idle
        cases stepped
        cases removesEntry with
        | true =>
            exact ⟨sound.cell.removeEntry idle,
              fun key _ found => absurd ((caches.peek_new key).symm.trans found) nofun, nofun⟩
        | false =>
            exact ⟨sound.cell.clear idle,
              fun key _ found => absurd ((caches.peek_clear _ key).symm.trans found) nofun,
              sound.logged⟩
      · cases stepped

/-! ## Gets -/

/-- The operations that took effect are those applied or committed. -/
def Remembers (cached : CachedCell K R blooms caches) : Prop :=
  ∀ op, op ∈ cached.since ↔
    op ∈ cached.live.cell.committed cached.live.status ++ cached.live.cell.applied

omit [LinearOrder K] in
/-- The operations that wait committed, but for one of them. -/
theorem committed_eraseIdx {pending : List (PendingUpdate K)} {index : Nat}
    {update : PendingUpdate K} (found : pending[index]? = some update)
    (status : Nat → TransactionStatus) (op : K × Mark) :
    (∃ other ∈ pending, status other.transaction = .committed ∧ other.op = op) ↔
      (status update.transaction = .committed ∧ op = update.op) ∨
        ∃ other ∈ pending.eraseIdx index, status other.transaction = .committed ∧ other.op = op := by
  obtain ⟨below, rfl⟩ := List.getElem?_eq_some_iff.mp found
  simp only [← (List.getElem_cons_eraseIdx_perm below).mem_iff, List.mem_cons, or_and_right,
    exists_or, exists_eq_left, eq_comm]

theorem remembers_live {config : KsConfig K} {event : LiveCell.Event K} {live : LiveCell K blooms}
    (remembers : cached.Remembers) (stepped : cached.live.step config event = some live)
    (lru : caches.Cache) :
    ({ cached with live := live, lru := lru, since := cached.effective event ++ cached.since } :
      CachedCell K R blooms caches).Remembers := by
  intro op
  have before := remembers op
  simp only [List.mem_append, Cell.mem_committed] at before ⊢
  cases event with
  | write key isModified position =>
      simp only [LiveCell.step] at stepped
      split at stepped
      · obtain ⟨cell, written, rfl⟩ := Option.map_eq_some_iff.mp stepped
        obtain ⟨entry, _, rfl⟩ := Option.map_eq_some_iff.mp written
        simp only [effective, List.mem_cons, List.not_mem_nil, or_false, before]
        exact or_left_comm
      · cases stepped
  | addPending update =>
      simp only [LiveCell.step] at stepped
      split at stepped
      · rename_i guard
        cases stepped
        simp only [effective, Cell.addPending, List.not_mem_nil, false_or, before, List.mem_append,
          List.mem_singleton]
        refine or_congr_left ⟨?_, ?_⟩
        · rintro ⟨other, member, rest⟩
          exact ⟨other, Or.inl member, rest⟩
        · rintro ⟨other, member | rfl, committed, isOp⟩
          · exact ⟨other, member, committed, isOp⟩
          · cases guard.1.symm.trans committed
      · cases stepped
  | commit transaction =>
      simp only [LiveCell.step, LiveCell.finish] at stepped
      split at stepped
      · cases stepped
        simp only [effective, List.mem_map, List.mem_filter, decide_eq_true_eq, before, ← or_assoc]
        refine or_congr_left ⟨?_, ?_⟩
        · rintro (⟨update, ⟨member, rfl⟩, isOp⟩ | ⟨update, member, committed, isOp⟩)
          · exact ⟨update, member, if_pos rfl, isOp⟩
          · refine ⟨update, member, ?_, isOp⟩
            split
            · rfl
            · exact committed
        · rintro ⟨update, member, committed, isOp⟩
          split at committed
          · rename_i same
            exact Or.inl ⟨update, ⟨member, same⟩, isOp⟩
          · exact Or.inr ⟨update, member, committed, isOp⟩
      · cases stepped
  | revert transaction =>
      simp only [LiveCell.step, LiveCell.finish] at stepped
      split at stepped
      · rename_i unfinished
        cases stepped
        simp only [effective, List.not_mem_nil, false_or, before]
        refine or_congr_left ⟨?_, ?_⟩
        · rintro ⟨update, member, committed, isOp⟩
          refine ⟨update, member, ?_, isOp⟩
          split
          · rename_i same
            rw [same, unfinished] at committed
            cases committed
          · exact committed
        · rintro ⟨update, member, committed, isOp⟩
          split at committed
          · cases committed
          · exact ⟨update, member, committed, isOp⟩
      · cases stepped
  | publish frontier =>
      simp only [LiveCell.step] at stepped
      split at stepped
      · cases stepped
        simp only [effective, List.not_mem_nil, false_or, before]
      · cases stepped
  | work task =>
      obtain ⟨cell, worked, rfl⟩ := Option.map_eq_some_iff.mp stepped
      simp only [effective, List.not_mem_nil, false_or, before]
      rcases Cell.work_cases worked with ⟨index, update, rfl, found, committed, written⟩ |
        ⟨index, update, rfl, found, reverted, rfl⟩ | ⟨_, applied, pending⟩
      · obtain ⟨entry, _, rfl⟩ := Option.map_eq_some_iff.mp written
        rw [committed_eraseIdx found, List.mem_cons, or_assoc, or_left_comm]
        simp only [committed, true_and]
        rfl
      · rw [committed_eraseIdx found]
        simp only [reverted, reduceCtorEq, false_and, false_or]
      · rw [applied, pending]

theorem remembers_promoting {promoted : CachedCell K R blooms caches}
    (remembers : cached.Remembers) (promoting : cached.Promoting records promoted)
    (ops : promoted.live.cell.applied =
      cached.live.cell.committed cached.live.status ++ cached.live.cell.applied) :
    promoted.Remembers := by
  intro op
  rw [promoting.since, remembers op, ops, List.mem_append (s := promoted.live.cell.committed _)]
  refine ⟨Or.inr, fun member => member.resolve_left fun waits => ?_⟩
  obtain ⟨update, member, committed, _⟩ := Cell.mem_committed.mp waits
  rw [promoting.pending] at member
  have pending := of_decide_eq_true (List.mem_filter.mp member).2
  rw [promoting.status] at committed
  exact absurd (pending.symm.trans committed) nofun

theorem remembers_step {config : KsConfig K} {event : Event K} (sound : cached.Sound records)
    (remembers : cached.Remembers) (settled : cached.DropsSettled event)
    (stepped : cached.step config records event = some next) : next.Remembers := by
  cases event with
  | live event =>
      simp only [step] at stepped
      split at stepped
      · obtain ⟨live, isLive, rfl⟩ := Option.map_eq_some_iff.mp stepped
        exact remembers_live remembers isLive _
      · cases stepped
  | lookup key =>
      obtain ⟨promoted, isPromoted, _, promoting, ops⟩ := sound.promotePending
      simp only [step, isPromoted, Option.map_some, Option.some.injEq] at stepped
      subst stepped
      have promotedRemembers := remembers_promoting remembers promoting ops
      split <;> exact promotedRemembers
  | walk key =>
      obtain ⟨promoted, isPromoted, _, promoting, ops⟩ := sound.promotePending
      simp only [step, isPromoted, Option.map_some, Option.some.injEq] at stepped
      subst stepped
      have promotedRemembers := remembers_promoting remembers promoting ops
      split <;> exact promotedRemembers
  | consult index =>
      obtain ⟨fill, _, rfl⟩ := Option.map_eq_some_iff.mp stepped
      split <;> exact remembers
  | fill index =>
      obtain ⟨fill, _, rfl⟩ := Option.map_eq_some_iff.mp stepped
      exact remembers
  | abandon index =>
      cases stepped
      exact remembers
  | drop removesEntry =>
      simp only [step] at stepped
      split at stepped
      · cases stepped
        intro op
        cases removesEntry with
        | true => exact Iff.rfl
        | false =>
            have nothing : cached.live.cell.committed cached.live.status = [] := settled
            change op ∈ [] ↔ op ∈ cached.live.cell.committed cached.live.status ++ []
            rw [nothing]
            exact Iff.rfl
      · cases stepped

/-- A get returns the record of the newest operation that took effect. -/
theorem Sound.get_eq (sound : cached.Sound records) (remembers : cached.Remembers) (key : K) :
    cached.get records key = some ((latestOf cached.since key).map (records key)) := by
  obtain ⟨promoted, isPromoted, promotedSound, promoting, ops⟩ := sound.promotePending
  have newest : promoted.live.cell.get key = latestOf cached.since key :=
    promotedSound.cell.get_eq_of_same fun mark => by
      rw [ops]
      exact remembers (key, mark)
  rw [get, isPromoted, Option.map_some, ← newest]
  cases found : caches.peek promoted.lru key with
  | none => rfl
  | some record =>
      rw [promotedSound.coherent key record found]
      rfl

/-- The cache is coherent throughout a run exactly if every record put into it is still the one
at the live position of its key. If moreover no committed operation waits in a cell that is
dropped in place, every get returns the record of the newest operation since the last drop. -/
theorem coherent_iff_fillsCurrent {config : KsConfig K} (noCompactor : config.compactor = none)
    (records : K → WalPosition → R) (bloom : Option blooms.Filter) {events : List (Event K)}
    (whole : ∀ event ∈ events, event.wholeLog = true) :
    (AllStates (step config records) (Coherent records) events
        (new bloom : CachedCell K R blooms caches) ↔
      AllSteps (step config records) (FillsCurrent records) events
        (new bloom : CachedCell K R blooms caches)) ∧
    (AllSteps (step config records)
        (fun cached event => cached.FillsCurrent records event ∧ cached.DropsSettled event) events
        (new bloom : CachedCell K R blooms caches) →
      AllStates (step config records) (fun cached => ∀ key,
          cached.get records key = some ((latestOf cached.since key).map (records key))) events
        (new bloom : CachedCell K R blooms caches)) := by
  have wholeSteps : AllSteps (step config records) (fun _ event => event.wholeLog = true) events
      (new bloom : CachedCell K R blooms caches) :=
    allSteps_of_mem (fun event member _ => whole event member) _
  refine ⟨⟨allSteps_of_allStates fun {cached event} after => ?_, fun current => ?_⟩, fun met => ?_⟩
  · cases event with
    | fill index =>
        intro fill isFill
        have filled : cached.step config records (.fill index) = some
            { cached with
              lru := caches.push cached.lru fill.key (records fill.key fill.position)
              fills := cached.fills.eraseIdx index } := by
          rw [step, isFill]
          rfl
        exact after _ filled fill.key _ (caches.peek_push_self _ _ _)
    | _ => trivial
  · exact allStates_of_allSteps
      (fun sound meets stepped => sound_step noCompactor sound meets.2 meets.1 stepped)
      Sound.coherent (sound_new records bloom) (current.and wholeSteps)
  · exact @allStates_of_allSteps _ _ (step config records) _
      (fun cached => cached.Sound records ∧ cached.Remembers) _
      (fun held meets stepped =>
        ⟨sound_step noCompactor held.1 meets.2 meets.1.1 stepped,
          remembers_step held.1 held.2 meets.1.2 stepped⟩)
      (fun held key => held.1.get_eq held.2 key) _ _ ⟨sound_new records bloom, fun _ => Iff.rfl⟩
      (met.and wholeSteps)

/-- A cache with room for one record. -/
def singleSlot : LruCache Nat WalPosition where
  Cache := Option (Nat × WalPosition)
  new := none
  peek cache key := cache.bind fun entry => if entry.1 = key then some entry.2 else none
  touch cache _ := cache
  push _ key record := some (key, record)
  pop cache key := cache.filter fun entry => entry.1 ≠ key
  clear _ := none
  peek_new := fun _ => rfl
  peek_touch := fun _ _ _ => rfl
  peek_push_self := by simp
  peek_of_peek_push := by
    intro cache pushed record key found different peeked
    simp [Ne.symm different] at peeked
  peek_pop_self := by
    intro cache key
    cases cache with
    | none => rfl
    | some entry => by_cases same : entry.1 = key <;> simp [Option.filter, same]
  peek_of_peek_pop := by
    intro cache popped key found peeked
    cases cache with
    | none => exact peeked
    | some entry =>
        by_cases same : entry.1 = popped
        · simp [Option.filter, same] at peeked
        · simpa [Option.filter, same] using peeked
  peek_clear := fun _ _ => rfl

/-- A get of the first key misses the cache; a batch is committed, and the cell is dropped once its
operation is applied. -/
def filledOnce : List (Event Nat) :=
  [.live (.write 1 true ⟨0, 20⟩), .live (.write 2 true ⟨20, 20⟩), .lookup 1, .fill 0,
    .live (.addPending ⟨1, false, ⟨40, 20⟩, 0⟩), .live (.commit 0), .walk 2, .consult 0, .fill 0,
    .drop false, .live (.write 2 true ⟨60, 20⟩)]

theorem coherent_iff_fillsCurrent_filledOnce :
    (runEvents (step LiveCell.twoEntries fun _ position => position) filledOnce
        (new none : CachedCell Nat WalPosition LiveCell.exactBloom singleSlot)).isSome = true ∧
      AllStates (step LiveCell.twoEntries fun _ position => position)
        (fun cached => ∀ key, cached.get (fun _ position => position) key =
          some ((latestOf cached.since key).map fun position => position)) filledOnce
        (new none : CachedCell Nat WalPosition LiveCell.exactBloom singleSlot) :=
  ⟨by decide +kernel,
    (coherent_iff_fillsCurrent rfl (fun _ position => position) none (by decide)).2
      (by decide +kernel)⟩

/-- A get of the first key looks it up, the key is written again, and the get fills the cache. -/
def filledLate : List (Event Nat) :=
  [.live (.write 1 true ⟨0, 20⟩), .live (.write 2 true ⟨20, 20⟩), .lookup 1,
    .live (.write 1 true ⟨40, 20⟩), .fill 0]

/-- Every later get of the key returns the overwritten record. -/
theorem filledLate_stale :
    ∃ cached, runEvents (step LiveCell.twoEntries fun _ position => position) filledLate
        (new none : CachedCell Nat WalPosition LiveCell.exactBloom singleSlot) = some cached ∧
      ¬cached.Coherent (fun _ position => position) ∧
      cached.live.cell.get 1 = some ⟨40, 20⟩ ∧
      cached.get (fun _ position => position) 1 = some (some ⟨0, 20⟩) := by
  have reached : (runEvents (step LiveCell.twoEntries fun _ position => position) filledLate
      (new none : CachedCell Nat WalPosition LiveCell.exactBloom singleSlot)).any (fun cached =>
        decide (singleSlot.peek cached.lru 1 = some ⟨0, 20⟩) &&
        decide (cached.live.cell.get 1 = some ⟨40, 20⟩) &&
        decide (cached.get (fun _ position => position) 1 = some (some ⟨0, 20⟩))) = true := by
    decide +kernel
  obtain ⟨cached, ran, met⟩ := (Option.any_eq_true _ _).mp reached
  simp only [Bool.and_eq_true, decide_eq_true_eq, and_assoc] at met
  obtain ⟨peeked, live, stale⟩ := met
  refine ⟨cached, ran, fun coherent => ?_, live, stale⟩
  have same := coherent 1 _ peeked
  rw [live] at same
  exact absurd same (by decide)

end CachedCell

end Tidehunter.LargeTable
