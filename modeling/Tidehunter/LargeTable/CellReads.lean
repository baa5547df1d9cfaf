import Tidehunter.LargeTable.Cell
import Tidehunter.LargeTable.InFlight

/-!
# Reads of a cell under background work

The invariant of a cell: its entry keeps the history of the applied operations, a flush under
way settles what it was requested for, and a captured promotion fits the table unless the
table has changed. Every step of the work on the cell keeps it, at a published frontier and
under the transactions of the batches.
-/

namespace Tidehunter.LargeTable

open Library Wal Index Flusher

variable {K V : Type} [LinearOrder K]

/-- A captured table is the current one, or it is not put back. -/
structure Promotion.Fits (promotion : Promotion K) (entry : Entry K) (threshold : Nat) : Prop where
  threshold_le : promotion.threshold ≤ threshold
  version_le : promotion.version ≤ entry.version
  same : promotion.version = entry.version → promotion.data = entry.data

theorem Promotion.Fits.of_versioned {promotion : Promotion K} {entry result : Entry K}
    {threshold later : Nat} (fits : promotion.Fits entry threshold) (grows : threshold ≤ later)
    (versioned : entry.Versioned result) : promotion.Fits result later where
  threshold_le := fits.threshold_le.trans grows
  version_le := by
    rcases versioned with more | ⟨same, _⟩
    · exact fits.version_le.trans more.le
    · rw [same]
      exact fits.version_le
  same := by
    intro isVersion
    rcases versioned with more | ⟨same, sameData⟩
    · exact absurd (isVersion ▸ more) (Nat.not_lt.mpr fits.version_le)
    · rw [sameData]
      exact fits.same (isVersion.trans same)

/-- The batch operations that wait lie ahead of what their cell has settled. -/
structure Waits (frontier : Nat) (status : Nat → TransactionStatus) (settled : Nat)
    (history : K → Set Mark) (pending : List (PendingUpdate K)) : Prop where
  ahead : ∀ update ∈ pending, status update.transaction ≠ .reverted →
    settled ≤ update.position.offset
  unfinished : ∀ update ∈ pending, status update.transaction = .pending →
    frontier ≤ update.position.offset
  fresh : ∀ update ∈ pending, ∀ mark ∈ history update.key, mark.offset ≠ update.position.offset
  distinct : pending.Pairwise fun first second =>
    first.key = second.key → first.position.offset ≠ second.position.offset

namespace Cell

variable {blooms : BloomFilter K}

/-- The operations applied to a key. -/
def history (cell : Cell K blooms) (key : K) : Set Mark := { mark | (key, mark) ∈ cell.applied }

/-- The flush under way fits the entry. -/
def FlushFits (observe : Option WalPosition → V) (cell : Cell K blooms) : Prop :=
  match cell.job with
  | none => cell.entry.pendingLastProcessed = none
  | some job => cell.entry.pendingLastProcessed = some cell.promoteThreshold ∧
      cell.entry.InFlight observe cell.history cell.promoteThreshold cell.shown job

structure Sound (observe : Option WalPosition → V) (frontier : Nat)
    (status : Nat → TransactionStatus) (cell : Cell K blooms) : Prop where
  keeps : cell.entry.Keeps observe cell.history cell.promoteThreshold cell.shown
  anchored : cell.entry.Anchored observe cell.history cell.shown
  untouched : cell.entry.state = .empty → cell.applied = []
  threshold_le : cell.promoteThreshold ≤ cell.settled
  settled_le : cell.settled ≤ cell.shown
  shown_le : cell.shown ≤ frontier
  waits : Waits frontier status cell.settled cell.history cell.pending
  flush : cell.FlushFits observe
  promotions : ∀ promotion ∈ cell.promotions, promotion.Fits cell.entry cell.promoteThreshold
  bloom : ∀ key, ∀ mark ∈ cell.history key, mark.removed = false →
    cell.bloomFilterNotFound key = false

variable {observe : Option WalPosition → V} {frontier : Nat} {status : Nat → TransactionStatus}
  {cell result : Cell K blooms}

/-! ## The surroundings of a cell -/

theorem sound_new (observe : Option WalPosition → V) (frontier : Nat)
    (status : Nat → TransactionStatus) (bloom : Option blooms.Filter) :
    (new bloom : Cell K blooms).Sound observe frontier status where
  keeps := by
    have nothing : (new bloom : Cell K blooms).history = fun _ => ∅ := by
      funext key
      exact Set.eq_empty_iff_forall_notMem.mpr fun _ => List.not_mem_nil
    rw [nothing]
    exact Entry.Keeps.new observe (le_refl 0)
  anchored := ⟨fun _ _ => Or.inr ⟨fun _ _ => Nat.zero_le _, rfl⟩, le_refl 0⟩
  untouched := fun _ => rfl
  threshold_le := le_refl 0
  settled_le := le_refl 0
  shown_le := Nat.zero_le frontier
  waits := ⟨nofun, nofun, nofun, List.Pairwise.nil⟩
  flush := rfl
  promotions := nofun
  bloom := nofun

/-- The published frontier moves, up to the operations of unfinished batches. -/
theorem Sound.publish (sound : cell.Sound observe frontier status) {later : Nat}
    (grows : frontier ≤ later)
    (unfinished : ∀ update ∈ cell.pending, status update.transaction = .pending →
      later ≤ update.position.offset) : cell.Sound observe later status :=
  { sound with
    shown_le := sound.shown_le.trans grows
    waits := { sound.waits with unfinished := unfinished } }

/-- A transaction ends. -/
theorem Sound.finish (sound : cell.Sound observe frontier status)
    {later : Nat → TransactionStatus}
    (unfinished : ∀ transaction, later transaction = .pending → status transaction = .pending)
    (reverted : ∀ transaction, status transaction = .reverted → later transaction = .reverted) :
    cell.Sound observe frontier later :=
  { sound with
    waits :=
      { sound.waits with
        ahead := fun update member kept => sound.waits.ahead update member fun isReverted =>
          kept (reverted _ isReverted)
        unfinished := fun update member isPending =>
          sound.waits.unfinished update member (unfinished _ isPending) } }

/-- An operation of a batch arrives. -/
theorem Sound.addPending (sound : cell.Sound observe frontier status) {update : PendingUpdate K}
    (above : frontier ≤ update.position.offset)
    (fresh : ∀ mark ∈ cell.history update.key, mark.offset ≠ update.position.offset)
    (distinct : ∀ other ∈ cell.pending, other.key = update.key →
      other.position.offset ≠ update.position.offset) :
    (cell.addPending update).Sound observe frontier status := by
  have members (other : PendingUpdate K) (member : other ∈ cell.pending ++ [update]) :
      other ∈ cell.pending ∨ other = update := by
    simpa using member
  refine { sound with waits := ⟨fun other member kept => ?_, fun other member isPending => ?_,
    fun other member => ?_, ?_⟩ }
  · rcases members other member with old | rfl
    · exact sound.waits.ahead other old kept
    · exact (sound.settled_le.trans sound.shown_le).trans above
  · rcases members other member with old | rfl
    · exact sound.waits.unfinished other old isPending
    · exact above
  · rcases members other member with old | rfl
    · exact sound.waits.fresh other old
    · exact fresh
  · refine List.pairwise_append.mpr ⟨sound.waits.distinct, List.pairwise_singleton _ _, ?_⟩
    intro other member last isLast
    obtain rfl := List.mem_singleton.mp isLast
    exact distinct other member

/-- Operations leave the pending table. -/
theorem Sound.unpend (sound : cell.Sound observe frontier status) {pending : List (PendingUpdate K)}
    (fewer : pending.Sublist cell.pending) :
    ({ cell with pending := pending } : Cell K blooms).Sound observe frontier status :=
  { sound with
    waits := ⟨fun update member => sound.waits.ahead update (fewer.subset member),
      fun update member => sound.waits.unfinished update (fewer.subset member),
      fun update member => sound.waits.fresh update (fewer.subset member),
      sound.waits.distinct.sublist fewer⟩ }

/-! ## Changes of the entry -/

theorem FlushFits.carry (fits : cell.FlushFits observe) (job : result.job = cell.job)
    (pending : result.entry.pendingLastProcessed = cell.entry.pendingLastProcessed)
    (carried : Entry.Carried cell.entry result.entry cell.promoteThreshold)
    (extended : Extended cell.history result.history cell.promoteThreshold)
    (shows : cell.shown ≤ result.shown) : result.FlushFits observe := by
  unfold FlushFits at fits ⊢
  rw [job]
  cases isJob : cell.job with
  | none =>
      simp only [isJob] at fits ⊢
      rw [pending, fits]
  | some current =>
      simp only [isJob] at fits ⊢
      have threshold : result.promoteThreshold = cell.promoteThreshold := by
        rw [promoteThreshold, pending, fits.1]
        rfl
      rw [threshold]
      exact ⟨pending.trans fits.1, fits.2.carry carried extended shows⟩

/-- A step that changes the entry alone. -/
theorem Sound.of_entry (sound : cell.Sound observe frontier status) {entry : Entry K}
    (keeps : entry.Keeps observe cell.history cell.promoteThreshold cell.shown)
    (anchored : entry.Anchored observe cell.history cell.shown)
    (untouched : entry.state = .empty → cell.entry.state = .empty)
    (pending : entry.pendingLastProcessed = cell.entry.pendingLastProcessed)
    (versioned : cell.entry.Versioned entry)
    (flush : ({ cell with entry := entry } : Cell K blooms).FlushFits observe) :
    ({ cell with entry := entry } : Cell K blooms).Sound observe frontier status := by
  have threshold : ({ cell with entry := entry } : Cell K blooms).promoteThreshold =
      cell.promoteThreshold := by
    simp only [promoteThreshold, pending]
  refine { sound with
    keeps := ?_
    anchored := anchored
    untouched := fun empty => sound.untouched (untouched empty)
    threshold_le := ?_
    flush := flush
    promotions := ?_ }
  · rw [threshold]
    exact keeps
  · rw [threshold]
    exact sound.threshold_le
  · intro promotion member
    rw [threshold]
    exact (sound.promotions promotion member).of_versioned (le_refl _) versioned

omit [LinearOrder K] in
/-- The filter of a written key finds it, and every key it found before. -/
theorem bloom_write (bloom : Option blooms.Filter) (isModified : Bool) (key : K) {other : K}
    (kept : (bloom.any fun filter => !blooms.contains filter other) = false ∨
      isModified = true ∧ other = key) :
    ((if isModified then bloom.map fun filter => blooms.insert filter key else bloom).any
      fun filter => !blooms.contains filter other) = false := by
  cases bloom with
  | none => cases isModified <;> rfl
  | some filter =>
      rcases kept with found | ⟨rfl, rfl⟩
      · have contains : blooms.contains filter other = true := by simpa using found
        cases isModified with
        | false => exact found
        | true => simp [blooms.contains_of_contains filter other key contains]
      · simp [blooms.contains_insert]

omit [LinearOrder K] in
/-- Two updates of a key at different places. -/
theorem ne_of_pairwise {pending : List (PendingUpdate K)} {first second : PendingUpdate K}
    (distinct : pending.Pairwise fun first second =>
      first.key = second.key → first.position.offset ≠ second.position.offset)
    {place other : Nat} (isFirst : pending[place]? = some first)
    (isSecond : pending[other]? = some second) (different : place ≠ other)
    (sameKey : first.key = second.key) : first.position.offset ≠ second.position.offset := by
  obtain ⟨below, rfl⟩ := List.getElem?_eq_some_iff.mp isFirst
  obtain ⟨otherBelow, rfl⟩ := List.getElem?_eq_some_iff.mp isSecond
  have ordered := List.pairwise_iff_getElem.mp distinct
  rcases Nat.lt_or_gt_of_ne different with less | more
  · exact ordered place other below otherBelow less sameKey
  · exact (ordered other place otherBelow below more sameKey.symm).symm

/-- A write arrives, behind everything the cell has settled. -/
theorem Sound.write (sound : cell.Sound observe frontier status) {published : Nat}
    (isPublished : published ≤ frontier) {key : K} {isModified : Bool} {position : WalPosition}
    (written : cell.write published key isModified position = some result)
    (above : cell.settled ≤ position.offset)
    (fresh : ∀ mark ∈ cell.history key, mark.offset ≠ position.offset)
    (distinct : ∀ update ∈ cell.pending, update.key = key →
      update.position.offset ≠ position.offset) :
    result.Sound observe frontier status := by
  obtain ⟨entry, isEntry, rfl⟩ := Option.map_eq_some_iff.mp written
  have pending := Entry.pending_write isEntry
  have aboveBound := sound.threshold_le.trans above
  have carried := Entry.carried_write isEntry aboveBound
  set later : Cell K blooms :=
    { cell with
      entry := entry
      bloom := if isModified then cell.bloom.map fun filter => blooms.insert filter key
        else cell.bloom
      applied := (key, ⟨position.offset, position.len, !isModified⟩) :: cell.applied
      shown := if cell.entry.state = .empty then max cell.shown published else cell.shown }
    with isLater
  have threshold : later.promoteThreshold = cell.promoteThreshold := by
    simp only [isLater, promoteThreshold, pending]
  have joins (other : K) (mark : Mark) : mark ∈ later.history other ↔
      other = key ∧ mark = ⟨position.offset, position.len, !isModified⟩ ∨
        mark ∈ cell.history other := by
    simp [isLater, history]
  have extended : Extended cell.history later.history cell.promoteThreshold := by
    refine ⟨fun other mark member => (joins other mark).mpr (Or.inr member), ?_⟩
    intro other mark member
    rcases (joins other mark).mp member with ⟨_, rfl⟩ | old
    · exact Or.inr aboveBound
    · exact Or.inl old
  have shows : cell.shown ≤ later.shown := by
    simp only [isLater]
    split
    · exact le_max_left _ _
    · exact le_refl _
  have untouched (empty : cell.entry.state = .empty) (other : K) : cell.history other = ∅ := by
    rw [history, sound.untouched empty]
    exact Set.eq_empty_iff_forall_notMem.mpr fun _ => List.not_mem_nil
  refine ⟨?_, sound.anchored.write sound.keeps.ok untouched isEntry joins, fun empty => ?_, ?_,
    sound.settled_le.trans shows, ?_, ?_, ?_, ?_, ?_⟩
  · rw [threshold]
    exact (sound.keeps.write isEntry joins fresh aboveBound).advance (le_refl _) shows
      ((sound.threshold_le.trans sound.settled_le).trans shows)
  · exact absurd empty (Entry.state_write isEntry)
  · rw [threshold]
    exact sound.threshold_le
  · simp only [isLater]
    split
    · exact max_le sound.shown_le isPublished
    · exact sound.shown_le
  · refine { sound.waits with fresh := fun update member mark inside => ?_ }
    rcases (joins update.key mark).mp inside with ⟨isKey, rfl⟩ | old
    · exact fun same => distinct update member isKey same.symm
    · exact sound.waits.fresh update member mark old
  · exact sound.flush.carry rfl pending carried extended shows
  · intro promotion member
    rw [threshold]
    exact (sound.promotions promotion member).of_versioned (le_refl _) carried.version
  · intro other mark member present
    have found (kept : cell.bloomFilterNotFound other = false ∨ isModified = true ∧ other = key) :
        later.bloomFilterNotFound other = false :=
      bloom_write cell.bloom isModified key kept
    rcases (joins other mark).mp member with ⟨isKey, rfl⟩ | old
    · exact found (Or.inr ⟨by simpa using present, isKey⟩)
    · exact found (Or.inl (sound.bloom other mark old present))

/-! ## The work on a cell -/

theorem Sound.promote (sound : cell.Sound observe frontier status) {config : KsConfig K}
    {index : Nat} (worked : cell.work config frontier status (.promote index) = some result) :
    result.Sound observe frontier status := by
  obtain ⟨update, found, isWritten⟩ := Option.bind_eq_some_iff.mp worked
  split at isWritten
  · rename_i committed
    have member := List.mem_of_getElem? found
    have kept : status update.transaction ≠ .reverted := by simp [committed]
    refine (sound.unpend (List.eraseIdx_sublist cell.pending index)).write (le_refl _) isWritten
      (sound.waits.ahead update member kept) (sound.waits.fresh update member) ?_
    intro other inside isKey
    obtain ⟨place, different, isOther⟩ := List.mem_eraseIdx_iff_getElem?.mp inside
    exact ne_of_pairwise sound.waits.distinct isOther found different isKey
  · cases isWritten

theorem Sound.discard (sound : cell.Sound observe frontier status) {config : KsConfig K}
    {published index : Nat}
    (worked : cell.work config published status (.discard index) = some result) :
    result.Sound observe frontier status := by
  obtain ⟨update, found, isResult⟩ := Option.bind_eq_some_iff.mp worked
  split at isResult
  · cases isResult
    exact sound.unpend (List.eraseIdx_sublist cell.pending index)
  · cases isResult

theorem Sound.readFrontier (sound : cell.Sound observe frontier status) {config : KsConfig K}
    {lastProcessed : Nat}
    (worked : cell.work config frontier status (.observe lastProcessed) = some result) :
    result.Sound observe frontier status := by
  simp only [work] at worked
  split at worked
  · rename_i guard
    obtain ⟨newer, published, committed⟩ := guard
    cases worked
    have threshold : cell.promoteThreshold ≤
        cell.entry.pendingLastProcessed.getD lastProcessed := by
      rw [promoteThreshold]
      cases cell.entry.pendingLastProcessed with
      | none => exact newer
      | some pending => exact le_refl pending
    have threshold_le : cell.entry.pendingLastProcessed.getD lastProcessed ≤ lastProcessed := by
      have before := sound.threshold_le
      rw [promoteThreshold] at before
      cases isPending : cell.entry.pendingLastProcessed with
      | none => exact le_refl lastProcessed
      | some pending =>
          rw [isPending] at before
          exact before.trans newer
    refine ⟨sound.keeps.advance threshold (le_max_left _ _) (threshold_le.trans (le_max_right _ _)),
      sound.anchored.advance (le_max_left _ _), sound.untouched, threshold_le, le_max_right _ _,
      max_le sound.shown_le published, ?_, ?_, ?_, sound.bloom⟩
    · refine { sound.waits with ahead := fun update member kept => ?_ }
      cases isStatus : status update.transaction with
      | pending => exact published.trans (sound.waits.unfinished update member isStatus)
      | committed => exact committed update member isStatus
      | reverted => exact absurd isStatus kept
    · exact sound.flush.carry rfl rfl (Entry.carried_congr rfl rfl rfl rfl)
        (Extended.refl cell.history _) (le_max_left _ _)
    · intro promotion member
      exact (sound.promotions promotion member).of_versioned threshold (Entry.Versioned.refl _)
  · cases worked

theorem Sound.capture (sound : cell.Sound observe frontier status) {config : KsConfig K}
    {published : Nat} (worked : cell.work config published status .capture = some result) :
    result.Sound observe frontier status := by
  cases worked
  refine { sound with promotions := fun promotion member => ?_ }
  rcases List.mem_append.mp member with old | new
  · exact sound.promotions promotion old
  · obtain rfl := List.mem_singleton.mp new
    exact ⟨le_refl _, le_refl _, fun _ => rfl⟩

theorem Sound.install (sound : cell.Sound observe frontier status) {config : KsConfig K}
    {published index : Nat}
    (worked : cell.work config published status (.install index) = some result) :
    result.Sound observe frontier status := by
  obtain ⟨promotion, found, rfl⟩ := Option.map_eq_some_iff.mp worked
  have fits := sound.promotions promotion (List.mem_of_getElem? found)
  have fewer : ({ cell with promotions := cell.promotions.eraseIdx index } :
      Cell K blooms).Sound observe frontier status :=
    { sound with
      promotions := fun other member =>
        sound.promotions other ((List.eraseIdx_sublist cell.promotions index).subset member) }
  change ({ ({ cell with promotions := cell.promotions.eraseIdx index } : Cell K blooms) with
    entry := installPromotion cell.entry promotion } : Cell K blooms).Sound observe frontier status
  unfold installPromotion
  split
  · rename_i fires
    simp only [Bool.and_eq_true, decide_eq_true_eq] at fires
    rw [fits.same fires.2.symm]
    have carried : Entry.Carried cell.entry _ cell.promoteThreshold :=
      Entry.carried_promoteToFlat fits.threshold_le
    exact fewer.of_entry (sound.keeps.promoteToFlat fits.threshold_le)
      (sound.anchored.congr rfl rfl) id rfl carried.version
      (fewer.flush.carry rfl rfl carried (Extended.refl cell.history _) (le_refl _))
  · exact fewer

theorem Sound.load (sound : cell.Sound observe frontier status) {config : KsConfig K}
    {published : Nat} (worked : cell.work config published status .load = some result) :
    result.Sound observe frontier status := by
  cases worked
  refine sound.of_entry sound.keeps.maybeLoad (sound.anchored.congr ?_ ?_) ?_
    (Entry.pending_maybeLoad _) (Entry.versioned_maybeLoad _) ?_
  · unfold Entry.maybeLoad
    split <;> rfl
  · unfold Entry.maybeLoad
    split <;> rfl
  · unfold Entry.maybeLoad
    split
    · nofun
    · nofun
    · exact id
  have flush := sound.flush
  unfold FlushFits at flush ⊢
  cases isJob : cell.job with
  | none =>
      simp only [isJob] at flush ⊢
      rw [Entry.pending_maybeLoad, flush]
  | some job =>
      simp only [isJob] at flush ⊢
      have same : cell.entry.maybeLoad = cell.entry := by
        unfold Entry.maybeLoad
        rw [flush.1]
      rw [same]
      exact flush

theorem Sound.snapshot (sound : cell.Sound observe frontier status) {config : KsConfig K}
    {published : Nat} (worked : cell.work config published status .snapshot = some result) :
    result.Sound observe frontier status := by
  cases worked
  split
  · exact sound
  · rename_i clean
    simp only [Bool.or_eq_true, not_or, Bool.not_eq_true, decide_eq_true_eq] at clean
    have covered := sound.keeps.clean clean.1
    refine sound.of_entry (sound.keeps.congr rfl rfl rfl) ⟨fun key _ => ?_, sound.settled_le⟩ id rfl
      (Or.inr ⟨rfl, rfl⟩) ?_
    · exact (covered.shows key).of_gap (fun mark member => Or.inl (covered.below key mark member))
        ⟨le_refl _, sound.threshold_le⟩ ⟨sound.threshold_le, le_refl _⟩
    · exact sound.flush.carry rfl rfl (Entry.carried_congr rfl rfl rfl rfl)
        (Extended.refl cell.history _) (le_refl _)

theorem threshold_of_idle (idle : cell.entry.pendingLastProcessed = none) :
    cell.promoteThreshold = cell.settled := by
  rw [promoteThreshold, idle]
  rfl

theorem Sound.requestFlush (sound : cell.Sound observe frontier status) {config : KsConfig K}
    {published : Nat} {positions : List WalPosition}
    (worked : cell.work config published status (.requestFlush positions) = some result) :
    result.Sound observe frontier status := by
  simp only [work] at worked
  split at worked
  · rename_i idle
    obtain ⟨kind, isKind, rfl⟩ := Option.map_eq_some_iff.mp worked
    obtain ⟨dirty, rfl⟩ := Entry.flushKind_eq_some isKind
    have threshold := threshold_of_idle idle
    have keeps := sound.keeps
    rw [threshold] at keeps
    refine ⟨keeps.congr rfl rfl rfl, sound.anchored.congr rfl rfl, sound.untouched, le_refl _,
      sound.settled_le, sound.shown_le, sound.waits, ⟨rfl, rfl, rfl, ?_⟩, ?_, sound.bloom⟩
    · refine ⟨dirty, le_refl _, fun _ => rfl, fun key => IndexTable.Follows.refl _ _ key, ?_, nofun⟩
      exact fun key => ⟨cell.history key, keeps.buffered key, fun _ member => member,
        fun _ member => Or.inl member⟩
    · intro promotion member
      exact (sound.promotions promotion member).of_versioned threshold.le (Or.inr ⟨rfl, rfl⟩)
  · cases worked

theorem Sound.requestForceRelocate (sound : cell.Sound observe frontier status)
    {config : KsConfig K} {published : Nat} {positions : List WalPosition}
    (worked : cell.work config published status (.requestForceRelocate positions) =
      some result) : result.Sound observe frontier status := by
  simp only [work] at worked
  split at worked
  · rename_i guard
    obtain ⟨idle, clean, nonempty⟩ := guard
    cases worked
    have threshold := threshold_of_idle idle
    have keeps := sound.keeps
    rw [threshold] at keeps
    refine ⟨keeps.congr rfl rfl rfl, sound.anchored.congr rfl rfl, sound.untouched, le_refl _,
      sound.settled_le, sound.shown_le, sound.waits,
      ⟨rfl, rfl, nonempty, (keeps.clean clean).shows, nofun⟩, ?_, sound.bloom⟩
    intro promotion member
    exact (sound.promotions promotion member).of_versioned threshold.le (Or.inr ⟨rfl, rfl⟩)
  · cases worked

/-- The flusher drops nothing that a reader of the cell sees. -/
def Unfiltered (config : KsConfig K) (cell : Cell K blooms) : Work → Prop
  | .execute view _ => config.compactor = none ∧
      ∀ job, cell.job = some job → Entry.Unfiltered view job.kind
  | .syncFlush view _ => config.compactor = none ∧ Entry.Unfiltered view
      (.flush cell.entry.data cell.entry.levels cell.entry.state.coversL0 [])
  | _ => True

theorem canRead_iff {view : LogView} : cell.canRead frontier view = true ↔
    cell.shown ≤ view.lastProcessed ∧ view.lastProcessed ≤ frontier := by
  simp [canRead]

theorem Sound.execute (sound : cell.Sound observe frontier status) {config : KsConfig K}
    {view : LogView} {writer : IndexWriter}
    (unfiltered : cell.Unfiltered config (.execute view writer))
    (worked : cell.work config frontier status (.execute view writer) = some result) :
    result.Sound observe frontier status := by
  obtain ⟨job, isJob, rest⟩ := Option.bind_eq_some_iff.mp worked
  split at rest
  · rename_i guard
    rw [Bool.and_eq_true, canRead_iff] at guard
    obtain ⟨outcome, handled, rfl⟩ := Option.map_eq_some_iff.mp rest
    obtain ⟨late, published⟩ := guard.2
    have flush := sound.flush
    simp only [FlushFits, isJob] at flush
    have ordered := sound.threshold_le.trans sound.settled_le
    refine { sound with
      keeps := sound.keeps.advance (le_refl _) late (ordered.trans late)
      anchored := sound.anchored.advance late
      settled_le := sound.settled_le.trans late
      shown_le := published
      flush := ⟨flush.1, flush.2.execute unfiltered.1 late (unfiltered.2 job isJob) handled⟩ }
  · cases rest

theorem Sound.complete (sound : cell.Sound observe frontier status) {config : KsConfig K}
    {published : Nat} (worked : cell.work config published status .complete = some result) :
    result.Sound observe frontier status := by
  obtain ⟨job, isJob, rest⟩ := Option.bind_eq_some_iff.mp worked
  obtain ⟨outcome, isOutcome, completes⟩ := Option.bind_eq_some_iff.mp rest
  obtain ⟨entry, completed, rfl⟩ := Option.map_eq_some_iff.mp completes
  have flush := sound.flush
  simp only [FlushFits, isJob] at flush
  have keeps := sound.keeps.complete flush.2 flush.1 isOutcome completed
  have versioned := Entry.versioned_complete completed
  obtain ⟨levels, anchor, touched, idle⟩ := Entry.complete_fields flush.1 completed
  have threshold : ({ cell with entry := entry, job := none } : Cell K blooms).promoteThreshold =
      cell.settled := threshold_of_idle idle
  refine ⟨?_, ⟨?_, ?_⟩, fun empty => absurd empty touched, threshold.le, sound.settled_le,
    sound.shown_le, sound.waits, idle, ?_, sound.bloom⟩
  · rw [threshold]
    exact keeps.advance sound.threshold_le (le_refl _) sound.settled_le
  · rw [levels, anchor]
    exact flush.2.settle isOutcome
  · exact anchor.trans_le (sound.threshold_le.trans sound.settled_le)
  · intro promotion member
    rw [threshold]
    exact (sound.promotions promotion member).of_versioned sound.threshold_le versioned

theorem Sound.syncFlush (sound : cell.Sound observe frontier status) {config : KsConfig K}
    {view : LogView} {writer : IndexWriter}
    (unfiltered : cell.Unfiltered config (.syncFlush view writer))
    (worked : cell.work config frontier status (.syncFlush view writer) = some result) :
    result.Sound observe frontier status := by
  simp only [work] at worked
  split at worked
  · rename_i guard
    rw [canRead_iff] at guard
    obtain ⟨idle, late, published⟩ := guard
    cases worked
    have threshold := threshold_of_idle idle
    have keeps := sound.keeps
    rw [threshold] at keeps
    have flushed := keeps.syncFlush unfiltered.1 sound.settled_le writer late unfiltered.2
    have stillIdle :=
      (Entry.pending_syncFlush config cell.settled view writer cell.entry).trans idle
    set later : Cell K blooms :=
      { cell with
        entry := (cell.entry.syncFlush config cell.settled view writer .none).2
        shown := view.lastProcessed } with isLater
    have laterThreshold : later.promoteThreshold = cell.settled := threshold_of_idle stillIdle
    refine ⟨?_, sound.anchored.syncFlush unfiltered.1 keeps sound.settled_le writer late unfiltered.2,
      fun empty => sound.untouched (Entry.state_syncFlush _ _ _ _ _ empty), laterThreshold.le,
      sound.settled_le.trans late, published, sound.waits, ?_, ?_, sound.bloom⟩
    · rw [laterThreshold]
      exact flushed
    · have flush := sound.flush
      unfold FlushFits at flush ⊢
      cases isJob : cell.job with
      | none =>
          simp only [isLater, isJob]
          exact stillIdle
      | some job =>
          simp only [isJob] at flush
          exact absurd (idle.symm.trans flush.1) nofun
    · intro promotion member
      rw [laterThreshold, ← threshold]
      exact (sound.promotions promotion member).of_versioned (le_refl _)
        (Entry.versioned_syncFlush config cell.settled view writer cell.entry)
  · cases worked

theorem Sound.work (sound : cell.Sound observe frontier status) {config : KsConfig K}
    {work : Work} (unfiltered : cell.Unfiltered config work)
    (worked : cell.work config frontier status work = some result) :
    result.Sound observe frontier status := by
  cases work with
  | promote index => exact sound.promote worked
  | discard index => exact sound.discard worked
  | observe lastProcessed => exact sound.readFrontier worked
  | capture => exact sound.capture worked
  | install index => exact sound.install worked
  | load => exact sound.load worked
  | requestFlush positions => exact sound.requestFlush worked
  | requestForceRelocate positions => exact sound.requestForceRelocate worked
  | execute view writer => exact sound.execute unfiltered worked
  | complete => exact sound.complete worked
  | syncFlush view writer => exact sound.syncFlush unfiltered worked
  | snapshot => exact sound.snapshot worked

/-! ## Gets -/

/-- A step applies a batch operation, forgets one, or leaves the operations as they are. -/
theorem work_cases {config : KsConfig K} {work : Work}
    (worked : cell.work config frontier status work = some result) :
    (∃ index update, work = .promote index ∧ cell.pending[index]? = some update ∧
      status update.transaction = .committed ∧
      { cell with pending := cell.pending.eraseIdx index }.write frontier update.key
        update.isModified update.position = some result) ∨
    (∃ index update, work = .discard index ∧ cell.pending[index]? = some update ∧
      status update.transaction = .reverted ∧
      result = { cell with pending := cell.pending.eraseIdx index }) ∨
    (∀ index, work ≠ .promote index) ∧ result.applied = cell.applied ∧
      result.pending = cell.pending := by
  cases work with
  | promote index =>
      obtain ⟨update, found, isWritten⟩ := Option.bind_eq_some_iff.mp worked
      split at isWritten
      · rename_i committed
        exact Or.inl ⟨index, update, rfl, found, committed, isWritten⟩
      · cases isWritten
  | discard index =>
      obtain ⟨update, found, isResult⟩ := Option.bind_eq_some_iff.mp worked
      split at isResult
      · rename_i reverted
        cases isResult
        exact Or.inr (Or.inl ⟨index, update, rfl, found, reverted, rfl⟩)
      · cases isResult
  | observe lastProcessed =>
      simp only [Cell.work] at worked
      split at worked
      · cases worked
        exact Or.inr (Or.inr ⟨nofun, rfl, rfl⟩)
      · cases worked
  | capture =>
      cases worked
      exact Or.inr (Or.inr ⟨nofun, rfl, rfl⟩)
  | install index =>
      obtain ⟨promotion, _, rfl⟩ := Option.map_eq_some_iff.mp worked
      exact Or.inr (Or.inr ⟨nofun, rfl, rfl⟩)
  | load =>
      cases worked
      exact Or.inr (Or.inr ⟨nofun, rfl, rfl⟩)
  | requestFlush positions =>
      simp only [Cell.work] at worked
      split at worked
      · obtain ⟨kind, _, rfl⟩ := Option.map_eq_some_iff.mp worked
        exact Or.inr (Or.inr ⟨nofun, rfl, rfl⟩)
      · cases worked
  | requestForceRelocate positions =>
      simp only [Cell.work] at worked
      split at worked
      · cases worked
        exact Or.inr (Or.inr ⟨nofun, rfl, rfl⟩)
      · cases worked
  | execute view writer =>
      obtain ⟨job, _, rest⟩ := Option.bind_eq_some_iff.mp worked
      split at rest
      · obtain ⟨outcome, _, rfl⟩ := Option.map_eq_some_iff.mp rest
        exact Or.inr (Or.inr ⟨nofun, rfl, rfl⟩)
      · cases rest
  | complete =>
      obtain ⟨job, _, rest⟩ := Option.bind_eq_some_iff.mp worked
      obtain ⟨outcome, _, completes⟩ := Option.bind_eq_some_iff.mp rest
      obtain ⟨entry, _, rfl⟩ := Option.map_eq_some_iff.mp completes
      exact Or.inr (Or.inr ⟨nofun, rfl, rfl⟩)
  | syncFlush view writer =>
      simp only [Cell.work] at worked
      split at worked
      · cases worked
        exact Or.inr (Or.inr ⟨nofun, rfl, rfl⟩)
      · cases worked
  | snapshot =>
      cases worked
      exact Or.inr (Or.inr ⟨nofun, rfl, rfl⟩)

/-- A write fails only where its offset is taken. -/
theorem Sound.write_isSome (sound : cell.Sound observe frontier status) {key : K}
    {position : WalPosition} (fresh : ∀ mark ∈ cell.history key, mark.offset ≠ position.offset)
    (published : Nat) (isModified : Bool) :
    ∃ result, cell.write published key isModified position = some result := by
  have unused : ∀ mark ∈ cell.entry.data.overlay key,
      mark.offset ≠ (Entry.written isModified position).offset := by
    intro mark member
    rw [Entry.offset_written]
    exact fresh mark ((sound.keeps.buffered key).subset mark member)
  obtain ⟨table, order, inserted⟩ := IndexTable.checkedInsert_isSome unused
  exact ⟨_, by rw [Cell.write, Entry.write_eq, inserted]; rfl⟩

/-- Operations that wait are applied one after the other, by steps that write the cell and may
do more. -/
theorem Sound.applyAll {State : Type} {cellOf : State → Cell K blooms}
    {apply : State → PendingUpdate K → Option State} {holds : State → Prop} {published : Nat}
    (isPublished : published ≤ frontier) {updates : List (PendingUpdate K)}
    (each : ∀ state, ∀ update ∈ updates, ∀ result, (cellOf state).Sound observe frontier status →
      holds state → (cellOf state).settled ≤ update.position.offset →
      (cellOf state).write published update.key update.isModified update.position = some result →
      result.Sound observe frontier status →
      ∃ next, apply state update = some next ∧ cellOf next = result ∧ holds next)
    {state : State} (sound : (cellOf state).Sound observe frontier status) (start : holds state)
    (ahead : ∀ update ∈ updates, (cellOf state).settled ≤ update.position.offset)
    (fresh : ∀ update ∈ updates, ∀ mark ∈ (cellOf state).history update.key,
      mark.offset ≠ update.position.offset)
    (distinct : updates.Pairwise fun first second =>
      first.key = second.key → first.position.offset ≠ second.position.offset)
    (apart : ∀ update ∈ updates, ∀ waiting ∈ (cellOf state).pending, waiting.key = update.key →
      waiting.position.offset ≠ update.position.offset) :
    ∃ final, updates.foldlM apply state = some final ∧
      (cellOf final).Sound observe frontier status ∧ holds final ∧
      (cellOf final).applied = (updates.map PendingUpdate.op).reverse ++ (cellOf state).applied := by
  induction updates generalizing state with
  | nil => exact ⟨state, rfl, sound, start, rfl⟩
  | cons first rest ih =>
      obtain ⟨behind, restDistinct⟩ := List.pairwise_cons.mp distinct
      have firstAhead := ahead first List.mem_cons_self
      have firstFresh := fresh first List.mem_cons_self
      obtain ⟨result, written⟩ := sound.write_isSome firstFresh published first.isModified
      have nextSound := sound.write isPublished written firstAhead firstFresh
        (apart first List.mem_cons_self)
      obtain ⟨next, applied, isResult, nextHolds⟩ :=
        each state first List.mem_cons_self result sound start firstAhead written nextSound
      obtain ⟨entry, isEntry, rfl⟩ := Option.map_eq_some_iff.mp written
      obtain ⟨final, folded, finalSound, finalHolds, ops⟩ := ih
        (fun state update member => each state update (List.mem_cons_of_mem first member))
        (isResult ▸ nextSound) nextHolds
        (fun update member => by
          rw [isResult]
          exact ahead update (List.mem_cons_of_mem first member))
        (fun update member mark inside => by
          rw [isResult] at inside
          rcases List.mem_cons.mp inside with new | old
          · obtain ⟨isKey, rfl⟩ := Prod.mk.inj new
            exact fun same => behind update member isKey.symm same
          · exact fresh update (List.mem_cons_of_mem first member) mark old)
        restDistinct
        (fun update member => by
          rw [isResult]
          exact apart update (List.mem_cons_of_mem first member))
      refine ⟨final, ?_, finalSound, finalHolds, ?_⟩
      · rw [List.foldlM_cons, applied]
        exact folded
      · rw [ops, isResult, List.map_cons, List.reverse_cons, List.append_assoc]
        rfl

/-- The operations of a cell that a get would apply, newest first. -/
def committed (cell : Cell K blooms) (status : Nat → TransactionStatus) : List (K × Mark) :=
  ((cell.pending.filter fun update => status update.transaction = .committed).map
    PendingUpdate.op).reverse

theorem mem_committed {op : K × Mark} : op ∈ cell.committed status ↔
    ∃ update ∈ cell.pending, status update.transaction = .committed ∧ update.op = op := by
  simp [committed, and_assoc]

/-- All committed operations are applied, by steps that write the cell and may do more. -/
theorem Sound.promoteAll {State : Type} {cellOf : State → Cell K blooms}
    {apply : State → PendingUpdate K → Option State} {holds : State → Prop} {published : Nat}
    (isPublished : published ≤ frontier) (sound : cell.Sound observe frontier status)
    (each : ∀ state, ∀ update ∈ cell.pending, ∀ result,
      (cellOf state).Sound observe frontier status →
      holds state → (cellOf state).settled ≤ update.position.offset →
      (cellOf state).write published update.key update.isModified update.position = some result →
      result.Sound observe frontier status →
      ∃ next, apply state update = some next ∧ cellOf next = result ∧ holds next)
    {state : State} (start : holds state)
    (isState : cellOf state =
      { cell with pending := cell.pending.filter fun update => status update.transaction = .pending }) :
    ∃ final, (cell.pending.filter fun update =>
        status update.transaction = .committed).foldlM apply state = some final ∧
      (cellOf final).Sound observe frontier status ∧ holds final ∧
      (cellOf final).applied = cell.committed status ++ cell.applied := by
  have waiting := sound.unpend (List.filter_sublist
    (p := fun update => status update.transaction = .pending) (l := cell.pending))
  rw [← isState] at waiting
  have applied : (cellOf state).applied = cell.applied := by rw [isState]
  rw [committed, ← applied]
  refine applyAll isPublished
    (fun state update member => each state update (List.mem_filter.mp member).1) waiting start
    (fun update member => ?_) (fun update member => ?_)
    (sound.waits.distinct.sublist List.filter_sublist) (fun update member other inside => ?_)
  · obtain ⟨held, isCommitted⟩ := List.mem_filter.mp member
    rw [isState]
    refine sound.waits.ahead update held fun isReverted => ?_
    simp [isReverted] at isCommitted
  · rw [isState]
    exact sound.waits.fresh update (List.mem_filter.mp member).1
  · rw [isState] at inside
    obtain ⟨held, isCommitted⟩ := List.mem_filter.mp member
    obtain ⟨otherHeld, isPending⟩ := List.mem_filter.mp inside
    have different : other ≠ update := by
      rintro rfl
      rw [decide_eq_true_eq] at isCommitted isPending
      exact absurd (isCommitted.symm.trans isPending) nofun
    obtain ⟨place, isOther⟩ := List.getElem?_of_mem otherHeld
    obtain ⟨otherPlace, isUpdate⟩ := List.getElem?_of_mem held
    refine ne_of_pairwise sound.waits.distinct isOther isUpdate ?_
    rintro rfl
    exact different (Option.some.inj (isOther.symm.trans isUpdate))

theorem Sound.promotePending (sound : cell.Sound observe frontier status) {published : Nat}
    (isPublished : published ≤ frontier) :
    ∃ promoted, cell.promotePending published status = some promoted ∧
      promoted.Sound observe frontier status ∧
      promoted.applied = cell.committed status ++ cell.applied := by
  obtain ⟨promoted, isPromoted, promotedSound, _, ops⟩ :=
    @promoteAll _ _ _ _ _ _ _ cell (Cell K blooms) id
      (fun current update => current.write published update.key update.isModified update.position)
      (fun _ => True) published isPublished sound
      (fun _ _ _ result _ _ _ written _ => ⟨result, written, rfl, trivial⟩) _ trivial rfl
  exact ⟨promoted, isPromoted, promotedSound, ops⟩

/-! ## Drops -/

/-- A cell that holds nothing any more, under the surroundings it had. -/
theorem Sound.emptied (sound : cell.Sound observe frontier status) {later : Cell K blooms}
    (idle : cell.entry.pendingLastProcessed = none)
    (state : later.entry.state = .empty) (levels : later.entry.levels = IndexLevels.new)
    (data : later.entry.data = IndexTable.empty) (anchor : later.entry.lastProcessed = 0)
    (laterIdle : later.entry.pendingLastProcessed = none) (applied : later.applied = [])
    (newer : cell.entry.version < later.entry.version)
    (pending : later.pending.Sublist cell.pending) (job : later.job = cell.job)
    (promotions : later.promotions = cell.promotions) (settled : later.settled = cell.settled)
    (shown : later.shown = cell.shown) : later.Sound observe frontier status := by
  have nothing : later.history = fun _ => ∅ := by
    funext key
    rw [history, applied]
    exact Set.eq_empty_iff_forall_notMem.mpr fun _ => List.not_mem_nil
  have noJob : cell.job = none := by
    have flush := sound.flush
    unfold FlushFits at flush
    cases isJob : cell.job with
    | none => rfl
    | some current =>
        simp only [isJob] at flush
        exact absurd (idle.symm.trans flush.1) nofun
  have threshold : later.promoteThreshold = cell.promoteThreshold := by
    rw [threshold_of_idle laterIdle, threshold_of_idle idle, settled]
  refine ⟨?_, ⟨?_, ?_⟩, fun _ => applied, ?_, ?_, ?_, ?_, ?_, ?_, ?_⟩
  · rw [nothing, threshold, shown]
    exact (Entry.Keeps.new observe (sound.threshold_le.trans sound.settled_le)).congr state levels
      data
  · rw [nothing, levels]
    exact fun _ _ => Or.inr ⟨fun _ member => absurd member (Set.notMem_empty _), rfl⟩
  · rw [anchor]
    exact Nat.zero_le _
  · rw [threshold, settled]
    exact sound.threshold_le
  · rw [settled, shown]
    exact sound.settled_le
  · rw [shown]
    exact sound.shown_le
  · rw [nothing, settled]
    have waits := (sound.unpend pending).waits
    exact ⟨waits.ahead, waits.unfinished, fun _ _ _ member => absurd member (Set.notMem_empty _),
      waits.distinct⟩
  · rw [FlushFits, job, noJob]
    exact laterIdle
  · intro promotion member
    rw [promotions] at member
    rw [threshold]
    exact (sound.promotions promotion member).of_versioned (le_refl _) (Or.inl newer)
  · intro key mark member
    rw [nothing] at member
    exact absurd member (Set.notMem_empty _)

theorem Sound.clear (sound : cell.Sound observe frontier status)
    (idle : cell.entry.pendingLastProcessed = none) : cell.clear.Sound observe frontier status :=
  sound.emptied idle rfl rfl rfl rfl idle rfl (Nat.lt_succ_self _) (List.Sublist.refl _) rfl rfl rfl
    rfl

theorem Sound.removeEntry (sound : cell.Sound observe frontier status)
    (idle : cell.entry.pendingLastProcessed = none) :
    cell.removeEntry.Sound observe frontier status :=
  sound.emptied idle rfl rfl rfl rfl rfl rfl (Nat.lt_succ_self _) (List.nil_sublist _) rfl rfl rfl rfl

end Cell

end Tidehunter.LargeTable
