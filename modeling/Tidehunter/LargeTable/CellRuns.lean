import Tidehunter.LargeTable.CellReads
import Tidehunter.LargeTable.DiskReads
import Tidehunter.Library.Machine
import Mathlib

/-!
# Runs of a cell

A cell among the threads that use it: writers that hold the guard of their log region until
their operation is in the cell, batches that hold theirs until they are committed, the published
frontier, and all background work. The frontier never passes an operation that has not reached
the cell, nor one of a batch that is not finished.
-/

namespace Tidehunter.LargeTable

open Library Wal Index Flusher

variable {K : Type} [LinearOrder K]

/-! ## The newest operation -/

/-- Where the newest operation on a key put its value; none if it was a remove. -/
def latestOf (ops : List (K × Mark)) (key : K) : Option WalPosition :=
  readable ((((ops.filter fun op => op.1 = key).map Prod.snd).argmax Mark.offset).map Mark.position)

theorem mem_opsOf {ops : List (K × Mark)} {key : K} {mark : Mark} :
    mark ∈ (ops.filter fun op => op.1 = key).map Prod.snd ↔ (key, mark) ∈ ops := by
  simp

/-- What a history shows to a reader behind all of it. -/
theorem eq_latestOf_of_shows {V : Type} {observe : Option WalPosition → V} {ops : List (K × Mark)}
    {key : K} {frontier : Nat} {value : V}
    (unique : ∀ first, (key, first) ∈ ops → ∀ second, (key, second) ∈ ops →
      first.offset = second.offset → first = second)
    (below : ∀ mark, (key, mark) ∈ ops → mark.offset < frontier)
    (shows : (journal observe).Shows { mark | (key, mark) ∈ ops } frontier value) :
    value = observe (latestOf ops key) := by
  rcases shows with ⟨mark, ⟨member, _, greatest⟩, rfl⟩ | ⟨above, rfl⟩
  · cases latest : ((ops.filter fun op => op.1 = key).map Prod.snd).argmax Mark.offset with
    | none =>
        rw [List.argmax_eq_none] at latest
        have inside := mem_opsOf.mpr member
        rw [latest] at inside
        cases inside
    | some newest =>
        have held := mem_opsOf.mp (List.argmax_mem latest)
        have sameOffset : newest.offset = mark.offset :=
          le_antisymm (greatest newest held (below newest held))
            (List.le_of_mem_argmax (mem_opsOf.mpr member) latest)
        rw [latestOf, latest, unique newest held mark member sameOffset]
        rfl
  · have nothing : (ops.filter fun op => op.1 = key).map Prod.snd = [] := by
      refine List.eq_nil_iff_forall_not_mem.mpr fun mark member => ?_
      have held := mem_opsOf.mp member
      exact absurd (below mark held) (Nat.not_lt.mpr (above mark held))
    rw [latestOf, nothing]
    rfl

theorem latestOf_eq_none {ops : List (K × Mark)} {key : K}
    (removed : ∀ mark, (key, mark) ∈ ops → mark.removed = true) : latestOf ops key = none := by
  unfold latestOf
  cases latest : ((ops.filter fun op => op.1 = key).map Prod.snd).argmax Mark.offset with
  | none => rfl
  | some newest =>
      have isRemoved := removed newest (mem_opsOf.mp (List.argmax_mem latest))
      rw [Option.map_some, Mark.position, if_pos isRemoved]
      exact readable_invalid

theorem latestOf_cons_of_ne {ops : List (K × Mark)} {op : K × Mark} {key : K}
    (other : op.1 ≠ key) : latestOf (op :: ops) key = latestOf ops key := by
  simp [latestOf, other]

/-- An operation behind all others of its key. -/
theorem latestOf_cons_of_latest {ops : List (K × Mark)} {key : K} {mark : Mark}
    (latest : ∀ other, (key, other) ∈ ops → other.offset < mark.offset) :
    latestOf ((key, mark) :: ops) key = readable (some mark.position) := by
  have newest : (((key, mark) :: ops).filter fun op => op.1 = key).map Prod.snd =
      mark :: (ops.filter fun op => op.1 = key).map Prod.snd := by
    simp
  rw [latestOf, newest, List.argmax_cons]
  cases isLatest : ((ops.filter fun op => op.1 = key).map Prod.snd).argmax Mark.offset with
  | none => rfl
  | some other =>
      have below := latest other (mem_opsOf.mp (List.argmax_mem isLatest))
      simp only [if_neg (Nat.not_lt.mpr below.le)]
      rfl

/-- An operation before another of its key. -/
theorem latestOf_cons_of_stale {ops : List (K × Mark)} {key : K} {mark newer : Mark}
    (member : (key, newer) ∈ ops) (stale : mark.offset < newer.offset) :
    latestOf ((key, mark) :: ops) key = latestOf ops key := by
  have newest : (((key, mark) :: ops).filter fun op => op.1 = key).map Prod.snd =
      mark :: (ops.filter fun op => op.1 = key).map Prod.snd := by
    simp
  rw [latestOf, latestOf, newest, List.argmax_cons]
  cases isLatest : ((ops.filter fun op => op.1 = key).map Prod.snd).argmax Mark.offset with
  | none =>
      have inside := mem_opsOf.mpr member
      rw [List.argmax_eq_none.mp isLatest] at inside
      cases inside
  | some other =>
      have above := List.le_of_mem_argmax (mem_opsOf.mpr member) isLatest
      simp only [if_pos (stale.trans_le above)]

omit [LinearOrder K] in
theorem exists_frontier (ops : List (K × Mark)) : ∃ frontier, ∀ op ∈ ops, op.2.offset < frontier := by
  induction ops with
  | nil => exact ⟨0, nofun⟩
  | cons first rest ih =>
      obtain ⟨frontier, below⟩ := ih
      refine ⟨max frontier (first.2.offset + 1), fun op member => ?_⟩
      rcases List.mem_cons.mp member with rfl | later
      · exact Nat.lt_of_succ_le (le_max_right _ _)
      · exact (below op later).trans_le (le_max_left _ _)

/-- A get of a sound cell finds the newest applied operation, in whatever order they are listed. -/
theorem Cell.Sound.get_eq_of_same {V : Type} {blooms : BloomFilter K}
    {observe : Option WalPosition → V} {frontier : Nat} {status : Nat → TransactionStatus}
    {cell : Cell K blooms} (sound : cell.Sound observe frontier status) {ops : List (K × Mark)}
    {key : K} (same : ∀ mark, (key, mark) ∈ ops ↔ (key, mark) ∈ cell.applied) :
    observe (cell.get key) = observe (latestOf ops key) := by
  obtain ⟨bound, above⟩ := exists_frontier ops
  have below (mark : Mark) (member : (key, mark) ∈ ops) : mark.offset < max cell.shown bound :=
    (above (key, mark) member).trans_le (le_max_right _ _)
  have history : cell.history key = { mark | (key, mark) ∈ ops } := Set.ext fun mark =>
    (same mark).symm
  have unique := (sound.keeps.buffered key).unique
  unfold Cell.get
  split
  · rename_i notFound
    rw [latestOf_eq_none fun mark member => ?_]
    by_contra present
    have found := sound.bloom key mark ((same mark).mp member) (Bool.eq_false_iff.mpr present)
    exact absurd (notFound.symm.trans found) nofun
  · have shows := sound.keeps.shows_get (le_max_left cell.shown bound)
      fun mark member => below mark ((same mark).mpr member)
    rw [history] at unique shows
    exact eq_latestOf_of_shows unique below shows

theorem Cell.Sound.get_eq {V : Type} {blooms : BloomFilter K} {observe : Option WalPosition → V}
    {frontier : Nat} {status : Nat → TransactionStatus} {cell : Cell K blooms}
    (sound : cell.Sound observe frontier status) (key : K) :
    observe (cell.get key) = observe (latestOf cell.applied key) :=
  sound.get_eq_of_same fun _ => Iff.rfl

/-! ## Gets that read blobs in place -/

/-- The position of a key in the index, as the format of the blobs reads it back. -/
def Cell.getUnloaded {blooms : BloomFilter K} (readBack : WalPosition → WalPosition)
    (cell : Cell K blooms) (key : K) : Option WalPosition :=
  if cell.bloomFilterNotFound key then none else cell.entry.getUnloaded readBack key

/-- A get takes a tombstone on disk for a position. -/
def Cell.Misreads {blooms : BloomFilter K} (readBack : WalPosition → WalPosition)
    (cell : Cell K blooms) (key : K) : Prop :=
  cell.bloomFilterNotFound key = false ∧ cell.entry.MisreadOnDisk readBack none key

theorem Cell.getUnloaded_eq_get_iff {blooms : BloomFilter K} {cell : Cell K blooms}
    {readBack : WalPosition → WalPosition} (readBackValid : ∀ position,
      position ≠ WalPosition.invalid → readBack position = position) (ok : cell.entry.Ok) (key : K) :
    cell.getUnloaded readBack key = cell.get key ↔ ¬cell.Misreads readBack key := by
  unfold getUnloaded get Misreads
  cases cell.bloomFilterNotFound key with
  | true => simp
  | false => simpa using Entry.getUnloaded_eq_get_iff readBackValid ok key

/-! ## The machine -/

structure LiveCell (K : Type) [LinearOrder K] (blooms : BloomFilter K) where
  cell : Cell K blooms
  frontier : Nat
  status : Nat → TransactionStatus

namespace LiveCell

variable {blooms : BloomFilter K}

def new (bloom : Option blooms.Filter) : LiveCell K blooms := ⟨Cell.new bloom, 0, fun _ => .pending⟩

inductive Event (K : Type) where
  /-- An insert or a remove reaches the cell. -/
  | write (key : K) (isModified : Bool) (position : WalPosition)
  /-- An operation of a batch reaches the cell. -/
  | addPending (update : PendingUpdate K)
  | commit (transaction : Nat)
  | revert (transaction : Nat)
  | publish (frontier : Nat)
  | work (work : Cell.Work)

/-- The log position of an operation is its own, and is not yet behind the frontier. -/
def arrives (live : LiveCell K blooms) (key : K) (position : WalPosition) : Bool :=
  decide (live.frontier ≤ position.offset) &&
    live.cell.applied.all (fun op => !decide (op.1 = key ∧ op.2.offset = position.offset)) &&
    live.cell.pending.all fun update =>
      !decide (update.key = key ∧ update.position.offset = position.offset)

/-- The transaction is not finished yet, and ends. -/
def finish (live : LiveCell K blooms) (transaction : Nat) (ending : TransactionStatus) :
    Option (LiveCell K blooms) :=
  if live.status transaction = .pending then
    some { live with
      status := fun other => if other = transaction then ending else live.status other }
  else none

def step (config : KsConfig K) (live : LiveCell K blooms) : Event K → Option (LiveCell K blooms)
  | .write key isModified position =>
      if live.arrives key position then
        (live.cell.write live.frontier key isModified position).map fun cell =>
          { live with cell := cell }
      else none
  | .addPending update =>
      if live.status update.transaction = .pending ∧
          live.arrives update.key update.position = true then
        some { live with cell := live.cell.addPending update }
      else none
  | .commit transaction => live.finish transaction .committed
  | .revert transaction => live.finish transaction .reverted
  | .publish frontier =>
      if live.frontier ≤ frontier ∧ ∀ update ∈ live.cell.pending,
          live.status update.transaction = .pending → frontier ≤ update.position.offset then
        some { live with frontier := frontier }
      else none
  | .work work =>
      (live.cell.work config live.frontier live.status work).map fun cell =>
        { live with cell := cell }

/-- No file of the log was reclaimed when the flusher looked. -/
def Event.wholeLog : Event K → Bool
  | .work task => task.view.all fun view => decide (view.minWalPosition = 0)
  | _ => true

variable {V : Type} {observe : Option WalPosition → V} {live next : LiveCell K blooms}

theorem arrives_iff {key : K} {position : WalPosition} : live.arrives key position = true ↔
    live.frontier ≤ position.offset ∧
      (∀ mark ∈ live.cell.history key, mark.offset ≠ position.offset) ∧
      ∀ update ∈ live.cell.pending, update.key = key →
        update.position.offset ≠ position.offset := by
  simp only [arrives, Bool.and_eq_true, decide_eq_true_eq, List.all_eq_true, Bool.not_eq_true',
    decide_eq_false_iff_not, not_and, and_assoc]
  refine and_congr_right fun _ => and_congr_left fun _ => ?_
  exact ⟨fun apart mark member => apart (key, mark) member rfl,
    fun fresh op member isKey => fresh op.2 (isKey ▸ member)⟩

theorem sound_finish {transaction : Nat} {ending : TransactionStatus}
    (sound : live.cell.Sound observe live.frontier live.status) (ends : ending ≠ .pending)
    (finished : live.finish transaction ending = some next) :
    next.cell.Sound observe next.frontier next.status := by
  unfold finish at finished
  split at finished
  · rename_i unfinished
    cases finished
    refine sound.finish (fun other isPending => ?_) (fun other isReverted => ?_)
    · by_cases same : other = transaction
      · exact absurd ((if_pos same).symm.trans isPending) ends
      · exact (if_neg same).symm.trans isPending
    · by_cases same : other = transaction
      · rw [same, unfinished] at isReverted
        cases isReverted
      · exact (if_neg same).trans isReverted
  · cases finished

/-- Every step keeps what the cell stands for. -/
theorem sound_step {config : KsConfig K} {event : Event K}
    (sound : live.cell.Sound observe live.frontier live.status)
    (unfiltered : ∀ work, event = .work work → live.cell.Unfiltered config work)
    (stepped : live.step config event = some next) :
    next.cell.Sound observe next.frontier next.status := by
  cases event with
  | write key isModified position =>
      simp only [step] at stepped
      split at stepped
      · rename_i arrived
        obtain ⟨cell, written, rfl⟩ := Option.map_eq_some_iff.mp stepped
        obtain ⟨above, fresh, apart⟩ := arrives_iff.mp arrived
        exact sound.write (le_refl _) written ((sound.settled_le.trans sound.shown_le).trans above) fresh apart
      · cases stepped
  | addPending update =>
      simp only [step] at stepped
      split at stepped
      · rename_i guard
        obtain ⟨above, fresh, apart⟩ := arrives_iff.mp guard.2
        cases stepped
        exact sound.addPending above fresh apart
      · cases stepped
  | commit transaction => exact sound_finish sound TransactionStatus.noConfusion stepped
  | revert transaction => exact sound_finish sound TransactionStatus.noConfusion stepped
  | publish frontier =>
      simp only [step] at stepped
      split at stepped
      · rename_i guard
        cases stepped
        exact sound.publish guard.1 guard.2
      · cases stepped
  | work work =>
      obtain ⟨cell, worked, rfl⟩ := Option.map_eq_some_iff.mp stepped
      exact sound.work (unfiltered work rfl) worked

theorem unfiltered_of_wholeLog {config : KsConfig K} (noCompactor : config.compactor = none)
    {cell : Cell K blooms} {task : Cell.Work}
    (whole : (Event.work task : Event K).wholeLog = true) : cell.Unfiltered config task := by
  cases task with
  | execute view writer =>
      exact ⟨noCompactor, fun job _ => Entry.unfiltered_of_zero (of_decide_eq_true whole) job.kind⟩
  | syncFlush view writer =>
      exact ⟨noCompactor, Entry.unfiltered_of_zero (of_decide_eq_true whole) _⟩
  | _ => trivial

theorem sound_of_ran {config : KsConfig K} (noCompactor : config.compactor = none)
    {bloom : Option blooms.Filter} {events : List (Event K)} {live : LiveCell K blooms}
    (whole : ∀ event ∈ events, event.wholeLog = true)
    (ran : runEvents (step config) events (new bloom) = some live) :
    live.cell.Sound id live.frontier live.status := by
  refine @runEvents_invariant _ _ (step config) (fun _ event => event.wholeLog = true)
    (fun live => live.cell.Sound id live.frontier live.status) ?_ events (new bloom) live
    (Cell.sound_new id 0 _ bloom) (allSteps_of_mem (fun event member _ => whole event member) _)
    ran
  intro before event after held isWhole stepped
  refine sound_step held (fun task isTask => ?_) stepped
  rw [isTask] at isWhole
  exact unfiltered_of_wholeLog noCompactor isWhole

/-- In every run over a whole log, a get finds the newest operation applied to its key, and a get
that applies the committed operations first the newest of those and the applied ones, if and only
if it does not take a tombstone on disk for a position. -/
theorem getUnloaded_eq_latestOf_iff {config : KsConfig K} (noCompactor : config.compactor = none)
    {readBack : WalPosition → WalPosition} (readBackValid : ∀ position,
      position ≠ WalPosition.invalid → readBack position = position)
    {bloom : Option blooms.Filter} {events : List (Event K)} {live : LiveCell K blooms}
    (whole : ∀ event ∈ events, event.wholeLog = true)
    (ran : runEvents (step config) events (new bloom) = some live) (key : K) :
    (live.cell.getUnloaded readBack key = latestOf live.cell.applied key ↔
        ¬live.cell.Misreads readBack key) ∧
      ∃ promoted, live.cell.promotePending live.frontier live.status = some promoted ∧
        (promoted.getUnloaded readBack key =
            latestOf (live.cell.committed live.status ++ live.cell.applied) key ↔
          ¬promoted.Misreads readBack key) := by
  have sound := sound_of_ran noCompactor whole ran
  obtain ⟨promoted, isPromoted, promotedSound, ops⟩ := sound.promotePending (le_refl live.frontier)
  have applied : live.cell.get key = latestOf live.cell.applied key := sound.get_eq key
  have effective : promoted.get key = latestOf promoted.applied key := promotedSound.get_eq key
  rw [← ops, ← applied, ← effective]
  exact ⟨Cell.getUnloaded_eq_get_iff readBackValid sound.keeps.ok key, promoted, isPromoted,
    Cell.getUnloaded_eq_get_iff readBackValid promotedSound.keeps.ok key⟩

/-- A filter that remembers every key. -/
def exactBloom : BloomFilter Nat where
  Filter := List Nat
  new := []
  insert filter key := key :: filter
  contains filter key := filter.contains key
  contains_insert := by simp
  contains_of_contains := by
    intro filter key other found
    simp only [List.contains_cons, Bool.or_eq_true]
    exact Or.inr found

/-- A key space that promotes its second entry. -/
def twoEntries : KsConfig Nat where
  l0MaxEntries := 1
  autoShardThreshold := some 60
  serializedLen content := 40 * content.size
  compactor := none
  unloadingDisabled := false

/-- Two keys are flushed into shards while one of them is written again and a batch commits. -/
def racedFlush : List (Event Nat) :=
  [.write 1 true ⟨0, 20⟩, .write 2 true ⟨20, 20⟩, .publish 40, .work (.observe 40),
    .work (.requestFlush []), .write 1 true ⟨40, 20⟩, .addPending ⟨2, false, ⟨60, 20⟩, 0⟩,
    .work (.execute ⟨40, 0, 80, zero_le_eighty, eighty_le_u64Max⟩ ⟨.small, 0⟩), .commit 0,
    .work .complete]

theorem getUnloaded_eq_latestOf_iff_racedFlush :
    ∃ live, runEvents (step twoEntries) racedFlush (new (some [] : Option exactBloom.Filter)) =
        some live ∧
      live.cell.entry.levels.deep.isSharded = true ∧
      live.cell.getUnloaded varlenReadBack 1 = some ⟨40, 20⟩ ∧
      (live.cell.getUnloaded varlenReadBack 1 = latestOf live.cell.applied 1 ↔
        ¬live.cell.Misreads varlenReadBack 1) := by
  have reached : (runEvents (step twoEntries) racedFlush
      (new (some [] : Option exactBloom.Filter))).any (fun live =>
        live.cell.entry.levels.deep.isSharded &&
        decide (live.cell.getUnloaded varlenReadBack 1 = some ⟨40, 20⟩)) = true := by
    decide +kernel
  obtain ⟨live, ran, met⟩ := (Option.any_eq_true _ _).mp reached
  simp only [Bool.and_eq_true, decide_eq_true_eq] at met
  exact ⟨live, ran, met.1, met.2,
    (getUnloaded_eq_latestOf_iff rfl varlenReadBack_of_valid (by decide) ran 1).1⟩

/-- Two keys are flushed into shards, then one of them is removed and the tombstone is flushed. -/
def flushedRemove : List (Event Nat) :=
  [.write 1 true ⟨0, 20⟩, .write 2 true ⟨20, 20⟩, .publish 40, .work (.observe 40),
    .work (.requestFlush []),
    .work (.execute ⟨40, 0, 80, zero_le_eighty, eighty_le_u64Max⟩ ⟨.small, 0⟩),
    .work .complete, .write 1 false ⟨40, 20⟩, .publish 60, .work (.observe 60),
    .work (.requestFlush []),
    .work (.execute ⟨60, 0, 80, zero_le_eighty, eighty_le_u64Max⟩ ⟨.small, 100⟩),
    .work .complete]

/-- With keys of variable length the removed key reads as a position. -/
theorem flushedRemove_misread :
    ∃ live, runEvents (step twoEntries) flushedRemove (new (some [] : Option exactBloom.Filter)) =
        some live ∧
      (∀ event ∈ flushedRemove, event.wholeLog = true) ∧
      latestOf live.cell.applied 1 = none ∧
      live.cell.getUnloaded varlenReadBack 1 = some varlenTombstone := by
  have reached : (runEvents (step twoEntries) flushedRemove
      (new (some [] : Option exactBloom.Filter))).any (fun live =>
        decide (latestOf live.cell.applied 1 = none) &&
        decide (live.cell.getUnloaded varlenReadBack 1 = some varlenTombstone)) = true := by
    decide +kernel
  obtain ⟨live, ran, met⟩ := (Option.any_eq_true _ _).mp reached
  simp only [Bool.and_eq_true, decide_eq_true_eq] at met
  exact ⟨live, ran, by decide, met.1, met.2⟩

end LiveCell

end Tidehunter.LargeTable
