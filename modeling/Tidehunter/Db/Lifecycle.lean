import Tidehunter.KeyShape.Registry
import Tidehunter.Library.Machine

/-!
# Opens, destroys and crashes

The registry, the frames of the log and the control region are on disk; what else a session has
is lost in a crash. An open reconciles the declared shape with the registry, verifies the control
region, writes the registry and loads the tables. A destroy writes the tombstone and then drops
the cells. A crash comes between any two of these.

The data of a key space is what its frames make of no data. A store records each key as of a
frame at or behind the position that the replay starts from; which frame that is depends on the
flushes and is chosen by the event.
-/

namespace Tidehunter.Lifecycle

open Library Wal KeyShape

/-! ## Data -/

abbrev Contents := Bytes → Option Bytes

inductive DataOp where
  | insert (key value : Bytes)
  | remove (key : Bytes)
  /-- Drop the cells of some keys. -/
  | dropCells (covers : Bytes → Bool)

def DataOp.apply : DataOp → Contents → Contents
  | .insert key value, contents => fun other => if other = key then some value else contents other
  | .remove key, contents => fun other => if other = key then none else contents other
  | .dropCells covers, contents => fun other => if covers other then none else contents other

/-- A frame of the log has the id of its key space. -/
structure DataFrame where
  ks : Nat
  op : DataOp

/-- Apply the frames of a key space. -/
def replayKs (ks : Nat) (frames : List DataFrame) (contents : Contents) : Contents :=
  frames.foldl (fun contents frame => if frame.ks = ks then frame.op.apply contents else contents)
    contents

/-- What a log holds of a key space. -/
def contentsOf (ks : Nat) (wal : List DataFrame) : Contents := replayKs ks wal fun _ => none

/-! ## State -/

/-- The control region with the contents that the recorded levels of each key space have. -/
structure KsRegion where
  keyspaceNames : List String
  lastPosition : Nat
  snapshot : List Contents

/-- The slot of a key space; one that came later has none. -/
def KsRegion.slot (region : KsRegion) (ks : Nat) : Contents :=
  region.snapshot.getD ks fun _ => none

/-- Whether the shape matches the key spaces that the control region was written with. -/
def KsRegion.verifyShape (region : KsRegion) (shape : List RegistryEntry) : Bool :=
  region.snapshot.length ≤ shape.length &&
    (region.keyspaceNames.zip (shape.map RegistryEntry.name)).all fun names => names.1 = names.2

structure Disk where
  registry : Option (List RegistryEntry)
  wal : List DataFrame
  controlRegion : Option KsRegion

/-- The key spaces of the registry. -/
def Disk.entries (disk : Disk) : List RegistryEntry := disk.registry.getD []

/-- The names that a caller declares are distinct. -/
structure Declaration where
  keySpaces : List Declared
  distinct : (keySpaces.map Declared.name).Nodup

def Declaration.names (declaration : Declaration) : List String :=
  declaration.keySpaces.map Declared.name

structure Session where
  declaration : Declaration
  keyShape : List RegistryEntry
  keyspaces : List (String × Nat)
  table : Nat → Contents
  /-- Destroyed key spaces whose cells are dropped. -/
  dropped : List Nat

inductive Phase where
  | closed
  | reconciled (declaration : Declaration) (keyShape : List RegistryEntry)
      (keyspaces : List (String × Nat)) (registryDirty : Bool)
  | registered (declaration : Declaration) (keyShape : List RegistryEntry)
      (keyspaces : List (String × Nat))
  | running (session : Session)

structure State where
  disk : Disk
  phase : Phase

def State.fresh : State := ⟨⟨none, [], none⟩, .closed⟩

def State.entries (state : State) : List RegistryEntry := state.disk.entries

/-! ## Steps -/

inductive Event where
  /-- Reconcile the declared shape and verify the control region. -/
  | openShape (declaration : Declaration)
  | writeShapeFile
  | load
  /-- Write through the handle of a name. -/
  | write (name : String) (op : DataOp)
  /-- Store the control region with a position to replay from. -/
  | store (position : Nat) (asOf : Nat → Bytes → Nat)
  | tombstone (name : String)
  | dropAllCells (ks : Nat)
  | crash

namespace Disk

def verifies (disk : Disk) (shape : List RegistryEntry) : Bool :=
  disk.controlRegion.all fun region => region.verifyShape shape

/-- The table of a key space at the end of an open. -/
def loadTable (disk : Disk) (shape : List RegistryEntry) (ks : Nat) : Contents :=
  if shape[ks]?.any RegistryEntry.destroyed then fun _ => none
  else
    match disk.controlRegion with
    | some region => replayKs ks (disk.wal.drop region.lastPosition) (region.slot ks)
    | none => replayKs ks disk.wal fun _ => none

/-- What a store records: each key as of some frame between the position and the end. -/
def recorded (disk : Disk) (position : Nat) (asOf : Nat → Bytes → Nat) (ks : Nat) : Contents :=
  fun key => contentsOf ks (disk.wal.take (max position (asOf ks key))) key

end Disk

namespace Session

/-- What a read through the handle of a name gives. -/
def read (session : Session) (name : String) (key : Bytes) : Option Bytes :=
  (session.keyspaces.lookup name).bind fun ks => session.table ks key

def write (session : Session) (ks : Nat) (op : DataOp) : Session :=
  { session with table := fun other =>
      if other = ks then op.apply (session.table ks) else session.table other }

def snapshot (session : Session) (disk : Disk) (position : Nat) (asOf : Nat → Bytes → Nat) :
    KsRegion where
  keyspaceNames := session.keyShape.map RegistryEntry.name
  lastPosition := min position disk.wal.length
  snapshot := (List.range session.keyShape.length).map fun ks =>
    if ks ∈ session.dropped then fun _ => none else disk.recorded position asOf ks

/-- The key space that a destroy of a name is about. -/
def destroyTarget (session : Session) (name : String) : Option Nat :=
  if (session.keyspaces.lookup name).isSome then none
  else session.keyShape.findIdx? fun entry => entry.name = name && !entry.destroyed

end Session

def markDestroyed (registry : List RegistryEntry) (ks : Nat) : List RegistryEntry :=
  registry.modify ks fun entry => { entry with destroyed := true }

def step (state : State) : Event → Option State
  | .openShape declaration =>
      match state.phase with
      | .closed =>
          match reconcileKeyShape state.disk.registry declaration.keySpaces with
          | some (keyShape, keyspaces, registryDirty) =>
              if state.disk.verifies keyShape then
                some { state with
                  phase := .reconciled declaration keyShape keyspaces registryDirty }
              -- A panic leaves the disk as it is.
              else some state
          | none => some state
      | _ => none
  | .writeShapeFile =>
      match state.phase with
      | .reconciled declaration keyShape keyspaces registryDirty =>
          some ⟨if registryDirty then { state.disk with registry := some keyShape } else state.disk,
            .registered declaration keyShape keyspaces⟩
      | _ => none
  | .load =>
      match state.phase with
      | .registered declaration keyShape keyspaces =>
          some { state with
            phase := .running
              ⟨declaration, keyShape, keyspaces, state.disk.loadTable keyShape, []⟩ }
      | _ => none
  | .write name op =>
      match state.phase with
      | .running session =>
          (session.keyspaces.lookup name).map fun ks =>
            ⟨{ state.disk with wal := state.disk.wal ++ [⟨ks, op⟩] },
              .running (session.write ks op)⟩
      | _ => none
  | .store position asOf =>
      match state.phase with
      | .running session =>
          some { state with
            disk := { state.disk with
              controlRegion := some (session.snapshot state.disk position asOf) } }
      | _ => none
  | .tombstone name =>
      match state.phase with
      | .running session =>
          match session.destroyTarget name with
          | some ks =>
              let keyShape := markDestroyed session.keyShape ks
              some ⟨{ state.disk with registry := some keyShape },
                .running { session with keyShape }⟩
          -- A panic, or nothing to destroy.
          | none => some state
      | _ => none
  | .dropAllCells ks =>
      match state.phase with
      | .running session =>
          if session.keyShape[ks]?.any RegistryEntry.destroyed then
            some { state with
              phase := .running { session with
                table := fun other => if other = ks then fun _ => none else session.table other
                dropped := ks :: session.dropped } }
          else none
      | _ => none
  | .crash => some { state with phase := .closed }

/-! ## Replays -/

section Replays

variable (ks : Nat)

theorem replayKs_append (frames more : List DataFrame) (contents : Contents) :
    replayKs ks (frames ++ more) contents = replayKs ks more (replayKs ks frames contents) :=
  List.foldl_append

theorem contentsOf_concat (wal : List DataFrame) (frame : DataFrame) :
    contentsOf ks (wal ++ [frame]) =
      if frame.ks = ks then frame.op.apply (contentsOf ks wal) else contentsOf ks wal :=
  replayKs_append ks wal [frame] _

theorem replayKs_of_forall_ne {frames : List DataFrame} (others : ∀ frame ∈ frames, frame.ks ≠ ks)
    (contents : Contents) : replayKs ks frames contents = contents := by
  induction frames generalizing contents with
  | nil => rfl
  | cons first rest ih =>
      obtain ⟨isOther, others⟩ := List.forall_mem_cons.mp others
      rw [replayKs, List.foldl_cons, if_neg isOther]
      exact ih others contents

/-- An operation either leaves a key alone or decides it. -/
theorem DataOp.apply_at (op : DataOp) (key : Bytes) :
    (∀ contents, op.apply contents key = contents key) ∨
      ∃ outcome, ∀ contents, op.apply contents key = outcome := by
  cases op with
  | insert other value =>
      by_cases same : key = other
      · exact .inr ⟨some value, fun _ => if_pos same⟩
      · exact .inl fun _ => if_neg same
  | remove other =>
      by_cases same : key = other
      · exact .inr ⟨none, fun _ => if_pos same⟩
      · exact .inl fun _ => if_neg same
  | dropCells covers =>
      by_cases covered : covers key
      · exact .inr ⟨none, fun _ => if_pos covered⟩
      · exact .inl fun _ => if_neg covered

theorem replayKs_at (frames : List DataFrame) (key : Bytes) :
    (∀ contents, replayKs ks frames contents key = contents key) ∨
      ∃ outcome, ∀ contents, replayKs ks frames contents key = outcome := by
  induction frames with
  | nil => exact .inl fun _ => rfl
  | cons first rest ih =>
      rcases ih with kept | ⟨outcome, decided⟩
      · by_cases isKs : first.ks = ks
        · rcases first.op.apply_at key with leaves | ⟨outcome, decides⟩
          · refine .inl fun contents => ?_
            rw [replayKs, List.foldl_cons, if_pos isKs]
            exact (kept _).trans (leaves contents)
          · refine .inr ⟨outcome, fun contents => ?_⟩
            rw [replayKs, List.foldl_cons, if_pos isKs]
            exact (kept _).trans (decides contents)
        · refine .inl fun contents => ?_
          rw [replayKs, List.foldl_cons, if_neg isKs]
          exact kept contents
      · exact .inr ⟨outcome, fun contents => decided _⟩

/-- Replaying what is already in does nothing. -/
theorem replayKs_replayKs (frames : List DataFrame) (contents : Contents) :
    replayKs ks frames (replayKs ks frames contents) = replayKs ks frames contents := by
  funext key
  rcases replayKs_at ks frames key with kept | ⟨outcome, decided⟩
  · exact kept _
  · rw [decided, decided]

/-- A replay of a key depends on this key alone. -/
theorem replayKs_congr {frames : List DataFrame} {key : Bytes} {contents other : Contents}
    (same : contents key = other key) :
    replayKs ks frames contents key = replayKs ks frames other key := by
  rcases replayKs_at ks frames key with kept | ⟨outcome, decided⟩
  · rw [kept, kept, same]
  · rw [decided, decided]

/-- A replay from a position completes what is recorded as of a frame at or behind it. -/
theorem replayKs_drop_contentsOf {wal : List DataFrame} {position asOf : Nat}
    (behind : position ≤ asOf) :
    replayKs ks (wal.drop position) (contentsOf ks (wal.take asOf)) = contentsOf ks wal := by
  have middle : wal.take position ++ (wal.take asOf).drop position = wal.take asOf := by
    conv_rhs => rw [← List.take_append_drop position (wal.take asOf)]
    rw [List.take_take, Nat.min_eq_left behind]
  have rest : (wal.take asOf).drop position ++ wal.drop asOf = wal.drop position := by
    conv_rhs => rw [← List.take_append_drop (asOf - position) (wal.drop position)]
    rw [List.drop_take, List.drop_drop, Nat.add_sub_of_le behind]
  calc replayKs ks (wal.drop position) (contentsOf ks (wal.take asOf))
      = replayKs ks (wal.drop position) (contentsOf ks (wal.take position)) := by
        rw [← middle, ← rest, contentsOf, replayKs_append, replayKs_append, replayKs_replayKs,
          ← replayKs_append]
        rfl
    _ = contentsOf ks wal := by
        rw [contentsOf, ← replayKs_append, List.take_append_drop]
        rfl

end Replays

/-! ## What a step does -/

inductive Stepped (state : State) : Event → State → Prop where
  | refused {declaration} (closed : state.phase = .closed) :
      Stepped state (.openShape declaration) state
  | reconciled {declaration keyShape keyspaces registryDirty} (closed : state.phase = .closed)
      (reconciles : reconcileKeyShape state.disk.registry declaration.keySpaces =
        some (keyShape, keyspaces, registryDirty)) :
      Stepped state (.openShape declaration)
        ⟨state.disk, .reconciled declaration keyShape keyspaces registryDirty⟩
  | wroteShape {declaration keyShape keyspaces registryDirty}
      (isReconciled : state.phase = .reconciled declaration keyShape keyspaces registryDirty) :
      Stepped state .writeShapeFile
        ⟨if registryDirty then { state.disk with registry := some keyShape } else state.disk,
          .registered declaration keyShape keyspaces⟩
  | loaded {declaration keyShape keyspaces}
      (isRegistered : state.phase = .registered declaration keyShape keyspaces) :
      Stepped state .load
        ⟨state.disk, .running
          ⟨declaration, keyShape, keyspaces, state.disk.loadTable keyShape, []⟩⟩
  | wrote {session name op ks} (isRunning : state.phase = .running session)
      (handle : session.keyspaces.lookup name = some ks) :
      Stepped state (.write name op)
        ⟨{ state.disk with wal := state.disk.wal ++ [⟨ks, op⟩] }, .running (session.write ks op)⟩
  | stored {session position asOf} (isRunning : state.phase = .running session) :
      Stepped state (.store position asOf)
        ⟨{ state.disk with controlRegion := some (session.snapshot state.disk position asOf) },
          state.phase⟩
  | tombstoned {session name ks} (isRunning : state.phase = .running session)
      (target : session.destroyTarget name = some ks) :
      Stepped state (.tombstone name)
        ⟨{ state.disk with registry := some (markDestroyed session.keyShape ks) },
          .running { session with keyShape := markDestroyed session.keyShape ks }⟩
  | notTombstoned {session name} (isRunning : state.phase = .running session) :
      Stepped state (.tombstone name) state
  | droppedCells {session ks} (isRunning : state.phase = .running session)
      (destroyed : session.keyShape[ks]?.any RegistryEntry.destroyed = true) :
      Stepped state (.dropAllCells ks)
        ⟨state.disk, .running { session with
          table := fun other => if other = ks then fun _ => none else session.table other
          dropped := ks :: session.dropped }⟩
  | crashed : Stepped state .crash ⟨state.disk, .closed⟩

theorem stepped_of_step {state next : State} {event : Event} (steps : step state event = some next) :
    Stepped state event next := by
  cases event with
  | openShape declaration =>
      simp only [step] at steps
      split at steps
      · rename_i closed
        split at steps
        · rename_i reconciles
          split at steps
          · cases steps
            exact .reconciled closed reconciles
          · cases steps
            exact .refused closed
        · cases steps
          exact .refused closed
      · cases steps
  | writeShapeFile =>
      simp only [step] at steps
      split at steps
      · rename_i isReconciled
        cases steps
        exact .wroteShape isReconciled
      · cases steps
  | load =>
      simp only [step] at steps
      split at steps
      · rename_i isRegistered
        cases steps
        exact .loaded isRegistered
      · cases steps
  | write name op =>
      simp only [step] at steps
      split at steps
      · rename_i isRunning
        obtain ⟨ks, handle, rfl⟩ := Option.map_eq_some_iff.mp steps
        exact .wrote isRunning handle
      · cases steps
  | store position asOf =>
      simp only [step] at steps
      split at steps
      · rename_i isRunning
        cases steps
        exact .stored isRunning
      · cases steps
  | tombstone name =>
      simp only [step] at steps
      split at steps
      · rename_i isRunning
        split at steps
        · rename_i target
          cases steps
          exact .tombstoned isRunning target
        · cases steps
          exact .notTombstoned isRunning
      · cases steps
  | dropAllCells ks =>
      simp only [step] at steps
      split at steps
      · rename_i isRunning
        split at steps
        · rename_i destroyed
          cases steps
          exact .droppedCells isRunning destroyed
        · cases steps
      · cases steps
  | crash =>
      cases steps
      exact .crashed

/-! ## Invariants -/

/-- The control region is of the key spaces that the registry starts with, and a replay completes
it for every key space that is not destroyed. -/
structure KsRegion.Ok (region : KsRegion) (disk : Disk) : Prop where
  slots : region.snapshot.length ≤ disk.entries.length
  names : ∃ more, disk.entries.map RegistryEntry.name = region.keyspaceNames ++ more
  position : region.lastPosition ≤ disk.wal.length
  completed : ∀ ks entry, disk.entries[ks]? = some entry → entry.destroyed = false →
    replayKs ks (disk.wal.drop region.lastPosition) (region.slot ks) = contentsOf ks disk.wal

structure Disk.Ok (disk : Disk) : Prop where
  names : (liveNames disk.entries).Nodup
  room : disk.entries.length ≤ maxKeySpaces
  frames : ∀ frame ∈ disk.wal, frame.ks < disk.entries.length
  region : ∀ region, disk.controlRegion = some region → region.Ok disk

structure Session.Ok (session : Session) (disk : Disk) : Prop where
  registry : disk.registry = some session.keyShape
  exposes : Exposes session.keyspaces (fun name => name ∈ session.declaration.names)
    session.keyShape
  table : ∀ ks entry, session.keyShape[ks]? = some entry → entry.destroyed = false →
    session.table ks = contentsOf ks disk.wal
  dropped : ∀ ks ∈ session.dropped, ∃ entry, session.keyShape[ks]? = some entry ∧
    entry.destroyed = true

def Phase.Ok (disk : Disk) : Phase → Prop
  | .closed => True
  | .reconciled declaration keyShape keyspaces registryDirty =>
      reconcileKeyShape disk.registry declaration.keySpaces =
        some (keyShape, keyspaces, registryDirty)
  | .registered declaration keyShape keyspaces =>
      disk.registry = some keyShape ∧
        Exposes keyspaces (fun name => name ∈ declaration.names) keyShape
  | .running session => session.Ok disk

structure State.Ok (state : State) : Prop where
  disk : state.disk.Ok
  phase : state.phase.Ok state.disk

theorem State.ok_fresh : State.fresh.Ok :=
  ⟨⟨List.Pairwise.nil, Nat.zero_le _, nofun, nofun⟩, trivial⟩

/-- An id that is not given has no data. -/
theorem Disk.Ok.contentsOf_eq_empty {disk : Disk} (ok : disk.Ok) {ks : Nat}
    (unused : disk.entries.length ≤ ks) : contentsOf ks disk.wal = fun _ => none :=
  replayKs_of_forall_ne ks (fun frame member => (ok.frames frame member |>.trans_le unused).ne) _

/-! ### The registry -/

section Registry

variable {disk : Disk} {declared : List Declared}

/-- New key spaces have no data. -/
theorem Disk.Ok.register (ok : disk.Ok) (fits : Fits declared disk.entries) :
    Disk.Ok { disk with registry := some (extended declared disk.entries) } := by
  have isLonger : disk.entries.length ≤ (extended declared disk.entries).length := by
    rw [extended, List.length_append]
    exact Nat.le_add_right _ _
  refine ⟨liveNames_extended_nodup fits.distinct ok.names, ?_,
    fun frame member => (ok.frames frame member).trans_le isLonger, fun region isRegion => ?_⟩
  · show (extended declared disk.entries).length ≤ maxKeySpaces
    rw [extended, List.length_append, List.length_map]
    exact fits.room
  · have regionOk := ok.region region isRegion
    refine ⟨regionOk.slots.trans isLonger, ?_, regionOk.position, fun ks entry isEntry live => ?_⟩
    · obtain ⟨more, names⟩ := regionOk.names
      refine ⟨more ++ ((newKeySpaces declared disk.entries).map Declared.entry).map
        RegistryEntry.name, ?_⟩
      show (extended declared disk.entries).map RegistryEntry.name = _
      rw [extended, List.map_append, names, List.append_assoc]
    · change (extended declared disk.entries)[ks]? = some entry at isEntry
      by_cases known : ks < disk.entries.length
      · rw [extended, List.getElem?_append_left known] at isEntry
        exact regionOk.completed ks entry isEntry live
      · have noSlot : region.slot ks = fun _ => none := by
          rw [KsRegion.slot, List.getD_eq_getElem?_getD, List.getElem?_eq_none
            (regionOk.slots.trans (Nat.le_of_not_lt known)), Option.getD_none]
        have others : ∀ frame ∈ disk.wal.drop region.lastPosition, frame.ks ≠ ks :=
          fun frame member => ((ok.frames frame (List.mem_of_mem_drop member)).trans_le
            (Nat.le_of_not_lt known)).ne
        show replayKs ks (disk.wal.drop region.lastPosition) (region.slot ks) =
          contentsOf ks disk.wal
        rw [noSlot, replayKs_of_forall_ne ks others, ok.contentsOf_eq_empty
          (Nat.le_of_not_lt known)]

theorem length_markDestroyed (registry : List RegistryEntry) (ks : Nat) :
    (markDestroyed registry ks).length = registry.length :=
  List.length_modify _ _ _

/-- A tombstone keeps the name and the layout, and the other key spaces. -/
theorem getElem?_markDestroyed (registry : List RegistryEntry) (ks other : Nat) :
    (markDestroyed registry ks)[other]? =
      registry[other]?.map fun entry =>
        if ks = other then { entry with destroyed := true } else entry := by
  rw [markDestroyed, List.getElem?_modify]
  by_cases same : ks = other
  · simp [same]
  · simp [same]

theorem liveNames_markDestroyed_sublist (registry : List RegistryEntry) (ks : Nat) :
    (liveNames (markDestroyed registry ks)).Sublist (liveNames registry) := by
  induction registry generalizing ks with
  | nil => rw [markDestroyed, List.modify_nil]
  | cons first rest ih =>
      cases ks with
      | zero =>
          show (liveNames ([{ first with destroyed := true }] ++ rest)).Sublist
            (liveNames ([first] ++ rest))
          rw [liveNames_append, liveNames_append]
          exact List.sublist_append_right _ _
      | succ ks =>
          show (liveNames ([first] ++ markDestroyed rest ks)).Sublist (liveNames ([first] ++ rest))
          rw [liveNames_append, liveNames_append]
          exact (List.Sublist.refl _).append (ih ks)

theorem map_name_markDestroyed (registry : List RegistryEntry) (ks : Nat) :
    (markDestroyed registry ks).map RegistryEntry.name = registry.map RegistryEntry.name := by
  refine List.ext_getElem? fun other => ?_
  rw [List.getElem?_map, getElem?_markDestroyed, List.getElem?_map, Option.map_map]
  congr 1
  funext entry
  by_cases same : ks = other
  · rw [Function.comp, if_pos same]
  · rw [Function.comp, if_neg same]

/-- A key space that is live beside a tombstone is live without it. -/
theorem live_of_markDestroyed {registry : List RegistryEntry} {ks other : Nat}
    {entry : RegistryEntry} (isEntry : (markDestroyed registry ks)[other]? = some entry)
    (live : entry.destroyed = false) : registry[other]? = some entry ∧ ks ≠ other := by
  rw [getElem?_markDestroyed] at isEntry
  obtain ⟨before, isBefore, rfl⟩ := Option.map_eq_some_iff.mp isEntry
  by_cases same : ks = other
  · rw [if_pos same] at live
    exact absurd live nofun
  · rw [if_neg same]
    exact ⟨isBefore, same⟩

theorem Disk.Ok.destroy (ok : disk.Ok) (ks : Nat) :
    Disk.Ok { disk with registry := some (markDestroyed disk.entries ks) } := by
  have sameLength := length_markDestroyed disk.entries ks
  refine ⟨ok.names.sublist (liveNames_markDestroyed_sublist _ _), sameLength.trans_le ok.room,
    fun frame member => (ok.frames frame member).trans_eq sameLength.symm,
    fun region isRegion => ?_⟩
  have regionOk := ok.region region isRegion
  refine ⟨regionOk.slots.trans_eq sameLength.symm, ?_, regionOk.position,
    fun other entry isEntry live => ?_⟩
  · show ∃ more, (markDestroyed disk.entries ks).map RegistryEntry.name = _ ++ more
    rw [map_name_markDestroyed]
    exact regionOk.names
  · exact regionOk.completed other entry (live_of_markDestroyed isEntry live).1 live

end Registry

/-! ### The log and the control region -/

theorem Disk.Ok.append {disk : Disk} (ok : disk.Ok) (frame : DataFrame)
    (given : frame.ks < disk.entries.length) :
    Disk.Ok { disk with wal := disk.wal ++ [frame] } := by
  refine ⟨ok.names, ok.room, fun other member => ?_, fun region isRegion => ?_⟩
  · rcases List.mem_append.mp member with old | new
    · exact ok.frames other old
    · exact List.mem_singleton.mp new ▸ given
  · have regionOk := ok.region region isRegion
    refine ⟨regionOk.slots, regionOk.names, ?_, fun ks entry isEntry live => ?_⟩
    · show region.lastPosition ≤ (disk.wal ++ [frame]).length
      rw [List.length_append]
      exact regionOk.position.trans (Nat.le_add_right _ _)
    · show replayKs ks ((disk.wal ++ [frame]).drop region.lastPosition) (region.slot ks) =
        contentsOf ks (disk.wal ++ [frame])
      rw [List.drop_append_of_le_length regionOk.position, replayKs_append,
        regionOk.completed ks entry isEntry live, contentsOf, contentsOf, replayKs_append]

/-- A store records the key spaces that are not destroyed so that a replay completes them. -/
theorem Session.Ok.snapshot_ok {session : Session} {disk : Disk} (ok : session.Ok disk)
    (position : Nat) (asOf : Nat → Bytes → Nat) :
    (session.snapshot disk position asOf).Ok
      { disk with controlRegion := some (session.snapshot disk position asOf) } := by
  have isShape : disk.entries = session.keyShape := by rw [Disk.entries, ok.registry, Option.getD_some]
  refine ⟨?_, ⟨[], ?_⟩, Nat.min_le_right _ _, fun ks entry isEntry live => ?_⟩
  · show ((List.range session.keyShape.length).map _).length ≤ disk.entries.length
    rw [List.length_map, List.length_range, isShape]
  · show disk.entries.map RegistryEntry.name = session.keyShape.map RegistryEntry.name ++ []
    rw [isShape, List.append_nil]
  · change disk.entries[ks]? = some entry at isEntry
    rw [isShape] at isEntry
    have inShape := (List.getElem?_eq_some_iff.mp isEntry).1
    have kept : ks ∉ session.dropped := fun isDropped => by
      obtain ⟨other, isOther, destroyed⟩ := ok.dropped ks isDropped
      obtain rfl := Option.some.inj (isOther.symm.trans isEntry)
      exact absurd (live.symm.trans destroyed) nofun
    have isRecorded : (session.snapshot disk position asOf).slot ks =
        disk.recorded position asOf ks := by
      rw [KsRegion.slot, Session.snapshot, List.getD_eq_getElem?_getD, List.getElem?_map,
        List.getElem?_range inShape, Option.map_some, Option.getD_some, if_neg kept]
    show replayKs ks (disk.wal.drop (min position disk.wal.length)) _ = contentsOf ks disk.wal
    rw [isRecorded]
    funext key
    rw [← replayKs_drop_contentsOf ks (show min position disk.wal.length ≤
      max position (asOf ks key) from (Nat.min_le_left _ _).trans (Nat.le_max_left _ _))]
    exact replayKs_congr ks rfl

/-! ### Opens -/

private theorem zip_append_all (names more : List String) :
    (names.zip (names ++ more)).all (fun pair => pair.1 = pair.2) = true := by
  induction names with
  | nil => rfl
  | cons first rest ih =>
      rw [List.cons_append, List.zip_cons_cons, List.all_cons, decide_eq_true rfl, Bool.true_and]
      exact ih

/-- The control region matches the key spaces of the registry, also with new ones behind them. -/
theorem Disk.Ok.verifies_extended {disk : Disk} (ok : disk.Ok) (declared : List Declared) :
    disk.verifies (extended declared disk.entries) = true := by
  cases isRegion : disk.controlRegion with
  | none => rw [Disk.verifies, isRegion, Option.all_none]
  | some region =>
      have regionOk := ok.region region isRegion
      obtain ⟨more, names⟩ := regionOk.names
      rw [Disk.verifies, isRegion, Option.all_some, KsRegion.verifyShape, Bool.and_eq_true]
      constructor
      · rw [decide_eq_true_iff, extended, List.length_append]
        exact regionOk.slots.trans (Nat.le_add_right _ _)
      · rw [extended, List.map_append, names, List.append_assoc]
        exact zip_append_all _ _

theorem Disk.Ok.loadTable_eq {disk : Disk} (ok : disk.Ok) {ks : Nat} {entry : RegistryEntry}
    (isEntry : disk.entries[ks]? = some entry) (live : entry.destroyed = false) :
    disk.loadTable disk.entries ks = contentsOf ks disk.wal := by
  rw [Disk.loadTable, isEntry, Option.any_some, live, if_neg Bool.false_ne_true]
  cases isRegion : disk.controlRegion with
  | none => rfl
  | some region => exact (ok.region region isRegion).completed ks entry isEntry live

/-! ### Sessions -/

theorem mem_of_lookup {handles : List (String × Nat)} {name : String} {ks : Nat}
    (found : handles.lookup name = some ks) : (name, ks) ∈ handles := by
  obtain ⟨before, after, rfl, -⟩ := List.lookup_eq_some_iff.mp found
  exact List.mem_append_right _ List.mem_cons_self

theorem lookup_isSome_iff (handles : List (String × Nat)) (name : String) :
    (handles.lookup name).isSome ↔ name ∈ handles.map Prod.fst := by
  rw [← not_iff_not, Option.not_isSome_iff_eq_none, List.lookup_eq_none_iff, List.mem_map]
  constructor
  · rintro others ⟨handle, member, rfl⟩
    simpa using others handle member
  · intro none handle member
    simpa using fun same => none ⟨handle, member, same.symm⟩

section Sessions

variable {session : Session} {disk : Disk}

theorem Session.Ok.entries_eq (ok : session.Ok disk) : disk.entries = session.keyShape := by
  rw [Disk.entries, ok.registry, Option.getD_some]

/-- A handle is that of a key space of its name that is not destroyed. -/
theorem Session.Ok.entry_of_handle (ok : session.Ok disk) {name : String} {ks : Nat}
    (handle : session.keyspaces.lookup name = some ks) :
    ∃ entry, disk.entries[ks]? = some entry ∧ entry.name = name ∧ entry.destroyed = false := by
  rw [ok.entries_eq]
  exact ok.exposes.places (name, ks) (mem_of_lookup handle)

theorem Session.Ok.write (ok : session.Ok disk) (ks : Nat) (op : DataOp) :
    (session.write ks op).Ok { disk with wal := disk.wal ++ [⟨ks, op⟩] } := by
  refine ⟨ok.registry, ok.exposes, fun other entry isEntry live => ?_, ok.dropped⟩
  have isTable := ok.table other entry isEntry live
  show (if other = ks then op.apply (session.table ks) else session.table other) =
    contentsOf other (disk.wal ++ [⟨ks, op⟩])
  rw [contentsOf_concat]
  by_cases same : other = ks
  · subst same
    rw [if_pos rfl, if_pos rfl, isTable]
  · rw [if_neg same, if_neg (Ne.symm same), isTable]

/-- What a destroy finds is not exposed. -/
theorem Session.destroyTarget_eq_some {name : String} {ks : Nat}
    (target : session.destroyTarget name = some ks) :
    session.keyspaces.lookup name = none ∧
      ∃ entry, session.keyShape[ks]? = some entry ∧ entry.name = name := by
  unfold Session.destroyTarget at target
  by_cases exposed : (session.keyspaces.lookup name).isSome
  · rw [if_pos exposed] at target
    exact absurd target nofun
  · rw [if_neg exposed] at target
    refine ⟨Option.not_isSome_iff_eq_none.mp exposed, ?_⟩
    obtain ⟨inShape, matched, -⟩ := List.findIdx?_eq_some_iff_getElem.mp target
    rw [Bool.and_eq_true, decide_eq_true_iff] at matched
    exact ⟨_, List.getElem?_eq_getElem inShape, matched.1⟩

theorem Session.Ok.destroy (ok : session.Ok disk) {name : String} {ks : Nat}
    (target : session.destroyTarget name = some ks) :
    Session.Ok { session with keyShape := markDestroyed session.keyShape ks }
      { disk with registry := some (markDestroyed session.keyShape ks) } := by
  obtain ⟨notExposed, tombstone, isTombstone, isNamed⟩ := Session.destroyTarget_eq_some target
  refine ⟨rfl, ⟨ok.exposes.exactly, ok.exposes.distinct, fun handle member => ?_⟩,
    fun other entry isEntry live => ?_, fun other isDropped => ?_⟩
  · obtain ⟨entry, isEntry, entryNamed, live⟩ := ok.exposes.places handle member
    have isOther : ks ≠ handle.2 := by
      rintro rfl
      obtain rfl := Option.some.inj (isTombstone.symm.trans isEntry)
      have isExposed : (session.keyspaces.lookup name).isSome := by
        rw [lookup_isSome_iff, ← isNamed, entryNamed]
        exact List.mem_map_of_mem member
      rw [notExposed] at isExposed
      exact absurd isExposed nofun
    refine ⟨entry, ?_, entryNamed, live⟩
    show (markDestroyed session.keyShape ks)[handle.2]? = some entry
    rw [getElem?_markDestroyed, isEntry, Option.map_some, if_neg isOther]
  · exact ok.table other entry (live_of_markDestroyed isEntry live).1 live
  · obtain ⟨entry, isEntry, destroyed⟩ := ok.dropped other isDropped
    refine ⟨if ks = other then { entry with destroyed := true } else entry, ?_, ?_⟩
    · show (markDestroyed session.keyShape ks)[other]? = _
      rw [getElem?_markDestroyed, isEntry, Option.map_some]
    · by_cases same : ks = other
      · rw [if_pos same]
      · rw [if_neg same, destroyed]

theorem Session.Ok.dropAllCells (ok : session.Ok disk) {ks : Nat}
    (destroyed : session.keyShape[ks]?.any RegistryEntry.destroyed = true) :
    Session.Ok { session with
      table := fun other => if other = ks then fun _ => none else session.table other
      dropped := ks :: session.dropped } disk := by
  obtain ⟨entry, isEntry, isDestroyed⟩ := (Option.any_eq_true _ _).mp destroyed
  refine ⟨ok.registry, ok.exposes, fun other live isLive notDestroyed => ?_,
    List.forall_mem_cons.mpr ⟨⟨entry, isEntry, isDestroyed⟩, ok.dropped⟩⟩
  have isOther : other ≠ ks := by
    rintro rfl
    obtain rfl := Option.some.inj (isEntry.symm.trans isLive)
    exact absurd (notDestroyed.symm.trans isDestroyed) nofun
  show (if other = ks then fun _ => none else session.table other) = _
  rw [if_neg isOther]
  exact ok.table other live isLive notDestroyed

end Sessions

/-! ### Runs -/

theorem State.Ok.next_ok {state next : State} {event : Event} (ok : state.Ok)
    (steps : step state event = some next) : next.Ok := by
  obtain ⟨diskOk, phaseOk⟩ := ok
  cases stepped_of_step steps with
  | refused _ => exact ⟨diskOk, phaseOk⟩
  | reconciled _ reconciles => exact ⟨diskOk, reconciles⟩
  | @wroteShape declaration keyShape keyspaces registryDirty isReconciled =>
      rw [isReconciled] at phaseOk
      obtain ⟨fits, isExtended, exposes, clean⟩ :=
        reconcileKeyShape_eq_some declaration.distinct diskOk.names phaseOk
      cases registryDirty with
      | false => exact ⟨diskOk, clean rfl, exposes⟩
      | true =>
          subst isExtended
          exact ⟨diskOk.register fits, rfl, exposes⟩
  | @loaded declaration keyShape keyspaces isRegistered =>
      rw [isRegistered] at phaseOk
      obtain ⟨isRegistry, exposes⟩ := phaseOk
      have isShape : state.disk.entries = keyShape := by
        rw [Disk.entries, isRegistry, Option.getD_some]
      refine ⟨diskOk, isRegistry, exposes, fun ks entry isEntry live => ?_, nofun⟩
      subst isShape
      exact diskOk.loadTable_eq isEntry live
  | wrote isRunning handle =>
      rw [isRunning] at phaseOk
      obtain ⟨entry, isEntry, -⟩ := Session.Ok.entry_of_handle phaseOk handle
      exact ⟨diskOk.append _ (List.getElem?_eq_some_iff.mp isEntry).1, Session.Ok.write phaseOk _ _⟩
  | @stored session position asOf isRunning =>
      rw [isRunning] at phaseOk ⊢
      refine ⟨⟨diskOk.names, diskOk.room, diskOk.frames, fun region isRegion => ?_⟩,
        phaseOk.registry, phaseOk.exposes, phaseOk.table, phaseOk.dropped⟩
      obtain rfl := Option.some.inj isRegion
      exact Session.Ok.snapshot_ok phaseOk position asOf
  | @tombstoned session name ks isRunning target =>
      rw [isRunning] at phaseOk
      refine ⟨?_, Session.Ok.destroy phaseOk target⟩
      rw [← Session.Ok.entries_eq phaseOk]
      exact diskOk.destroy ks
  | notTombstoned _ => exact ⟨diskOk, phaseOk⟩
  | droppedCells isRunning destroyed =>
      rw [isRunning] at phaseOk
      exact ⟨diskOk, Session.Ok.dropAllCells phaseOk destroyed⟩
  | crashed => exact ⟨diskOk, trivial⟩

theorem State.Ok.final_ok {state final : State} {events : List Event} (ok : state.Ok)
    (ran : runEvents step events state = some final) : final.Ok :=
  runEvents_preserves State.Ok.next_ok ok ran

/-- What a run does to the key spaces that are there at its start. -/
structure Keeps (events : List Event) (state later : State) : Prop where
  entries : ∀ (ks : Nat) (entry : RegistryEntry), state.entries[ks]? = some entry →
    ∃ kept : RegistryEntry, later.entries[ks]? = some kept ∧
    kept.name = entry.name ∧ kept.layout = entry.layout ∧
    (entry.destroyed = true → kept.destroyed = true) ∧
    (kept.destroyed = entry.destroyed ∨ .tombstone entry.name ∈ events)
  data : ∀ (ks : Nat) (entry : RegistryEntry), state.entries[ks]? = some entry →
    contentsOf ks later.disk.wal = contentsOf ks state.disk.wal ∨
      ∃ op, .write entry.name op ∈ events

section Keeps

variable {state next final : State} {events more : List Event}

/-- A step that changes neither the registry nor the log. -/
theorem Keeps.of_eq (registry : next.entries = state.entries)
    (wal : next.disk.wal = state.disk.wal) : Keeps events state next := by
  refine ⟨fun ks entry isEntry => ⟨entry, registry ▸ isEntry, rfl, rfl, id, .inl rfl⟩,
    fun ks entry _ => .inl ?_⟩
  rw [wal]

theorem Keeps.trans (first : Keeps events state next) (second : Keeps more next final) :
    Keeps (events ++ more) state final := by
  refine ⟨fun ks entry isEntry => ?_, fun ks entry isEntry => ?_⟩
  · obtain ⟨kept, isKept, name, layout, stays, same⟩ := first.entries ks entry isEntry
    obtain ⟨last, isLast, lastName, lastLayout, lastStays, lastSame⟩ :=
      second.entries ks kept isKept
    refine ⟨last, isLast, lastName.trans name, lastLayout.trans layout,
      fun destroyed => lastStays (stays destroyed), ?_⟩
    rcases same with same | isDestroyed
    · rcases lastSame with lastSame | isDestroyed
      · exact .inl (lastSame.trans same)
      · exact .inr (List.mem_append_right _ (name ▸ isDestroyed))
    · exact .inr (List.mem_append_left _ isDestroyed)
  · obtain ⟨kept, isKept, name, -⟩ := first.entries ks entry isEntry
    rcases first.data ks entry isEntry with same | ⟨op, isWritten⟩
    · rcases second.data ks kept isKept with lastSame | ⟨op, isWritten⟩
      · exact .inl (lastSame.trans same)
      · exact .inr ⟨op, List.mem_append_right _ (name ▸ isWritten)⟩
    · exact .inr ⟨op, List.mem_append_left _ isWritten⟩

theorem State.Ok.keeps_step {event : Event} (ok : state.Ok)
    (steps : step state event = some next) : Keeps [event] state next := by
  obtain ⟨diskOk, phaseOk⟩ := ok
  cases stepped_of_step steps with
  | refused _ => exact .of_eq rfl rfl
  | reconciled _ _ => exact .of_eq rfl rfl
  | @wroteShape declaration keyShape keyspaces registryDirty isReconciled =>
      rw [isReconciled] at phaseOk
      obtain ⟨-, isExtended, -, -⟩ :=
        reconcileKeyShape_eq_some declaration.distinct diskOk.names phaseOk
      cases registryDirty with
      | false => exact .of_eq rfl rfl
      | true =>
          refine ⟨fun ks entry isEntry => ⟨entry, ?_, rfl, rfl, id, .inl rfl⟩,
            fun ks entry _ => .inl rfl⟩
          have known : ks < (state.disk.registry.getD []).length :=
            (List.getElem?_eq_some_iff.mp isEntry).1
          show keyShape[ks]? = some entry
          rw [isExtended, extended, List.getElem?_append_left known]
          exact isEntry
  | loaded _ => exact .of_eq rfl rfl
  | @wrote session name op ks isRunning handle =>
      rw [isRunning] at phaseOk
      refine ⟨fun ks entry isEntry => ⟨entry, isEntry, rfl, rfl, id, .inl rfl⟩,
        fun other entry isEntry => ?_⟩
      obtain ⟨written, isWritten, isNamed, -⟩ := Session.Ok.entry_of_handle phaseOk handle
      show contentsOf other (state.disk.wal ++ [⟨ks, op⟩]) = _ ∨ _
      by_cases same : ks = other
      · subst same
        obtain rfl := Option.some.inj (isWritten.symm.trans isEntry)
        exact .inr ⟨op, isNamed ▸ List.mem_singleton_self _⟩
      · rw [contentsOf_concat, if_neg same]
        exact .inl rfl
  | stored _ => exact .of_eq rfl rfl
  | @tombstoned session name ks isRunning target =>
      rw [isRunning] at phaseOk
      obtain ⟨-, tombstone, isTombstone, isNamed⟩ := Session.destroyTarget_eq_some target
      refine ⟨fun other entry isEntry => ?_, fun _ _ _ => .inl rfl⟩
      have inShape : session.keyShape[other]? = some entry :=
        Session.Ok.entries_eq phaseOk ▸ isEntry
      refine ⟨if ks = other then { entry with destroyed := true } else entry, ?_, ?_⟩
      · show (markDestroyed session.keyShape ks)[other]? = _
        rw [getElem?_markDestroyed, inShape, Option.map_some]
      · by_cases same : ks = other
        · subst same
          obtain rfl := Option.some.inj (isTombstone.symm.trans inShape)
          rw [if_pos rfl]
          exact ⟨rfl, rfl, fun _ => rfl, .inr (isNamed ▸ List.mem_singleton_self _)⟩
        · rw [if_neg same]
          exact ⟨rfl, rfl, id, .inl rfl⟩
  | notTombstoned _ => exact .of_eq rfl rfl
  | droppedCells _ _ => exact .of_eq rfl rfl
  | crashed => exact .of_eq rfl rfl

theorem State.Ok.keeps_run (ok : state.Ok) (ran : runEvents step events state = some final) :
    Keeps events state final := by
  induction events generalizing state with
  | nil =>
      cases ran
      exact .of_eq rfl rfl
  | cons event rest ih =>
      obtain ⟨next, steps, tail⟩ := Option.bind_eq_some_iff.mp ran
      exact (ok.keeps_step steps).trans (ih (ok.next_ok steps) tail)

end Keeps

/-! ## The identity of key spaces -/

/-- A name is in use at one place. -/
theorem place_unique {registry : List RegistryEntry} (names : (liveNames registry).Nodup)
    {place other : Nat} {entry otherEntry : RegistryEntry} (isEntry : registry[place]? = some entry)
    (isOther : registry[other]? = some otherEntry) (live : entry.destroyed = false)
    (otherLive : otherEntry.destroyed = false) (sameName : entry.name = otherEntry.name) :
    place = other := by
  have inRest {rest : List RegistryEntry} {live : RegistryEntry} {place : Nat}
      (isLive : rest[place]? = some live) (notDestroyed : live.destroyed = false) :
      live.name ∈ liveNames rest :=
    List.mem_map_of_mem
      (List.mem_filter.mpr ⟨List.mem_of_getElem? isLive, by rw [notDestroyed]; rfl⟩)
  induction registry generalizing place other with
  | nil => exact absurd isEntry nofun
  | cons first rest ih =>
      have splits : liveNames (first :: rest) = liveNames [first] ++ liveNames rest :=
        liveNames_append [first] rest
      rw [splits, List.nodup_append] at names
      obtain ⟨-, restNames, apart⟩ := names
      have firstName (live : first.destroyed = false) : first.name ∈ liveNames [first] :=
        inRest (List.getElem?_cons_zero) live
      cases place with
      | zero =>
          cases other with
          | zero => rfl
          | succ other =>
              cases isEntry
              exact absurd sameName (apart _ (firstName live) _ (inRest isOther otherLive))
      | succ place =>
          cases other with
          | zero =>
              cases isOther
              exact absurd sameName.symm (apart _ (firstName otherLive) _ (inRest isEntry live))
          | succ other => exact congrArg (· + 1) (ih restNames isEntry isOther)

/-- What a session shows of the key spaces. -/
structure Session.Shows (session : Session) (disk : Disk) : Prop where
  /-- Exactly the declared names are exposed. -/
  names : ∀ name, (session.keyspaces.lookup name).isSome ↔ name ∈ session.declaration.names
  /-- A name reads the data of a key space of this name that is not destroyed. -/
  reads : ∀ name ks, session.keyspaces.lookup name = some ks →
    (∃ entry, disk.entries[ks]? = some entry ∧ entry.name = name ∧ entry.destroyed = false) ∧
      ∀ key, session.read name key = contentsOf ks disk.wal key

theorem Session.Ok.shows {session : Session} {disk : Disk} (ok : session.Ok disk) :
    session.Shows disk := by
  refine ⟨fun name => (lookup_isSome_iff _ _).trans (ok.exposes.exactly name),
    fun name ks handle => ⟨ok.entry_of_handle handle, fun key => ?_⟩⟩
  obtain ⟨entry, isEntry, -, live⟩ := ok.entry_of_handle handle
  rw [Session.read, handle, Option.bind_some,
    ok.table ks entry (ok.entries_eq ▸ isEntry) live]

/-- The key spaces of a state in a later one. -/
structure Identity (events : List Event) (state later : State) : Prop where
  /-- An id keeps its name and its layout, and a tombstone stays. -/
  ids : ∀ (ks : Nat) (entry : RegistryEntry), state.entries[ks]? = some entry →
    ∃ kept : RegistryEntry, later.entries[ks]? = some kept ∧ kept.name = entry.name ∧
      kept.layout = entry.layout ∧ (entry.destroyed = true → kept.destroyed = true)
  /-- An id that was not given has no data. -/
  fresh : ∀ ks, state.entries.length ≤ ks → contentsOf ks state.disk.wal = fun _ => none
  shows : ∀ session, later.phase = .running session → session.Shows later.disk
  /-- An id is exposed only under its name, and not once it is destroyed. -/
  exposed : ∀ session name ks entry, later.phase = .running session →
    session.keyspaces.lookup name = some ks → state.entries[ks]? = some entry →
    entry.name = name ∧ entry.destroyed = false
  /-- A key space that is not destroyed has its id whenever it is declared, -/
  sameId : ∀ session ks entry, later.phase = .running session →
    state.entries[ks]? = some entry → entry.destroyed = false →
    .tombstone entry.name ∉ events → entry.name ∈ session.declaration.names →
    session.keyspaces.lookup entry.name = some ks
  /-- and the data it had, but for what was written to it. -/
  sameData : ∀ session ks entry, later.phase = .running session →
    state.entries[ks]? = some entry → entry.destroyed = false →
    .tombstone entry.name ∉ events → entry.name ∈ session.declaration.names →
    (∀ op, .write entry.name op ∉ events) →
    ∀ key, session.read entry.name key = contentsOf ks state.disk.wal key
  /-- A shape that fits can be opened. -/
  opens : ∀ declaration : Declaration, later.phase = .closed →
    Fits declaration.keySpaces later.entries →
    ∃ reopened session,
      runEvents step [.openShape declaration, .writeShapeFile, .load] later = some reopened ∧
      reopened.phase = .running session ∧ session.declaration = declaration

theorem State.Ok.opens {state : State} (ok : state.Ok) (declaration : Declaration)
    (closed : state.phase = .closed) (fits : Fits declaration.keySpaces state.entries) :
    ∃ reopened session,
      runEvents step [.openShape declaration, .writeShapeFile, .load] state = some reopened ∧
      reopened.phase = .running session ∧ session.declaration = declaration := by
  have reconciles := (reconcileKeyShape_isSome_iff declaration.distinct ok.disk.names).mpr fits
  obtain ⟨⟨keyShape, keyspaces, registryDirty⟩, reconciles⟩ := Option.isSome_iff_exists.mp reconciles
  obtain ⟨-, isExtended, -, -⟩ :=
    reconcileKeyShape_eq_some declaration.distinct ok.disk.names reconciles
  have verified : state.disk.verifies keyShape = true := by
    rw [isExtended]
    exact ok.disk.verifies_extended _
  have opened : step state (.openShape declaration) = some
      ⟨state.disk, .reconciled declaration keyShape keyspaces registryDirty⟩ := by
    simp only [step, closed, reconciles, verified, if_true]
  rw [runEvents, opened]
  exact ⟨_, _, rfl, rfl, rfl⟩

def oneByteKeys : KsLayout := ⟨1, .uniform ⟨1, one_eq_two_pow⟩, .fixed 1⟩

def bothDeclared : Declaration := ⟨[⟨"a", oneByteKeys⟩, ⟨"b", oneByteKeys⟩], by decide⟩

def oneDeclared : Declaration := ⟨[⟨"b", oneByteKeys⟩], by decide⟩

end Tidehunter.Lifecycle
