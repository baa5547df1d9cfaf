import Tidehunter.Library.Machine
import Tidehunter.Wal.Chain

/-!
# Recovery after recovery

A log is written, crashes and is opened again, any number of times. A crash keeps what
was released; of everything else any part may be missing or torn. The lineage of a log is
what its current writer continues: the frames read back by the last recovery and the
writes allocated since.

The writer zeroes the fragment it starts in and nothing behind it. A frame that survived
in a later fragment is read again once a new writer has filled the log up to it.
-/

namespace Tidehunter.Wal

open Library

/-- What a crash makes of an item that was not released. -/
inductive Fate where
  | whole
  | torn
  | missing
  deriving DecidableEq, Repr

/-- A write of the lineage. Items are tagged with the number of recoveries before them. -/
structure Region where
  write : WalWrite
  /-- A skip marker in front that is older than the write. -/
  lead : List (Slot Nat)
  slots : List (Slot Nat)
  released : Bool
  deriving DecidableEq, Repr

namespace Region

def all (region : Region) : List (Slot Nat) := region.lead ++ region.slots

/-- The slots of a region, and whether they are on disk after a crash. -/
def items (fate : Nat → Fate) (region : Region) : List (Slot Nat × Bool) :=
  region.lead.map (fun slot => (slot, true)) ++
    region.slots.map fun slot => (slot, region.released || decide (fate slot.offset = .whole))

/-- The whole region is on disk after a crash. -/
def survives (fate : Nat → Fate) (region : Region) : Bool :=
  region.released || region.slots.all fun slot => decide (fate slot.offset = .whole)

end Region

/-- A log being written: the disk as it is known to be, the lineage in allocation order,
a skip marker it may end in, the end of the last allocation, and where each recovery
ended the log. -/
structure Lineage where
  disk : Disk Nat
  regions : List Region
  dangling : List (Slot Nat)
  position : Nat
  cuts : List Nat

namespace Lineage

/-- A new log: one empty file. -/
def new : Lineage := ⟨⟨SortedMap.empty, [0]⟩, [], [], 0, []⟩

def slots (log : Lineage) : List (Slot Nat) := log.regions.flatMap Region.all ++ log.dangling

/-! ## Crashes -/

/-- Every slot of the lineage, and whether it is on disk after a crash. -/
def items (log : Lineage) (fate : Nat → Fate) : List (Slot Nat × Bool) :=
  log.regions.flatMap (Region.items fate) ++ log.dangling.map fun slot => (slot, true)

/-- The lineage up to the first item that a crash takes. -/
def survivors (log : Lineage) (fate : Nat → Fate) : List (Slot Nat) :=
  ((log.items fate).takeWhile Prod.snd).map Prod.fst

/-- Where the first item that a crash takes begins; the end of the log if there is none. -/
def firstMissing (log : Lineage) (fate : Nat → Fate) : Nat :=
  (((log.items fate).dropWhile Prod.snd).head?.map fun item => item.1.offset).getD log.position

/-- Put an item on disk, tear it or leave it out. -/
def settle (layout : WalLayout) (fate : Nat → Fate) (disk : Disk Nat) (slot : Slot Nat) : Disk Nat :=
  match fate slot.offset with
  | .whole => disk.write layout slot.offset slot.item slot.tag
  | .torn => disk.wipe slot.offset (slot.offset + slot.item.len)
  | .missing => disk

/-- The slots that are not yet known to be on disk. -/
def unsettled (log : Lineage) : List (Slot Nat) :=
  ((log.items fun _ => .missing).filter fun item => !item.2).map Prod.fst

/-- The disk after a crash. -/
def crashDisk (layout : WalLayout) (log : Lineage) (fate : Nat → Fate) : Disk Nat :=
  log.unsettled.foldl (settle layout fate) log.disk

/-! ## Steps -/

inductive Event where
  /-- A call allocates its region. -/
  | write (write : WalWrite)
  /-- The write at an index of the lineage is whole and its guards are dropped. -/
  | release (index : Nat)
  /-- The file of a fragment ahead is created. -/
  | mapFile (file : Nat)
  /-- A crash, and a recovery from a position on. -/
  | crash (start : Nat) (fate : Nat → Fate)

/-- The positions replay may start from: everything in front of them is on disk, and no
batch is open there. -/
def frontiers (layout : WalLayout) (log : Lineage) : List Nat :=
  ((log.survivors fun _ => .missing).inits.filter fun front =>
      decide (OpenBatch.closed.run (framesOf front) = OpenBatch.closed)).map fun front =>
    (front.getLast?.map (Slot.stop layout)).getD 0

/-- Crash and recover; none where replay cannot start there. -/
def crash (layout : WalLayout) (log : Lineage) (start : Nat) (fate : Nat → Fate) :
    Option (Recovered Nat) :=
  if (log.frontiers layout).contains start then recover layout (log.crashDisk layout fate) start
  else none

/-- The log a recovery leaves to its writer. -/
def reopened (log : Lineage) (fate : Nat → Fate) (recovered : Recovered Nat) : Lineage :=
  let whole := log.regions.takeWhile (Region.survives fate)
  let remaining := (log.survivors fate).drop (whole.flatMap Region.all).length
  { disk := recovered.disk
    regions := whole.map fun region => { region with released := true }
    dangling := remaining.filter fun slot => decide (slot.offset < recovered.position)
    position := recovered.position
    cuts := log.cuts ++ [recovered.position] }

def step (layout : WalLayout) (log : Lineage) : Event → Option Lineage
  | .write write =>
      (multiWrite layout log.cuts.length log.position write.entries).map fun written =>
        { log with
          regions := log.regions ++ [⟨write, log.dangling, written.1, false⟩]
          dangling := []
          position := written.2 }
  | .release index =>
      match log.regions.drop index with
      | region :: rest =>
          if region.released then none
          else
            some { log with
              disk := region.slots.foldl (settle layout fun _ => .whole) log.disk
              regions := log.regions.take index ++ { region with released := true } :: rest }
      | [] => none
  | .mapFile file => some { log with disk := { log.disk with files := file :: log.disk.files } }
  | .crash start fate => (log.crash layout start fate).map (log.reopened fate)

/-! ## What a crash leaves -/

theorem fst_items (log : Lineage) (fate : Nat → Fate) :
    (log.items fate).map Prod.fst = log.slots := by
  simp only [items, slots, Region.items, List.map_append, List.map_flatMap, List.map_map,
    Function.comp_def, List.map_id']
  rfl

/-- A crash adds to what is known to be on disk the items it leaves whole. -/
theorem items_eq_map (log : Lineage) (fate : Nat → Fate) :
    log.items fate = (log.items fun _ => .missing).map fun item =>
      (item.1, item.2 || decide (fate item.1.offset = .whole)) := by
  have inRegion : Region.items fate = fun region => (region.items fun _ => .missing).map fun item =>
      (item.1, item.2 || decide (fate item.1.offset = .whole)) := by
    funext region
    simp [Region.items, Function.comp_def]
  simp [items, List.map_flatMap, inRegion, Function.comp_def]

/-- A slot that is known to be on disk. -/
def Durable (log : Lineage) (slot : Slot Nat) : Prop := (slot, true) ∈ log.items fun _ => .missing

theorem mem_unsettled {log : Lineage} {slot : Slot Nat} :
    slot ∈ log.unsettled ↔ (slot, false) ∈ log.items fun _ => .missing := by
  simp [unsettled]

/-- What is on disk after a crash: what was there, and what the crash left whole. -/
theorem mem_items_true {log : Lineage} {fate : Nat → Fate} {slot : Slot Nat} :
    (slot, true) ∈ log.items fate ↔
      log.Durable slot ∨ slot ∈ log.unsettled ∧ fate slot.offset = .whole := by
  rw [items_eq_map, List.mem_map, mem_unsettled, Durable]
  constructor
  · rintro ⟨⟨slot, known⟩, member, same⟩
    simp only [Prod.mk.injEq] at same
    obtain ⟨rfl, left⟩ := same
    cases known with
    | true => exact Or.inl member
    | false => exact Or.inr ⟨member, by simpa using left⟩
  · rintro (member | ⟨member, whole⟩)
    · exact ⟨_, member, rfl⟩
    · exact ⟨_, member, by simp [whole]⟩

/-- Settling slots that are not on disk puts those there that come out whole. -/
theorem exactly_settle (layout : WalLayout) (fate : Nat → Fate) {all : List (Slot Nat)}
    (apart : Apart all) {settled : List (Slot Nat)} (members : ∀ slot ∈ settled, slot ∈ all)
    (nodup : (settled.map Slot.offset).Nodup) {disk : Disk Nat} {held : Slot Nat → Prop}
    (exact : disk.Exactly held) (inside : ∀ slot, held slot → slot ∈ all)
    (fresh : ∀ slot ∈ settled, ∀ other, held other → other.offset ≠ slot.offset) :
    (settled.foldl (settle layout fate) disk).Exactly fun slot =>
      held slot ∨ slot ∈ settled ∧ fate slot.offset = .whole := by
  induction settled generalizing disk held with
  | nil => exact exact.congr fun slot => by simp
  | cons first rest ih =>
      obtain ⟨apartFirst, others⟩ := List.nodup_cons.mp nodup
      have inAll := members first List.mem_cons_self
      have freshFirst := fresh first List.mem_cons_self
      have membersRest : ∀ slot ∈ rest, slot ∈ all := fun slot member =>
        members slot (List.mem_cons_of_mem _ member)
      have freshRest : ∀ slot ∈ rest, ∀ other, held other → other.offset ≠ slot.offset :=
        fun slot member => fresh slot (List.mem_cons_of_mem _ member)
      rw [List.foldl_cons]
      -- Where the slot does not come out whole, the disk holds what it held.
      have unchanged : fate first.offset ≠ .whole →
          ∀ disk' : Disk Nat, disk'.Exactly held →
            (rest.foldl (settle layout fate) disk').Exactly fun slot =>
              held slot ∨ slot ∈ first :: rest ∧ fate slot.offset = .whole := by
        intro lost disk' exact'
        refine (ih membersRest others exact' inside freshRest).congr fun slot => ?_
        refine or_congr Iff.rfl ⟨fun both => ⟨List.mem_cons_of_mem _ both.1, both.2⟩, ?_⟩
        rintro ⟨member, whole⟩
        rcases List.mem_cons.mp member with rfl | later
        · exact absurd whole lost
        · exact ⟨later, whole⟩
      unfold settle
      cases outcome : fate first.offset with
      | missing => exact unchanged (by rw [outcome]; nofun) disk exact
      | torn =>
          exact unchanged (by rw [outcome]; nofun) _
            (exact.wipe_slot apart inside inAll freshFirst)
      | whole =>
          have added := exact.write_slot layout apart inside inAll freshFirst
          refine (ih membersRest others added ?_ ?_).congr fun slot => ?_
          · rintro slot (isHeld | rfl)
            · exact inside slot isHeld
            · exact inAll
          · rintro slot member other (isHeld | rfl)
            · exact freshRest slot member other isHeld
            · exact fun same => apartFirst (List.mem_map.mpr ⟨slot, member, same.symm⟩)
          · rw [List.mem_cons]
            constructor
            · rintro ((isHeld | rfl) | ⟨member, whole⟩)
              · exact Or.inl isHeld
              · exact Or.inr ⟨Or.inl rfl, outcome⟩
              · exact Or.inr ⟨Or.inr member, whole⟩
            · rintro (isHeld | ⟨rfl | member, whole⟩)
              · exact Or.inl (Or.inl isHeld)
              · exact Or.inl (Or.inr rfl)
              · exact Or.inr ⟨member, whole⟩

theorem filed_settle {layout : WalLayout} (fate : Nat → Fate) (settled : List (Slot Nat))
    {disk : Disk Nat} (filed : disk.Filed layout) :
    (settled.foldl (settle layout fate) disk).Filed layout := by
  induction settled generalizing disk with
  | nil => exact filed
  | cons first rest ih =>
      refine ih ?_
      unfold settle
      split
      · exact filed.write _ _ _
      · exact filed.wipe _ _
      · exact filed

end Lineage

end Tidehunter.Wal
