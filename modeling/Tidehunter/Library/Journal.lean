import Mathlib

/-!
# Operations in an overlay

Each operation on an object has an offset and an effect, and the newest one decides what is
read. A store holds recent operations in an overlay and one value under it for the others.

Two frontiers describe how far a store has settled. All operations from `bound` on are in the
overlay, and the value under it is right for readers as of `shown` or later.
-/

namespace Tidehunter.Library

universe u v

structure Journal (Op : Type u) (V : Type v) where
  offset : Op → Nat
  effect : Op → V
  /-- What is read where nothing was done. -/
  absent : V

namespace Journal

variable {Op : Type u} {V : Type v} (journal : Journal Op V)

/-! ## Reads as of a frontier -/

def IsLatestBelow (ops : Set Op) (frontier : Nat) (op : Op) : Prop :=
  op ∈ ops ∧ journal.offset op < frontier ∧
    ∀ other ∈ ops, journal.offset other < frontier → journal.offset other ≤ journal.offset op

/-- A read finds the newest operation below its frontier, or the value under the operations. -/
def Reads (ops : Set Op) (under : V) (frontier : Nat) (value : V) : Prop :=
  (∃ op, journal.IsLatestBelow ops frontier op ∧ value = journal.effect op) ∨
    (∀ op ∈ ops, frontier ≤ journal.offset op) ∧ value = under

/-- The outcome of a whole history as of a frontier. -/
def Shows (history : Set Op) (frontier : Nat) (value : V) : Prop :=
  journal.Reads history journal.absent frontier value

variable {journal}

/-- Operations at or above the frontier do not matter. -/
theorem Reads.congr_below {ops others : Set Op} {under value : V} {frontier : Nat}
    (reads : journal.Reads ops under frontier value)
    (agree : ∀ op, journal.offset op < frontier → (op ∈ others ↔ op ∈ ops)) :
    journal.Reads others under frontier value := by
  rcases reads with ⟨op, ⟨member, below, greatest⟩, rfl⟩ | ⟨above, rfl⟩
  · refine Or.inl ⟨op, ⟨(agree op below).mpr member, below, ?_⟩, rfl⟩
    exact fun other inside less => greatest other ((agree other less).mp inside) less
  · refine Or.inr ⟨fun op inside => ?_, rfl⟩
    by_contra less
    exact less (above op ((agree op (Nat.lt_of_not_le less)).mp inside))

/-- A frontier may move over offsets no operation has. -/
theorem Reads.of_gap {ops : Set Op} {under value : V} {lower upper frontier other : Nat}
    (reads : journal.Reads ops under frontier value)
    (gap : ∀ op ∈ ops, journal.offset op < lower ∨ upper ≤ journal.offset op)
    (isLower : lower ≤ frontier ∧ frontier ≤ upper) (otherLower : lower ≤ other ∧ other ≤ upper) :
    journal.Reads ops under other value := by
  have same : ∀ op ∈ ops, journal.offset op < frontier ↔ journal.offset op < other := by
    intro op member
    rcases gap op member with less | more
    · exact ⟨fun _ => less.trans_le otherLower.1, fun _ => less.trans_le isLower.1⟩
    · exact ⟨fun less => absurd (isLower.2.trans more) (Nat.not_le.mpr less),
        fun less => absurd (otherLower.2.trans more) (Nat.not_le.mpr less)⟩
  rcases reads with ⟨op, ⟨member, below, greatest⟩, rfl⟩ | ⟨above, rfl⟩
  · refine Or.inl ⟨op, ⟨member, (same op member).mp below, ?_⟩, rfl⟩
    exact fun another inside less => greatest another inside ((same another inside).mpr less)
  · refine Or.inr ⟨fun op member => ?_, rfl⟩
    exact Nat.le_of_not_lt fun less => (above op member).not_gt ((same op member).mpr less)

/-! ## Buffered histories -/

variable (journal)

structure Buffered (history : Set Op) (bound shown : Nat) (overlay : Set Op) (under : V) :
    Prop where
  ordered : bound ≤ shown
  unique : ∀ first ∈ history, ∀ second ∈ history,
    journal.offset first = journal.offset second → first = second
  subset : ∀ op ∈ overlay, op ∈ history
  kept : ∀ op ∈ history, bound ≤ journal.offset op → op ∈ overlay
  upward : ∀ op ∈ overlay, ∀ other ∈ history,
    journal.offset op ≤ journal.offset other → other ∈ overlay
  settled : (∀ op ∈ overlay, shown ≤ journal.offset op) → journal.Shows history shown under

/-- A value that is right for the operations below `bound`, if none came from there up to
`shown`. -/
def Settles (history : Set Op) (bound shown : Nat) (value : V) : Prop :=
  (∀ op ∈ history, journal.offset op < bound ∨ shown ≤ journal.offset op) →
    journal.Shows history bound value

variable {journal}

namespace Buffered

variable {history overlay : Set Op} {bound shown : Nat} {under : V}

theorem empty (ordered : bound ≤ shown) :
    journal.Buffered ∅ bound shown ∅ journal.absent where
  ordered := ordered
  unique := nofun
  subset := nofun
  kept := nofun
  upward := nofun
  settled := fun _ => Or.inr ⟨nofun, rfl⟩

/-- A read of the store is the outcome of the whole history. -/
theorem shows (buffered : journal.Buffered history bound shown overlay under) {frontier : Nat}
    {value : V} (late : shown ≤ frontier) (reads : journal.Reads overlay under frontier value) :
    journal.Shows history frontier value := by
  rcases reads with ⟨op, ⟨member, below, greatest⟩, rfl⟩ | ⟨above, rfl⟩
  · refine Or.inl ⟨op, ⟨buffered.subset op member, below, fun other inside less => ?_⟩, rfl⟩
    by_contra more
    exact more (greatest other
      (buffered.upward op member other inside (Nat.le_of_not_le more)) less)
  · refine Reads.of_gap (buffered.settled fun op member => late.trans (above op member)) ?_
      ⟨le_refl shown, late⟩ ⟨late, le_refl frontier⟩
    intro op member
    rcases Nat.lt_or_ge (journal.offset op) shown with less | more
    · exact Or.inl less
    · exact Or.inr (above op (buffered.kept op member (buffered.ordered.trans more)))

theorem write (buffered : journal.Buffered history bound shown overlay under) {op : Op}
    (fresh : ∀ other ∈ history, journal.offset other ≠ journal.offset op)
    (above : bound ≤ journal.offset op) :
    journal.Buffered (insert op history) bound shown (insert op overlay) under where
  ordered := buffered.ordered
  unique := by
    rintro first (rfl | inFirst) second (rfl | inSecond) same
    · rfl
    · exact absurd same.symm (fresh second inSecond)
    · exact absurd same (fresh first inFirst)
    · exact buffered.unique first inFirst second inSecond same
  subset := by
    rintro other (rfl | member)
    · exact Or.inl rfl
    · exact Or.inr (buffered.subset other member)
  kept := by
    rintro other (rfl | member) high
    · exact Or.inl rfl
    · exact Or.inr (buffered.kept other member high)
  upward := by
    rintro lower (rfl | inLower) other (rfl | inOther) less
    · exact Or.inl rfl
    · exact Or.inr (buffered.kept other inOther (above.trans less))
    · exact Or.inl rfl
    · exact Or.inr (buffered.upward lower inLower other inOther less)
  settled := by
    intro high
    refine (buffered.settled fun other member => high other (Or.inr member)).congr_below ?_
    intro other less
    refine ⟨fun member => ?_, Or.inr⟩
    rcases member with rfl | member
    · exact absurd (high other (Or.inl rfl)) (Nat.not_le.mpr less)
    · exact member

/-- The frontiers grow. -/
theorem advance (buffered : journal.Buffered history bound shown overlay under)
    {later laterShown : Nat} (grows : bound ≤ later) (shows : shown ≤ laterShown)
    (ordered : later ≤ laterShown) : journal.Buffered history later laterShown overlay under where
  ordered := ordered
  unique := buffered.unique
  subset := buffered.subset
  kept := fun op member high => buffered.kept op member (grows.trans high)
  upward := buffered.upward
  settled := fun high => buffered.shows shows (Or.inr ⟨high, rfl⟩)

/-- The value under the overlay changes. -/
theorem replace (buffered : journal.Buffered history bound shown overlay under) {value : V}
    (settled : (∀ op ∈ overlay, shown ≤ journal.offset op) → journal.Shows history shown value) :
    journal.Buffered history bound shown overlay value :=
  { buffered with settled := settled }

/-- The newest operation of the overlay moves under it, where it lies below `bound`. -/
theorem promote (buffered : journal.Buffered history bound shown overlay under) {op : Op}
    (member : op ∈ overlay) (below : journal.offset op < bound)
    (latest : ∀ other ∈ overlay, journal.offset other ≤ journal.offset op) :
    journal.Buffered history bound shown ∅ (journal.effect op) where
  ordered := buffered.ordered
  unique := buffered.unique
  subset := nofun
  kept := fun other inside high =>
    absurd (latest other (buffered.kept other inside high)) (Nat.not_le.mpr (below.trans_le high))
  upward := nofun
  settled := fun _ => buffered.shows (le_refl shown)
    (Or.inl ⟨op, ⟨member, below.trans_le buffered.ordered, fun other inside _ => latest other inside⟩,
      rfl⟩)

/-- The overlay holds every operation from `bound` on, so it tells whether there are any. -/
theorem quiet (buffered : journal.Buffered history bound shown overlay under)
    (high : ∀ op ∈ overlay, bound ≤ journal.offset op → shown ≤ journal.offset op) :
    ∀ op ∈ history, journal.offset op < bound ∨ shown ≤ journal.offset op := by
  intro op member
  rcases Nat.lt_or_ge (journal.offset op) bound with less | more
  · exact Or.inl less
  · exact Or.inr (high op (buffered.kept op member more) more)

/-- A value that settles the operations below `bound` is right for later readers too, where no
operation came in between. -/
theorem shows_of_settles (buffered : journal.Buffered history bound shown overlay under) {value : V}
    (settles : journal.Settles history bound shown value)
    (high : ∀ op ∈ overlay, bound ≤ journal.offset op → shown ≤ journal.offset op) :
    journal.Shows history shown value :=
  (settles (buffered.quiet high)).of_gap (buffered.quiet high) ⟨le_refl bound, buffered.ordered⟩
    ⟨buffered.ordered, le_refl shown⟩

/-- All operations below `bound` leave the overlay. -/
theorem drain (buffered : journal.Buffered history bound shown overlay under) {remaining : Set Op}
    (remains : ∀ op, op ∈ remaining ↔ op ∈ overlay ∧ bound ≤ journal.offset op) {value : V}
    (settles : journal.Settles history bound shown value) :
    journal.Buffered history bound shown remaining value where
  ordered := buffered.ordered
  unique := buffered.unique
  subset := fun op member => buffered.subset op ((remains op).mp member).1
  kept := fun op member high => (remains op).mpr ⟨buffered.kept op member high, high⟩
  upward := by
    intro op member other inside less
    obtain ⟨held, high⟩ := (remains op).mp member
    exact (remains other).mpr ⟨buffered.upward op held other inside less, high.trans less⟩
  settled := fun high => buffered.shows_of_settles settles fun op member more =>
    high op ((remains op).mpr ⟨member, more⟩)

/-- What was read from an earlier state of the store. -/
theorem settles {earlier : Set Op}
    (buffered : journal.Buffered earlier bound shown overlay under) {frontier : Nat} {value : V}
    (late : shown ≤ frontier) (reads : journal.Reads overlay under frontier value)
    (subset : ∀ op ∈ earlier, op ∈ history)
    (added : ∀ op ∈ history, op ∈ earlier ∨ bound ≤ journal.offset op) :
    journal.Settles history bound frontier value := by
  intro quiet
  have atBound : journal.Shows earlier bound value :=
    (buffered.shows late reads).of_gap (fun op member => quiet op (subset op member))
      ⟨buffered.ordered.trans late, le_refl frontier⟩ ⟨le_refl bound, buffered.ordered.trans late⟩
  refine atBound.congr_below fun op less => ⟨fun member => ?_, subset op⟩
  exact (added op member).resolve_right (Nat.not_le.mpr less)

end Buffered

namespace Settles

variable {history : Set Op} {bound shown : Nat} {value : V}

theorem advance (settles : journal.Settles history bound shown value) {later : Nat}
    (grows : shown ≤ later) : journal.Settles history bound later value :=
  fun quiet => settles fun op member => (quiet op member).imp_right grows.trans

theorem lower (settles : journal.Settles history bound shown value) {lower : Nat}
    (below : lower ≤ bound) (ordered : bound ≤ shown) :
    journal.Settles history lower shown value := by
  intro quiet
  have inside : ∀ op ∈ history, journal.offset op < bound ∨ shown ≤ journal.offset op :=
    fun op member => (quiet op member).imp_left fun less => less.trans_le below
  exact (settles inside).of_gap quiet ⟨below, ordered⟩ ⟨le_refl lower, below.trans ordered⟩

end Settles

end Journal

end Tidehunter.Library
