import Tidehunter.Db.Records
import Tidehunter.KeyShape.Cells
import Mathlib

/-!
# The registry of key spaces

The id of a key space is its place in the registry. An open matches the declared key spaces
against the registry by name: a declared one takes the place that its name has, one that is not
declared keeps its place, a destroyed one keeps its place and matches no name, and new ones are
appended.
-/

namespace Tidehunter.KeyShape

open Library Wal

deriving instance DecidableEq for UniformKeyConfig
deriving instance DecidableEq for PrefixedUniformKeyConfig
deriving instance DecidableEq for KeyType

/-- What decides where the data of a key space is; it cannot be changed. -/
structure KsLayout where
  mutexes : Nat
  keyType : KeyType
  keyIndexing : Db.KeyIndexing
  deriving DecidableEq

/-- A key space of the registry. A destroyed one is a tombstone. -/
structure RegistryEntry where
  name : String
  layout : KsLayout
  destroyed : Bool
  deriving DecidableEq

/-- A key space of a declared shape. -/
structure Declared where
  name : String
  layout : KsLayout
  deriving DecidableEq

def Declared.entry (declared : Declared) : RegistryEntry := ⟨declared.name, declared.layout, false⟩

/-- Ids stay below the largest byte. -/
def maxKeySpaces : Nat := 255

/-! ## The canonical order -/

/-- The key spaces placed so far, the handles of the declared ones among them, and the declared
ones that have no place yet. -/
structure Canonical where
  ordered : List RegistryEntry
  exposed : List (String × Nat)
  remaining : List Declared

namespace Canonical

/-- The next id. None is the panic on too many key spaces. -/
def nextId (canonical : Canonical) : Option Nat :=
  if canonical.ordered.length < maxKeySpaces then some canonical.ordered.length else none

def takeDeclared (remaining : List Declared) (name : String) :
    Option (Declared × List Declared) :=
  (remaining.find? fun declared => declared.name = name).map fun declared =>
    (declared, remaining.eraseP fun declared => declared.name = name)

/-- Give a key space of the registry its place. None is a panic. -/
def placeRegistered (canonical : Canonical) (registered : RegistryEntry) : Option Canonical :=
  canonical.nextId.bind fun id =>
    if registered.destroyed then
      some { canonical with ordered := canonical.ordered ++ [registered] }
    else
      match takeDeclared canonical.remaining registered.name with
      | some (declared, remaining) =>
          if declared.layout = registered.layout then
            some ⟨canonical.ordered ++ [declared.entry],
              canonical.exposed ++ [(declared.name, id)], remaining⟩
          else none
      | none => some { canonical with ordered := canonical.ordered ++ [registered] }

/-- Append a new key space. -/
def appendDeclared (canonical : Canonical) (declared : Declared) : Option Canonical :=
  canonical.nextId.map fun id =>
    { canonical with
      ordered := canonical.ordered ++ [declared.entry]
      exposed := canonical.exposed ++ [(declared.name, id)] }

end Canonical

/-- The canonical shape, the handles of the declared key spaces, and whether key spaces were
appended. None is a panic. -/
def reorderToCanonical (declared : List Declared) (registry : Option (List RegistryEntry)) :
    Option (List RegistryEntry × List (String × Nat) × Bool) :=
  ((registry.getD []).foldlM Canonical.placeRegistered ⟨[], [], declared⟩).bind fun placed =>
    (placed.remaining.foldlM Canonical.appendDeclared placed).map fun final =>
      (final.ordered, final.exposed, !placed.remaining.isEmpty)

/-- The same with whether the registry has to be written. -/
def reconcileKeyShape (registry : Option (List RegistryEntry)) (declared : List Declared) :
    Option (List RegistryEntry × List (String × Nat) × Bool) :=
  (reorderToCanonical declared registry).map fun (shape, exposed, changed) =>
    (shape, exposed, registry.isNone || changed)

/-! ## Names and places -/

/-- The names that are taken. -/
def liveNames (registry : List RegistryEntry) : List String :=
  (registry.filter fun entry => !entry.destroyed).map RegistryEntry.name

/-- The declared key spaces that the registry does not have. -/
def newKeySpaces (declared : List Declared) (registry : List RegistryEntry) : List Declared :=
  declared.filter fun entry => entry.name ∉ liveNames registry

/-- A declared shape fits the registry: its names are distinct, known key spaces have their
layouts, and there is room for the new ones. -/
structure Fits (declared : List Declared) (registry : List RegistryEntry) : Prop where
  distinct : (declared.map Declared.name).Nodup
  layouts : ∀ entry ∈ declared, ∀ registered ∈ registry, registered.destroyed = false →
    registered.name = entry.name → entry.layout = registered.layout
  room : registry.length + (newKeySpaces declared registry).length ≤ maxKeySpaces

/-- The handles are those of some names, each the place of a key space of that name. -/
structure Exposes (exposed : List (String × Nat)) (isExposed : String → Prop)
    (registry : List RegistryEntry) : Prop where
  exactly : ∀ name, name ∈ exposed.map Prod.fst ↔ isExposed name
  distinct : (exposed.map Prod.fst).Nodup
  places : ∀ handle ∈ exposed, ∃ entry, registry[handle.2]? = some entry ∧
    entry.name = handle.1 ∧ entry.destroyed = false

theorem liveNames_append (registry more : List RegistryEntry) :
    liveNames (registry ++ more) = liveNames registry ++ liveNames more := by
  rw [liveNames, List.filter_append, List.map_append]
  rfl

theorem liveNames_entries (declared : List Declared) :
    liveNames (declared.map Declared.entry) = declared.map Declared.name := by
  induction declared with
  | nil => rfl
  | cons first rest ih =>
      rw [List.map_cons, List.map_cons, ← ih]
      rfl

section Exposes

variable {exposed : List (String × Nat)} {isExposed other : String → Prop}
  {registry : List RegistryEntry}

theorem Exposes.append (exposes : Exposes exposed isExposed registry)
    (same : ∀ name, isExposed name ↔ other name) (more : List RegistryEntry) :
    Exposes exposed other (registry ++ more) := by
  refine ⟨fun name => (exposes.exactly name).trans (same name), exposes.distinct,
    fun handle member => ?_⟩
  obtain ⟨entry, atPlace, isNamed, live⟩ := exposes.places handle member
  refine ⟨entry, ?_, isNamed, live⟩
  rw [List.getElem?_append_left (List.getElem?_eq_some_iff.mp atPlace).1, atPlace]

theorem Exposes.concat (exposes : Exposes exposed isExposed registry) (declared : Declared)
    (fresh : ¬isExposed declared.name)
    (one : ∀ name, other name ↔ isExposed name ∨ name = declared.name) :
    Exposes (exposed ++ [(declared.name, registry.length)]) other
      (registry ++ [declared.entry]) := by
  refine ⟨fun name => ?_, ?_, fun handle member => ?_⟩
  · rw [List.map_append, List.mem_append, exposes.exactly, one]
    exact or_congr_right List.mem_singleton
  · rw [List.map_append, List.nodup_append]
    refine ⟨exposes.distinct, List.pairwise_singleton _ _, fun name member last isLast same => ?_⟩
    have isName : name = declared.name := same.trans (List.mem_singleton.mp isLast)
    exact fresh ((exposes.exactly _).mp (isName ▸ member))
  · rcases List.mem_append.mp member with old | new
    · exact (exposes.append (fun _ => Iff.rfl) [declared.entry]).places handle old
    · obtain rfl := List.mem_singleton.mp new
      exact ⟨declared.entry, List.getElem?_concat_length, rfl, rfl⟩

end Exposes

/-! ## The order is kept -/

/-- With distinct names, taking one out is leaving out its name. -/
theorem eraseP_eq_filter {declared : List Declared} (distinct : (declared.map Declared.name).Nodup)
    (name : String) :
    declared.eraseP (fun entry => entry.name = name) =
      declared.filter fun entry => entry.name ≠ name := by
  induction declared with
  | nil => rfl
  | cons first rest ih =>
      rw [List.map_cons, List.nodup_cons] at distinct
      by_cases isName : first.name = name
      · rw [List.eraseP_cons_of_pos (by simp [isName]), List.filter_cons_of_neg (by simp [isName])]
        refine (List.filter_eq_self.mpr fun entry member => ?_).symm
        refine decide_eq_true fun same => distinct.1 ?_
        rw [isName, ← same]
        exact List.mem_map_of_mem member
      · rw [List.eraseP_cons_of_neg (by simp [isName]),
          List.filter_cons_of_pos (by simp [isName]), ih distinct.2]

/-- The key spaces of a part of the registry have their places. -/
structure Placed (declared : List Declared) (done : List RegistryEntry) (canonical : Canonical) :
    Prop where
  ordered : canonical.ordered = done
  remaining : canonical.remaining = newKeySpaces declared done
  exposes : Exposes canonical.exposed
    (fun name => name ∈ declared.map Declared.name ∧ name ∈ liveNames done) done

section Placing

variable {declared : List Declared} {done : List RegistryEntry} {canonical : Canonical}
  {registered : RegistryEntry}

theorem placeRegistered_destroyed (placed : Placed declared done canonical)
    (room : done.length < maxKeySpaces) (destroyed : registered.destroyed = true) :
    ∃ next, canonical.placeRegistered registered = some next ∧
      Placed declared (done ++ [registered]) next := by
  have sameNames : liveNames (done ++ [registered]) = liveNames done := by
    rw [liveNames_append, liveNames, liveNames, List.filter_cons_of_neg (by simp [destroyed])]
    exact List.append_nil _
  refine ⟨{ canonical with ordered := canonical.ordered ++ [registered] }, ?_, ?_, ?_, ?_⟩
  · rw [Canonical.placeRegistered, Canonical.nextId, placed.ordered, if_pos room, Option.bind_some,
      if_pos destroyed]
  · rw [placed.ordered]
  · rw [placed.remaining, newKeySpaces, newKeySpaces, sameNames]
  · exact placed.exposes.append (fun name => by rw [sameNames]) _

theorem placeRegistered_live (distinct : (declared.map Declared.name).Nodup)
    (layouts : ∀ entry ∈ declared, registered.name = entry.name →
      entry.layout = registered.layout)
    (placed : Placed declared done canonical) (room : done.length < maxKeySpaces)
    (live : registered.destroyed = false) (fresh : registered.name ∉ liveNames done) :
    ∃ next, canonical.placeRegistered registered = some next ∧
      Placed declared (done ++ [registered]) next := by
  have oneMore : liveNames (done ++ [registered]) = liveNames done ++ [registered.name] := by
    rw [liveNames_append, liveNames, liveNames, List.filter_cons_of_pos (by simp [live])]
    rfl
  have remains : newKeySpaces declared (done ++ [registered]) =
      canonical.remaining.filter fun entry => entry.name ≠ registered.name := by
    rw [placed.remaining, newKeySpaces, newKeySpaces, oneMore, List.filter_filter]
    refine List.filter_congr fun entry _ => ?_
    simp [and_comm]
  rw [Canonical.placeRegistered, Canonical.nextId, placed.ordered, if_pos room, Option.bind_some,
    if_neg (by simp [live]), Canonical.takeDeclared]
  cases found : canonical.remaining.find? fun entry => entry.name = registered.name with
  | none =>
      have noOther : ∀ entry ∈ canonical.remaining, entry.name ≠ registered.name := fun entry member
        => by simpa using List.find?_eq_none.mp found entry member
      refine ⟨_, rfl, rfl, ?_, placed.exposes.append (fun name => ?_) _⟩
      · rw [remains]
        exact (List.filter_eq_self.mpr fun entry member => decide_eq_true (noOther entry member)).symm
      · rw [oneMore, List.mem_append, List.mem_singleton]
        refine and_congr_right fun isDeclared => ⟨.inl, fun either => either.resolve_right ?_⟩
        rintro rfl
        obtain ⟨entry, member, isNamed⟩ := List.mem_map.mp isDeclared
        refine noOther entry ?_ isNamed
        rw [placed.remaining, newKeySpaces, List.mem_filter]
        exact ⟨member, decide_eq_true (isNamed ▸ fresh)⟩
  | some entry =>
      have inRemaining := List.mem_of_find?_eq_some found
      have isNamed : entry.name = registered.name := by
        simpa using List.find?_some found
      have isDeclared : entry ∈ declared := by
        rw [placed.remaining] at inRemaining
        exact (List.mem_filter.mp inRemaining).1
      have sameLayout := layouts entry isDeclared isNamed.symm
      have sameEntry : entry.entry = registered := by
        cases registered
        cases entry
        simp_all [Declared.entry]
      have remainingDistinct : (canonical.remaining.map Declared.name).Nodup := by
        rw [placed.remaining]
        exact distinct.sublist (List.filter_sublist.map _)
      simp only [Option.map_some]
      rw [if_pos sameLayout]
      refine ⟨_, rfl, by rw [sameEntry], ?_, ?_⟩
      · rw [remains, eraseP_eq_filter remainingDistinct]
      · have exposes : Exposes (canonical.exposed ++ [(entry.name, done.length)])
            (fun name => name ∈ declared.map Declared.name ∧
              name ∈ liveNames (done ++ [registered])) (done ++ [entry.entry]) := by
          refine placed.exposes.concat entry (fun both => fresh (isNamed ▸ both.2)) fun name => ?_
          rw [oneMore, List.mem_append, List.mem_singleton, isNamed]
          constructor
          · rintro ⟨inDeclared, old | new⟩
            · exact .inl ⟨inDeclared, old⟩
            · exact .inr new
          · rintro (⟨inDeclared, old⟩ | rfl)
            · exact ⟨inDeclared, .inl old⟩
            · exact ⟨isNamed ▸ List.mem_map_of_mem isDeclared, .inr rfl⟩
        exact sameEntry ▸ exposes

/-- A live key space is placed only with its layout. -/
theorem layout_of_placeRegistered (distinct : (declared.map Declared.name).Nodup)
    (placed : Placed declared done canonical) (live : registered.destroyed = false)
    (fresh : registered.name ∉ liveNames done) {next : Canonical}
    (places : canonical.placeRegistered registered = some next) :
    ∀ entry ∈ declared, registered.name = entry.name → entry.layout = registered.layout := by
  intro entry member isNamed
  have inRemaining : entry ∈ canonical.remaining := by
    rw [placed.remaining, newKeySpaces, List.mem_filter]
    exact ⟨member, decide_eq_true (isNamed ▸ fresh)⟩
  have found : canonical.remaining.find? (fun other => other.name = registered.name) =
      some entry := by
    have isFound : (canonical.remaining.find? fun other => other.name = registered.name).isSome :=
      List.find?_isSome.mpr ⟨entry, inRemaining, decide_eq_true isNamed.symm⟩
    obtain ⟨other, found⟩ := Option.isSome_iff_exists.mp isFound
    have isOther : other.name = registered.name := by simpa using List.find?_some found
    have otherDeclared : other ∈ declared := by
      have inRest := List.mem_of_find?_eq_some found
      rw [placed.remaining] at inRest
      exact (List.mem_filter.mp inRest).1
    rw [found, List.inj_on_of_nodup_map distinct otherDeclared member (isOther.trans isNamed)]
  rw [Canonical.placeRegistered, Canonical.takeDeclared, found] at places
  obtain ⟨id, -, places⟩ := Option.bind_eq_some_iff.mp places
  rw [if_neg (by simp [live])] at places
  by_contra differ
  rw [Option.map_some] at places
  simp only [if_neg differ] at places
  exact absurd places nofun

theorem room_of_placeRegistered {next : Canonical}
    (places : canonical.placeRegistered registered = some next) :
    canonical.ordered.length < maxKeySpaces := by
  obtain ⟨id, given, -⟩ := Option.bind_eq_some_iff.mp places
  by_contra full
  rw [Canonical.nextId, if_neg full] at given
  exact absurd given nofun

end Placing

/-- Placing the rest of the registry succeeds exactly when there is room and the layouts match. -/
theorem placeRegistered_run {declared : List Declared}
    (distinct : (declared.map Declared.name).Nodup) {done rest : List RegistryEntry}
    {canonical : Canonical} (placed : Placed declared done canonical)
    (names : (liveNames (done ++ rest)).Nodup) (room : done.length ≤ maxKeySpaces) :
    (∀ final, rest.foldlM Canonical.placeRegistered canonical = some final →
      Placed declared (done ++ rest) final ∧ (done ++ rest).length ≤ maxKeySpaces ∧
      ∀ entry ∈ declared, ∀ registered ∈ rest, registered.destroyed = false →
        registered.name = entry.name → entry.layout = registered.layout) ∧
    ((done ++ rest).length ≤ maxKeySpaces →
      (∀ entry ∈ declared, ∀ registered ∈ rest, registered.destroyed = false →
        registered.name = entry.name → entry.layout = registered.layout) →
      (rest.foldlM Canonical.placeRegistered canonical).isSome) := by
  induction rest generalizing done canonical with
  | nil =>
      rw [List.append_nil]
      refine ⟨fun final ran => ?_, fun _ _ => rfl⟩
      obtain rfl := Option.some.inj ran
      exact ⟨placed, room, nofun⟩
  | cons registered rest ih =>
      have splits : done ++ registered :: rest = (done ++ [registered]) ++ rest := by simp
      have fresh : registered.destroyed = false → registered.name ∉ liveNames done := by
        intro live member
        rw [liveNames_append] at names
        have inRest : registered.name ∈ liveNames (registered :: rest) :=
          List.mem_map_of_mem (List.mem_filter.mpr ⟨List.mem_cons_self, by simp [live]⟩)
        exact (List.nodup_append.mp names).2.2 _ member _ inRest rfl
      have steps : done.length < maxKeySpaces →
          (registered.destroyed = false → ∀ entry ∈ declared, registered.name = entry.name →
            entry.layout = registered.layout) →
          ∃ next, canonical.placeRegistered registered = some next ∧
            Placed declared (done ++ [registered]) next := by
        intro hasRoom layouts
        cases live : registered.destroyed with
        | true => exact placeRegistered_destroyed placed hasRoom live
        | false =>
            exact placeRegistered_live distinct (layouts live) placed hasRoom live (fresh live)
      rw [splits] at names ⊢
      rw [List.foldlM_cons]
      constructor
      · intro final ran
        obtain ⟨next, places, ran⟩ := Option.bind_eq_some_iff.mp ran
        have hasRoom := placed.ordered ▸ room_of_placeRegistered places
        have layouts : registered.destroyed = false → ∀ entry ∈ declared,
            registered.name = entry.name → entry.layout = registered.layout := fun live =>
          layout_of_placeRegistered distinct placed live (fresh live) places
        obtain ⟨next', places', nextPlaced⟩ := steps hasRoom layouts
        obtain rfl := Option.some.inj (places.symm.trans places')
        obtain ⟨finalPlaced, finalRoom, restLayouts⟩ :=
          (ih nextPlaced names (by rw [List.length_append]; exact hasRoom)).1 final ran
        refine ⟨finalPlaced, finalRoom, fun entry member other inRest => ?_⟩
        rcases List.mem_cons.mp inRest with rfl | inRest
        · exact fun live => layouts live entry member
        · exact restLayouts entry member other inRest
      · intro finalRoom layouts
        have hasRoom : done.length < maxKeySpaces := by
          rw [List.length_append, List.length_append, List.length_singleton] at finalRoom
          omega
        obtain ⟨next, places, nextPlaced⟩ := steps hasRoom fun live entry member =>
          layouts entry member registered List.mem_cons_self live
        rw [places]
        refine (ih nextPlaced names (by rw [List.length_append]; exact hasRoom)).2 finalRoom ?_
        exact fun entry member other inRest =>
          layouts entry member other (List.mem_cons_of_mem _ inRest)

/-- Appending succeeds exactly when there is room. -/
theorem appendDeclared_run {news : List Declared} (distinct : (news.map Declared.name).Nodup)
    {canonical : Canonical} {isExposed : String → Prop}
    (exposes : Exposes canonical.exposed isExposed canonical.ordered)
    (fresh : ∀ entry ∈ news, ¬isExposed entry.name) (room : canonical.ordered.length ≤ maxKeySpaces) :
    (∀ final, news.foldlM Canonical.appendDeclared canonical = some final →
      final.ordered = canonical.ordered ++ news.map Declared.entry ∧
      canonical.ordered.length + news.length ≤ maxKeySpaces ∧
      Exposes final.exposed (fun name => isExposed name ∨ name ∈ news.map Declared.name)
        final.ordered) ∧
    (canonical.ordered.length + news.length ≤ maxKeySpaces →
      (news.foldlM Canonical.appendDeclared canonical).isSome) := by
  induction news generalizing canonical isExposed with
  | nil =>
      refine ⟨fun final ran => ?_, fun _ => rfl⟩
      obtain rfl := Option.some.inj ran
      refine ⟨(List.append_nil _).symm, room, ?_⟩
      exact List.append_nil canonical.ordered ▸
        exposes.append (fun name => by simp) []
  | cons first rest ih =>
      rw [List.map_cons, List.nodup_cons] at distinct
      obtain ⟨firstFresh, restFresh⟩ := List.forall_mem_cons.mp fresh
      rw [List.foldlM_cons, Canonical.appendDeclared, Canonical.nextId]
      by_cases hasRoom : canonical.ordered.length < maxKeySpaces
      · rw [if_pos hasRoom]
        obtain ⟨next, isNext⟩ : ∃ next : Canonical, next =
            ⟨canonical.ordered ++ [first.entry],
              canonical.exposed ++ [(first.name, canonical.ordered.length)],
              canonical.remaining⟩ := ⟨_, rfl⟩
        have ordered : next.ordered = canonical.ordered ++ [first.entry] := by rw [isNext]
        have nextLength : next.ordered.length = canonical.ordered.length + 1 := by
          rw [ordered, List.length_append, List.length_singleton]
        have nextExposes : Exposes next.exposed (fun name => isExposed name ∨ name = first.name)
            next.ordered := by
          rw [isNext]
          exact exposes.concat first firstFresh fun name => Iff.rfl
        have nextFresh : ∀ entry ∈ rest, ¬(isExposed entry.name ∨ entry.name = first.name) := by
          rintro entry member (isOld | isFirst)
          · exact restFresh entry member isOld
          · exact distinct.1 (isFirst ▸ List.mem_map_of_mem member)
        have continues := ih distinct.2 nextExposes nextFresh (nextLength ▸ hasRoom)
        rw [nextLength, ordered] at continues
        rw [List.length_cons, Option.map_some, ← isNext]
        refine ⟨fun final ran => ?_, fun finalRoom => continues.2 (by omega)⟩
        obtain ⟨finalOrdered, finalRoom, finalExposes⟩ := continues.1 final ran
        refine ⟨by rw [finalOrdered, List.map_cons, List.append_assoc]; rfl, by omega, ?_⟩
        refine List.append_nil final.ordered ▸ finalExposes.append (fun name => ?_) []
        rw [List.map_cons, List.mem_cons, or_assoc]
      · rw [if_neg hasRoom]
        refine ⟨fun final ran => absurd ran nofun, fun finalRoom => absurd finalRoom ?_⟩
        rw [List.length_cons]
        omega

/-! ## What an open makes of the registry -/

/-- The registry after an open. -/
def extended (declared : List Declared) (registry : List RegistryEntry) : List RegistryEntry :=
  registry ++ (newKeySpaces declared registry).map Declared.entry

section Reconcile

variable {declared : List Declared} {registry : Option (List RegistryEntry)}

private theorem placed_nil (declared : List Declared) : Placed declared [] ⟨[], [], declared⟩ := by
  refine ⟨rfl, ?_, fun name => ?_, List.Pairwise.nil, nofun⟩
  · exact (List.filter_eq_self.mpr fun entry _ => decide_eq_true List.not_mem_nil).symm
  · exact ⟨nofun, fun both => absurd both.2 List.not_mem_nil⟩

private theorem placed_registry {entries : List RegistryEntry}
    (distinct : (declared.map Declared.name).Nodup) (names : (liveNames entries).Nodup) :
    (∀ placed, entries.foldlM Canonical.placeRegistered ⟨[], [], declared⟩ = some placed →
      Placed declared entries placed ∧ entries.length ≤ maxKeySpaces ∧
      ∀ entry ∈ declared, ∀ registered ∈ entries, registered.destroyed = false →
        registered.name = entry.name → entry.layout = registered.layout) ∧
    (entries.length ≤ maxKeySpaces →
      (∀ entry ∈ declared, ∀ registered ∈ entries, registered.destroyed = false →
        registered.name = entry.name → entry.layout = registered.layout) →
      (entries.foldlM Canonical.placeRegistered ⟨[], [], declared⟩).isSome) :=
  placeRegistered_run distinct (placed_nil declared) names (Nat.zero_le _)

private theorem appended_news {entries : List RegistryEntry} {placed : Canonical}
    (distinct : (declared.map Declared.name).Nodup) (isPlaced : Placed declared entries placed)
    (room : entries.length ≤ maxKeySpaces) :
    (∀ final, placed.remaining.foldlM Canonical.appendDeclared placed = some final →
      final.ordered = extended declared entries ∧
      entries.length + (newKeySpaces declared entries).length ≤ maxKeySpaces ∧
      Exposes final.exposed (fun name => name ∈ declared.map Declared.name) final.ordered) ∧
    (entries.length + (newKeySpaces declared entries).length ≤ maxKeySpaces →
      (placed.remaining.foldlM Canonical.appendDeclared placed).isSome) := by
  have remainingDistinct : ((newKeySpaces declared entries).map Declared.name).Nodup :=
    distinct.sublist (List.filter_sublist.map _)
  have fresh : ∀ entry ∈ newKeySpaces declared entries,
      ¬(entry.name ∈ declared.map Declared.name ∧ entry.name ∈ liveNames entries) :=
    fun entry member both => of_decide_eq_true (List.mem_filter.mp member).2 both.2
  have exposes := isPlaced.exposes
  obtain ⟨rfl, remaining, -⟩ := isPlaced
  have appends := appendDeclared_run remainingDistinct exposes fresh room
  rw [remaining]
  refine ⟨fun final ran => ?_, appends.2⟩
  obtain ⟨ordered, finalRoom, exposes⟩ := appends.1 final ran
  refine ⟨ordered, finalRoom,
    List.append_nil final.ordered ▸ exposes.append (fun name => ?_) []⟩
  constructor
  · rintro (old | new)
    · exact old.1
    · exact (List.filter_sublist.map Declared.name).subset new
  · intro isDeclared
    by_cases isLive : name ∈ liveNames placed.ordered
    · exact .inl ⟨isDeclared, isLive⟩
    · obtain ⟨entry, member, isNamed⟩ := List.mem_map.mp isDeclared
      refine .inr (List.mem_map.mpr ⟨entry, List.mem_filter.mpr ⟨member, ?_⟩, isNamed⟩)
      exact decide_eq_true (isNamed ▸ isLive)

/-- The registry keeps its order and has the new key spaces behind it; the handles are those of
the declared names; and it is written when it has changed. -/
theorem reconcileKeyShape_eq_some (distinct : (declared.map Declared.name).Nodup)
    (names : (liveNames (registry.getD [])).Nodup) {shape : List RegistryEntry}
    {exposed : List (String × Nat)} {dirty : Bool}
    (reconciles : reconcileKeyShape registry declared = some (shape, exposed, dirty)) :
    Fits declared (registry.getD []) ∧ shape = extended declared (registry.getD []) ∧
      Exposes exposed (fun name => name ∈ declared.map Declared.name) shape ∧
      (dirty = false → registry = some shape) := by
  obtain ⟨⟨shape', exposed', changed⟩, reorders, isResult⟩ := Option.map_eq_some_iff.mp reconciles
  obtain ⟨placed, places, reorders⟩ := Option.bind_eq_some_iff.mp reorders
  obtain ⟨final, appends, isFinal⟩ := Option.map_eq_some_iff.mp reorders
  cases isFinal
  cases isResult
  obtain ⟨isPlaced, room, layouts⟩ := (placed_registry distinct names).1 placed places
  obtain ⟨ordered, finalRoom, exposes⟩ := (appended_news distinct isPlaced room).1 final appends
  refine ⟨⟨distinct, layouts, finalRoom⟩, ordered, exposes, fun clean => ?_⟩
  obtain ⟨isKnown, noNews⟩ := Bool.or_eq_false_iff.mp clean
  cases registry with
  | none => exact absurd isKnown nofun
  | some entries =>
      have isEmpty : newKeySpaces declared entries = [] := by
        rw [isPlaced.remaining] at noNews
        simpa using noNews
      rw [ordered, extended, Option.getD_some, isEmpty, List.map_nil, List.append_nil]

/-- An open succeeds exactly with a shape that fits. -/
theorem reconcileKeyShape_isSome_iff (distinct : (declared.map Declared.name).Nodup)
    (names : (liveNames (registry.getD [])).Nodup) :
    (reconcileKeyShape registry declared).isSome ↔ Fits declared (registry.getD []) := by
  constructor
  · intro reconciles
    obtain ⟨⟨shape, exposed, dirty⟩, isSome⟩ := Option.isSome_iff_exists.mp reconciles
    exact (reconcileKeyShape_eq_some distinct names isSome).1
  · intro fits
    have room : (registry.getD []).length ≤ maxKeySpaces :=
      (Nat.le_add_right _ _).trans fits.room
    obtain ⟨placed, places⟩ := Option.isSome_iff_exists.mp <|
      (placed_registry distinct names).2 room fits.layouts
    have isPlaced := ((placed_registry distinct names).1 placed places).1
    obtain ⟨final, appends⟩ := Option.isSome_iff_exists.mp <|
      (appended_news distinct isPlaced room).2 fits.room
    rw [reconcileKeyShape, reorderToCanonical, places, Option.bind_some, appends]
    rfl

/-- The names in use stay distinct. -/
theorem liveNames_extended_nodup (distinct : (declared.map Declared.name).Nodup)
    {entries : List RegistryEntry} (names : (liveNames entries).Nodup) :
    (liveNames (extended declared entries)).Nodup := by
  rw [extended, liveNames_append, liveNames_entries, List.nodup_append]
  refine ⟨names, distinct.sublist (List.filter_sublist.map _), ?_⟩
  intro name old other new same
  obtain ⟨entry, member, isNamed⟩ := List.mem_map.mp new
  refine of_decide_eq_true (List.mem_filter.mp member).2 ?_
  rwa [isNamed, ← same]

end Reconcile

end Tidehunter.KeyShape
