-- Properties of view models, over all moves of a session. A property is put by a call of `flatten` that
-- finds a live container with the key, and the latest such call decides where reads and writes of the
-- property go, whatever has been mounted since. To flatten changes nothing but properties, and
-- to do it twice changes nothing more.
import DataBinding.Proofs.Session.Properties.Steps
import DataBinding.Proofs.Session.Runs

namespace DataBinding

/-! ## One call -/

theorem lookup_foldl_putEntry {α : Type} (keys : List String) (a : α) (entries : List (String × α))
    (name : String) : (keys.foldl (fun es key => putEntry key a es) entries).lookup name =
      if name ∈ keys then some a else entries.lookup name := by
  induction keys generalizing entries with
  | nil => rfl
  | cons key rest ih =>
    rw [List.foldl_cons, ih]
    by_cases later : name ∈ rest
    · simp [later]
    by_cases here : name = key
    · subst here
      simp [later, lookup_putEntry_self]
    · simp [later, here, lookup_putEntry_of_ne a entries here]

/-- An entry that is there already is put in its own place. -/
theorem putEntry_of_lookup {α : Type} {name : String} {a : α} {entries : List (String × α)}
    (there : entries.lookup name = some a) : putEntry name a entries = entries := by
  induction entries with
  | nil => cases there
  | cons entry rest ih =>
    obtain ⟨other, b⟩ := entry
    rw [List.lookup_cons] at there
    by_cases e : other = name
    · subst e
      simp only [beq_self_eq_true, Option.some.injEq] at there
      simp [putEntry, there]
    · have apart : (name == other) = false := by simpa using Ne.symm e
      rw [apart] at there
      rw [putEntry, if_neg e, ih there]

namespace World

variable {w : World} {t : TableId} {name container : String} {m : MapId}

theorem lt_of_container? (found : w.container? t container = some m) : t.index < w.tables.size := by
  by_contra out
  simp [container?, table, Array.getElem?_eq_none (Nat.le_of_not_lt out), Table.empty] at found

theorem flatten_of_none (nothing : w.container? t container = none) :
    w.flatten t container = (w, 0) := by
  rw [flatten, nothing]

theorem flatten_of_some (found : w.container? t container = some m) :
    w.flatten t container = (w.changeTable t fun table =>
      { table with properties :=
          (w.heap.keys m).foldl (fun ps key => putEntry key m ps) table.properties },
      (w.heap.keys m).length) := by
  rw [flatten, found]

/-- The keys of the container that is found are properties for it, and no other property changes. -/
theorem lookup_flatten (found : w.container? t container = some m) (other : TableId)
    (name : String) : ((w.flatten t container).1.table other).properties.lookup name =
      if other = t ∧ name ∈ w.heap.keys m then some m
      else (w.table other).properties.lookup name := by
  rw [flatten_of_some found, table_changeTable]
  by_cases here : other = t
  · simp only [here, lt_of_container? found, and_self, if_true, true_and]
    exact lookup_foldl_putEntry _ _ _ _
  · simp [here]

/-- What a call of `flatten` leaves alone: all but the properties of one view model. -/
structure OnlyProperties (w w' : World) (t : TableId) : Prop where
  rest : w' = { w with tables := w'.tables }
  containers : ∀ other, (w'.table other).containers = (w.table other).containers
  methods : ∀ other, (w'.table other).methods = (w.table other).methods
  others : ∀ other, other ≠ t → w'.table other = w.table other

theorem onlyProperties_flatten (w : World) (t : TableId) (container : String) :
    w.OnlyProperties (w.flatten t container).1 t := by
  rcases found : w.container? t container with _ | m
  · rw [flatten_of_none found]
    exact ⟨rfl, fun _ => rfl, fun _ => rfl, fun _ _ => rfl⟩
  · rw [flatten_of_some found]
    refine ⟨rfl, fun other => ?_, fun other => ?_, fun other ne => ?_⟩
    · rw [table_changeTable]
      split <;> rfl
    · rw [table_changeTable]
      split <;> rfl
    · rw [table_changeTable, if_neg fun h => ne h.1]

/-- To flatten a container whose keys are properties for it changes nothing. -/
theorem flatten_again (found : w.container? t container = some m)
    (there : ∀ key ∈ w.heap.keys m, (w.table t).properties.lookup key = some m) :
    w.flatten t container = (w, (w.heap.keys m).length) := by
  have kept (keys : List String) (sub : ∀ key ∈ keys, key ∈ w.heap.keys m) :
      keys.foldl (fun ps key => putEntry key m ps) (w.table t).properties =
        (w.table t).properties := by
    induction keys with
    | nil => rfl
    | cons key rest ih =>
      rw [List.foldl_cons, putEntry_of_lookup (there key (sub key (List.mem_cons_self ..)))]
      exact ih fun other h => sub other (List.mem_cons_of_mem _ h)
  rw [flatten_of_some found]
  have same : w.tables.modify t.index (fun table =>
      { table with properties :=
          (w.heap.keys m).foldl (fun ps key => putEntry key m ps) table.properties }) = w.tables := by
    refine Array.ext (Array.size_modify ..) fun i hi hi' => ?_
    rw [Array.getElem_modify]
    split
    · next e =>
      subst e
      have here : w.table t = w.tables[t.index] := by
        rw [table, Array.getElem?_eq_getElem hi', Option.getD_some]
      rw [← here, kept _ fun _ h => h]
    · rfl
  rw [changeTable, same]

/-! ## What a property does -/

/-- What a tracked read of a key gives, and null if there is no such key. -/
def readKey (w : World) (m : MapId) (key : String) : Reading := (w.heap.read m key).getD ⟨.null, []⟩

/-- A property does what its container does: a read of it, or of a path that starts with it, is a tracked
read of the key of its name; a write to it is a write to that key. -/
structure Forwards (w : World) (t : TableId) (name : String) (m : MapId) : Prop where
  get : w.get t name = (w.depend (w.readKey m name).crossed, (w.readKey m name).value)
  set : w.heap.isLive (.map m) = true → ∀ v, w.setProperty t name v =
    ({ w with heap := (w.heap.set m name v).1 }, .ok (w.heap.set m name v).2)
  evaluate : ∀ path, path.head = name → w.evaluate t path =
    (w.depend (w.heap.walk (w.readKey m name) path.rest).crossed,
      (w.heap.walk (w.readKey m name) path.rest).value)
  assign : ∀ path v, path.head = name → path.isSimple = true →
    w.assign t path v = w.setProperty t name v
  assignIn : ∀ path v, path.head = name → path.isSimple = false → w.assign t path v =
    let parents := w.depend (w.heap.walk (w.readKey m name) path.rest.dropLast).crossed
    match w.heap.walk? (w.readKey m name) path.rest.dropLast with
    | none => (parents, .error (.unresolved path.text))
    | some r => parents.assignIn r.value path v
  gone : w.heap.isLive (.map m) = false → w.get t name = (w, .null) ∧
    (∀ v, w.setProperty t name v = (w, .error (.unresolved name))) ∧
    ∀ path, path.head = name → w.evaluate t path = (w, .null) ∧ ∀ v, w.assign t path v =
      (w, .error (.unresolved (if path.isSimple then path.head else path.text)))

theorem depend_nil (w : World) : w.depend [] = w := by
  unfold depend
  split <;> rfl

theorem target?_of_lookup (put : (w.table t).properties.lookup name = some m) :
    w.target? t name = if w.heap.isLive (.map m) then some m else none := by
  rw [target?, put]
  simp [Option.filter]

theorem readKey_of_dead (dead : w.heap.isLive (.map m) = false) (key : String) :
    w.readKey m key = ⟨.null, []⟩ := by
  have none : w.heap.map? m = none := by simpa [Heap.isLive] using dead
  simp [readKey, Heap.read, Heap.lookup?, none]

theorem walk_null (h : Heap) (segments : List String) :
    h.walk ⟨.null, []⟩ segments = ⟨.null, []⟩ := by
  induction segments with
  | nil => rfl
  | cons segment rest ih => exact ih

theorem readProperty_of_lookup (put : (w.table t).properties.lookup name = some m) :
    w.readProperty t name = w.readKey m name := by
  rw [readProperty, target?_of_lookup put]
  split
  · rfl
  · next dead => exact (readKey_of_dead (by simpa using dead) name).symm

/-- A property forwards to the container that is put down for it. -/
theorem forwards_of_lookup (put : (w.table t).properties.lookup name = some m) :
    w.Forwards t name m := by
  have read := readProperty_of_lookup put
  have target := target?_of_lookup put
  refine ⟨?_, fun live v => ?_, ?_, ?_, ?_, fun dead => ?_⟩
  · rw [World.get, read]
  · rw [live, if_pos rfl] at target
    rw [setProperty, target]
    rfl
  · rintro path rfl
    rw [World.evaluate, readPath, read]
  · rintro path v rfl simple
    rw [World.assign, if_pos simple]
  · rintro path v rfl long
    rw [← read]
    exact if_neg (by simp [long])
  · rw [dead, if_neg (by simp)] at target
    have null := read.trans (readKey_of_dead dead name)
    refine ⟨?_, fun v => ?_, ?_⟩
    · rw [World.get, null, depend_nil]
    · rw [setProperty, target]
    · rintro path rfl
      refine ⟨?_, fun v => ?_⟩
      · rw [World.evaluate, readPath, null, walk_null, depend_nil]
      · rw [World.assign]
        split
        · rw [setProperty, target]
        · rw [null]
          dsimp only
          rw [walk_null, depend_nil]
          rcases path.rest.dropLast with _ | ⟨segment, parents⟩ <;> rfl

end World

/-! ## All moves -/

namespace Machine

variable {m : Machine} {w : World} {t : TableId} {name : String} {id : MapId}

/-- The next move puts a property down for a container: it flattens what is mounted under some name, the
container found there is live, and the key is among its keys. -/
def Puts (m : Machine) (t : TableId) (name : String) (id : MapId) : Prop :=
  ∃ w container, m.Flattens w t container ∧ w.container? t container = some id ∧
    name ∈ w.heap.keys id

theorem lookup_next_of_puts (puts : m.Puts t name id) :
    (m.next.world.table t).properties.lookup name = some id := by
  obtain ⟨w, container, flattens, found, key⟩ := puts
  rw [flattens.properties.2 t, World.lookup_flatten found, if_pos ⟨rfl, key⟩]

theorem lookup_next_of_none (none : ∀ id, ¬m.Puts t name id) :
    (m.next.world.table t).properties.lookup name =
      (m.world.table t).properties.lookup name := by
  by_cases any : ∃ w t' container, m.Flattens w t' container
  · obtain ⟨w, t', container, flattens⟩ := any
    obtain ⟨before, after⟩ := flattens.properties
    rw [after t, ← before t]
    rcases found : w.container? t' container with _ | id
    · rw [World.flatten_of_none found]
    · rw [World.lookup_flatten found, if_neg]
      rintro ⟨rfl, key⟩
      exact none id ⟨w, container, flattens, found, key⟩
  · have same := sameProperties_next (m := m) fun w t' container flattens =>
      any ⟨w, t', container, flattens⟩
    rw [same t]

/-- A property is there after some moves if and only if one of them has put it down, and it stands for the
container of the latest of these. -/
theorem lookup_after {m₀ : Machine} (start : (m₀.world.table t).properties.lookup name = none)
    (moves : Nat) : ((m₀.after moves).world.table t).properties.lookup name = some id ↔
      ∃ i < moves, (m₀.after i).Puts t name id ∧
        ∀ j, i < j → j < moves → ∀ other, ¬(m₀.after j).Puts t name other := by
  induction moves with
  | zero => simp [after, start]
  | succ moves ih =>
    rw [after]
    by_cases latest : ∃ other, (m₀.after moves).Puts t name other
    · obtain ⟨other, puts⟩ := latest
      rw [lookup_next_of_puts puts, Option.some.injEq]
      constructor
      · rintro rfl
        exact ⟨moves, Nat.lt_succ_self _, puts, fun j lt le => by omega⟩
      · rintro ⟨i, lt, putsI, none⟩
        rcases Nat.lt_succ_iff_lt_or_eq.mp lt with earlier | rfl
        · exact absurd puts (none moves earlier (Nat.lt_succ_self _) other)
        · exact Option.some.inj ((lookup_next_of_puts puts).symm.trans (lookup_next_of_puts putsI))
    · rw [lookup_next_of_none fun other puts => latest ⟨other, puts⟩, ih]
      constructor
      · rintro ⟨i, lt, puts, none⟩
        refine ⟨i, Nat.lt_succ_of_lt lt, puts, fun j after before other putsJ => ?_⟩
        rcases Nat.lt_succ_iff_lt_or_eq.mp before with earlier | rfl
        · exact none j after earlier other putsJ
        · exact latest ⟨other, putsJ⟩
      · rintro ⟨i, lt, puts, none⟩
        have ne : i ≠ moves := by
          rintro rfl
          exact latest ⟨id, puts⟩
        exact ⟨i, by omega, puts, fun j after before => none j after (Nat.lt_succ_of_lt before)⟩

/-- A property is there if and only if some move has put it down. -/
theorem hasProperty_after {m₀ : Machine}
    (start : (m₀.world.table t).properties.lookup name = none) (moves : Nat) :
    (m₀.after moves).world.hasProperty t name = true ↔
      ∃ i < moves, ∃ id, (m₀.after i).Puts t name id := by
  induction moves with
  | zero => simp [after, World.hasProperty, start]
  | succ moves ih =>
    rw [after]
    by_cases latest : ∃ other, (m₀.after moves).Puts t name other
    · obtain ⟨other, puts⟩ := latest
      rw [World.hasProperty, lookup_next_of_puts puts]
      exact iff_of_true rfl ⟨moves, Nat.lt_succ_self _, other, puts⟩
    · rw [World.hasProperty, lookup_next_of_none fun other puts => latest ⟨other, puts⟩]
      refine ih.trans ⟨?_, ?_⟩
      · rintro ⟨i, lt, puts⟩
        exact ⟨i, Nat.lt_succ_of_lt lt, puts⟩
      · rintro ⟨i, lt, puts⟩
        rcases Nat.lt_succ_iff_lt_or_eq.mp lt with earlier | rfl
        · exact ⟨i, earlier, puts⟩
        · exact absurd puts latest

/-- A property keeps its container as long as it is put down for no other one. -/
theorem lookup_stays {m₀ : Machine} {i : Nat} (puts : (m₀.after i).Puts t name id) {j : Nat}
    (lt : i < j) (no : ∀ k, i < k → k < j → ∀ other, (m₀.after k).Puts t name other → other = id) :
    ((m₀.after j).world.table t).properties.lookup name = some id := by
  induction j, lt using Nat.le_induction with
  | base => exact lookup_next_of_puts puts
  | succ j le ih =>
    rw [after]
    by_cases again : ∃ other, (m₀.after j).Puts t name other
    · obtain ⟨other, putsJ⟩ := again
      rw [lookup_next_of_puts putsJ, no j le (Nat.lt_succ_self j) other putsJ]
    · rw [lookup_next_of_none fun other putsJ => again ⟨other, putsJ⟩]
      exact ih fun k after before => no k after (Nat.lt_succ_of_lt before)

/-- The step that flattens answers how many keys there are; it leaves no work and changes no handle. -/
theorem perform_flatten {c : Context} {s s' : Session} {handle : String} {vm : ViewModel}
    (on : (Act.viewModel handle).on c s = (.ok vm, s')) (container : String) :
    s.perform c (.viewModel handle (.flatten container)) =
      ({ s' with world := (s'.world.flatten vm.table container).1 },
        .ofReply (.count (s'.world.flatten vm.table container).2)) := by
  refine Session.perform_of_ok ?_
  rw [Step.perform, Act.on_bind, on]
  rfl

/-- A link leads back to the tables of its view model. -/
theorem table_follow (w : World) (vm : ViewModel) : (w.follow vm.link).2.table = vm.table := by
  unfold World.follow
  split <;> rfl

/-- The latest call of `flatten` decides. A name is a property of a view model if and only if some call
found a live container with that key, and reads, writes and paths that start with the name
then go to the container of the latest such call, in every world with these tables: whatever is mounted,
live or watched there, and whoever collects. A call changes nothing but the properties of its view model
and leaves no work to do, and when it is repeated while it finds the same container with the same keys,
none of which was put down for another one since, it changes nothing at all. -/
theorem latest_flatten_decides (steps : List Step) (shows : List Show) (t : TableId) :
    let m := (start steps shows).after
    (∀ moves name, (m moves).world.hasProperty t name = true ↔
      ∃ i < moves, ∃ id, (m i).Puts t name id) ∧
    (∀ moves name i id, i < moves → (m i).Puts t name id →
      (∀ j, i < j → j < moves → ∀ other, ¬(m j).Puts t name other) →
        ∀ w : World, w.table t = (m moves).world.table t → w.Forwards t name id) ∧
    (∀ (w : World) (container : String), w.OnlyProperties (w.flatten t container).1 t) ∧
    (∀ (c : Context) (s s' : Session) (handle : String) (vm : ViewModel) (container : String),
      (Act.viewModel handle).on c s = (.ok vm, s') →
      s.perform c (.viewModel handle (.flatten container)) =
        ({ s' with world := (s'.world.flatten vm.table container).1 },
          .ofReply (.count (s'.world.flatten vm.table container).2))) ∧
    (∀ (w : World) (vm : ViewModel), (w.follow vm.link).2.table = vm.table) ∧
    ∀ (i j : Nat) (w w' : World) (container : String), i < j → (m i).Flattens w t container →
      (m j).Flattens w' t container →
      (∀ id, w'.container? t container = some id →
        w.container? t container = some id ∧ w'.heap.keys id = w.heap.keys id ∧
          ∀ k name other, i < k → k < j → name ∈ w.heap.keys id → (m k).Puts t name other →
            other = id) →
      (w'.flatten t container).1 = w' := by
  intro m
  have empty (name : String) :
      ((start steps shows).world.table t).properties.lookup name = none := rfl
  refine ⟨fun moves name => hasProperty_after (empty name) moves,
    fun moves name i id lt puts none w same => ?_,
    fun w container => w.onlyProperties_flatten t container,
    fun c s s' handle vm container on => perform_flatten on container,
    fun w vm => table_follow w vm,
    fun i j w w' container lt first second again => ?_⟩
  · have put := (lookup_after (empty name) moves).mpr ⟨i, lt, puts, none⟩
    rw [← same] at put
    exact World.forwards_of_lookup put
  · rcases found : w'.container? t container with _ | id
    · rw [World.flatten_of_none found]
    · obtain ⟨before, keys, only⟩ := again id found
      rw [World.flatten_again found]
      intro key hk
      rw [keys] at hk
      rw [second.properties.1 t]
      exact lookup_stays ⟨w, container, first, before, hk⟩ lt fun k after before other puts =>
        only k key other after before hk puts

/-- A session with a view model over one map, to which another map with the same key is mounted and
flattened. -/
def overlapping : List Step :=
  [.newViewModel "vm" (.observed (.document (.object [("x", .null)]))),
    .viewModel "vm" (.mount "more" (.document (.object [("x", .null), ("y", .null)]))),
    .viewModel "vm" (.flatten "more")]

/-- Where that session stands when both maps are mounted. -/
def mountedTwice : Machine where
  session :=
    { Session.empty with
      world :=
        { World.empty with
          heap := ⟨#[some ⟨[⟨"x", .null, some []⟩], true⟩,
            some ⟨[⟨"x", .null, none⟩, ⟨"y", .null, none⟩], false⟩], #[], #[]⟩
          tables := #[⟨[("$data", ⟨0⟩), ("more", ⟨1⟩)], [("x", ⟨0⟩)], []⟩]
          mounts := #[some [("$data", ⟨0⟩), ("more", ⟨1⟩)]] }
      viewModels := [("vm", ⟨⟨0⟩, ⟨0⟩⟩)] }
  shows := []
  frames := [.steps ⟨none, none⟩ none [.viewModel "vm" (.flatten "more")]]
  answers := #[⟨.names ["x"], [], []⟩, ⟨.nothing, [], []⟩]

theorem mountedTwice_eq : (start overlapping []).after 6 = mountedTwice := by cbv

theorem latest_flatten_decides_in_overlapping :
    ((start overlapping []).after 6).Puts ⟨0⟩ "x" ⟨1⟩ ∧
      ((start overlapping []).after 6).world.hasProperty ⟨0⟩ "y" = false ∧
      ((start overlapping []).after 7).world.hasProperty ⟨0⟩ "y" = true ∧
      ((start overlapping []).after 7).world.Forwards ⟨0⟩ "x" ⟨1⟩ := by
  have on : (Act.viewModel "vm").on ⟨none, none⟩ mountedTwice.session =
    (.ok ⟨⟨0⟩, ⟨0⟩⟩, mountedTwice.session) := rfl
  have puts (name : String) (key : name ∈ mountedTwice.world.heap.keys ⟨1⟩) :
      ((start overlapping []).after 6).Puts ⟨0⟩ name ⟨1⟩ := by
    rw [mountedTwice_eq]
    exact ⟨mountedTwice.world, "more", .step rfl (.viewModel on), by decide, key⟩
  have x := puts "x" (by decide)
  have y := puts "y" (by decide)
  obtain ⟨properties, latest, _⟩ := latest_flatten_decides overlapping [] ⟨0⟩
  refine ⟨x, ?_, (properties 7 "y").mpr ⟨6, by decide, ⟨1⟩, y⟩, ?_⟩
  · rw [mountedTwice_eq]
    rfl
  · exact latest 7 "x" 6 ⟨1⟩ (by decide) x (fun j lt le => by omega) _ rfl

end Machine

end DataBinding
