-- Who owns the model. In every state of a session, a container is live if held values, view models or views
-- lead to it. Watchers, links, tables, listeners and wirings keep nothing: where no container leads to
-- itself, nothing else is live, and all that resolves such a weak reference resolves it just then.
import DataBinding.Proofs.Session.TwinMoves
import DataBinding.Proofs.Session.Runs

namespace DataBinding

namespace Machine

/-! ## A machine beside itself -/

/-- Two empty worlds. -/
def noPair : Pair := ⟨.empty, .empty, fun _ _ => False, fun _ => False, fun _ => False, fun _ _ => False⟩

theorem fits_noPair : noPair.Fits .none where
  heap := rfl
  whole := by
    intro c v hv
    cases c <;> simp [noPair, World.empty, Heap.empty, Heap.contents, Heap.map?, Heap.items, Heap.list?] at hv
  tables := rfl
  parted := nofun
  collector := ⟨rfl, rfl⟩
  nodes := rfl
  listeners := .nil
  watchers := .nil
  mounts := ⟨nofun, nofun, nofun, nofun, nofun, nofun, nofun, nofun, nofun, nofun, nofun⟩

/-- If nothing is let go of, every name is spared. -/
theorem spares_none (m : Machine) : m.Spares .none := by
  unfold Spares
  split
  · exact ⟨fun _ _ => ⟨List.not_mem_nil, List.not_mem_nil⟩, fun _ _ => nofun⟩
  · trivial

theorem twins_start (steps : List Step) (shows : List Show) :
    Machine.Twins .none noPair #[] #[] (start steps shows) (start steps shows) where
  session :=
    { left := rfl, right := rfl, fits := fits_noPair, values := rfl, lives := nofun, viewModels := .nil
      links := .nil, watchers := rfl, registries := rfl, wirings := rfl, views := .nil, nodes := rfl
      scripts := rfl, log := rfl, ownViewModels := nofun, ownViews := nofun }
  shows := rfl
  spared := fun _ _ _ _ => ⟨List.not_mem_nil, List.not_mem_nil⟩
  frames := .cons (.steps contexts_outside none steps) .nil
  answers := ⟨#[], rfl, rfl⟩

variable {steps : List Step} {shows : List Show} {may : Machine → Prop} {m : Machine}
  {events : List Event}

/-- Every machine of a run is a twin of itself. -/
theorem twins_of_run (run : Run may (start steps shows) events m) :
    ∃ T, Machine.Twins .none T #[] #[] m m := by
  induction run with
  | start => exact ⟨noPair, twins_start steps shows⟩
  | move _ _ ih =>
    obtain ⟨T, twins⟩ := ih
    exact twins.next (spares_none _) nofun

/-! ## Nothing is kept but by roots -/

/-- The values by which the handles and the frames of a machine keep containers. -/
def roots (m : Machine) : List Value := m.world.roots m.held

/-- Every live container is a root or is inside a live one, and mounts are kept for held view models
only. -/
structure Tight (m : Machine) : Prop where
  supported : ∀ c, m.world.heap.isLive c = true →
    m.world.heap.Supported m.roots (m.world.heap.isLive · = true) c
  mounts : ∀ a, (m.world.mounts? a).isSome = true → ∃ vm ∈ m.held.viewModels, vm.mounts = a

theorem mem_roots {m : Machine} {v : Value} : v ∈ m.roots ↔ v ∈ m.held.values ∨
    ∃ vm ∈ m.held.viewModels, ∃ entries, m.world.mounts? vm.mounts = some entries ∧
      ∃ e ∈ entries, v = .map e.2 := World.mem_roots

/-- Whatever the machine was before, its release leaves it tight. -/
theorem tight_release (m : Machine) : m.release.Tight := by
  have held : m.release.held = m.held := rfl
  have roots {v : Value} (hv : v ∈ m.roots) : v ∈ m.release.roots := by
    rw [mem_roots, held]
    refine (mem_roots.mp hv).imp_right ?_
    rintro ⟨vm, hvm, entries, he, e, hm, rfl⟩
    exact ⟨vm, hvm, entries, World.mounts?_release_iff.mpr ⟨⟨vm, hvm, rfl⟩, he⟩, e, hm, rfl⟩
  refine ⟨fun c live => ?_, fun a kept => ?_⟩
  · exact (Heap.supported_of_released live).mono fun v hv _ => roots hv
  · obtain ⟨entries, he⟩ := Option.isSome_iff_exists.mp kept
    exact (World.mounts?_release_iff.mp he).1

/-- Work that lets go of nothing leaves the heap, the mounts and the handles as they are, and nothing was
held by its frame. -/
theorem still_of_not_letsGo {m : Machine} {f : Frame} (still : f.letsGo = false) :
    (m.move f).1.world.heap = m.world.heap ∧ (m.move f).1.world.mounts = m.world.mounts ∧
      (m.move f).1.session.held = m.session.held ∧ f.held.isNothing = true := by
  cases f with
  | steps context tag remaining =>
    rcases remaining with _ | ⟨step, remaining⟩
    · exact ⟨rfl, rfl, rfl, by simpa [Frame.letsGo] using still⟩
    · cases still
  | turns owed =>
    rcases owed with _ | ⟨id, owed⟩
    · exact ⟨rfl, rfl, rfl, rfl⟩
    · simp only [move, turn, world]
      rcases m.session.world.watcher? id with _ | watcher
      · exact ⟨rfl, rfl, rfl, rfl⟩
      · simp only [World.watched_eq]
        rcases watcher.reaction with ⟨directive, n⟩ | script <;> exact ⟨rfl, rfl, rfl, rfl⟩
  | hearing event responses =>
    rcases responses with _ | ⟨response, responses⟩
    · exact ⟨rfl, rfl, rfl, rfl⟩
    · cases still
  | call script context =>
    have nothing : (Frame.call script context).held.isNothing = true := by
      simpa [Frame.letsGo] using still
    simp only [move_call, callScript, world]
    rcases m.session.scripts[script.index]? with _ | script
    · exact ⟨rfl, rfl, rfl, nothing⟩
    · dsimp only
      split <;> exact ⟨rfl, rfl, rfl, nothing⟩
  | keep kept => exact ⟨rfl, rfl, rfl, by simpa [Frame.letsGo] using still⟩
  | reply tag r kept =>
    have nothing : (Frame.reply tag r kept).held.isNothing = true := by
      simpa [Frame.letsGo] using still
    cases tag <;> exact ⟨rfl, rfl, rfl, nothing⟩
  | record r => exact ⟨rfl, rfl, rfl, rfl⟩

theorem scalar_of_isNothing {h : Held} (nothing : h.isNothing = true) :
    h.viewModels = [] ∧ ∀ v ∈ h.values, v.container? = none := by
  simpa [Held.isNothing] using nothing

/-- A tight machine is tight after every move. -/
theorem Tight.next (tight : m.Tight) : m.next.Tight := by
  rw [next_eq]
  split
  · exact tight_release _
  · rename_i notGo
    rcases hf : m.frames with _ | ⟨f, rest⟩
    · rwa [show m.moved = m by simp [moved, hf]]
    · have still : f.letsGo = false := by simpa [hf] using notGo
      obtain ⟨heap, mounts, session, nothing⟩ := still_of_not_letsGo (m := m) still
      obtain ⟨noViewModels, scalars⟩ := scalar_of_isNothing nothing
      rw [moved_of_cons hf]
      -- all that was held is held still, but for what the frame itself held
      have viewModels {vm : ViewModel} (hvm : vm ∈ m.held.viewModels) : vm ∈ Held.viewModels
          (held { (m.move f).1 with frames := (m.move f).2 ++ rest }) := by
        rcases mem_viewModels_held.mp hvm with hvm | ⟨g, hg, hvm⟩
        · exact mem_viewModels_held.mpr (.inl (session ▸ hvm))
        · rcases List.mem_cons.mp (hf ▸ hg) with rfl | hg
          · simp [noViewModels] at hvm
          · exact mem_viewModels_held.mpr (.inr ⟨g, List.mem_append_right _ hg, hvm⟩)
      have roots {v : Value} {c : Container} (hv : v ∈ m.roots) (is : v.container? = some c) :
          v ∈ roots { (m.move f).1 with frames := (m.move f).2 ++ rest } := by
        rcases mem_roots.mp hv with hv | ⟨vm, hvm, entries, he, e, hm, rfl⟩
        · refine mem_roots.mpr (.inl ?_)
          rcases mem_values_held.mp hv with hv | ⟨g, hg, hv⟩
          · exact mem_values_held.mpr (.inl (session ▸ hv))
          · rcases List.mem_cons.mp (hf ▸ hg) with rfl | hg
            · rw [scalars v hv] at is
              cases is
            · exact mem_values_held.mpr (.inr ⟨g, List.mem_append_right _ hg, hv⟩)
        · have he' : (m.move f).1.world.mounts? vm.mounts = some entries := by
            rw [World.mounts?, mounts]
            exact he
          exact mem_roots.mpr (.inr ⟨vm, viewModels hvm, entries, he', e, hm, rfl⟩)
      refine ⟨fun c live => ?_, fun a kept => ?_⟩
      · simp only [world] at heap live ⊢
        rw [heap] at live ⊢
        exact (tight.supported c live).mono fun v hv is => roots hv is
      · have kept : (m.world.mounts? a).isSome = true := by
          rw [World.mounts?, ← mounts]
          exact kept
        obtain ⟨vm, hvm, is⟩ := tight.mounts a kept
        exact ⟨vm, viewModels hvm, is⟩

theorem tight_start (steps : List Step) (shows : List Show) : (start steps shows).Tight := by
  refine ⟨fun c live => ?_, fun a kept => ?_⟩
  · cases c <;> simp [start, world, Session.empty, World.empty, Heap.empty, Heap.isLive, Heap.map?,
      Heap.list?] at live
  · simp [start, world, Session.empty, World.empty, World.mounts?] at kept

theorem tight_of_run (run : Run may (start steps shows) events m) : m.Tight := by
  induction run with
  | start => exact tight_start steps shows
  | move _ _ ih => exact ih.next

/-! ## Live and owned -/

/-- In every state, no container holds a freed one, and all roots are live. -/
theorem lives_roots (run : Run may (start steps shows) events m) :
    m.world.heap.Whole ∧ ∀ v ∈ m.roots, m.world.heap.Lives v := by
  obtain ⟨T, twins⟩ := twins_of_run run
  have left := twins.session.left
  have right := twins.session.right
  have fits := twins.session.fits
  simp only [roots, world, left]
  exact ⟨fits.whole, fun v hv =>
    (twins.holdings.roots_within fits (right ▸ left.symm ▸ hv)).2⟩

/-- A container is live if and only if a root leads to it, as long as no container leads to itself. -/
theorem isLive_iff_owned (run : Run may (start steps shows) events m)
    (acyclic : m.world.heap.Acyclic) (c : Container) :
    m.world.heap.isLive c = true ↔ m.world.heap.OwnedBy m.roots c := by
  obtain ⟨whole, lives⟩ := lives_roots run
  exact ⟨Heap.owned_of_supported acyclic (tight_of_run run).supported, Heap.OwnedBy.isLive whole lives⟩

/-- Held view models keep their mounts. -/
theorem kept_of_held (run : Run may (start steps shows) events m) :
    ∀ vm ∈ m.held.viewModels, (m.world.mounts? vm.mounts).isSome = true := by
  obtain ⟨T, twins⟩ := twins_of_run run
  have session := twins.session
  rw [world, session.left]
  intro vm hvm
  rcases mem_viewModels_held.mp hvm with hvm | ⟨f, hf, hvm⟩
  · rcases Session.mem_viewModels_held.mp hvm with ⟨entry, h, rfl⟩ | ⟨view, h, rfl⟩
    · obtain ⟨_, _, same⟩ := session.viewModels.mem_right (mem_spare.mpr ⟨h, List.not_mem_nil⟩)
      exact same.kept
    · obtain ⟨_, _, same⟩ := session.views.mem_right (mem_spare.mpr ⟨h, List.not_mem_nil⟩)
      exact same.viewModel.kept
  · obtain ⟨_, _, same⟩ := exists_right twins.frames hf
    obtain ⟨_, _, same⟩ := exists_right same.held.viewModels hvm
    exact same.kept

theorem collector_of_run (run : Run may (start steps shows) events m) : m.world.collector = none := by
  obtain ⟨T, twins⟩ := twins_of_run run
  rw [world, twins.session.left]
  exact twins.session.fits.collector.1

end Machine

/-! ## Dead properties -/

namespace World

variable {w : World} {t : TableId} {name : String}

theorem target?_eq_none (dead : ∀ m, (w.table t).properties.lookup name = some m →
    w.heap.isLive (.map m) = false) : w.target? t name = none := by
  refine Option.filter_eq_none_iff.mpr fun m there => ?_
  simp [dead m there]

/-- Without the container of its head, a path reads null, and a write to it is refused; nothing
changes. -/
theorem dead_path (quiet : w.collector = none) {path : KeyPath} (dead : w.target? t path.head = none)
    (v : Value) : w.evaluate t path = (w, .null) ∧
      w.assign t path v = (w, .error (.unresolved (if path.isSimple then path.head else path.text))) := by
  refine ⟨?_, ?_⟩
  · rw [evaluate, depend_of_none quiet, readPath_value, dead]
  · have start : w.readProperty t path.head = ⟨.null, []⟩ := by simp [readProperty, dead]
    unfold assign
    split
    · simp only [setProperty, dead]
    · simp only [depend_of_none quiet, start]
      rcases path.rest.dropLast with _ | ⟨segment, parents⟩ <;> rfl

theorem dead_property (quiet : w.collector = none) (dead : w.target? t name = none) (v : Value) :
    w.get t name = (w, .null) ∧ w.setProperty t name v = (w, .error (.unresolved name)) := by
  simp [get, setProperty, readProperty, dead, depend_of_none quiet]

end World

/-! ## Strong handles -/

namespace Session

/-- What a handle of the user keeps by itself: a held value, what is mounted in the root table of a held
view model, and the model of a held view. -/
inductive Keeps (s : Session) : Container → Prop where
  | value {name : String} {v : Value} {c : Container} (held : (name, v) ∈ s.values)
      (is : v.container? = some c) : Keeps s c
  | root {name : String} {vm : ViewModel} {entries : List (String × MapId)} {key : String} {m : MapId}
      (held : (name, vm) ∈ s.viewModels) (table : s.world.mounts? vm.mounts = some entries)
      (mounted : (key, m) ∈ entries) : Keeps s (.map m)
  | view {name : String} {view : MountedView} (held : (name, view) ∈ s.views) :
      Keeps s (.map view.model)
  | viewRoot {name : String} {view : MountedView} {entries : List (String × MapId)} {key : String}
      {m : MapId} (held : (name, view) ∈ s.views)
      (table : s.world.mounts? view.viewModel.mounts = some entries) (mounted : (key, m) ∈ entries) :
      Keeps s (.map m)

/-- A strong handle leads to a container through map entries and list items. -/
def Owns (s : Session) (c : Container) : Prop := ∃ root, s.Keeps root ∧ s.world.heap.Leads root c

end Session

namespace Machine

variable {steps : List Step} {shows : List Show} {may : Machine → Prop} {m : Machine}
  {events : List Event}

/-- Between the steps of the user nothing is under way. -/
def Rests (m : Machine) : Prop := m.frames = [] ∨ ∃ rest, m.frames = [.steps .outside none rest]

theorem held_of_rests (rests : m.Rests) : m.held = m.session.held := by
  rcases rests with hf | ⟨rest, hf⟩ <;>
    simp [held, hf, Held.concat, Frame.held, Context.held, Context.outside]

/-- At rest the roots are what the handles of the user keep. -/
theorem mem_roots_of_rests (rests : m.Rests) (c : Container) :
    (∃ v ∈ m.roots, v.container? = some c) ↔ m.session.Keeps c := by
  constructor
  · rintro ⟨v, hv, is⟩
    rw [mem_roots, held_of_rests rests] at hv
    rcases hv with hv | ⟨vm, hvm, entries, he, ⟨key, id⟩, hm, rfl⟩
    · rcases Session.mem_values_held.mp hv with ⟨entry, h, rfl⟩ | ⟨view, h, rfl⟩
      · exact .value h is
      · cases is
        exact .view h
    · cases is
      rcases Session.mem_viewModels_held.mp hvm with ⟨entry, h, rfl⟩ | ⟨view, h, rfl⟩
      · exact .root h he hm
      · exact .viewRoot h he hm
  · intro keeps
    simp only [mem_roots, held_of_rests rests, Session.mem_values_held, Session.mem_viewModels_held]
    cases keeps with
    | value held is => exact ⟨_, .inl (.inl ⟨_, held, rfl⟩), is⟩
    | root held table mounted =>
      exact ⟨_, .inr ⟨_, .inl ⟨_, held, rfl⟩, _, table, _, mounted, rfl⟩, rfl⟩
    | view held => exact ⟨_, .inl (.inr ⟨_, held, rfl⟩), rfl⟩
    | viewRoot held table mounted =>
      exact ⟨_, .inr ⟨_, .inr ⟨_, held, rfl⟩, _, table, _, mounted, rfl⟩, rfl⟩

theorem isLive_iff_owns (run : Run may (start steps shows) events m) (rests : m.Rests)
    (acyclic : m.world.heap.Acyclic) (c : Container) :
    m.world.heap.isLive c = true ↔ m.session.Owns c := by
  rw [isLive_iff_owned run acyclic]
  constructor
  · rintro ⟨v, hv, root, is, leads⟩
    exact ⟨root, (mem_roots_of_rests rests root).mp ⟨v, hv, is⟩, leads⟩
  · rintro ⟨root, keeps, leads⟩
    obtain ⟨v, hv, is⟩ := (mem_roots_of_rests rests root).mpr keeps
    exact ⟨v, hv, root, is, leads⟩

/-- A link makes a view model with the root table of the held ones, or with an empty root table of its
own. -/
theorem follow_shares (run : Run may (start steps shows) events m) (l : Link) :
    ((∃ vm ∈ m.held.viewModels, vm.mounts = l.mounts) →
      m.world.follow l = (m.world, ⟨l.table, l.mounts⟩)) ∧
    ((∀ vm ∈ m.held.viewModels, vm.mounts ≠ l.mounts) →
      (m.world.follow l).2.table = l.table ∧
        (m.world.follow l).1.mounts? (m.world.follow l).2.mounts = some [] ∧
        ∀ vm ∈ m.held.viewModels, vm.mounts ≠ (m.world.follow l).2.mounts) := by
  have kept := kept_of_held run
  refine ⟨?_, fun free => ?_⟩
  · rintro ⟨vm, hvm, is⟩
    rw [World.follow, if_pos (is ▸ kept vm hvm)]
  · have none : (m.world.mounts? l.mounts).isSome = false := by
      rw [Bool.eq_false_iff]
      intro there
      obtain ⟨vm, hvm, is⟩ := (tight_of_run run).mounts _ there
      exact free vm hvm is
    simp only [World.follow, none, Bool.false_eq_true, if_false, true_and]
    refine ⟨by simp [World.mounts?], fun vm hvm is => ?_⟩
    have lt := Pair.index_lt_of_mounts? (kept vm hvm)
    simp [is] at lt

/-- When containers and root tables go after a move, nothing else is different, and what is left of the
heap is as it was. -/
theorem only_containers_go (m : Machine) :
    m.next = { m.moved with session := { m.moved.session with world :=
      { m.moved.world with heap := m.next.world.heap, mounts := m.next.world.mounts } } } ∧
    Heap.ReleasedFrom m.moved.world.heap m.next.world.heap := by
  refine ⟨?_, m.next_effect.2.2.2.2⟩
  rw [next_eq]
  split <;> rfl

/-- Watchers, links and listeners never own the model. Between the steps of the user, and as long as no
container leads to itself, exactly those containers are live to which a strong handle leads. A mounted
container, a property, a link and a watcher resolve a container just as long. A link shares the root
table of the handles that are held, and makes an empty one if there are none. A property whose container
is gone reads as null, and so does every path that starts with it; writes to them are refused. Nothing
else changes, neither by these nor when a container goes after a move. -/
theorem only_strong_handles_own (run : Run may (start steps shows) events m) (rests : m.Rests)
    (acyclic : m.world.heap.Acyclic) :
    (∀ c, m.world.heap.isLive c = true ↔ m.session.Owns c) ∧
    (∀ t name id, m.world.container? t name = some id ↔
      (m.world.table t).containers.lookup name = some id ∧ m.session.Owns (.map id)) ∧
    (∀ t name id, m.world.target? t name = some id ↔
      (m.world.table t).properties.lookup name = some id ∧ m.session.Owns (.map id)) ∧
    (∀ l, m.world.isLive l = true ↔
      ∃ entry ∈ (m.world.table l.table).containers, m.session.Owns (.map entry.2)) ∧
    (∀ (watcher : Watcher) id,
      (m.world.table watcher.link.table).properties.lookup watcher.path.head = some id →
      m.session.Owns (.map id) → m.world.watched watcher =
        (m.world, m.world.heap.reach (.map id) watcher.path.segments)) ∧
    (∀ l, ((∃ vm ∈ m.session.held.viewModels, vm.mounts = l.mounts) →
        m.world.follow l = (m.world, ⟨l.table, l.mounts⟩)) ∧
      ((∀ vm ∈ m.session.held.viewModels, vm.mounts ≠ l.mounts) →
        (m.world.follow l).2.table = l.table ∧
          (m.world.follow l).1.mounts? (m.world.follow l).2.mounts = some [] ∧
          ∀ vm ∈ m.session.held.viewModels, vm.mounts ≠ (m.world.follow l).2.mounts)) ∧
    ∀ t name v, (∀ id, (m.world.table t).properties.lookup name = some id →
        ¬m.session.Owns (.map id)) →
      m.world.get t name = (m.world, .null) ∧
      m.world.setProperty t name v = (m.world, .error (.unresolved name)) ∧
      (∀ path : KeyPath, path.head = name → m.world.evaluate t path = (m.world, .null) ∧
        m.world.assign t path v =
          (m.world, .error (.unresolved (if path.isSimple then path.head else path.text)))) ∧
      (∀ watcher : Watcher, watcher.link.table = t → watcher.path.head = name →
        m.world.watched watcher = (m.world, .null)) ∧
      m.next = { m.moved with session := { m.moved.session with world :=
        { m.moved.world with heap := m.next.world.heap, mounts := m.next.world.mounts } } } ∧
      Heap.ReleasedFrom m.moved.world.heap m.next.world.heap := by
  have live := isLive_iff_owns run rests acyclic
  have collector := collector_of_run run
  have held := held_of_rests rests
  refine ⟨live, fun t name id => ?_, fun t name id => ?_, fun l => ?_, fun watcher id there owns => ?_,
    fun l => held ▸ follow_shares run l, fun t name v dead => ?_⟩
  · rw [World.container?, Option.filter_eq_some_iff, live]
  · rw [World.target?, Option.filter_eq_some_iff, live]
  · simp only [World.isLive, List.any_eq_true, live]
  · have target : m.world.target? watcher.link.table watcher.path.head = some id :=
      Option.filter_eq_some_iff.mpr ⟨there, (live _).mpr owns⟩
    rw [World.watched_eq, World.valueOf, World.readPath_value, target]
  · have gone : m.world.target? t name = none := World.target?_eq_none fun id there =>
      Bool.eq_false_iff.mpr fun alive => dead id there ((live _).mp alive)
    obtain ⟨get, set⟩ := World.dead_property collector gone v
    refine ⟨get, set, ?_, ?_, only_containers_go m⟩
    · rintro path rfl
      exact World.dead_path collector gone v
    · rintro watcher rfl rfl
      rw [World.watched_eq, World.valueOf, World.readPath_value, gone]

/-- A session that drops the only view model over a watched map. -/
def ownerDropped : List Step :=
  [.newViewModel "vm" (.observed (.document (.object [("a", .int 1)]))),
    .watch "vm" "a" "w" [] none, .drop .viewModel "vm"]

/-- When that session has come to its end, nothing owns the map, and the watcher reads null. -/
theorem owner_dropped_reads_null :
    ∃ events m, Run (fun _ => True) (start ownerDropped []) events m ∧ m.Rests ∧
      m.world.heap.Acyclic ∧ ¬m.session.Owns (.map ⟨0⟩) ∧
      m.world.get ⟨0⟩ "a" = (m.world, .null) := by
  have run : Run (fun _ => True) (start ownerDropped []) _ _ := run_after 9 fun _ _ => trivial
  have state : (fun m : Machine => (m.frames, m.world.heap.maps, m.world.heap.lists))
    ((start ownerDropped []).after 9) = ([.steps .outside none []], #[none], #[]) := by cbv
  obtain ⟨frames, containers⟩ := Prod.ext_iff.mp state
  obtain ⟨maps, lists⟩ := Prod.ext_iff.mp containers
  dsimp only at frames maps lists
  have rests : ((start ownerDropped []).after 9).Rests := .inr ⟨[], frames⟩
  have dead (c : Container) : ((start ownerDropped []).after 9).world.heap.isLive c = false := by
    rcases c with ⟨_ | i⟩ | ⟨i⟩ <;> simp [Heap.isLive, Heap.map?, Heap.list?, maps, lists]
  have acyclic : ((start ownerDropped []).after 9).world.heap.Acyclic := fun c d v hv => by
    rw [Heap.contents_eq_nil (dead c)] at hv
    cases hv
  obtain ⟨live, _, _, _, _, _, gone⟩ := only_strong_handles_own run rests acyclic
  have free (c : Container) : ¬((start ownerDropped []).after 9).session.Owns c := fun owns =>
    absurd ((live c).mpr owns) (by simp [dead c])
  exact ⟨_, _, run, rests, acyclic, free _, (gone ⟨0⟩ "a" .null fun _ _ => free _).1⟩

end Machine

end DataBinding
