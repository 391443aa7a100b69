-- Machines that have let go of handles. Between the steps of the user the log is empty, and a step that
-- leaves no work is over after three moves; so each drop takes one handle away and changes nothing else, as
-- long as all that the handles over a table keep stays live.
import DataBinding.Proofs.Session.Ownership

namespace DataBinding

/-! ## Handles over a table -/

/-- A handle of a view model or of a view. -/
inductive Handle where
  | viewModel (name : String)
  | view (name : String)
deriving DecidableEq, Repr

namespace Handle

/-- The step that drops a handle. -/
def drop : Handle → Step
  | .viewModel name => .drop .viewModel name
  | .view name => .drop .view name

def viewModel? : Handle → Option String
  | .viewModel name => some name
  | .view _ => none

def view? : Handle → Option String
  | .viewModel _ => none
  | .view name => some name

end Handle

variable {handles gone : List Handle} {name : String} {t : TableId} {s : Session}

theorem mem_viewModels : name ∈ handles.filterMap Handle.viewModel? ↔ .viewModel name ∈ handles := by
  rw [List.mem_filterMap]
  constructor
  · rintro ⟨_ | _, h, ⟨⟩⟩
    exact h
  · exact fun h => ⟨_, h, rfl⟩

theorem mem_views : name ∈ handles.filterMap Handle.view? ↔ .view name ∈ handles := by
  rw [List.mem_filterMap]
  constructor
  · rintro ⟨_ | _, h, ⟨⟩⟩
    exact h
  · exact fun h => ⟨_, h, rfl⟩

namespace Session

/-- The handles of the user over a table: all view models and all views over it, and no others. -/
structure HandlesOver (s : Session) (t : TableId) (handles : List Handle) : Prop where
  table : t.index < s.world.tables.size
  viewModels : ∀ entry ∈ s.viewModels, .viewModel entry.1 ∈ handles ↔ entry.2.table = t
  views : ∀ entry ∈ s.views, .view entry.1 ∈ handles ↔ entry.2.viewModel.table = t

/-- What the handles over a table keep: what is mounted in their root tables, and the models of the
views. -/
inductive KeptOver (s : Session) (t : TableId) : Container → Prop where
  | mounted {vm : ViewModel} {entries : List (String × MapId)} {e : String × MapId}
      (held : vm ∈ s.held.viewModels) (there : vm.table = t)
      (table : s.world.mounts? vm.mounts = some entries) (mounted : e ∈ entries) :
      KeptOver s t (.map e.2)
  | model {entry : String × MountedView} (held : entry ∈ s.views)
      (there : entry.2.viewModel.table = t) : KeptOver s t (.map entry.2.model)

/-- What is named over a table: what is mounted in its root tables, its containers, and the maps of its
properties. -/
inductive NamedOver (s : Session) (t : TableId) : Container → Prop where
  | mounted {vm : ViewModel} {entries : List (String × MapId)} {e : String × MapId}
      (held : vm ∈ s.held.viewModels) (there : vm.table = t)
      (table : s.world.mounts? vm.mounts = some entries) (mounted : e ∈ entries) :
      NamedOver s t (.map e.2)
  | container {e : String × MapId} (named : e ∈ (s.world.table t).containers) : NamedOver s t (.map e.2)
  | property {e : String × MapId} (named : e ∈ (s.world.table t).properties) : NamedOver s t (.map e.2)

/-- What is let go of with some handles over a table. -/
def parting (s : Session) (t : TableId) (handles : List Handle) : Parting :=
  ⟨some t, handles.filterMap Handle.viewModel?, handles.filterMap Handle.view?, s.KeptOver t⟩

/-- A session without some of its handles, and with other mounts. -/
def without (s : Session) (mounts : Array (Option (List (String × MapId)))) (gone : List Handle) :
    Session :=
  { s with
    world := { s.world with mounts }
    viewModels := spare (gone.filterMap Handle.viewModel?) s.viewModels
    views := spare (gone.filterMap Handle.view?) s.views }

variable {mounts : Array (Option (List (String × MapId)))}

theorem mem_values_without {v : Value} : v ∈ (s.without mounts gone).held.values ↔
    (∃ entry ∈ s.values, entry.2 = v) ∨
      ∃ entry ∈ s.views, .view entry.1 ∉ gone ∧ .map entry.2.model = v := by
  simp only [mem_values_held, without, mem_spare, mem_views, and_assoc]

theorem mem_viewModels_without {vm : ViewModel} : vm ∈ (s.without mounts gone).held.viewModels ↔
    (∃ entry ∈ s.viewModels, .viewModel entry.1 ∉ gone ∧ entry.2 = vm) ∨
      ∃ entry ∈ s.views, .view entry.1 ∉ gone ∧ entry.2.viewModel = vm := by
  simp only [mem_viewModels_held, without, mem_spare, mem_viewModels, mem_views, and_assoc]

/-- A handle is held still, or it is over the table. -/
theorem HandlesOver.still_or_over (all : s.HandlesOver t handles) (within : gone ⊆ handles)
    {vm : ViewModel} (held : vm ∈ s.held.viewModels) :
    vm ∈ (s.without mounts gone).held.viewModels ∨ vm.table = t := by
  rw [mem_viewModels_without]
  rcases mem_viewModels_held.mp held with ⟨entry, h, rfl⟩ | ⟨view, h, rfl⟩
  · by_cases left : .viewModel entry.1 ∈ gone
    · exact .inr ((all.viewModels entry h).mp (within left))
    · exact .inl (.inl ⟨entry, h, left, rfl⟩)
  · by_cases left : .view view.1 ∈ gone
    · exact .inr ((all.views view h).mp (within left))
    · exact .inl (.inr ⟨view, h, left, rfl⟩)

/-- When all handles over the table are gone, no other view model is over it. -/
theorem HandlesOver.other (all : s.HandlesOver t handles) {vm : ViewModel}
    (held : vm ∈ (s.without mounts handles).held.viewModels) : vm.table ≠ t := by
  rcases mem_viewModels_without.mp held with ⟨entry, h, left, rfl⟩ | ⟨view, h, left, rfl⟩
  · exact fun e => left ((all.viewModels entry h).mpr e)
  · exact fun e => left ((all.views view h).mpr e)

theorem held_of_without {vm : ViewModel} (held : vm ∈ (s.without mounts gone).held.viewModels) :
    vm ∈ s.held.viewModels := by
  rw [mem_viewModels_held]
  exact (mem_viewModels_without.mp held).imp (fun ⟨entry, h, _, is⟩ => ⟨entry, h, is⟩)
    fun ⟨view, h, _, is⟩ => ⟨view, h, is⟩

theorem still_of_more {more : List Handle} {mounts' : Array (Option (List (String × MapId)))}
    {vm : ViewModel} (held : vm ∈ (s.without mounts (gone ++ more)).held.viewModels) :
    vm ∈ (s.without mounts' gone).held.viewModels := by
  have fewer {h : Handle} (left : h ∉ gone ++ more) : h ∉ gone := fun hg =>
    left (List.mem_append_left _ hg)
  rw [mem_viewModels_without] at held ⊢
  exact held.imp (fun ⟨entry, h, left, is⟩ => ⟨entry, h, fewer left, is⟩)
    fun ⟨view, h, left, is⟩ => ⟨view, h, fewer left, is⟩

end Session

/-! ## The log between the steps of the user -/

/-- A frame that leads to the answer of a step of the user. -/
def Frame.Answers : Frame → Prop
  | .reply none _ _ | .record _ => True
  | _ => False

namespace Machine

variable {steps rest : List Step} {shows : List Show} {may : Machine → Prop} {m n : Machine}
  {events : List Event}

/-- Between the steps of the user the log is empty; while one of them runs, its answer is given last. -/
def Accounts (m : Machine) : Prop :=
  m.Rests ∧ m.session.log = [] ∨
    ∃ above f rest, f.Answers ∧ m.frames = above ++ [f, .steps .outside none rest]

theorem Accounts.moved (accounts : m.Accounts) : m.moved.Accounts := by
  rcases accounts with ⟨hf | ⟨_ | ⟨step, rest⟩, hf⟩, log⟩ | ⟨above, f, rest, answers, hf⟩
  · rw [show m.moved = m by simp [Machine.moved, hf]]
    exact .inl ⟨.inl hf, log⟩
  · rw [moved_of_cons hf]
    exact .inl ⟨.inl rfl, log⟩
  · rw [moved_of_cons hf, move_steps]
    exact .inr ⟨_, .reply none _ _, rest, trivial, List.append_nil _⟩
  · rcases above with _ | ⟨g, above⟩
    · rw [moved_of_cons hf]
      cases f with
      | reply tag r held =>
        cases tag with
        | none => exact .inr ⟨[], .record _, rest, trivial, rfl⟩
        | some _ => cases answers
      | record r => exact .inl ⟨.inr ⟨rest, rfl⟩, rfl⟩
      | steps _ _ _ | turns _ | hearing _ _ | call _ _ | keep _ => cases answers
    · rw [moved_of_cons hf]
      exact .inr ⟨(m.move g).2 ++ above, f, rest, answers, (List.append_assoc ..).symm⟩

theorem Accounts.next (accounts : m.Accounts) : m.next.Accounts := by
  have moved := accounts.moved
  rw [next_eq]
  split
  · exact moved
  · exact moved

theorem accounts_of_run (run : Run may (start steps shows) events m) : m.Accounts := by
  induction run with
  | start => exact .inl ⟨.inr ⟨steps, rfl⟩, rfl⟩
  | move _ _ ih => exact ih.next

theorem log_of_rests (run : Run may (start steps shows) events m) (rests : m.Rests) :
    m.session.log = [] := by
  rcases accounts_of_run run with ⟨_, log⟩ | ⟨above, f, rest, _, hf⟩
  · exact log
  · rcases rests with none | ⟨_, one⟩
    · simp [hf] at none
    · have := congrArg List.length (hf.symm.trans one)
      simp at this

/-! ## The moves of a drop -/

/-- The machine with other steps of the user to be done. -/
def goesOn (m : Machine) (steps : List Step) : Machine := { m with frames := [.steps .outside none steps] }

/-- The machine that drops handles first. -/
def goesWithout (m : Machine) (handles : List Handle) (steps : List Step) : Machine :=
  m.goesOn (handles.map Handle.drop ++ steps)

theorem next_of_outcome {step : Step} {s : Session} {r : Reply Value}
    (hf : n.frames = [.steps .outside none (step :: rest)])
    (performed : n.session.perform .outside step = (s, .ofReply r)) (plain : r.held = .nothing) :
    n.next = { n with
      session := { s with world := s.world.release s.held }
      frames := [.reply none r .nothing, .steps .outside none rest] } := by
  have held : Held.concat [s.held, (Frame.reply none r .nothing).held,
      (Frame.steps .outside none rest).held] = s.held := by
    simp [Held.concat, Frame.held, Context.held, Context.outside, plain, Held.nothing, Held.and]
  rw [next_eq, hf, moved_of_cons hf, move_steps, performed]
  simp only [List.head?_cons, Option.any_some, Frame.letsGo, if_true, release_eq]
  rw [Machine.held]
  simp only [Outcome.ofReply, Frame.ofWork, List.nil_append, List.append_nil, List.map_cons,
    List.map_nil, held, world]

/-- A step of the user that leaves no work is over after three moves. -/
theorem after_of_outcome {step : Step} {s : Session} {r : Reply Value}
    (hf : n.frames = [.steps .outside none (step :: rest)])
    (performed : n.session.perform .outside step = (s, .ofReply r)) (plain : r.held = .nothing) :
    ∃ answer : Answer, answer.log = s.log ∧ n.after 3 = { n with
      session := { s with world := s.world.release s.held, log := [] }
      frames := [.steps .outside none rest]
      answers := n.answers.push answer } := by
  have nothing : (Held.nothing.and .nothing).isNothing = true ∧ Held.nothing.isNothing = true := ⟨rfl, rfl⟩
  have first := next_of_outcome hf performed plain
  have second : n.next.next = { n.next with
      frames := [.record (r.map n.next.world.heap.snapshot), .steps .outside none rest] } := by
    rw [first, next_eq]
    simp [Machine.moved, move, Frame.letsGo, Frame.held, plain, nothing, world]
  have third : n.next.next.next = { n.next.answer (r.map n.next.world.heap.snapshot) with
      frames := [.steps .outside none rest] } := by
    rw [second, next_eq]
    simp [Machine.moved, move, Frame.letsGo, Frame.held, nothing, answer]
  refine ⟨⟨r.map n.next.world.heap.snapshot, n.next.session.log, n.next.shows.map (shown n.next.session)⟩,
    ?_, third.trans ?_⟩
  · rw [first]
  · rw [first]
    rfl

/-! ## Without the handles -/

/-- A machine that has let go of some handles, and of the mounts that only they kept, and of nothing
else. -/
structure Lacks (m n : Machine) (gone : List Handle) : Prop where
  session : n.session = m.session.without n.world.mounts gone
  shows : n.shows = m.shows
  size : n.world.mounts.size = m.world.mounts.size
  mounts : ∀ a entries, n.world.mounts? a = some entries ↔
    (∃ vm ∈ n.session.held.viewModels, vm.mounts = a) ∧ m.world.mounts? a = some entries

theorem spare_concat {α : Type} (names : List String) (name : String) (entries : List (String × α)) :
    spare (names ++ [name]) entries = dropEntry name (spare names entries) := by
  simp only [spare, dropEntry, List.filter_filter]
  congr 1
  funext entry
  simp [Bool.and_comm]

/-- To drop a handle takes that handle away. -/
theorem perform_drop (s : Session) (mounts : Array (Option (List (String × MapId))))
    (gone : List Handle) (h : Handle) : ∃ there, (s.without mounts gone).perform .outside h.drop =
      (s.without mounts (gone ++ [h]), .ofReply (.flag there)) := by
  cases h with
  | viewModel name =>
    refine ⟨_, Prod.ext ?_ rfl⟩
    simp only [Session.without, List.filterMap_append, List.filterMap_cons, Handle.viewModel?,
      Handle.view?, List.filterMap_nil, List.append_nil, spare_concat]
    rfl
  | view name =>
    refine ⟨_, Prod.ext ?_ rfl⟩
    simp only [Session.without, List.filterMap_append, List.filterMap_cons, Handle.viewModel?,
      Handle.view?, List.filterMap_nil, List.append_nil, spare_concat]
    rfl

/-- A machine that goes on lacks nothing. -/
theorem lacks_nothing (run : Run may (start steps shows) events m) (rests : m.Rests)
    (steps : List Step) : m.Lacks (m.goesOn steps) [] where
  session := by simp [goesOn, Session.without, world, spare_nil]
  shows := rfl
  size := rfl
  mounts a entries := by
    refine ⟨fun there => ⟨?_, there⟩, fun h => h.2⟩
    obtain ⟨vm, held, is⟩ := (tight_of_run run).mounts a (Option.isSome_iff_exists.mpr ⟨_, there⟩)
    exact ⟨vm, held_of_rests rests ▸ held, is⟩

section

variable (run : Run may (start steps shows) events m) (rests : m.Rests)
  (all : m.session.HandlesOver t handles)
include run rests all

/-- The release after a drop frees nothing, if what the handles kept is live after it. -/
theorem heap_without (mounts : Array (Option (List (String × MapId)))) (within : gone ⊆ handles)
    (same : ∀ vm ∈ (m.session.without mounts gone).held.viewModels,
      World.mounts? { m.world with mounts } vm.mounts = m.world.mounts? vm.mounts)
    (stays : ∀ c, m.session.KeptOver t c → ((m.session.without mounts gone).world.release
      (m.session.without mounts gone).held).heap.isLive c = true) :
    ((m.session.without mounts gone).world.release (m.session.without mounts gone).held).heap =
      m.world.heap := by
  obtain ⟨_, lives⟩ := lives_roots run
  have held := held_of_rests rests
  rw [World.release_eq] at stays ⊢
  have still : m.world.heap.release m.roots = m.world.heap :=
    Heap.release_of_supported (tight_of_run run).supported
  refine Eq.trans (Heap.release_congr ?_ ?_).symm still
  · rintro c ⟨v, hv, is⟩
    refine ⟨v, mem_roots.mpr ?_, is⟩
    rw [held]
    rcases World.mem_roots.mp hv with hv | ⟨vm, hvm, entries, he, hm⟩
    · refine .inl (Session.mem_values_held.mpr ?_)
      exact (Session.mem_values_without.mp hv).imp_right fun ⟨view, h, _, is⟩ => ⟨view, h, is⟩
    · exact .inr ⟨vm, Session.held_of_without hvm, entries, (same vm hvm).symm.trans he, hm⟩
  · intro v hv c is
    have stay (hv' : v ∈ (m.session.without mounts gone).world.roots
        (m.session.without mounts gone).held) : (m.world.heap.release
          ((m.session.without mounts gone).world.roots (m.session.without mounts gone).held)).isLive c = true :=
      Heap.lives_of_held (lives v hv) hv' c is
    rcases mem_roots.mp hv with hv | ⟨vm, hvm, entries, he, e, hm, rfl⟩
    · rw [held] at hv
      rcases Session.mem_values_held.mp hv with ⟨entry, h, rfl⟩ | ⟨view, h, rfl⟩
      · exact stay (World.mem_roots.mpr (.inl (Session.mem_values_without.mpr (.inl ⟨entry, h, rfl⟩))))
      · by_cases left : .view view.1 ∈ gone
        · cases is
          exact stays _ (.model h ((all.views view h).mp (within left)))
        · exact stay (World.mem_roots.mpr (.inl (Session.mem_values_without.mpr (.inr ⟨view, h, left, rfl⟩))))
    · rw [held] at hvm
      rcases all.still_or_over within hvm with hvm' | there
      · exact stay (World.mem_roots.mpr (.inr ⟨vm, hvm', entries, (same vm hvm').trans he, e, hm, rfl⟩))
      · cases is
        exact stays _ (.mounted hvm there he hm)

/-- The three moves of a drop take one more handle away. -/
theorem Lacks.drop (lacks : m.Lacks n gone) {h : Handle} (within : gone ++ [h] ⊆ handles)
    (hf : n.frames = [.steps .outside none (h.drop :: rest)])
    (stays : ∀ c, m.session.KeptOver t c → n.next.world.heap.isLive c = true) :
    m.Lacks (n.after 3) (gone ++ [h]) ∧ (n.after 3).frames = [.steps .outside none rest] ∧
      ∃ answer : Answer, answer.log = [] ∧ (n.after 3).answers = n.answers.push answer := by
  obtain ⟨there, performed⟩ := perform_drop m.session n.world.mounts gone h
  rw [← lacks.session] at performed
  obtain ⟨told, log, after⟩ := after_of_outcome hf performed rfl
  have same {vm : ViewModel} (held : vm ∈ n.session.held.viewModels) :
      n.world.mounts? vm.mounts = m.world.mounts? vm.mounts :=
    Option.ext fun entries => (lacks.mounts vm.mounts entries).trans (and_iff_right ⟨vm, held, rfl⟩)
  have fewer {vm : ViewModel}
      (held : vm ∈ (m.session.without n.world.mounts (gone ++ [h])).held.viewModels) :
      vm ∈ n.session.held.viewModels := lacks.session ▸ Session.still_of_more held
  have noLog : m.session.log = [] := log_of_rests run rests
  have heap := heap_without run rests all n.world.mounts within
    (fun vm held => same (fewer held)) fun c kept => by
      have stays := stays c kept
      rw [next_of_outcome hf performed rfl] at stays
      exact stays
  rw [after]
  refine ⟨⟨?_, lacks.shows, ?_, fun a entries => ?_⟩, rfl, told, log.trans noLog, rfl⟩
  · simp only [Session.without, world, World.release_eq] at heap ⊢
    rw [heap, noLog]
  · simp only [world, World.release_eq, World.keptMounts, Array.size_mapIdx]
    exact lacks.size
  · refine (World.mounts?_release_iff).trans (and_congr_right ?_)
    rintro ⟨vm, held, rfl⟩
    rw [← same (fewer held)]
    rfl

/-- After the moves that drop them the machine lacks all handles over the table. Nothing was logged. -/
theorem lacks_after (todo : List Handle) (parts : gone ++ todo = handles) (lacks : m.Lacks n gone)
    (hf : n.frames = [.steps .outside none (todo.map Handle.drop ++ rest)])
    (stays : ∀ k c, m.session.KeptOver t c → (n.after k).world.heap.isLive c = true) :
    m.Lacks (n.after (3 * todo.length)) handles ∧
      (n.after (3 * todo.length)).frames = [.steps .outside none rest] ∧
      ∃ told : List Answer, told.length = todo.length ∧ (∀ answer ∈ told, answer.log = []) ∧
        (n.after (3 * todo.length)).answers = n.answers ++ told.toArray := by
  induction todo generalizing n gone with
  | nil => exact ⟨parts ▸ (List.append_nil gone).symm ▸ lacks, hf, [], rfl, nofun, by simp [after]⟩
  | cons h todo ih =>
    have parts : (gone ++ [h]) ++ todo = handles := by simpa using parts
    obtain ⟨lacks, hf, answer, log, answers⟩ := lacks.drop run rests all
      (parts ▸ List.subset_append_left _ _) hf (stays 1)
    obtain ⟨lacks, hf, told, length, logs, answers'⟩ := ih parts lacks hf fun k c kept => by
      rw [← after_add]
      exact stays (3 + k) c kept
    have moves : 3 * (h :: todo).length = 3 + 3 * todo.length := by
      rw [List.length_cons]
      omega
    rw [moves, after_add]
    refine ⟨lacks, hf, answer :: told, congrArg (· + 1) length, ?_, by simp [answers', answers]⟩
    exact List.forall_mem_cons.mpr ⟨log, logs⟩

end

end Machine

end DataBinding
