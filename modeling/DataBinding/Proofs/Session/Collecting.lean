-- Who collects dependencies. A new watcher collects while it evaluates its path, and nothing that a user
-- wrote runs in the meantime. Every deed puts back the collector that it found, so in every state of a
-- session nobody collects, reads change nothing, and a registry gains a watcher by a registration or
-- when the watcher is made.
import DataBinding.Proofs.Session.Deeds.Moves
import DataBinding.Proofs.Session.Subscribers

namespace DataBinding

/-! ## The collector -/

/-- A step leaves the collector as it found it, whoever collects and whatever the step is. -/
theorem Session.collector_perform (s : Session) (context : Context) (step : Step) :
    (s.perform context step).1.world.collector = s.world.collector := by
  rw [perform_fst]
  exact step.does.collector

/-- Nothing changes when a value is read. -/
structure World.ReadsFreely (w : World) : Prop where
  depend : ∀ crossed, w.depend crossed = w
  get : ∀ t name, (w.get t name).1 = w
  evaluate : ∀ t path, (w.evaluate t path).1 = w
  watched : ∀ watcher, (w.watched watcher).1 = w

theorem World.readsFreely_of_none {w : World} (none : w.collector = none) : w.ReadsFreely :=
  ⟨depend_of_none none, fun _ _ => depend_of_none none _, fun _ _ => depend_of_none none _,
    fun watcher => by rw [watched_eq]⟩

namespace Machine

/-- So does a move, be it a step, a turn, or a listener that hears an event. -/
theorem collector_next (m : Machine) : m.next.world.collector = m.world.collector :=
  m.next_effect.2.2.2.1.trans m.does.collector

/-! ## New subscribers -/

/-- Who is in a registry after a move was there before, or is registered by hand, or is made in the
move and its walk crosses the registry. -/
theorem subscribed_next {m : Machine} (sound : m.Sound) {r : Registry} {id : WatcherId}
    (hid : id ∈ m.next.world.heap.watchers r) : id ∈ m.world.heap.watchers r ∨ m.Registers ∨
      id ∈ m.moved.world.bornSince m.world.watchers.size ∧ m.moved.world.Passes r id := by
  obtain ⟨owed, mid, moves⟩ := moves sound
  have size : mid.watchers.size = m.world.watchers.size :=
    congrArg Array.size moves.changes.watchers
  obtain ⟨ws', hws', hid⟩ :=
    Heap.mem_watchers_iff.mp (m.next_effect.2.2.2.2.keepsRegistries.joined r hid)
  rw [moves.wires.watchers? (moves.changes.sound sound.session.world).enrolled, size] at hws'
  obtain ⟨ws, hws, rfl⟩ := Option.map_eq_some_iff.mp hws'
  rcases List.mem_append.mp hid with hid | hid
  · by_cases quiet : m.licence.registers
    · exact .inr (.inl (registers_of_licence quiet))
    · have mem : id ∈ mid.heap.watchers r := Heap.mem_watchers_iff.mpr ⟨ws, hws, hid⟩
      exact .inl ((moves.changes.heap.keepsRegistries quiet).joined r mem)
  · obtain ⟨born, passes⟩ := List.mem_filter.mp hid
    exact .inr (.inr ⟨born, by simpa using passes⟩)

/-- In every state of a session nobody collects, and every step and every move puts back the collector
that it found. So reads change nothing there, and only a registration by hand and the making of a
watcher add someone to a registry. -/
theorem nobody_collects {steps : List Step} {shows : List Show} {m : Machine}
    {events : List Event} (run : Run (fun _ => True) (start steps shows) events m) :
    m.world.collector = none ∧
    collectingReply m.world = .collecting false false none ∧
    (∀ (s : Session) (context : Context) (step : Step),
      (s.perform context step).1.world.collector = s.world.collector) ∧
    (∀ other : Machine, other.next.world.collector = other.world.collector) ∧
    m.world.ReadsFreely ∧
    ∀ r, ∀ id ∈ m.next.world.heap.watchers r, id ∈ m.world.heap.watchers r ∨ m.Registers ∨
      id ∈ m.moved.world.bornSince m.world.watchers.size ∧ m.moved.world.Passes r id := by
  have sound := run.sound (sound_start steps shows)
  have nobody : m.world.collector = none := sound.session.world.collector
  refine ⟨nobody, ?_, Session.collector_perform, collector_next,
    World.readsFreely_of_none nobody, fun r id hid => subscribed_next sound hid⟩
  have inside : (m.world.untracked fun w => (w, w.collector.isSome)).2 = false := rfl
  simp [collectingReply, nobody, inside]

/-- The fourth move of the session with one watcher makes it and registers it where its walk goes. -/
theorem one_watcher_subscribes : ∃ events m, Run (fun _ => True) (start oneWatcher []) events m ∧
    m.world.collector = none ∧ ¬m.Registers ∧ ⟨1⟩ ∉ m.world.heap.watchers (.slot ⟨0⟩ "a") ∧
    ⟨1⟩ ∈ m.next.world.heap.watchers (.slot ⟨0⟩ "a") ∧ m.moved.world.Passes (.slot ⟨0⟩ "a") ⟨1⟩ := by
  have run : Run (fun _ => True) (start oneWatcher []) _ _ := run_after 3 fun _ _ => trivial
  obtain ⟨nobody, _, _, _, _, subscribed⟩ := nobody_collects run
  have next : ((start oneWatcher []).after 3).next = watching := watching_eq
  have quiet : ¬((start oneWatcher []).after 3).Registers := by cbv
  have empty : ((start oneWatcher []).after 3).world.heap.watchers (.slot ⟨0⟩ "a") = [] := by cbv
  have joined : watching.world.heap.watchers (.slot ⟨0⟩ "a") = [⟨1⟩] := by cbv
  have before : ⟨1⟩ ∉ ((start oneWatcher []).after 3).world.heap.watchers (.slot ⟨0⟩ "a") := by
    simp [empty]
  have later : ⟨1⟩ ∈ ((start oneWatcher []).after 3).next.world.heap.watchers (.slot ⟨0⟩ "a") := by
    rw [next, joined]
    exact List.mem_singleton_self _
  refine ⟨_, _, run, nobody, quiet, before, later, ?_⟩
  rcases subscribed _ _ later with there | registers | ⟨_, passes⟩
  · exact absurd there before
  · exact absurd registers quiet
  · exact passes

end Machine

end DataBinding
