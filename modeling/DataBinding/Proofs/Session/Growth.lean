-- The store of a session only grows. Every deed lets the heap grow and a release takes whole containers
-- away, so between any two states of a run whatever is live in both has only gained keys and watchers.
import DataBinding.Proofs.Heap.Growth
import DataBinding.Proofs.Session.Deeds.Moves
import DataBinding.Proofs.Session.Runs

namespace DataBinding

/-! ## Deeds -/

theorem World.grows_watch (w : World) (link : Link) (path : KeyPath) (reaction : Reaction) :
    w.heap.Grows (w.watch link path reaction).1.heap := by
  rw [World.watch_eq]
  exact w.heap.grows_foldl_register _ _

theorem World.Wires.grows {w w' : World} (wires : w.Wires w') : w.heap.Grows w'.heap := by
  induction wires with
  | refl => exact .refl _
  | page _ _ ih => exact ih
  | watch _ link path reaction ih => exact ih.trans (World.grows_watch _ link path reaction)

/-- Every deed lets the heap grow. -/
theorem Deed.grows_apply (w : World) (d : Deed) : w.heap.Grows (d.apply w).heap := by
  cases d with
  | edit e => exact w.heap.grows_apply e
  | depend crossed =>
    simp only [apply, World.depend]
    split
    · exact .refl _
    · exact w.heap.grows_foldl_register _ _
  | watch link path script => exact w.grows_watch link path _
  | compile marks vm root => exact (w.wires_compile marks vm root).grows
  | tables _ _ | listen _ _ _ | page _ => exact .refl _

namespace Machine

/-! ## Moves and runs -/

/-- One move lets the heap grow, also if something is released after it. -/
theorem grows_next (m : Machine) : m.world.heap.Grows m.next.world.heap :=
  (m.does.keeps (P := fun w => m.world.heap.Grows w.heap)
    (fun w d _ grown => grown.trans (d.grows_apply w)) (.refl _)).trans
    m.next_effect.2.2.2.2.grows

theorem Run.grows {may : Machine → Prop} {m₀ m : Machine} {events : List Event}
    (run : Run may m₀ events m) : m₀.world.heap.Grows m.world.heap := by
  induction run with
  | start => exact .refl _
  | move _ _ ih => exact ih.trans (grows_next _)

/-- In every state of a session the keys of a map are distinct. -/
theorem nodup_keys {steps : List Step} {shows : List Show} {may : Machine → Prop} {m : Machine}
    {events : List Event} (run : Run may (start steps shows) events m) :
    ∀ id c, m.world.heap.map? id = some c → c.keys.Nodup := by
  refine run.grows.distinct fun id c hc => ?_
  simp [world, start, Session.empty, World.empty, Heap.empty, Heap.map?] at hc

/-- Between two states of a run the store only grows. The keys of a map stay in their order with new
ones behind them and are distinct; what is observed stays observed, a slot stays a slot, and a registry
gets new watchers behind the old ones and none of them twice. -/
theorem store_only_grows {steps : List Step} {shows : List Show} {m m' : Machine}
    {events later : List Event} (run : Run (fun _ => True) (start steps shows) events m)
    (goesOn : Run (fun _ => True) m later m') :
    (∀ id c c', m.world.heap.map? id = some c → m'.world.heap.map? id = some c' →
      c.keys <+: c'.keys ∧ c.keys.Nodup ∧ c'.keys.Nodup ∧
        (c.observed = true → c'.observed = true)) ∧
    (∀ id c c', m.world.heap.list? id = some c → m'.world.heap.list? id = some c' →
      c.observed = true → c'.observed = true) ∧
    (∀ id key, m.world.heap.isSlot id key = true → m'.world.heap.isLive (.map id) = true →
      m'.world.heap.isSlot id key = true) ∧
    (∀ r ws ws', m.world.heap.watchers? r = some ws → m'.world.heap.watchers? r = some ws' →
      ws <+: ws') ∧
    (∀ r ws, m.world.heap.watchers? r = some ws → ws.Nodup) := by
  have grows := goesOn.grows
  have distinct := nodup_keys run
  have enrolled := (run.sound (sound_start steps shows)).session.world.enrolled
  refine ⟨fun id c c' hc hc' => ?_, fun id c c' hc hc' => (grows.list hc hc').marked,
    fun id key slot live => grows.isSlot slot live, fun r ws ws' => grows.watchers,
    fun r ws hws => (enrolled r ws hws).1⟩
  have more := grows.map hc hc'
  exact ⟨more.keys, distinct id c hc, more.distinct (distinct id c hc), more.marked⟩

/-- The slot of the session with one watcher is empty after three moves; the fourth one registers the
watcher, and the seventh one writes the slot. -/
theorem store_of_one_watcher_grows :
    ∃ (early late : List Event) (m m' : Machine),
      Run (fun _ => True) (start oneWatcher []) early m ∧ Run (fun _ => True) m late m' ∧
      m.world.heap.watchers? (.slot ⟨0⟩ "a") = some [] ∧
      m'.world.heap.watchers? (.slot ⟨0⟩ "a") = some [⟨1⟩] ∧
      ([] : List WatcherId) <+: [⟨1⟩] := by
  have run : Run (fun _ => True) (start oneWatcher []) _ _ := run_after 3 fun _ _ => trivial
  have goesOn : Run (fun _ => True) ((start oneWatcher []).after 3) _ _ :=
    run_after 4 fun _ _ => trivial
  have before : ((start oneWatcher []).after 3).world.heap.watchers? (.slot ⟨0⟩ "a") = some [] := by
    cbv
  have after : (((start oneWatcher []).after 3).after 4).world.heap.watchers? (.slot ⟨0⟩ "a") =
      some [⟨1⟩] := by
    rw [← after_add, show 3 + 4 = 4 + 3 from rfl, after_of_one_watcher]
    cbv
  obtain ⟨_, _, _, registries, _⟩ := store_only_grows run goesOn
  exact ⟨_, _, _, _, run, goesOn, before, after, registries _ _ _ before after⟩

end Machine

end DataBinding
