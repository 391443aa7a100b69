-- Who is registered where. As long as nobody is registered by hand, the registry of a slot holds exactly
-- the watchers whose walk crossed the slot when they were made, and the registry of a list those whose
-- walk met the list as the value of a slot, each one once, in the order of their creation. So a write
-- to a slot owes a turn to no one else.
import DataBinding.Proofs.Session.Runs

namespace DataBinding

/-- Every registry that there is holds the watchers that crossed it, and one that never was has not
been crossed. -/
def World.Records (w : World) (events : List Event) : Prop :=
  ∀ r, (∀ ws, w.heap.watchers? r = some ws → ws = crossers events r) ∧
    (w.heap.watchers? r = none → w.heap.Gone r ∨ crossers events r = [])

namespace World

theorem Records.keep {w w' : World} {events : List Event} (records : w.Records events)
    (keeps : Heap.KeepsRegistries w.heap w'.heap) : w'.Records events := by
  intro r
  obtain ⟨there, absent⟩ := records r
  rcases keeps.kept r with e | ⟨none, notGone, e⟩ | gone
  · rw [e]
    refine ⟨there, fun none => ?_⟩
    exact (absent none).imp_left (keeps.gone r)
  · rw [e]
    refine ⟨?_, fun no => by cases no⟩
    intro ws hws
    cases hws
    exact ((absent none).resolve_left notGone).symm
  · refine ⟨?_, fun _ => .inl gone⟩
    intro ws hws
    rw [Heap.watchers?_of_gone gone] at hws
    cases hws

/-- Wiring adds the new watchers that cross a registry. -/
theorem Records.wire {w w' : World} {events : List Event} (records : w.Records events)
    (sound : w.Sound) (wires : w.Wires w') {born : List Event}
    (hb : ∀ r, crossers born r =
      (w'.bornSince w.watchers.size).filter fun id => w'.Passes r id) :
    w'.Records (events ++ born) := by
  intro r
  obtain ⟨there, absent⟩ := records r
  rw [wires.watchers? sound.enrolled r, crossers_append, hb r]
  refine ⟨?_, ?_⟩
  · intro ws' hws'
    obtain ⟨ws, hws, rfl⟩ := Option.map_eq_some_iff.mp hws'
    rw [there ws hws]
  · intro none'
    have none : w.heap.watchers? r = none := by simpa using none'
    rcases absent none with gone | nobody
    · exact .inl ((wires.sameFaces.gone_iff r).mpr gone)
    · rcases hf : (w'.bornSince w.watchers.size).filter (fun id => w'.Passes r id) with _ | ⟨id, _⟩
      · exact .inr (by rw [nobody, List.nil_append])
      · -- whoever crosses a registry crosses one that is there, or one whose list is released
        have passes : w'.Passes r id := by
          have : id ∈ (w'.bornSince w.watchers.size).filter fun id => w'.Passes r id := by
            rw [hf]
            exact List.mem_cons_self ..
          simpa using (List.mem_filter.mp this).2
        obtain ⟨watcher, _, hop⟩ := passes
        have crossed := (mem_readPath_crossed_iff w' _ _ r).mpr hop
        rcases there_of_crossed (wires.closed sound.closed) crossed with ⟨ws, hws⟩ | gone
        · rw [wires.watchers? sound.enrolled r, none'] at hws
          cases hws
        · exact .inl gone

end World

namespace Machine

/-- The next move is a registration by hand. -/
def Registers (m : Machine) : Prop :=
  match m.frames with
  | .steps _ _ (.registry _ (.register _) :: _) :: _ => True
  | _ => False

theorem registers_of_licence {m : Machine} (h : m.licence.registers) : m.Registers := by
  unfold licence at h
  split at h
  · cases h
  · rename_i frame rest hf
    unfold Frame.licence at h
    split at h
    · rename_i context tag step remaining
      unfold Step.licence at h
      split at h
      · unfold Registers
        rw [hf]
        trivial
      · cases h
      · cases h
      · cases h
      · cases h
    · cases h
    · cases h

theorem records_start (steps : List Step) (shows : List Show) :
    (start steps shows).world.Records [] := by
  intro r
  refine ⟨?_, fun _ => .inr rfl⟩
  intro ws hws
  cases r <;> simp [start, world, Session.empty, World.empty, Heap.empty, Heap.watchers?,
    Heap.lookup?, Heap.map?, Heap.list?] at hws

theorem records_next {m : Machine} {events : List Event} (sound : m.Sound)
    (quiet : ¬m.Registers) (records : m.world.Records events) :
    m.next.world.Records (events ++ m.events) := by
  obtain ⟨owed, mid, moves⟩ := moves sound
  have size : mid.watchers.size = m.world.watchers.size := congrArg Array.size moves.changes.watchers
  have edited : mid.Records events := records.keep
    (moves.changes.heap.keepsRegistries fun h => quiet (registers_of_licence h))
  have wired : m.moved.world.Records (events ++ m.births) := by
    refine edited.wire (moves.changes.sound sound.session.world) moves.wires fun r => ?_
    rw [size]
    exact crossers_births m r
  have turned : m.moved.world.Records (events ++ m.events) := by
    intro r
    have e : crossers (events ++ m.events) r = crossers (events ++ m.births) r := by
      rw [Machine.events, crossers_append, crossers_append, crossers_append, crossers_turning,
        List.append_nil]
    rw [e]
    exact wired r
  exact turned.keep m.next_effect.2.2.2.2.keepsRegistries

theorem Run.records {m₀ m : Machine} {events : List Event}
    (run : Run (fun m => ¬m.Registers) m₀ events m) (sound : m₀.Sound)
    (records : m₀.world.Records []) : m.world.Records events := by
  induction run with
  | start => exact records
  | move before quiet ih => exact records_next (before.sound sound) quiet ih

/-- In every state of a session in which nobody is registered by hand, a registry holds the watchers
whose walk crossed it when they were made, in the order of their creation and each one once; and a
write to a slot owes a turn to none but those whose walk crossed the slot. The walk of a creation is
the one that the path took in the move that made the watcher, at the moment when it was made. -/
theorem registry_holds_crossers {steps : List Step} {shows : List Show} {m : Machine}
    {events : List Event} (run : Run (fun m => ¬m.Registers) (start steps shows) events m) :
    (∀ r ws, m.world.heap.watchers? r = some ws →
      ws = crossers events r ∧ ws.Pairwise fun a b => a.index < b.index) ∧
    (∀ map key v, ∀ id ∈ (m.world.heap.set map key v).2, id ∈ crossers events (.slot map key)) ∧
    ∀ id hops v, .made id hops v ∈ events → ∃ earlier m₁ later w watcher,
      Run (fun m => ¬m.Registers) (start steps shows) earlier m₁ ∧ m₁.Creates w watcher id ∧
      hops = w.hops watcher.link.table watcher.path ∧ v = w.valueOf watcher ∧
      Run (fun m => ¬m.Registers) m₁.next later m := by
  have sound := sound_start steps shows
  have records := run.records sound (records_start steps shows)
  refine ⟨?_, ?_, ?_⟩
  · intro r ws hws
    have e := (records r).1 ws hws
    refine ⟨e, ?_⟩
    have made := run.made sound rfl
    have sub := crossers_sublist events r
    rw [made] at sub
    exact e ▸ (bornSince_increasing m.world 0).sublist sub
  · intro map key v id hid
    rcases m.world.heap.set_cases map key v with ⟨_, _, _, _, e⟩ | ⟨old, ws, he, _, e⟩ | ⟨_, e⟩
    · rw [e] at hid
      cases hid
    · rw [e] at hid
      have hws : m.world.heap.watchers? (.slot map key) = some ws := by
        simp [Heap.watchers?, he]
      exact (records (.slot map key)).1 ws hws ▸ hid
    · rw [e] at hid
      cases hid
  · intro id hops v made
    obtain ⟨earlier, m₁, later, first, here, rest⟩ := run.exists_move made
    obtain ⟨w, watcher, creates, walk, value⟩ := (made_mem_events_iff (first.sound sound)).mp here
    exact ⟨earlier, m₁, later, w, watcher, first, creates, walk, value, rest⟩

theorem registry_of_one_watcher : ∃ events m,
    Run (fun m => ¬m.Registers) (start oneWatcher []) events m ∧
    m.world.heap.watchers? (.slot ⟨0⟩ "a") = some [⟨1⟩] ∧ crossers events (.slot ⟨0⟩ "a") = [⟨1⟩] := by
  have run : Run (fun m => ¬m.Registers) (start oneWatcher []) _ _ := run_after 4 (by
    intro k hk
    iterate 4 (rcases k with _ | k; · cbv)
    omega)
  rw [after_of_one_watcher 0] at run
  have there : watching.world.heap.watchers? (.slot ⟨0⟩ "a") = some [⟨1⟩] := by cbv
  exact ⟨_, _, run, there, ((registry_holds_crossers run).1 _ _ there).1.symm⟩

end Machine

end DataBinding
