-- Runs of the machine and what happens to the watchers in them. A watcher is made once, and its walk at
-- that time is kept with its value; a turn is kept with the value that it hands over. The machine itself
-- keeps none of this.
import DataBinding.Proofs.Session.Moves
import Mathlib

namespace DataBinding

/-! ## Events -/

/-- What happens to a watcher: it is made, and its path takes the given hops and reads the given value,
or its turn begins with the given value. -/
inductive Event where
  | made (id : WatcherId) (hops : List Hop) (value : Value)
  | turned (id : WatcherId) (value : Value)
deriving DecidableEq, Repr

namespace Event

/-- The watcher that was made, if the event is a creation. -/
def made? : Event → Option WatcherId
  | .made id _ _ => some id
  | .turned _ _ => none

/-- The watcher that was made, if its walk crossed a registry. -/
def crosser? (r : Registry) : Event → Option WatcherId
  | .made id hops _ => if ∃ hop ∈ hops, hop.Crosses r then some id else none
  | .turned _ _ => none

/-- The value that a watcher has got in an event. -/
def valueFor? (id : WatcherId) : Event → Option Value
  | .made other _ value | .turned other value => if other = id then some value else none

end Event

/-- The watchers whose walk crossed a registry when they were made, in the order of their creation. -/
def crossers (events : List Event) (r : Registry) : List WatcherId := events.filterMap (·.crosser? r)

/-- The value that a watcher got last: in its last turn, or when it was made. -/
def lastValue? (events : List Event) (id : WatcherId) : Option Value :=
  (events.filterMap (·.valueFor? id)).getLast?

theorem crossers_append (a b : List Event) (r : Registry) :
    crossers (a ++ b) r = crossers a r ++ crossers b r := List.filterMap_append

theorem lastValue?_append (a b : List Event) (id : WatcherId) :
    lastValue? (a ++ b) id = (lastValue? b id).or (lastValue? a id) := by
  rw [lastValue?, List.filterMap_append, List.getLast?_append]
  rfl

theorem lastValue?_append_of_none {a b : List Event} {id : WatcherId}
    (none : ∀ e ∈ b, e.valueFor? id = none) : lastValue? (a ++ b) id = lastValue? a id := by
  have nothing : b.filterMap (·.valueFor? id) = [] := List.filterMap_eq_nil_iff.mpr none
  rw [lastValue?_append, lastValue?, nothing]
  rfl

/-- Whoever crossed a registry was made. -/
theorem crossers_sublist (events : List Event) (r : Registry) :
    (crossers events r).Sublist (events.filterMap Event.made?) := by
  induction events with
  | nil => exact .slnil
  | cons e rest ih =>
    cases e with
    | made id hops value =>
      by_cases hc : ∃ hop ∈ hops, hop.Crosses r
      · simpa [crossers, Event.crosser?, Event.made?, hc] using ih
      · simpa [crossers, Event.crosser?, Event.made?, hc] using ih.cons id
    | turned id value => exact ih

namespace Machine

/-! ## The events of a move -/

/-- The event of a watcher that is made: its walk and its value. What is made after it in the same
move changes neither. -/
def birth (m : Machine) (id : WatcherId) : Option Event :=
  (m.moved.world.watcher? id).map fun watcher =>
    .made id (m.moved.world.hops watcher.link.table watcher.path) (m.moved.world.valueOf watcher)

/-- The watchers that the next move makes. -/
def births (m : Machine) : List Event :=
  (m.moved.world.bornSince m.world.watchers.size).filterMap m.birth

/-- The turn that begins with the next move, with the value that is handed over. -/
def turning (m : Machine) : Option Event :=
  match m.frames with
  | .turns (id :: _) :: _ =>
    (m.world.watcher? id).map fun watcher => .turned id (m.world.valueOf watcher)
  | _ => none

def events (m : Machine) : List Event := m.births ++ m.turning.toList

/-! ## Runs -/

/-- A machine is reached from another one by moves, each of which is made where it may be made. -/
inductive Run (may : Machine → Prop) (m₀ : Machine) : List Event → Machine → Prop where
  | start : Run may m₀ [] m₀
  | move {events : List Event} {m : Machine} (before : Run may m₀ events m) (allowed : may m) :
      Run may m₀ (events ++ m.events) m.next

variable {may : Machine → Prop} {m₀ m : Machine} {events : List Event}

theorem Run.sound (run : Run may m₀ events m) (sound : m₀.Sound) : m.Sound := by
  induction run with
  | start => exact sound
  | move _ _ ih => exact sound_next ih

/-- A run is one of another kind if its moves may also be made there; the states of it are sound. -/
theorem Run.widen {may' : Machine → Prop} (run : Run may m₀ events m) (sound : m₀.Sound)
    (wider : ∀ m : Machine, m.Sound → may m → may' m) : Run may' m₀ events m := by
  induction run with
  | start => exact .start
  | move before allowed ih => exact ih.move (wider _ (before.sound sound) allowed)

/-- One run after another one. -/
theorem Run.trans {m₁ : Machine} {later : List Event} (first : Run may m₁ events m₀)
    (run : Run may m₀ later m) : Run may m₁ (events ++ later) m := by
  induction run with
  | start => rwa [List.append_nil]
  | move _ allowed ih =>
    rw [← List.append_assoc]
    exact ih.move allowed

/-- What happens in a run happens in one of its moves. -/
theorem Run.exists_move (run : Run may m₀ events m) {e : Event} (he : e ∈ events) :
    ∃ earlier m₁ later, Run may m₀ earlier m₁ ∧ e ∈ m₁.events ∧ Run may m₁.next later m := by
  induction run with
  | start => cases he
  | @move events m before allowed ih =>
    rcases List.mem_append.mp he with he | he
    · obtain ⟨earlier, m₁, later, first, here, rest⟩ := ih he
      exact ⟨earlier, m₁, _, first, here, rest.move allowed⟩
    · exact ⟨events, m, [], before, he, .start⟩

/-- The machine after so many moves. -/
def after (m : Machine) : Nat → Machine
  | 0 => m
  | moves + 1 => (m.after moves).next

/-- What happens in so many moves. -/
def eventsIn (m : Machine) : Nat → List Event
  | 0 => []
  | moves + 1 => m.eventsIn moves ++ (m.after moves).events

theorem run_after {m : Machine} (moves : Nat) (allowed : ∀ k < moves, may (m.after k)) :
    Run may m (m.eventsIn moves) (m.after moves) := by
  induction moves with
  | zero => exact .start
  | succ moves ih =>
    have before := ih fun k hk => allowed k (Nat.lt_succ_of_lt hk)
    exact before.move (allowed moves (Nat.lt_succ_self moves))

theorem sound_after {m : Machine} (sound : m.Sound) (moves : Nat) : (m.after moves).Sound := by
  induction moves with
  | zero => exact sound
  | succ moves ih => exact sound_next ih

theorem after_add (m : Machine) (moves more : Nat) :
    m.after (moves + more) = (m.after moves).after more := by
  induction more with
  | zero => rfl
  | succ more ih => exact congrArg next ih

/-- A session with one watcher, which is there after four moves. The write that its turn follows is made
by the seventh move, and the turn begins with the eighth one. -/
def oneWatcher : List Step :=
  [.newViewModel "vm" (.observed (.document (.object [("a", .int 1)]))),
    .watch "vm" "a" "w" [] none, .viewModel "vm" (.set "a" (.document (.text "x")))]

/-- Where that session stands when its watcher has been made. -/
def watching : Machine where
  session :=
    { Session.empty with
      world :=
        { World.empty with
          heap := ⟨#[some ⟨[⟨"a", .number ⟨4607182418800017408⟩, some [⟨1⟩]⟩], true⟩], #[], #[]⟩
          watchers := #[⟨⟨⟨0⟩, ⟨0⟩⟩, ⟨"a", "a", []⟩, .script ⟨0⟩⟩]
          tables := #[⟨[("$data", ⟨0⟩)], [("a", ⟨0⟩)], []⟩]
          mounts := #[some [("$data", ⟨0⟩)]] }
      viewModels := [("vm", ⟨⟨0⟩, ⟨0⟩⟩)]
      watchers := [("w", ⟨1⟩)]
      scripts := #[⟨.watcher, "w", [], none, 0⟩] }
  shows := []
  frames := [.reply none (.watcher ⟨1⟩) .nothing,
    .steps ⟨none, none⟩ none [.viewModel "vm" (.set "a" (.document (.text "x")))]]
  answers := #[⟨.names ["a"], [], []⟩]

theorem watching_eq : (start oneWatcher []).after 4 = watching := by cbv

theorem after_of_one_watcher (late : Nat) :
    (start oneWatcher []).after (4 + late) = watching.after late := by
  rw [after_add, watching_eq]

/-! ## Creations -/

theorem watchers_moved {m : Machine} (sound : m.Sound) :
    m.world.watchers.size ≤ m.moved.world.watchers.size ∧
      ∀ id : WatcherId, id.Among m.world.watchers.size →
        m.moved.world.watcher? id = m.world.watcher? id := by
  obtain ⟨owed, mid, moves⟩ := moves sound
  have same := moves.changes.watchers
  have size : mid.watchers.size = m.world.watchers.size := congrArg Array.size same
  refine ⟨size ▸ moves.wires.size_le, ?_⟩
  intro id among
  rw [moves.wires.watcher? (size ▸ among), World.watcher?, World.watcher?, same]

theorem watcher?_of_among {w : World} {id : WatcherId} (among : id.Among w.watchers.size) :
    ∃ watcher, w.watcher? id = some watcher := by
  have hid := among
  unfold WatcherId.Among at hid
  have hlt : id.index - 1 < w.watchers.size := by omega
  exact ⟨w.watchers[id.index - 1], by simp [World.watcher?, hlt]⟩

theorem birth_of_born {m : Machine} {id : WatcherId}
    (born : id ∈ m.moved.world.bornSince m.world.watchers.size) :
    ∃ watcher, m.moved.world.watcher? id = some watcher ∧ m.birth id = some (.made id
      (m.moved.world.hops watcher.link.table watcher.path) (m.moved.world.valueOf watcher)) := by
  have hid := World.mem_bornSince.mp born
  have among : id.Among m.moved.world.watchers.size := ⟨by omega, hid.2⟩
  obtain ⟨watcher, there⟩ := watcher?_of_among among
  exact ⟨watcher, there, by simp [birth, there]⟩

/-- The next move makes a watcher: the edits of the move and what it wires come first, the path is
walked in `w`, and more may be wired after it. -/
structure Creates (m : Machine) (w : World) (watcher : Watcher) (id : WatcherId) : Prop where
  before : ∃ owed mid, m.world.Changes m.licence owed mid ∧ mid.Wires w
  number : id = ⟨w.watchers.size + 1⟩
  after : (w.watch watcher.link watcher.path watcher.reaction).1.Wires m.moved.world

theorem creates_of_born {m : Machine} (sound : m.Sound) {id : WatcherId}
    (born : id ∈ m.moved.world.bornSince m.world.watchers.size) :
    ∃ w watcher, m.Creates w watcher id := by
  obtain ⟨owed, mid, moves⟩ := moves sound
  have size : mid.watchers.size = m.world.watchers.size := congrArg Array.size moves.changes.watchers
  obtain ⟨w, watcher, before, number, after⟩ := moves.wires.exists_watch (size ▸ born)
  exact ⟨w, watcher, ⟨owed, mid, moves.changes, before⟩, number, after⟩

namespace Creates

variable {m : Machine} {w : World} {watcher : Watcher} {id : WatcherId}
  (creates : m.Creates w watcher id)
include creates

theorem born : id ∈ m.moved.world.bornSince m.world.watchers.size := by
  obtain ⟨owed, mid, changes, wires⟩ := creates.before
  have size : mid.watchers.size = m.world.watchers.size := congrArg Array.size changes.watchers
  have le := wires.size_le
  have le' := creates.after.size_le
  rw [World.watch_eq, Array.size_push] at le'
  rw [World.mem_bornSince, creates.number]
  simp only
  omega

theorem there : m.moved.world.watcher? id = some watcher := by
  have among : (⟨w.watchers.size + 1⟩ : WatcherId).Among
      (w.watch watcher.link watcher.path watcher.reaction).1.watchers.size := by
    rw [World.watch_eq, Array.size_push]
    exact ⟨Nat.succ_pos _, Nat.le_refl _⟩
  rw [creates.number, creates.after.watcher? among, World.watch_eq, World.watcher?]
  simp

theorem wires : w.Wires m.moved.world :=
  (World.Wires.refl.watch watcher.link watcher.path watcher.reaction).trans creates.after

/-- The walk and the value of a creation are those at the moment when the watcher was made. -/
theorem birth_eq : m.birth id =
    some (.made id (w.hops watcher.link.table watcher.path) (w.valueOf watcher)) := by
  rw [birth, creates.there, Option.map_some, creates.wires.hops, creates.wires.valueOf]

end Creates

theorem made_not_mem_turning {m : Machine} {id : WatcherId} {hops : List Hop} {v : Value} :
    .made id hops v ∉ m.turning.toList := by
  unfold turning
  split
  · rename_i other owed rest hf
    rcases m.world.watcher? other <;> simp
  · simp

/-- The creations among the events of a move are the watchers that the move makes, each with the walk
and the value of its path at the moment when it is made. -/
theorem made_mem_events_iff {m : Machine} (sound : m.Sound) {id : WatcherId} {hops : List Hop}
    {v : Value} : .made id hops v ∈ m.events ↔ ∃ w watcher, m.Creates w watcher id ∧
      hops = w.hops watcher.link.table watcher.path ∧ v = w.valueOf watcher := by
  rw [events, List.mem_append, or_iff_left made_not_mem_turning]
  constructor
  · intro made
    obtain ⟨other, born, hb⟩ := List.mem_filterMap.mp made
    obtain ⟨w, watcher, creates⟩ := creates_of_born sound born
    rw [creates.birth_eq] at hb
    cases hb
    exact ⟨w, watcher, creates, rfl, rfl⟩
  · rintro ⟨w, watcher, creates, rfl, rfl⟩
    exact List.mem_filterMap.mpr ⟨id, creates.born, creates.birth_eq⟩

/-- The new watchers that cross a registry. -/
theorem crossers_births (m : Machine) (r : Registry) :
    crossers m.births r = (m.moved.world.bornSince m.world.watchers.size).filter fun id =>
      m.moved.world.Passes r id := by
  rw [crossers, births, List.filterMap_filterMap, ← List.filterMap_eq_filter]
  apply List.filterMap_congr
  intro id born
  obtain ⟨watcher, there, hb⟩ := birth_of_born born
  have passes : m.moved.world.Passes r id ↔
      ∃ hop ∈ m.moved.world.hops watcher.link.table watcher.path, hop.Crosses r := by
    constructor
    · rintro ⟨watcher', there', hop⟩
      rw [there] at there'
      cases there'
      exact hop
    · exact fun hop => ⟨watcher, there, hop⟩
  rw [hb, Option.bind_some, Event.crosser?]
  by_cases hp : m.moved.world.Passes r id
  · simp [Option.guard, hp, passes.mp hp]
  · simp only [Option.guard, hp, decide_false, Bool.false_eq_true, if_false]
    exact if_neg fun hop => hp (passes.mpr hop)

theorem crossers_turning (m : Machine) (r : Registry) : crossers m.turning.toList r = [] := by
  unfold turning
  split
  · rename_i id owed rest hf
    rcases m.world.watcher? id <;> simp [crossers, Event.crosser?]
  · rfl

theorem made_births (m : Machine) :
    m.births.filterMap Event.made? = m.moved.world.bornSince m.world.watchers.size := by
  have each : ∀ id ∈ m.moved.world.bornSince m.world.watchers.size,
      (m.birth id).bind Event.made? = some id := by
    intro id born
    obtain ⟨_, _, hb⟩ := birth_of_born born
    rw [hb]
    rfl
  rw [births, List.filterMap_filterMap, List.filterMap_congr each, List.filterMap_some]

theorem made_turning (m : Machine) : m.turning.toList.filterMap Event.made? = [] := by
  unfold turning
  split
  · rename_i id owed rest hf
    rcases m.world.watcher? id <;> simp [Event.made?]
  · rfl

theorem bornSince_append {w w' : World} {count : Nat} (le : count ≤ w.watchers.size)
    (le' : w.watchers.size ≤ w'.watchers.size) :
    w.bornSince count ++ w'.bornSince w.watchers.size = w'.bornSince count := by
  unfold World.bornSince
  rw [← List.map_append]
  congr 1
  have first : w.watchers.size + 1 = count + 1 + 1 * (w.watchers.size - count) := by omega
  have total : w'.watchers.size - count =
      (w.watchers.size - count) + (w'.watchers.size - w.watchers.size) := by omega
  rw [total, first, List.range'_append]

/-- Every watcher was made once, in the order of the numbers. -/
theorem Run.made (run : Run may m₀ events m) (sound : m₀.Sound)
    (fresh : m₀.world.watchers.size = 0) :
    events.filterMap Event.made? = m.world.bornSince 0 := by
  induction run with
  | start => exact (World.bornSince_of_le (Nat.le_of_eq fresh)).symm
  | @move events m before _ ih =>
    have size : m.next.world.watchers.size = m.moved.world.watchers.size :=
      congrArg Array.size m.next_effect.2.1
    have le := (watchers_moved (before.sound sound)).1
    rw [Machine.events, List.filterMap_append, List.filterMap_append, ih, made_births, made_turning,
      List.append_nil, bornSince_append (Nat.zero_le _) le]
    simp only [World.bornSince, size]

theorem bornSince_increasing (w : World) (count : Nat) :
    (w.bornSince count).Pairwise fun a b => a.index < b.index := by
  unfold World.bornSince
  rw [List.pairwise_map]
  exact List.pairwise_lt_range'

end Machine

end DataBinding
