-- The latest value of a watcher. It is the one that the latest turn of the watcher handed over, or that its
-- path read when it was made. In a tame run a watcher whose walk is covered, and who is not owed a turn,
-- got last what its path reads now. The invariant speaks of every state, also of those in the middle
-- of nested rounds: a watcher is owed a turn by some frame, or its walk is not covered, or it is up to
-- date.
import DataBinding.Proofs.Session.Rounds
import DataBinding.Proofs.World.Coverage

namespace DataBinding

namespace Machine

/-! ## Tame moves -/

/-- A move that goes behind no watcher's back. It registers nobody by hand. If it may define a slot that
is there, all slots keep their values; if it may write to a position, all lists keep their items;
and the head property of a watcher keeps its container. -/
structure Tame (m : Machine) : Prop where
  registers : ¬m.licence.registers
  redefines : m.licence.redefines → ∀ map key, m.world.heap.isSlot map key = true →
    m.next.world.heap.isSlot map key = true →
    m.next.world.heap.peek map key = m.world.heap.peek map key
  places : m.licence.places → ∀ l, m.world.heap.isLive (.list l) = true →
    m.next.world.heap.isLive (.list l) = true →
    m.next.world.heap.items l = m.world.heap.items l
  heads : ∀ id watcher map, m.world.watcher? id = some watcher →
    m.world.headOf watcher = some map → m.next.world.headOf watcher = some map

/-! ## What one move leaves -/

theorem headOf_congr {w w' : World} (tables : w'.tables = w.tables) (watcher : Watcher) :
    w'.headOf watcher = w.headOf watcher := by
  simp only [World.headOf, World.table, tables]

theorem watcher?_next {m : Machine} (sound : m.Sound) {id : WatcherId}
    (among : id.Among m.world.watchers.size) :
    m.next.world.watcher? id = m.world.watcher? id := by
  rw [← (watchers_moved sound).2 id among, World.watcher?, World.watcher?, m.next_effect.2.1]

theorem tidy_next {m : Machine} (sound : m.Sound) (tame : m.Tame) (tidy : m.world.heap.Tidy) :
    m.next.world.heap.Tidy := by
  obtain ⟨owed, mid, moves⟩ := moves sound
  have edited := moves.changes.heap.tidy tame.registers sound.session.world.closed tidy
  exact m.next_effect.2.2.2.2.tidy (moves.wires.tidy edited)

/-- A watcher that is owed no turn after a move follows the slots of the heap through it, if nobody is
registered by hand and no slot gets another value by a second definition. -/
theorem follows_slots_next {m : Machine} (sound : m.Sound) (registers : ¬m.licence.registers)
    (redefines : m.licence.redefines → ∀ map key, m.world.heap.isSlot map key = true →
      m.next.world.heap.isSlot map key = true →
      m.next.world.heap.peek map key = m.world.heap.peek map key)
    {id : WatcherId} (among : id.Among m.world.watchers.size) (rest : ¬m.next.Owes id) :
    Heap.Follows id False True m.world.heap m.next.world.heap := by
  obtain ⟨owed, mid, moves⟩ := moves sound
  have size : mid.watchers.size = m.world.watchers.size := congrArg Array.size moves.changes.watchers
  have notOwed : id ∉ owed := fun hid => rest ((owes_next_iff m id).mpr (moves.pays id hid))
  have edited : Heap.Follows id _ True m.world.heap mid.heap :=
    moves.changes.heap.follows_slots registers
  have wired : Heap.Follows id False False mid.heap m.moved.world.heap :=
    moves.wires.follows (moves.changes.sound sound.session.world).enrolled (size ▸ among)
  have released : Heap.Follows id False False m.moved.world.heap m.next.world.heap :=
    m.next_effect.2.2.2.2.follows
  have all := (edited.trans wired).trans released
  refine ⟨all.joined, ?_, fun _ _ => .inr trivial, all.lacks⟩
  intro map key hid
  rcases all.slots map key hid with e | ((hr | no) | no)
  · exact .inl e
  · rcases hr with hid' | hr
    · exact absurd hid' notOwed
    · exact .inl (redefines hr map key (Heap.isSlot_of_mem_watchers (all.joined _ hid))
        (Heap.isSlot_of_mem_watchers hid))
  · exact no.elim
  · exact no.elim

/-- A watcher that is owed no turn after a tame move follows the heap through it. -/
theorem follows_next {m : Machine} (sound : m.Sound) (tame : m.Tame) (tidy : m.world.heap.Tidy)
    {id : WatcherId} (among : id.Among m.world.watchers.size) (rest : ¬m.next.Owes id) :
    Heap.Follows id False False m.world.heap m.next.world.heap := by
  have slots := follows_slots_next sound tame.registers tame.redefines among rest
  obtain ⟨owed, mid, moves⟩ := moves sound
  have size : mid.watchers.size = m.world.watchers.size := congrArg Array.size moves.changes.watchers
  have notOwed : id ∉ owed := fun hid => rest ((owes_next_iff m id).mpr (moves.pays id hid))
  have edited : Heap.Follows id _ _ m.world.heap mid.heap :=
    moves.changes.heap.follows tame.registers sound.session.world.closed tidy
  have wired : Heap.Follows id False False mid.heap m.moved.world.heap :=
    moves.wires.follows (moves.changes.sound sound.session.world).enrolled (size ▸ among)
  have released : Heap.Follows id False False m.moved.world.heap m.next.world.heap :=
    m.next_effect.2.2.2.2.follows
  have all := (edited.trans wired).trans released
  refine ⟨slots.joined, slots.slots, ?_, slots.lacks⟩
  intro l hid
  have live {h : Heap} (hid : id ∈ h.watchers (.list l)) : h.isLive (.list l) = true := by
    obtain ⟨ws, hws, _⟩ := Heap.mem_watchers_iff.mp hid
    obtain ⟨c, hc, _⟩ := Option.map_eq_some_iff.mp hws
    exact Option.isSome_of_mem hc
  rcases all.lists l hid with e | ((hp | no) | no)
  · exact .inl e
  · rcases hp with hid' | hp
    · exact absurd hid' notOwed
    · exact .inl (tame.places hp l (live (all.joined _ hid)) (live hid))
  · exact no.elim
  · exact no.elim

theorem rooted_moved {m : Machine} (sound : m.Sound) (tame : m.Tame) (rooted : m.world.Rooted) :
    m.moved.world.Rooted := by
  obtain ⟨owed, mid, moves⟩ := moves sound
  intro r id hid
  obtain ⟨ws, hws, hid⟩ := Heap.mem_watchers_iff.mp hid
  rw [moves.wires.watchers? (moves.changes.sound sound.session.world).enrolled] at hws
  obtain ⟨ws₀, hws₀, rfl⟩ := Option.map_eq_some_iff.mp hws
  rcases List.mem_append.mp hid with hid | hid
  · have before : id ∈ m.world.heap.watchers r :=
      (moves.changes.heap.keepsRegistries tame.registers).joined r
        (Heap.mem_watchers_iff.mpr ⟨ws₀, hws₀, hid⟩)
    obtain ⟨watcher, there, head⟩ := rooted r id before
    obtain ⟨ws, hws, hid⟩ := Heap.mem_watchers_iff.mp before
    have among := (sound.session.world.enrolled r ws hws).2 id hid
    obtain ⟨map, hmap⟩ := Option.ne_none_iff_exists'.mp head
    refine ⟨watcher, ((watchers_moved sound).2 id among).trans there, ?_⟩
    rw [← headOf_congr m.next_effect.2.2.1, tame.heads id watcher map there hmap]
    exact Option.some_ne_none map
  · exact World.headOf_ne_none_of_passes (r := r) (by simpa using (List.mem_filter.mp hid).2)

theorem rooted_next {m : Machine} (rooted : m.moved.world.Rooted) : m.next.world.Rooted := by
  obtain ⟨_, watchers, tables, _, released⟩ := m.next_effect
  intro r id hid
  obtain ⟨watcher, there, head⟩ := rooted r id (released.keepsRegistries.joined r hid)
  refine ⟨watcher, ?_, ?_⟩
  · rw [World.watcher?, watchers]
    exact there
  · rw [headOf_congr tables]
    exact head

/-! ## The latest value -/

/-- What a watcher got last in a run: a move made it, and its path read the value then, or a move began a
turn of it and handed the value over; and no later move began a turn of it. -/
inductive Got (may : Machine → Prop) (m₀ : Machine) (id : WatcherId) :
    Value → List Event → Machine → Prop where
  | made {events : List Event} {m : Machine} {w : World} {watcher : Watcher}
      (before : Run may m₀ events m) (allowed : may m) (creates : m.Creates w watcher id) :
      Got may m₀ id (w.valueOf watcher) (events ++ m.events) m.next
  | turn {events : List Event} {m : Machine} {tail : List Frame} {v : Value}
      {left : List WatcherId} (before : Run may m₀ events m) (allowed : may m)
      (hands : m.Hands tail id v left) : Got may m₀ id v (events ++ m.events) m.next
  | quiet {events : List Event} {m : Machine} {v : Value} (before : Got may m₀ id v events m)
      (allowed : may m) (rest : ¬∃ v', m.HandsTo id v') : Got may m₀ id v (events ++ m.events) m.next

/-- The latest value among the events of a run is the one that the watcher got last. -/
theorem Run.got {may : Machine → Prop} {m₀ m : Machine} {events : List Event}
    (run : Run may m₀ events m) (sound : m₀.Sound) {id : WatcherId} {v : Value}
    (last : lastValue? events id = some v) : Got may m₀ id v events m := by
  induction run with
  | start => cases last
  | @move events m before allowed ih =>
    rw [lastValue?_append] at last
    rcases newest : lastValue? m.events id with _ | v'
    · rw [newest, Option.none_or] at last
      refine (ih last).quiet allowed ?_
      rintro ⟨_, hands⟩
      have all := List.filterMap_eq_nil_iff.mp (List.getLast?_eq_none_iff.mp newest)
      simpa [Event.valueFor?] using all _ (turned_mem_events_iff.mpr hands)
    · rw [newest, Option.some_or] at last
      cases last
      obtain ⟨e, he, gets⟩ := List.mem_filterMap.mp (List.mem_of_getLast? newest)
      rcases gets_of_mem_events (before.sound sound) he gets with ⟨tail, left, hands⟩ |
        ⟨w, watcher, creates, rfl⟩
      · exact .turn before allowed hands
      · exact .made before allowed creates

/-- The last value of a watcher is the one that it gets in the newest events, if it gets one. -/
theorem lastValue?_append_of_some {a b : List Event} {id : WatcherId} {v : Value}
    (all : ∀ e ∈ b, ∀ x, e.valueFor? id = some x → x = v)
    (some : ∃ e ∈ b, e.valueFor? id = some v) : lastValue? (a ++ b) id = .some v := by
  obtain ⟨e, he, hv⟩ := some
  have ne := List.ne_nil_of_mem (List.mem_filterMap.mpr ⟨e, he, hv⟩)
  have newest : lastValue? b id = .some v := by
    obtain ⟨x, hx⟩ := Option.ne_none_iff_exists'.mp (mt List.getLast?_eq_none_iff.mp ne)
    obtain ⟨e, he, gets⟩ := List.mem_filterMap.mp (List.mem_of_getLast? hx)
    rw [lastValue?, hx, all e he x gets]
  rw [lastValue?_append, newest, Option.some_or]

/-! ## Up to date -/

/-- A watcher that is owed no turn, and whose walk is covered, got last what its path reads. -/
def UpToDate (m : Machine) (events : List Event) : Prop :=
  ∀ id watcher, id.Among m.world.watchers.size → m.world.watcher? id = some watcher →
    ¬m.Owes id → m.world.Tracks id watcher → lastValue? events id = some (m.world.valueOf watcher)

/-- A watcher that was there before a move: its turn begins, or nothing happens to it. -/
theorem upToDate_old {m : Machine} {events : List Event} (sound : m.Sound) (tame : m.Tame)
    (tidy : m.world.heap.Tidy) (rooted : m.world.Rooted) (upToDate : m.UpToDate events)
    {id : WatcherId} {watcher : Watcher} (among : id.Among m.world.watchers.size)
    (there : m.world.watcher? id = some watcher) (rest : ¬m.next.Owes id)
    (tracks : m.next.world.Tracks id watcher) :
    lastValue? (events ++ m.events) id = some (m.next.world.valueOf watcher) := by
  obtain ⟨before, same⟩ := World.tracks_of_follows (follows_next sound tame tidy among rest) there
    rooted (fun map head => tame.heads id watcher map there head) tracks
  have handed : ∀ e ∈ m.events, ∀ v, e.valueFor? id = some v → m.HandsTo id v := by
    intro e he v gets
    refine (gets_of_mem_events sound he gets).resolve_right ?_
    rintro ⟨_, _, creates, _⟩
    exact absurd among.2 (Nat.not_le.mpr (World.mem_bornSince.mp creates.born).1)
  rw [same]
  by_cases turn : ∃ owed rest, m.frames = .turns (id :: owed) :: rest
  · obtain ⟨owed, rest, top⟩ := turn
    have hands : m.HandsTo id (m.world.valueOf watcher) := ⟨_, _, hands_of_turns top there⟩
    apply lastValue?_append_of_some
    · exact fun e he v gets => (handed e he v gets).value_eq there
    · exact ⟨_, turned_mem_events_iff.mpr hands, by simp [Event.valueFor?]⟩
  · have notOwed : ¬m.Owes id := by
      intro owes
      rcases owes_moved owes with owes | begins
      · exact rest ((owes_next_iff m id).mpr owes)
      · exact turn begins
    rw [lastValue?_append_of_none]
    · exact upToDate id watcher among there notOwed before
    · intro e he
      rcases gets : e.valueFor? id with _ | v
      · rfl
      · obtain ⟨tail, left, hands⟩ := handed e he v gets
        exact absurd ⟨left, tail, hands.top⟩ turn

/-- A watcher that the move makes has got its first value. -/
theorem upToDate_new {m : Machine} {events : List Event} (sound : m.Sound)
    (rooted : m.moved.world.Rooted) {id : WatcherId} {watcher : Watcher}
    (born : id ∈ m.moved.world.bornSince m.world.watchers.size)
    (there : m.moved.world.watcher? id = some watcher) (tracks : m.next.world.Tracks id watcher) :
    lastValue? (events ++ m.events) id = some (m.next.world.valueOf watcher) := by
  obtain ⟨_, _, tables, _, released⟩ := m.next_effect
  obtain ⟨_, same⟩ := World.tracks_of_follows (released.follows) there rooted
    (fun map head => (headOf_congr tables watcher).trans head) tracks
  have first {w : World} {watcher' : Watcher} (creates : m.Creates w watcher' id) :
      w.valueOf watcher' = m.moved.world.valueOf watcher := by
    have there' := creates.there
    rw [there] at there'
    cases there'
    exact (creates.wires.valueOf watcher).symm
  rw [same]
  apply lastValue?_append_of_some
  · intro e he v gets
    rcases gets_of_mem_events sound he gets with ⟨_, _, _, watcher', there', _⟩ |
      ⟨w, watcher', creates, rfl⟩
    · -- the watcher of a turn was there before the move
      obtain ⟨hlt, _⟩ := Array.getElem?_eq_some_iff.mp there'
      have := (World.mem_bornSince.mp born).1
      omega
    · exact first creates
  · obtain ⟨w, watcher', creates⟩ := creates_of_born sound born
    refine ⟨_, (made_mem_events_iff sound).mpr ⟨w, watcher', creates, rfl, rfl⟩, ?_⟩
    simp [Event.valueFor?, first creates]

theorem upToDate_next {m : Machine} {events : List Event} (sound : m.Sound) (tame : m.Tame)
    (tidy : m.world.heap.Tidy) (rooted : m.world.Rooted) (upToDate : m.UpToDate events) :
    m.next.UpToDate (events ++ m.events) := by
  intro id watcher among' there' rest tracks
  by_cases among : id.Among m.world.watchers.size
  · have there := (watcher?_next sound among).symm.trans there'
    exact upToDate_old sound tame tidy rooted upToDate among there rest tracks
  · have watchers := m.next_effect.2.1
    have born : id ∈ m.moved.world.bornSince m.world.watchers.size := by
      rw [World.mem_bornSince]
      unfold WatcherId.Among at among among'
      rw [watchers] at among'
      omega
    have there : m.moved.world.watcher? id = some watcher := by
      rw [World.watcher?, ← watchers]
      exact there'
    exact upToDate_new sound (rooted_moved sound tame rooted) born there tracks

/-- What holds in every state of a tame run. -/
structure Fresh (m : Machine) (events : List Event) : Prop where
  sound : m.Sound
  tidy : m.world.heap.Tidy
  rooted : m.world.Rooted
  upToDate : m.UpToDate events

theorem fresh_start (steps : List Step) (shows : List Show) : (start steps shows).Fresh [] := by
  refine ⟨sound_start steps shows, ⟨?_, ?_⟩, ?_, ?_⟩
  · intro m key e he
    simp [start, world, Session.empty, World.empty, Heap.empty, Heap.lookup?, Heap.map?] at he
  · intro l c hc
    simp [start, world, Session.empty, World.empty, Heap.empty, Heap.list?] at hc
  · intro r id hid
    obtain ⟨ws, hws, _⟩ := Heap.mem_watchers_iff.mp hid
    cases r <;> simp [start, world, Session.empty, World.empty, Heap.empty, Heap.watchers?,
      Heap.lookup?, Heap.map?, Heap.list?] at hws
  · intro id watcher _ there
    simp [start, world, Session.empty, World.empty, World.watcher?] at there

theorem fresh_next {m : Machine} {events : List Event} (fresh : m.Fresh events) (tame : m.Tame) :
    m.next.Fresh (events ++ m.events) :=
  ⟨sound_next fresh.sound, tidy_next fresh.sound tame fresh.tidy,
    rooted_next (rooted_moved fresh.sound tame fresh.rooted),
    upToDate_next fresh.sound tame fresh.tidy fresh.rooted fresh.upToDate⟩

theorem Run.fresh {m₀ m : Machine} {events : List Event} (run : Run Tame m₀ events m)
    (fresh : m₀.Fresh []) : m.Fresh events := by
  induction run with
  | start => exact fresh
  | move _ tame ih => exact fresh_next ih tame

end Machine

end DataBinding
