-- Rounds. A round is the frame of the turns that a write owes. The machine works on its topmost frame only,
-- so all that a turn leads to happens above the round, and the next turn begins when that is over. What
-- happens above may start other rounds and register anyone, but it does not change who is left here.
import DataBinding.Proofs.Session.Runs

namespace DataBinding

namespace Machine

/-! ## Turns -/

/-- The topmost frame is replaced by the frames that come of it. -/
theorem next_frames {m : Machine} {frame : Frame} {rest : List Frame}
    (hf : m.frames = frame :: rest) : m.next.frames = (m.move frame).2 ++ rest := by
  rw [m.next_effect.1, moved_of_cons hf]

/-- A turn of a round begins: nothing stands above the round, the watcher's path is evaluated, and its
reaction gets the value. -/
structure Hands (m : Machine) (tail : List Frame) (id : WatcherId) (v : Value)
    (left : List WatcherId) : Prop where
  top : m.frames = .turns (id :: left) :: tail
  value : ∃ watcher, m.world.watcher? id = some watcher ∧
    v = (m.world.readPath watcher.link.table watcher.path).value ∧
    match watcher.reaction with
    | .script script => m.next.world = m.world ∧
      m.next.frames = .call script ⟨some v, none⟩ :: .turns left :: tail
    | .render directive n => m.next.world = m.world.render directive n v ∧
      m.next.frames = .turns left :: tail

theorem next_of_turns {m : Machine} {owed : List WatcherId} {tail : List Frame}
    (top : m.frames = .turns owed :: tail) : m.next = m.moved := by
  have stays : Frame.letsGo (.turns owed) = false := by cases owed <;> rfl
  rw [next_eq, top]
  simp [stays]

theorem hands_of_turns {m : Machine} {id : WatcherId} {left : List WatcherId} {tail : List Frame}
    (top : m.frames = .turns (id :: left) :: tail) {watcher : Watcher}
    (there : m.world.watcher? id = some watcher) :
    m.Hands tail id (m.world.valueOf watcher) left := by
  refine ⟨top, watcher, there, rfl, ?_⟩
  have e := turn_of_some there
  rw [next_of_turns top, moved_of_cons top]
  rcases hr : watcher.reaction with ⟨directive, n⟩ | script
  · simp only [hr] at e
    simp only [move, e]
    exact ⟨rfl, rfl⟩
  · simp only [hr] at e
    simp only [move, e]
    exact ⟨rfl, rfl⟩

/-- The next move begins a turn of the watcher and hands the value over. -/
def HandsTo (m : Machine) (id : WatcherId) (v : Value) : Prop := ∃ tail left, m.Hands tail id v left

theorem HandsTo.value_eq {m : Machine} {id : WatcherId} {v : Value} (hands : m.HandsTo id v)
    {watcher : Watcher} (there : m.world.watcher? id = some watcher) : v = m.world.valueOf watcher := by
  obtain ⟨_, _, _, watcher', there', rfl, _⟩ := hands
  rw [there] at there'
  cases there'
  rfl

/-- The turns among the events of a move are the values that the move hands over. -/
theorem turned_mem_events_iff {m : Machine} {id : WatcherId} {v : Value} :
    .turned id v ∈ m.events ↔ m.HandsTo id v := by
  have apart : .turned id v ∉ m.births := by
    intro born
    obtain ⟨other, _, hb⟩ := List.mem_filterMap.mp born
    obtain ⟨_, _, hb⟩ := Option.map_eq_some_iff.mp hb
    cases hb
  rw [events, List.mem_append, or_iff_right apart]
  constructor
  · intro turned
    unfold turning at turned
    split at turned
    · rename_i other left tail top
      obtain ⟨watcher, there, e⟩ := Option.map_eq_some_iff.mp (Option.mem_toList.mp turned)
      cases e
      exact ⟨tail, left, hands_of_turns top there⟩
    · cases turned
  · rintro ⟨tail, left, top, watcher, there, rfl, _⟩
    simp only [turning, top, there, Option.map_some, Option.toList_some, List.mem_singleton]
    rfl

/-- What a watcher gets in a move is handed over to it, or the move makes the watcher. -/
theorem gets_of_mem_events {m : Machine} (sound : m.Sound) {e : Event} (he : e ∈ m.events)
    {id : WatcherId} {v : Value} (gets : e.valueFor? id = some v) :
    m.HandsTo id v ∨ ∃ w watcher, m.Creates w watcher id ∧ v = w.valueOf watcher := by
  cases e with
  | made other hops value =>
    rw [Event.valueFor?, Option.ite_none_right_eq_some, Option.some_inj] at gets
    obtain ⟨rfl, rfl⟩ := gets
    obtain ⟨w, watcher, creates, _, value⟩ := (made_mem_events_iff sound).mp he
    exact .inr ⟨w, watcher, creates, value⟩
  | turned other value =>
    rw [Event.valueFor?, Option.ite_none_right_eq_some, Option.some_inj] at gets
    obtain ⟨rfl, rfl⟩ := gets
    exact .inl (turned_mem_events_iff.mp he)

/-! ## The course of a round -/

/-- A round that stands on `tail` goes on: `handed` are the turns that began, with their values, and
`left` those who still wait. Either the next one gets its turn, or there is work above the round. -/
inductive Round (tail : List Frame) (m₀ : Machine) :
    List (WatcherId × Value) → List WatcherId → Machine → Prop where
  | opened {left : List WatcherId} (top : m₀.frames = .turns left :: tail) : Round tail m₀ [] left m₀
  | turn {handed : List (WatcherId × Value)} {left : List WatcherId} {m : Machine}
      {id : WatcherId} {v : Value} (before : Round tail m₀ handed (id :: left) m)
      (hands : m.Hands tail id v left) : Round tail m₀ (handed ++ [(id, v)]) left m.next
  | nested {handed : List (WatcherId × Value)} {left : List WatcherId} {m : Machine}
      {frame : Frame} {above : List Frame} (before : Round tail m₀ handed left m)
      (busy : m.frames = frame :: above ++ .turns left :: tail) : Round tail m₀ handed left m.next

variable {tail : List Frame} {m₀ m : Machine} {handed : List (WatcherId × Value)}
  {left : List WatcherId}

/-- The frame of a round stays where it is, below all that its turns lead to. -/
theorem Round.frames (round : Round tail m₀ handed left m) :
    ∃ above, m.frames = above ++ .turns left :: tail := by
  induction round with
  | opened top => exact ⟨[], top⟩
  | turn _ hands _ =>
    obtain ⟨watcher, _, _, result⟩ := hands.value
    split at result
    · exact ⟨[_], result.2⟩
    · exact ⟨[], result.2⟩
  | @nested _ _ m frame above _ busy _ =>
    refine ⟨(m.move frame).2 ++ above, ?_⟩
    rw [next_frames busy]
    exact (List.append_assoc _ _ _).symm

/-- Nobody is passed over, nobody comes in between, and the order stays. -/
theorem Round.order {owed : List WatcherId} (round : Round tail m₀ handed left m)
    (top : m₀.frames = .turns owed :: tail) : handed.map (·.1) ++ left = owed := by
  induction round with
  | opened top' =>
    rw [top'] at top
    cases top
    rfl
  | turn _ _ ih => simpa using ih
  | nested _ _ ih => exact ih

/-- A round that is not over goes on with the next move. -/
theorem Round.next (round : Round tail m₀ handed left m) (sound : m.Sound) :
    (∃ handed' left', Round tail m₀ handed' left' m.next) ∨
      (left = [] ∧ m.frames = .turns [] :: tail) := by
  obtain ⟨above, hf⟩ := round.frames
  rcases above with _ | ⟨frame, above⟩
  · rcases left with _ | ⟨id, left⟩
    · exact .inr ⟨rfl, hf⟩
    · have among : id.Among m.world.watchers.size :=
        sound.frames (.turns (id :: left)) (by simp [hf]) id (List.mem_cons_self ..)
      obtain ⟨watcher, there⟩ := watcher?_of_among among
      exact .inl ⟨_, _, round.turn (hands_of_turns hf there)⟩
  · exact .inl ⟨handed, left, round.nested hf⟩

/-- The course of a round that a machine has just opened on `tail`: at every later time it still goes on,
and those who had their turn and those who still wait are together those who were owed one, or it is
over, and everyone who was owed a turn has had one. -/
def Course (m : Machine) (tail : List Frame) (owed : List WatcherId) : Prop :=
  ∀ moves,
    (∃ handed left, Round tail m handed left (m.after moves) ∧ handed.map (·.1) ++ left = owed) ∨
    ∃ past ≤ moves, ∃ handed, Round tail m handed [] (m.after past) ∧
      (m.after past).frames = .turns [] :: tail ∧ handed.map (·.1) = owed

theorem course_of_turns {owed : List WatcherId} (sound : m.Sound)
    (top : m.frames = .turns owed :: tail) : m.Course tail owed := by
  intro moves
  induction moves with
  | zero => exact .inl ⟨[], owed, .opened top, rfl⟩
  | succ moves ih =>
    rcases ih with ⟨handed, left, round, order⟩ | ⟨past, le, ended⟩
    · rcases round.next (sound_after sound moves) with ⟨handed', left', round'⟩ | ⟨rfl, last⟩
      · exact .inl ⟨handed', left', round', round'.order top⟩
      · exact .inr ⟨moves, Nat.le_succ _, handed, round, last, by simpa using order⟩
    · exact .inr ⟨past, Nat.le_succ_of_le le, ended⟩

end Machine

end DataBinding
