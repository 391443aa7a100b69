-- No update is lost. Where no move makes an edit that nobody is told of, a watcher whose walk is covered,
-- and who is not owed a turn, got last what its path reads now: its latest turn handed this value over,
-- or its path read it when it was made. The session with one watcher shows a value that came with a turn.
import DataBinding.Proofs.Session.Footprints

namespace DataBinding

namespace Machine

/-- No update is lost. Take a run whose moves are candid, or at least tame. In each of its states, a
watcher that no frame owes a turn, and whose walk is covered, got last what its path reads now: a
move of the run began its latest turn with this value, for its script or its place on the page, or
it never had a turn and its path read the value when it was made. -/
theorem no_update_is_lost {steps : List Step} {shows : List Show} {m : Machine}
    {events : List Event} (run : Run (fun m => m.Candid ∨ m.Tame) (start steps shows) events m)
    {id : WatcherId} {watcher : Watcher} (among : id.Among m.world.watchers.size)
    (there : m.world.watcher? id = some watcher) (rest : ¬m.Owes id)
    (covers : m.world.Covers id watcher) :
    Got (fun m => m.Candid ∨ m.Tame) (start steps shows) id (m.world.watched watcher).2 events m := by
  have sound := sound_start steps shows
  have tame : Run Tame (start steps shows) events m := run.widen sound fun _ sound either =>
    either.elim (fun candid => candid.tame sound) fun tame => tame
  have fresh := tame.fresh (fresh_start steps shows)
  rw [World.watched_eq]
  exact run.got sound (fresh.upToDate id watcher among there rest covers.tracks)

/-- No move of the session has a licence to remove or to register anything. -/
theorem licence_of_one_watcher {k : Nat} (hk : k < 8) :
    ((start oneWatcher []).after k).licence = .none := by
  by_cases early : k < 4
  · iterate 4 (rcases k with _ | k; · cbv)
    omega
  · obtain ⟨late, rfl⟩ := Nat.exists_eq_add_of_le (Nat.le_of_not_lt early)
    rw [after_of_one_watcher]
    iterate 4 (rcases late with _ | late; · cbv)
    omega

/-- After the first move no property is redirected. -/
theorem tables_of_one_watcher {k : Nat} (hk : k < 8) :
    ((start oneWatcher []).after (k + 1)).world.tables =
      #[⟨[("$data", ⟨0⟩)], [("a", ⟨0⟩)], []⟩] := by
  by_cases early : k < 3
  · iterate 3 (rcases k with _ | k; · cbv)
    omega
  · obtain ⟨late, rfl⟩ := Nat.exists_eq_add_of_le' (Nat.le_of_not_lt early)
    rw [Nat.add_assoc, Nat.add_comm late, after_of_one_watcher]
    iterate 5 (rcases late with _ | late; · cbv)
    omega

theorem watchers_while_watching : (watching.after 4).world.watchers =
    #[⟨⟨⟨0⟩, ⟨0⟩⟩, ⟨"a", "a", []⟩, .script ⟨0⟩⟩] := by
  cbv

/-- The eighth move begins the turn, so nobody waits any more. -/
theorem nobody_waits_while_watching : (watching.after 4).frames.flatMap Frame.owed = [] := by
  cbv

theorem walk_while_watching :
    (watching.after 4).world.target? ⟨0⟩ "a" = some ⟨0⟩ ∧
    (watching.after 4).world.heap.lookup? ⟨0⟩ "a" = some ⟨"a", .text "x", some [⟨1⟩]⟩ ∧
    (watching.after 4).world.valueOf ⟨⟨⟨0⟩, ⟨0⟩⟩, ⟨"a", "a", []⟩, .script ⟨0⟩⟩ = .text "x" := by
  refine ⟨?_, ?_, ?_⟩
  · cbv
  · cbv
  · cbv

/-- The eighth move hands the value of the write to the script of the watcher. -/
theorem hands_while_watching : ∃ tail, (watching.after 3).Hands tail ⟨1⟩ (.text "x") [] := by
  have top : (watching.after 3).frames =
      .turns [⟨1⟩] :: (watching.after 3).frames.tail := by cbv
  have there : (watching.after 3).world.watcher? ⟨1⟩ =
      some ⟨⟨⟨0⟩, ⟨0⟩⟩, ⟨"a", "a", []⟩, .script ⟨0⟩⟩ := by cbv
  have value : (watching.after 3).world.valueOf ⟨⟨⟨0⟩, ⟨0⟩⟩, ⟨"a", "a", []⟩, .script ⟨0⟩⟩ =
      .text "x" := by cbv
  exact ⟨_, value ▸ hands_of_turns top there⟩

/-- The watcher of the session has got the new text last: the latest move hands it over, and the script is
called with it next. -/
theorem one_watcher_is_up_to_date : ∃ (events : List Event) (m : Machine) (tail : List Frame),
    Run (fun m => m.Candid ∨ m.Tame) (start oneWatcher []) events m.next ∧
    m.Hands tail ⟨1⟩ (.text "x") [] ∧
    m.next.next.session.log = [.called .watcher "w" (.text "x")] ∧
    Got (fun m => m.Candid ∨ m.Tame) (start oneWatcher []) ⟨1⟩ (.text "x") events m.next := by
  have run : Run (fun m => m.Candid ∨ m.Tame) (start oneWatcher []) _ _ := run_after 8 (by
    intro k hk
    refine .inl (candid_of_none (licence_of_one_watcher hk) ?_)
    rcases k with _ | k
    · exact .inl rfl
    · exact .inr ((tables_of_one_watcher hk).trans (tables_of_one_watcher (by omega)).symm))
  rw [after_of_one_watcher 4] at run
  obtain ⟨target, entry, value⟩ := walk_while_watching
  have there : (watching.after 4).world.watcher? ⟨1⟩ =
      some ⟨⟨⟨0⟩, ⟨0⟩⟩, ⟨"a", "a", []⟩, .script ⟨0⟩⟩ := by
    rw [World.watcher?, watchers_while_watching]
    rfl
  have among : (⟨1⟩ : WatcherId).Among (watching.after 4).world.watchers.size := by
    rw [watchers_while_watching]
    exact ⟨Nat.le_refl _, Nat.le_refl _⟩
  have registered : ⟨1⟩ ∈ (watching.after 4).world.heap.watchers (.slot ⟨0⟩ "a") := by
    simp [Heap.mem_watchers_iff, Heap.watchers?, entry]
  have waits := not_owes_of_nobody nobody_waits_while_watching ⟨1⟩
  have got := no_update_is_lost run among there waits
    ⟨⟨0⟩, target, .inr ⟨_, entry, registered, trivial⟩⟩
  rw [World.watched_eq, value] at got
  obtain ⟨tail, hands⟩ := hands_while_watching
  have called : (watching.after 5).session.log = [.called .watcher "w" (.text "x")] := by cbv
  exact ⟨_, watching.after 3, tail, run, hands, called, got⟩

end Machine

end DataBinding
