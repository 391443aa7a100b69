-- The mounted page shows the model. A view that is mounted makes a watcher for each value binding, and
-- fills its place. From then on, as long as moves are orderly, the place mirrors the model, whatever is
-- written, put into fields, heard and called, and when all operations have returned it shows the value.
import DataBinding.Proofs.Session.Footprints

namespace DataBinding

/-! ## Mounting -/

namespace World

theorem Housed.mounting {w : World} (housed : w.Housed) (plan : ViewPlan) (m : MapId) :
    (w.mounting plan m).1.Housed := by
  obtain ⟨ts, ms, e⟩ := w.aside_mounting plan m
  rw [e]
  exact housed

/-- The value bindings of a view that was mounted. -/
theorem binds_mountView {w w' : World} (housed : w.Housed) {plan : ViewPlan} {view : MountedView}
    (mounted : w.mountView plan = (w', .ok view)) {b : Binding} (hb : b ∈ view.wiring)
    {directive : Directive} (shows : b.kind.directive? = some directive) : ∃ id watcher,
      w'.Binds w.watchers.size plan.marks b id watcher directive := by
  by_cases hd : ∃ m, plan.data = .map m
  · obtain ⟨m, hm⟩ := hd
    rw [mountView_of_map w hm] at mounted
    have size : (w.mounting plan m).1.watchers.size = w.watchers.size := by
      obtain ⟨ts, ms, e⟩ := w.aside_mounting plan m
      rw [e]
    rcases hr : plan.mount.bind (w.mounting plan m).1.page.query with _ | root
    · simp only [hr, compileMounted, Prod.mk.injEq, Except.ok.injEq] at mounted
      obtain ⟨_, rfl⟩ := mounted
      cases hb
    · simp only [hr, compileMounted] at mounted
      rcases compiled : (w.mounting plan m).1.compile plan.marks (w.mounting plan m).2 root
        with ⟨w₁, _ | wiring⟩
      · rw [compiled] at mounted
        cases mounted
      · rw [compiled] at mounted
        cases mounted
        have binds := binds_compile (housed.mounting plan m) (by rw [compiled]) hb shows
        rwa [compiled, size] at binds
  · rw [mountView_of_no_map w hd] at mounted
    cases mounted

end World

/-- Plain deeds make watchers and remove none. -/
theorem World.Does.grows {w w' : World} (does : w.Does (Deed.Plain False False) w') :
    w.watchers.size ≤ w'.watchers.size := by
  refine does.keeps (P := fun later => w.watchers.size ≤ later.watchers.size) ?_ (Nat.le_refl _)
  intro later d plain le
  refine Nat.le_trans le ?_
  cases d with
  | depend crossed =>
    simp only [Deed.apply, World.depend]
    split <;> exact Nat.le_refl _
  | watch link path script =>
    simp only [Deed.apply, World.watch_eq, Array.size_push]
    exact Nat.le_succ _
  | compile _ _ _ => exact plain.2.elim
  | edit _ | tables _ _ | listen _ _ _ | page _ => exact Nat.le_refl _

namespace Machine

/-- The next move mounts a view. Its template is read by the given marks. -/
inductive Mounts (m : Machine) (marks : Markers) (view : MountedView) : Prop where
  | intro {context : Context} {tag : Option String} {name : String} {data : Term}
      {mount : Option String} {methods : List (String × List Step × Option Nat)}
      {term : MarksTerm} {described : Bool} {remaining : List Step} {rest : List Frame} {v : Value}
      {scripts : List (String × ScriptId)} {s₁ s₂ s₃ : Session}
      (top : m.frames =
        .steps context tag (.view name data mount methods term described :: remaining) :: rest)
      (arg : data.eval.on context m.session = (.ok v, s₁))
      (read : (Act.marks term).on context s₁ = (.ok marks, s₂))
      (made : (newMethods methods).on context s₂ = (.ok scripts, s₃))
      (mounted : (s₃.world.mountView ⟨v, scripts, mount, marks⟩).2 = .ok view)

variable {m : Machine} {marks : Markers} {view : MountedView}

/-- What comes before a view is mounted in a move makes containers and scripts, and the rest of the move
leaves the world alone. -/
theorem Mounts.moved (mounts : m.Mounts marks view) : ∃ w plan, plan.marks = marks ∧
      m.world.Does (Deed.Plain False False) w ∧ w.mountView plan = (m.moved.world, .ok view) := by
  obtain @⟨context, tag, name, data, mount, methods, term, described, remaining, rest, v, scripts, s₁,
    s₂, s₃, top, arg, read, made, mounted⟩ := mounts
  refine ⟨s₃.world, ⟨v, scripts, mount, marks⟩, rfl, ?_, ?_⟩
  · have first := @Term.prepares_eval False False data context m.session
    have second := @Act.prepares_marks False False term context s₁
    have third := @prepares_newMethods False False methods context s₂
    rw [arg] at first
    rw [read] at second
    rw [made] at third
    exact (first.trans second).trans third
  · have world : m.moved.world = ((viewStep name data mount methods term described).on context
        m.session).2.world := by
      rw [moved_of_cons top]
      exact congrArg Session.world (Session.perform_fst ..)
    rw [world]
    unfold viewStep
    rw [Act.on_bind, arg]
    dsimp only
    rw [Act.on_bind, read]
    dsimp only
    rw [Act.on_bind, made]
    dsimp only
    rw [Act.on_bind, Act.on_onWorld, mounted]
    exact Prod.ext rfl mounted

variable {id : WatcherId} {watcher : Watcher} {directive : Directive} {n : NodeId}

/-! ## Mounted views -/

/-- A release changes neither the page nor the watchers. -/
theorem serves_of_moved (serves : m.moved.world.Serves id watcher directive n) :
    m.next.world.Serves id watcher directive n := by
  refine ⟨?_, serves.reaction, ?_, ?_⟩
  · rw [World.watcher?, m.next_effect.2.1]
    exact serves.there
  · rw [page_next]
    exact serves.suits
  · rw [page_next]
    exact serves.echo

theorem sole_of_released {place : Place} (sole : m.next.world.Sole id place) :
    m.moved.world.Sole id place := by
  intro other shown among there shows
  have watchers := m.next_effect.2.1
  refine sole other shown (by rwa [watchers]) ?_ shows
  rw [World.watcher?, watchers]
  exact there

theorem apart_of_moved (apart : m.moved.world.Apart directive n) : m.next.world.Apart directive n := by
  unfold World.Apart at apart ⊢
  simpa only [page_next, renders_next_iff] using apart

/-- What was displayed before a release is displayed afterwards, if it can still be reached. -/
theorem shows_of_displays (displays : m.moved.world.Displays watcher directive n)
    (holds : m.next.world.Holds id watcher) : m.next.world.page.Shows n
      (m.next.world.heap.render (m.next.world.valueOf watcher)) directive := by
  obtain ⟨_, _, tables, _, released⟩ := m.next_effect
  obtain ⟨before, value⟩ := World.holds_of_follows released.follows
    (fun _ _ => headOf_congr tables watcher) holds
  rw [page_next, value, Heap.render_of_scalar before.scalar m.moved.world.heap m.next.world.heap]
  exact displays.shows

/-- A watcher that a move makes is registered only where its walk goes, and so it has a head property. -/
theorem anchors_of_born (sound : m.Sound) (quiet : ¬m.Registers)
    (born : m.world.watchers.size < id.index) (there : m.moved.world.watcher? id = some watcher) :
    m.next.world.Anchors id watcher := by
  intro r joined
  rcases subscribed_next sound joined with old | registers | ⟨_, passes⟩
  · -- it is younger than all that were registered before
    obtain ⟨ws, hws, mem⟩ := Heap.mem_watchers_iff.mp old
    have among := (sound.session.world.enrolled r ws hws).2 id mem
    exact absurd born (Nat.not_lt.mpr among.2)
  · exact absurd registers quiet
  · obtain ⟨watcher', there', head⟩ := World.headOf_ne_none_of_passes passes
    rw [there] at there'
    cases there'
    rwa [headOf_congr m.next_effect.2.2.1]

/-- A binding mirrors the model when its view has been mounted. -/
theorem mirrors_of_mounts (sound : m.Sound) (housed : m.world.Housed)
    (mounts : m.Mounts marks view) (silent : ∀ b ∈ view.wiring, m.moved.world.Silent marks b)
    {b : Binding} (hb : b ∈ view.wiring) (shows : b.kind.directive? = some directive) :
    ∃ id watcher, b.watcher = some id ∧ m.next.Mirrors id watcher directive b.node := by
  have quiet : ¬m.Registers := by
    obtain ⟨top⟩ := mounts
    simp [Registers, top]
  obtain ⟨w, plan, rfl, does, mounted⟩ := mounts.moved
  have housed' : w.Housed :=
    does.keeps (P := World.Housed) (fun _ _ plain => Deed.housed_apply plain.2) housed
  obtain ⟨id, watcher, binds⟩ := World.binds_mountView housed' mounted hb shows
  have born : m.world.watchers.size < id.index := Nat.lt_of_le_of_lt does.grows binds.born
  have among : id.Among m.next.world.watchers.size := by
    rw [m.next_effect.2.1]
    exact binds.serves.among binds.born
  have displays (sole : m.next.world.Sole id (directive.place b.node)) :
      m.moved.world.Displays watcher directive b.node :=
    binds.displays (silent b hb) (sole_of_released sole)
  refine ⟨id, watcher, binds.watched, serves_of_moved binds.serves, among,
    anchors_of_born sound quiet born binds.serves.there,
    fun sole => apart_of_moved (displays sole).apart, fun sole => ?_⟩
  by_cases holds : m.next.world.Holds id watcher
  · exact .inr (.inr ⟨_, shows_of_displays (displays sole) holds, .inl rfl⟩)
  · exact .inr (.inl holds)

/-- All operations have returned: nobody is owed a turn, and no listener still has to hear an event. -/
def Returned (m : Machine) : Prop :=
  (∀ id, ¬m.Owes id) ∧ ∀ event responses, .hearing event responses ∈ m.frames → responses = []

/-- The mounted page shows the model. A view is mounted in any state of a session, and no text that is put
into an element holds a marker. Then, after any run of moves that are orderly, or candid and leave the
page to its bindings, a value binding has its watcher, and when all operations have returned, and no
other watcher shows its value in the place of the binding, and each hop of its path leads through a
slot that the watcher is registered with, up to a value that is no container, the place is filled
with exactly the text of that value. -/
theorem mounted_view_shows_model {steps : List Step} {shows : List Show} {m₀ : Machine}
    {before events : List Event} (reached : Run (fun _ => True) (start steps shows) before m₀)
    (mounts : m₀.Mounts marks view)
    (silent : ∀ b ∈ view.wiring, m₀.moved.world.Silent marks b)
    (run : Run (fun m => m.Orderly ∨ m.Candid ∧ ¬m.Binds ∧ ¬m.Arranges) m₀.next events m)
    (returned : m.Returned) {b : Binding} (hb : b ∈ view.wiring)
    (value : b.kind.directive? = some directive) :
    ∃ id watcher, b.watcher = some id ∧ m.world.watcher? id = some watcher ∧
      watcher.reaction = .render directive b.node ∧
      (m.world.Sole id (directive.place b.node) → m.world.Holds id watcher →
        m.world.page.Shows b.node (m.world.heap.render (m.world.valueOf watcher)) directive) := by
  have sound := reached.sound (sound_start steps shows)
  have housed := reached.housed (housed_start steps shows)
  obtain ⟨id, watcher, watched, mirrors⟩ :=
    mirrors_of_mounts sound housed mounts silent hb value
  have orderly : Run Orderly m₀.next events m := run.widen (sound_next sound) fun _ sound either =>
    either.elim (fun orderly => orderly) fun quiet => quiet.1.orderly sound quiet.2.1 quiet.2.2
  have mirrors := orderly.mirrors (sound_next sound) (housed_next housed) mirrors
  refine ⟨id, watcher, watched, mirrors.serves.there, mirrors.serves.reaction,
    fun sole holds => ?_⟩
  obtain ⟨text, filled, shown | ⟨event, responses, hearing, _, waits⟩⟩ :=
    ((mirrors.filled sole).resolve_left (returned.1 id)).resolve_left (not_not_intro holds)
  · exact shown ▸ filled
  · rw [returned.2 event responses hearing] at waits
    cases waits

/-- A session that mounts a view with one input field and puts a text into the field. -/
def oneField : List Step :=
  [.page (.build (.element none "div" [] [.element (some "field") "input" [("v-model", "a")] []])
      none),
    .view "v" (.document (.object [("a", .text "x")])) (some "div") [] (.given .standard) false,
    .page (.input "field" "y")]

/-- The view of that session. -/
def fieldView : MountedView :=
  ⟨⟨⟨0⟩, ⟨0⟩⟩, ⟨0⟩, some ⟨1⟩, [⟨⟨0⟩, .directive .model, some ⟨1⟩⟩]⟩

/-- The watcher of its field. -/
def fieldWatcher : Watcher := ⟨⟨⟨0⟩, ⟨0⟩⟩, ⟨"a", "a", []⟩, .render .model ⟨0⟩⟩

/-- Where that session stands when the view has been mounted. -/
def fieldMounted : Machine where
  session :=
    { Session.empty with
      world :=
        { World.empty with
          heap := ⟨#[some ⟨[⟨"a", .text "x", some [⟨1⟩]⟩], true⟩], #[], #[]⟩
          watchers := #[fieldWatcher]
          tables := #[⟨[("$data", ⟨0⟩)], [("a", ⟨0⟩)], []⟩]
          mounts := #[some [("$data", ⟨0⟩)]]
          page := ⟨#[⟨.element "input" [("v-model", "a")] [("value", "x")] none, some ⟨1⟩, []⟩,
            ⟨.element "div" [] [] none, none, [⟨0⟩]⟩],
            [⟨⟨0⟩, "input", .writeBack ⟨⟨0⟩, ⟨0⟩⟩ ⟨"a", "a", []⟩⟩]⟩ }
      views := [("v", fieldView)]
      nodes := [("field", ⟨0⟩)] }
  shows := []
  frames := [.reply none (.view ⟨some ⟨1⟩, ["a"], [⟨⟨0⟩, .directive .model, some "a", some ⟨1⟩⟩],
    none⟩) .nothing,
    .steps ⟨none, none⟩ none [.page (.input "field" "y")]]
  answers := #[⟨.node (some ⟨1⟩), [], []⟩]

theorem fieldMounted_eq : (start oneField []).after 4 = fieldMounted := by cbv

theorem orderly_of_quiet {m : Machine} (licence : ¬m.licence.redefines) (registers : ¬m.Registers)
    (binds : ¬m.Binds) (arranges : ¬m.Arranges) (tables : m.next.world.tables = m.world.tables) :
    m.Orderly :=
  ⟨registers, binds, fun h => absurd h licence, fun _ _ _ _ head => (headOf_congr tables _).trans head,
    fun h => absurd h arranges⟩

theorem orderly_of_fieldMounted {k : Nat} (hk : k < 5) : (fieldMounted.after k).Orderly := by
  refine orderly_of_quiet ?_ ?_ ?_ ?_ ?_
  all_goals
    iterate 5 (rcases k with _ | k; · cbv)
    omega

theorem fieldMounted_mounts : ((start oneField []).after 3).Mounts .standard fieldView := by
  have top : ((start oneField []).after 3).frames = [.steps ⟨none, none⟩ none
      [.view "v" (.document (.object [("a", .text "x")])) (some "div") [] (.given .standard) false,
        .page (.input "field" "y")]] := by cbv
  refine .intro top rfl rfl rfl ?_
  cbv

/-- Where the session stands when the text was written back and the watcher has had its turn. -/
theorem fieldMounted_typed : (fieldMounted.after 5).frames.flatMap Frame.owed = [] ∧
    (∀ frame ∈ (fieldMounted.after 5).frames, ∀ event responses,
      frame = .hearing event responses → responses = []) ∧
    (fieldMounted.after 5).world.watchers = #[fieldWatcher] ∧
    (fieldMounted.after 5).world.target? ⟨0⟩ "a" = some ⟨0⟩ ∧
    (fieldMounted.after 5).world.heap.lookup? ⟨0⟩ "a" = some ⟨"a", .text "y", some [⟨1⟩]⟩ ∧
    (fieldMounted.after 5).world.valueOf fieldWatcher = .text "y" := by
  refine ⟨by cbv, ?_, by cbv, by cbv, by cbv, by cbv⟩
  have frames : (fieldMounted.after 5).frames = [.turns [], .keep ⟨[.map ⟨0⟩], [⟨⟨0⟩, ⟨0⟩⟩]⟩,
      .hearing ⟨"input", some "y"⟩ [], .reply none (.count 1) .nothing,
      .steps ⟨none, none⟩ none []] := by cbv
  simp [frames]

theorem typed_field_shows_model : ∃ events m,
    Run (fun m => m.Orderly ∨ m.Candid ∧ ¬m.Binds ∧ ¬m.Arranges) fieldMounted events m ∧
    m.world.page.Shows ⟨0⟩ "y" .model := by
  have reached : Run (fun _ => True) (start oneField []) _ _ := run_after 3 fun _ _ => trivial
  have typed : Run (fun m => m.Orderly ∨ m.Candid ∧ ¬m.Binds ∧ ¬m.Arranges) fieldMounted
      (fieldMounted.eventsIn 5) (fieldMounted.after 5) :=
    run_after 5 fun _ hk => .inl (orderly_of_fieldMounted hk)
  have next : ((start oneField []).after 3).next = fieldMounted := fieldMounted_eq
  have run : Run (fun m => m.Orderly ∨ m.Candid ∧ ¬m.Binds ∧ ¬m.Arranges)
      ((start oneField []).after 3).next (fieldMounted.eventsIn 5) (fieldMounted.after 5) :=
    next ▸ typed
  obtain ⟨owed, heard, watchers, target, entry, value⟩ := fieldMounted_typed
  have silent : ∀ b ∈ fieldView.wiring,
      ((start oneField []).after 3).moved.world.Silent .standard b := by
    intro b hb text
    rw [List.mem_singleton.mp hb] at text
    cases text
  have returned : (fieldMounted.after 5).Returned :=
    ⟨not_owes_of_nobody owed, fun event responses hearing => heard _ hearing event responses rfl⟩
  obtain ⟨id, watcher, watched, there, reaction, filled⟩ := mounted_view_shows_model reached
    fieldMounted_mounts silent run returned (List.mem_singleton_self _) rfl
  cases watched
  have own : watcher = fieldWatcher := by
    simpa [World.watcher?, watchers] using there.symm
  subst own
  have sole : (fieldMounted.after 5).world.Sole ⟨1⟩ (.value ⟨0⟩) := by
    intro other shown among _ _
    obtain ⟨pos, le⟩ := among
    rw [watchers] at le
    obtain ⟨index⟩ := other
    have : index = 1 := Nat.le_antisymm le pos
    rw [this]
  have registered : ⟨1⟩ ∈ (fieldMounted.after 5).world.heap.watchers (.slot ⟨0⟩ "a") := by
    simp [Heap.mem_watchers_iff, Heap.watchers?, entry]
  have holds : (fieldMounted.after 5).world.Holds ⟨1⟩ fieldWatcher :=
    ⟨⟨0⟩, target, ⟨_, entry, registered, rfl⟩⟩
  have shows := filled sole holds
  rw [value] at shows
  exact ⟨_, _, typed, shows⟩

end Machine

end DataBinding
