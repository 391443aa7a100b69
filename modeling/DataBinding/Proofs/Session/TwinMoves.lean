-- Moves side by side. Two machines with twin sessions and the same frames make the same move, write down
-- the same, and release the same containers, as long as nothing is asked of the handles that the second one
-- has let go of and what they held stays live.
import DataBinding.Proofs.Session.TwinSteps
import DataBinding.Proofs.World.Releases
import DataBinding.Proofs.Session.Moves

namespace DataBinding

variable {P : Parting} {T T' : Pair} {s t : Session}

/-! ## Frames -/

theorem Holds.mono {a b : Held} (same : Holds P T a b) (le : T.Le T') : Holds P T' a b :=
  ⟨same.values, fun v hv => le.lives (same.lives v hv), same.viewModels.imp fun _ _ h => h.mono le⟩

/-- The same is still to be done. -/
inductive Frames (P : Parting) (T : Pair) : Frame → Frame → Prop where
  | steps {c c' : Context} (same : Contexts P T c c') (tag : Option String) (remaining : List Step) :
    Frames P T (.steps c tag remaining) (.steps c' tag remaining)
  | turns (owed : List WatcherId) : Frames P T (.turns owed) (.turns owed)
  | hearing (event : PageEvent) {rs rs' : List Response} (same : List.Forall₂ (T.Responds P) rs rs') :
    Frames P T (.hearing event rs) (.hearing event rs')
  | call (script : ScriptId) {c c' : Context} (same : Contexts P T c c') :
    Frames P T (.call script c) (.call script c')
  | keep {a b : Held} (same : Holds P T a b) : Frames P T (.keep a) (.keep b)
  | reply (tag : Option String) {r : Reply Value} (lives : ∀ v ∈ r.held.values, T.left.heap.Lives v)
      {a b : Held} (same : Holds P T a b) : Frames P T (.reply tag r a) (.reply tag r b)
  | record (r : Reply Snapshot) : Frames P T (.record r) (.record r)

namespace Frames

variable {f g : Frame}

theorem mono (same : Frames P T f g) (le : T.Le T') : Frames P T' f g := by
  cases same with
  | steps same tag remaining => exact .steps (same.mono le) tag remaining
  | turns owed => exact .turns owed
  | hearing event same => exact .hearing event (same.imp fun _ _ h => h.mono le)
  | call script same => exact .call script (same.mono le)
  | keep same => exact .keep (same.mono le)
  | reply tag lives same => exact .reply tag (fun v hv => le.lives (lives v hv)) (same.mono le)
  | record r => exact .record r

end Frames

theorem Contexts.held {c c' : Context} (same : Contexts P T c c') : Holds P T c.held c'.held := by
  refine ⟨by rw [Context.held, Context.held, same.argument], fun v hv => ?_, ?_⟩
  · exact same.lives v (Option.mem_toList.mp hv)
  · have vms := same.viewModel
    simp only [Context.held]
    generalize c.viewModel = x, c'.viewModel = y at vms
    cases vms with
    | none => exact .nil
    | some h => exact .cons h .nil

theorem Holds.and {a b c d : Held} (first : Holds P T a b) (second : Holds P T c d) :
    Holds P T (a.and c) (b.and d) := by
  refine ⟨by rw [Held.and, Held.and, first.values, second.values], fun v hv => ?_,
    List.rel_append first.viewModels second.viewModels⟩
  exact (List.mem_append.mp hv).elim (first.lives v) (second.lives v)

theorem holds_reply {r : Reply Value} (lives : ∀ v ∈ r.held.values, T.left.heap.Lives v) :
    Holds P T r.held r.held := by
  have none : r.held.viewModels = [] := by cases r <;> rfl
  exact ⟨rfl, lives, none ▸ .nil⟩

namespace Frames

variable {f g : Frame}

theorem held (same : Frames P T f g) : Holds P T f.held g.held := by
  cases same with
  | steps same _ _ | call _ same => exact same.held
  | keep same => exact same
  | reply _ lives same => exact (holds_reply lives).and same
  | turns _ | hearing _ _ | record _ => exact holds_nothing

theorem letsGo (same : Frames P T f g) : g.letsGo = f.letsGo := by
  have held : g.held.isNothing = f.held.isNothing := by
    have holds := same.held
    rw [Held.isNothing, Held.isNothing, holds.values]
    have vms := holds.viewModels
    generalize f.held.viewModels = xs, g.held.viewModels = ys at vms
    cases vms <;> rfl
  cases same with
  | steps _ _ remaining => cases remaining <;> simp [Frame.letsGo, held]
  | hearing _ responses => cases responses <;> rfl
  | record _ => rfl
  | turns _ | call _ _ | keep _ | reply _ _ _ => simp [Frame.letsGo, held]

end Frames

/-- What a step leaves to be done is the same. -/
theorem Works.frames {a b : Work} (same : Works P T a b) :
    List.Forall₂ (Frames P T) (Frame.ofWork a) (Frame.ofWork b) := by
  cases same with
  | nothing => exact .nil
  | turns owed => exact .cons (.turns owed) .nil
  | hearing event same => exact .cons (.hearing event same) .nil
  | call script same => exact .cons (.call script same) .nil

/-! ## Turns, events and calls -/

/-- Two sessions with what takes the place of a frame. -/
def Moved (P : Parting) (T : Pair) (r r' : Session × List Frame) : Prop :=
  ∃ T', T.Le T' ∧ Twins P T' r.1 r'.1 ∧ List.Forall₂ (Frames P T') r.2 r'.2

namespace Twins

theorem stays (twins : Twins P T s t) : Moved P T (s, []) (t, []) := ⟨T, .refl T, twins, .nil⟩

/-- A change of both worlds. -/
theorem becomes (twins : Twins P T s t) {l r : World} {fs gs : List Frame}
    (becomes : T.Becomes P l r fun T' => List.Forall₂ (Frames P T') fs gs) :
    Moved P T ({ s with world := l }, fs) ({ t with world := r }, gs) := by
  obtain ⟨T', le, rfl, rfl, fits, frames⟩ := becomes
  exact ⟨T', le, twins.onWorld le fits, frames⟩

theorem turn (twins : Twins P T s t) (id : WatcherId) :
    Moved P T (Machine.turn s id) (Machine.turn t id) := by
  have fits := twins.fits
  unfold Machine.turn
  rw [twins.left, twins.right]
  have watchers := fits.watcher? id
  generalize T.left.watcher? id = x, T.right.watcher? id = y at watchers
  cases watchers with
  | none => exact twins.stays
  | @some watcher watcher' same =>
    have value : T.right.valueOf watcher' = T.left.valueOf watcher := by
      rw [World.valueOf, World.valueOf, ← same.links.table, ← same.path, fits.readPath]
    simp only [World.watched_eq, value, ← same.reaction]
    rcases watcher.reaction with ⟨directive, n⟩ | script
    · exact twins.becomes ((fits.render directive n _).imp fun _ _ _ _ _ _ => .nil)
    · refine twins.becomes (fits.rests (.cons (.call script ⟨rfl, ?_, .none⟩) .nil))
      rintro _ ⟨⟩
      exact fits.lives_readPath _ _

end Twins

/-- The payload of an event is the same live map. -/
theorem Pair.Fits.payload (fits : T.Fits P) (event : PageEvent) :
    (Machine.payload T.right event).2 = (Machine.payload T.left event).2 ∧
      T.Becomes P (Machine.payload T.left event).1 (Machine.payload T.right event).1
        fun T' => T'.left.heap.Lives (Machine.payload T.left event).2 := by
  unfold Machine.payload
  refine ⟨by rw [fits.heap], ?_⟩
  refine fits.becomes_heap (f := fun h => (h.newMap _).1) (T.left.heap.preserves_newMap fun e he => ?_)
    (Heap.lives_newMap _ _)
  simp only [List.mem_cons, List.not_mem_nil, or_false] at he
  rcases he with rfl | rfl
  · exact Heap.lives_of_scalar _ rfl
  · rcases event.value with _ | text <;> exact Heap.lives_of_scalar _ rfl

theorem Twins.hear (twins : Twins P T s t) (event : PageEvent) {a b : Response}
    (same : T.Responds P a b) : Moved P T (Machine.hear s event a) (Machine.hear t event b) := by
  have fits := twins.fits
  have left := twins.left
  have right := twins.right
  cases same with
  | script script =>
    obtain ⟨value, becomes⟩ := fits.payload event
    unfold Machine.hear
    rw [left, right]
    dsimp only
    rw [value]
    refine twins.becomes (becomes.imp fun T' _ _ _ _ lives => .cons (.call script ⟨rfl, ?_, .none⟩) .nil)
    rintro _ ⟨⟩
    exact lives
  | method links script =>
    obtain ⟨value, becomes⟩ := fits.payload event
    unfold Machine.hear
    rw [left, right]
    dsimp only
    rw [value]
    refine twins.becomes (becomes.bind fun T' le fits' hl hr lives => ?_)
    rw [← hl, ← hr]
    refine (fits'.follow (links.mono le)).imp fun T'' le' _ _ _ vms => ?_
    refine .cons (.call script ⟨rfl, ?_, .some vms⟩) .nil
    rintro _ ⟨⟩
    exact le'.lives lives
  | @writeBack link link' links path =>
    unfold Machine.hear
    rw [left, right]
    rcases event.value with _ | text
    · exact twins.stays
    · dsimp only
      have followed := fits.follow links
      rcases hl : T.left.follow link with ⟨l, vm⟩
      rcases hr : T.right.follow link' with ⟨r, vm'⟩
      rw [hl, hr] at followed
      obtain ⟨T', le, rfl, rfl, fits', vms⟩ := followed
      dsimp only at vms ⊢
      rw [← vms.table, fits'.assignTarget?]
      obtain ⟨owed, becomes⟩ := fits'.assign vm.table path (T'.left.heap.lives_of_scalar (v := .text text) rfl)
      rcases hal : T'.left.assign vm.table path (.text text) with ⟨l', result⟩
      rcases har : T'.right.assign vm.table path (.text text) with ⟨r', result'⟩
      rw [hal, har] at owed becomes
      dsimp only at owed becomes
      subst owed
      obtain ⟨T'', le', hl', hr', fits'', _⟩ := becomes
      rcases result' with cause | owed
      · exact twins.becomes ⟨T'', le.trans le', hl', hr', fits'', .nil⟩
      · refine twins.becomes ⟨T'', le.trans le', hl', hr', fits'', .cons (.turns owed) (.cons (.keep ?_) .nil)⟩
        refine ⟨rfl, fun v hv => le'.lives ?_, .cons (vms.mono le') .nil⟩
        exact fits'.lives_assignTarget (Option.mem_toList.mp hv)

/-- A script is called alike. -/
theorem Twins.callScript (twins : Twins P T s t) (id : ScriptId) {c c' : Context}
    (contexts : Contexts P T c c') :
    Moved P T (Machine.callScript s id c) (Machine.callScript t id c') := by
  have heap : t.world.heap = s.world.heap := by rw [twins.left, twins.right, twins.fits.heap]
  unfold Machine.callScript
  rw [twins.scripts, contexts.argument, heap]
  rcases s.scripts[id.index]? with _ | script
  · exact twins.stays
  · have noted : Twins P T (s.note (.called script.caller script.tag
        (s.world.heap.snapshot (c.argument.getD .null)))) (t.note (.called script.caller script.tag
        (s.world.heap.snapshot (c.argument.getD .null)))) :=
      { twins with log := congrArg (· ++ [_]) twins.log }
    dsimp only
    split
    · exact noted.stays
    · refine ⟨T, .refl T, ?_, .cons (.steps contexts _ _) .nil⟩
      exact { noted with scripts := congrArg (Array.setIfInBounds · id.index _) twins.scripts }

/-! ## Machines -/

/-- The name of the handle that is shown, if values or view models are. -/
def Show.names : Show → List String
  | .value name | .properties name => [name]
  | .node _ => []

/-- Two machines over a pair of worlds. Their answers are the same since they had the given ones. -/
structure Machine.Twins (P : Parting) (T : Pair) (a b : Array Answer) (m n : Machine) : Prop where
  session : DataBinding.Twins P T m.session n.session
  shows : n.shows = m.shows
  spared : ∀ view ∈ m.shows, P.SparesAll view.names
  frames : List.Forall₂ (Frames P T) m.frames n.frames
  answers : ∃ later, m.answers = a ++ later ∧ n.answers = b ++ later

namespace Machine.Twins

variable {a b : Array Answer} {m n : Machine}

theorem shown (session : DataBinding.Twins P T s t) {view : Show} (spared : P.SparesAll view.names) :
    Machine.shown t view = Machine.shown s view := by
  have fits := session.fits
  unfold Machine.shown
  rw [session.left, session.right]
  cases view with
  | value name =>
    have found := session.value? (spared name (List.mem_singleton_self _))
    dsimp only
    generalize s.value? name = x, t.value? name = y at found
    cases found with
    | none => rfl
    | some same => simp only [same.1, fits.heap]
  | node name =>
    simp only [session.nodes, Page.markupOf_congr fits.nodes]
  | properties name =>
    have found := session.viewModel? (spared name (List.mem_singleton_self _))
    dsimp only
    generalize s.viewModel? name = x, t.viewModel? name = y at found
    cases found with
    | none => rfl
    | some same => simp only [← same.table, fits.propertyNames, fits.readProperty, fits.heap]

/-- The same answer is given. -/
theorem answer (twins : Machine.Twins P T a b m n) (r : Reply Snapshot) :
    Machine.Twins P T a b (m.answer r) (n.answer r) where
  session := { twins.session with log := rfl }
  shows := twins.shows
  spared := twins.spared
  frames := twins.frames
  answers := by
    obtain ⟨later, hm, hn⟩ := twins.answers
    have shown : n.shows.map (Machine.shown n.session) = m.shows.map (Machine.shown m.session) := by
      rw [twins.shows]
      exact List.map_congr_left fun view h => Machine.Twins.shown twins.session (twins.spared view h)
    refine ⟨later.push ⟨r, m.session.log, m.shows.map (Machine.shown m.session)⟩, ?_, ?_⟩
    · simp only [Machine.answer, hm, Array.append_push]
    · simp only [Machine.answer, hn, shown, twins.session.log, Array.append_push]

end Machine.Twins

namespace Machine

/-- The next move names no handle that was let go of, and mounts nothing over the parted table. -/
def Spares (P : Parting) (m : Machine) : Prop :=
  match m.frames with
  | .steps context _ (step :: _) :: _ => P.SparesAll step.names ∧
      ∀ t, step.mountsOver? m.session context = some t → P.table ≠ some t
  | _ => True

theorem move_steps (m : Machine) (c : Context) (tag : Option String) (step : Step)
    (remaining : List Step) : m.move (.steps c tag (step :: remaining)) =
      let (session, outcome) := m.session.perform c step
      ({ m with session }, Frame.ofWork outcome.work ++
        [.reply tag outcome.reply outcome.held, .steps c tag remaining]) := rfl

theorem move_call (m : Machine) (script : ScriptId) (c : Context) : m.move (.call script c) =
    ({ m with session := (callScript m.session script c).1 }, (callScript m.session script c).2) := rfl

theorem shows_move (m : Machine) (f : Frame) : (m.move f).1.shows = m.shows := by
  cases f with
  | steps c tag remaining => cases remaining <;> rfl
  | turns owed => cases owed <;> rfl
  | hearing event responses => cases responses <;> rfl
  | reply tag r held => cases tag <;> rfl
  | call _ _ | keep _ | record _ => rfl

/-- Two machines after work on a frame, with the frames that take its place. -/
def Worked (P : Parting) (T : Pair) (a b : Array Answer) (r r' : Machine × List Frame) : Prop :=
  ∃ T', T.Le T' ∧ DataBinding.Twins P T' r.1.session r'.1.session ∧ r'.1.shows = r.1.shows ∧
    (∃ later, r.1.answers = a ++ later ∧ r'.1.answers = b ++ later) ∧
    List.Forall₂ (Frames P T') r.2 r'.2

namespace Twins

variable {a b : Array Answer} {m n : Machine}

theorem worked (twins : Machine.Twins P T a b m n) {r r' : Session × List Frame}
    {f g : List Frame} (moved : Moved P T r r')
    (after : ∀ T', T.Le T' → List.Forall₂ (Frames P T') f g) :
    Worked P T a b ({ m with session := r.1 }, r.2 ++ f) ({ n with session := r'.1 }, r'.2 ++ g) := by
  obtain ⟨T', le, session, frames⟩ := moved
  exact ⟨T', le, session, twins.shows, twins.answers, List.rel_append frames (after T' le)⟩

theorem rests (twins : Machine.Twins P T a b m n) : Worked P T a b (m, []) (n, []) :=
  ⟨T, .refl T, twins.session, twins.shows, twins.answers, .nil⟩

/-- Work on a frame is the same on both sides. -/
theorem move (twins : Machine.Twins P T a b m n) {f g : Frame} {fs gs : List Frame}
    (hm : m.frames = f :: fs) (hn : n.frames = g :: gs) (same : Frames P T f g) (spares : n.Spares P) :
    Worked P T a b (m.move f) (n.move g) := by
  have session := twins.session
  cases same with
  | @steps c c' contexts tag remaining =>
    rcases remaining with _ | ⟨step, remaining⟩
    · exact twins.rests
    · rw [Spares, hn] at spares
      rw [move_steps, move_steps]
      obtain ⟨T', le, session', outcomes⟩ := session.perform contexts step spares.1 spares.2
      refine ⟨T', le, session', twins.shows, twins.answers, ?_⟩
      refine List.rel_append outcomes.work.frames (.cons ?_ (.cons (.steps (contexts.mono le) _ _) .nil))
      rw [outcomes.reply]
      exact .reply tag outcomes.lives outcomes.held
  | turns owed =>
    rcases owed with _ | ⟨id, owed⟩
    · exact twins.rests
    · exact twins.worked (session.turn id) fun T' _ => .cons (.turns owed) .nil
  | @hearing event rs rs' responses =>
    cases responses with
    | nil => exact twins.rests
    | cons first rest =>
      exact twins.worked (session.hear event first) fun T' le =>
        .cons (.hearing event (rest.imp fun _ _ h => h.mono le)) .nil
  | call script contexts =>
    have worked := twins.worked (f := []) (g := []) (session.callScript script contexts) fun _ _ => .nil
    simpa only [move_call, List.append_nil] using worked
  | keep _ => exact twins.rests
  | @reply tag r lives a' b' holds =>
    have heap : n.session.world.heap = m.session.world.heap := by
      rw [session.left, session.right, session.fits.heap]
    simp only [Machine.move, heap]
    rcases tag with _ | tag
    · exact ⟨T, .refl T, session, twins.shows, twins.answers, .cons (.record _) .nil⟩
    · refine ⟨T, .refl T, ?_, twins.shows, twins.answers, .nil⟩
      exact { session with log := congrArg (· ++ [_]) session.log }
  | record r =>
    have answered := twins.answer r
    exact ⟨T, .refl T, answered.session, answered.shows, answered.answers, .nil⟩

/-- The next move is the same on both sides, before anything is released. -/
theorem moved (twins : Machine.Twins P T a b m n) (spares : n.Spares P) :
    ∃ T', T.Le T' ∧ Machine.Twins P T' a b m.moved n.moved := by
  have frames := twins.frames
  rcases hm : m.frames with _ | ⟨f, fs⟩ <;> rcases hn : n.frames with _ | ⟨g, gs⟩ <;> rw [hm, hn] at frames
  · simp only [Machine.moved, hm, hn]
    exact ⟨T, .refl T, twins⟩
  · cases frames
  · cases frames
  · obtain ⟨same, rest⟩ := List.forall₂_cons.mp frames
    obtain ⟨T', le, session, shows, answers, worked⟩ := twins.move hm hn same spares
    rw [moved_of_cons hm, moved_of_cons hn]
    refine ⟨T', le, session, shows, ?_, List.rel_append worked (rest.imp fun _ _ h => h.mono le), answers⟩
    have still : (m.move f).1.shows = m.shows := m.shows_move f
    simpa only [still] using twins.spared

end Twins

/-! ## Releases -/

/-- What the handles and the frames of a machine hold. -/
def held (m : Machine) : Held := .concat (m.session.held :: m.frames.map Frame.held)

theorem release_eq (m : Machine) :
    m.release = { m with session := { m.session with world := m.world.release m.held } } := rfl

/-- What is held is held by a handle or by a frame. -/
theorem mem_values_held {m : Machine} {v : Value} :
    v ∈ m.held.values ↔ v ∈ m.session.held.values ∨ ∃ f ∈ m.frames, v ∈ f.held.values := by
  simp [held, Held.concat]

theorem mem_viewModels_held {m : Machine} {vm : ViewModel} : vm ∈ m.held.viewModels ↔
    vm ∈ m.session.held.viewModels ∨ ∃ f ∈ m.frames, vm ∈ f.held.viewModels := by
  simp [held, Held.concat]

end Machine

theorem Session.mem_values_held {s : Session} {v : Value} : v ∈ s.held.values ↔
    (∃ entry ∈ s.values, entry.2 = v) ∨ ∃ entry ∈ s.views, .map entry.2.model = v := by
  simp [Session.held]

theorem Session.mem_viewModels_held {s : Session} {vm : ViewModel} : vm ∈ s.held.viewModels ↔
    (∃ entry ∈ s.viewModels, entry.2 = vm) ∨ ∃ entry ∈ s.views, entry.2.viewModel = vm := by
  simp [Session.held]

/-- What twin sessions hold. -/
theorem Twins.holdings (twins : Twins P T s t) : T.Holdings P s.held t.held := by
  refine ⟨fun v hv => ?_, fun v hv => ?_, fun v hv => ?_, fun vm hvm => ?_, fun vm hvm => ?_⟩
  · rw [Session.mem_values_held] at hv ⊢
    rw [twins.values] at hv
    refine hv.imp_right ?_
    rintro ⟨view, hview, rfl⟩
    obtain ⟨other, hother, same⟩ := twins.views.mem_left hview
    exact ⟨other, (mem_spare.mp hother).1, congrArg Value.map same.model⟩
  · rcases Session.mem_values_held.mp hv with ⟨entry, h, rfl⟩ | ⟨view, hview, rfl⟩
    · exact twins.lives entry (twins.values ▸ h)
    · obtain ⟨other, hother, same⟩ := twins.views.mem_left hview
      exact same.model ▸ same.lives
  · rcases Session.mem_values_held.mp hv with ⟨entry, h, rfl⟩ | ⟨view, hview, rfl⟩
    · exact .inl (Session.mem_values_held.mpr (.inl ⟨entry, twins.values ▸ h, rfl⟩))
    · by_cases own : view.1 ∈ P.views
      · refine .inr fun c is => ?_
        cases is
        exact (twins.ownViews view hview own).2
      · obtain ⟨other, hother, same⟩ := twins.views.mem_right (mem_spare.mpr ⟨hview, own⟩)
        exact .inl (Session.mem_values_held.mpr
          (.inr ⟨other, hother, congrArg Value.map same.model.symm⟩))
  · rcases Session.mem_viewModels_held.mp hvm with ⟨entry, h, rfl⟩ | ⟨view, hview, rfl⟩
    · by_cases own : entry.1 ∈ P.viewModels
      · exact .inl (twins.ownViewModels entry h own)
      · obtain ⟨other, hother, same⟩ := twins.viewModels.mem_right (mem_spare.mpr ⟨h, own⟩)
        exact .inr ⟨_, Session.mem_viewModels_held.mpr (.inl ⟨other, hother, rfl⟩), same⟩
    · by_cases own : view.1 ∈ P.views
      · exact .inl (twins.ownViews view hview own).1
      · obtain ⟨other, hother, same⟩ := twins.views.mem_right (mem_spare.mpr ⟨hview, own⟩)
        exact .inr ⟨_, Session.mem_viewModels_held.mpr (.inr ⟨other, hother, rfl⟩), same.viewModel⟩
  · rcases Session.mem_viewModels_held.mp hvm with ⟨entry, h, rfl⟩ | ⟨view, hview, rfl⟩
    · obtain ⟨other, hother, same⟩ := twins.viewModels.mem_left h
      exact ⟨_, Session.mem_viewModels_held.mpr (.inl ⟨other, (mem_spare.mp hother).1, rfl⟩), same⟩
    · obtain ⟨other, hother, same⟩ := twins.views.mem_left hview
      exact ⟨_, Session.mem_viewModels_held.mpr (.inr ⟨other, (mem_spare.mp hother).1, rfl⟩),
        same.viewModel⟩

namespace Machine.Twins

variable {a b : Array Answer} {m n : Machine}

/-- What twin machines hold. -/
theorem holdings (twins : Machine.Twins P T a b m n) : T.Holdings P m.held n.held := by
  have session := twins.session.holdings
  have frames := twins.frames
  refine ⟨fun v hv => ?_, fun v hv => ?_, fun v hv => ?_, fun vm hvm => ?_, fun vm hvm => ?_⟩
  · rw [mem_values_held] at hv ⊢
    refine hv.imp (session.within v) ?_
    rintro ⟨g, hg, hv⟩
    obtain ⟨f, hf, same⟩ := exists_left frames hg
    exact ⟨f, hf, same.held.values ▸ hv⟩
  · rcases mem_values_held.mp hv with hv | ⟨g, hg, hv⟩
    · exact session.lives v hv
    · obtain ⟨f, hf, same⟩ := exists_left frames hg
      exact same.held.lives v (same.held.values ▸ hv)
  · rcases mem_values_held.mp hv with hv | ⟨f, hf, hv⟩
    · exact (session.values v hv).imp_left fun hv => mem_values_held.mpr (.inl hv)
    · obtain ⟨g, hg, same⟩ := exists_right frames hf
      exact .inl (mem_values_held.mpr (.inr ⟨g, hg, same.held.values ▸ hv⟩))
  · rcases mem_viewModels_held.mp hvm with hvm | ⟨f, hf, hvm⟩
    · refine (session.left vm hvm).imp_right ?_
      rintro ⟨vm', hvm', same⟩
      exact ⟨vm', mem_viewModels_held.mpr (.inl hvm'), same⟩
    · obtain ⟨g, hg, same⟩ := exists_right frames hf
      obtain ⟨vm', hvm', vms⟩ := exists_right same.held.viewModels hvm
      exact .inr ⟨vm', mem_viewModels_held.mpr (.inr ⟨g, hg, hvm'⟩), vms⟩
  · rcases mem_viewModels_held.mp hvm with hvm | ⟨g, hg, hvm⟩
    · obtain ⟨vm', hvm', same⟩ := session.right vm hvm
      exact ⟨vm', mem_viewModels_held.mpr (.inl hvm'), same⟩
    · obtain ⟨f, hf, same⟩ := exists_left frames hg
      obtain ⟨vm', hvm', vms⟩ := exists_left same.held.viewModels hvm
      exact ⟨vm', mem_viewModels_held.mpr (.inr ⟨f, hf, hvm'⟩), vms⟩

end Machine.Twins

/-! ## What outlasts a release -/

section

variable {l r : Held}

theorem Pair.ViewModels.released {vm vm' : ViewModel} (same : T.ViewModels P vm vm')
    (held : vm ∈ l.viewModels) : (T.released l r).ViewModels P vm vm' := by
  refine ⟨same.links.released, ?_⟩
  obtain ⟨entries, he⟩ := Option.isSome_iff_exists.mp same.kept
  exact Option.isSome_iff_exists.mpr
    ⟨entries, World.mounts?_release_iff.mpr ⟨⟨vm, held, rfl⟩, he⟩⟩

theorem Holds.released {a b : Held} (same : Holds P T a b)
    (lives : ∀ v ∈ a.values, (T.left.release l).heap.Lives v)
    (held : ∀ vm ∈ a.viewModels, vm ∈ l.viewModels) : Holds P (T.released l r) a b :=
  ⟨same.values, lives, forall₂_imp_mem same.viewModels fun vm hvm _ _ h => h.released (held vm hvm)⟩

theorem Contexts.released {c c' : Context} (same : Contexts P T c c')
    (lives : ∀ v ∈ c.held.values, (T.left.release l).heap.Lives v)
    (held : ∀ vm ∈ c.held.viewModels, vm ∈ l.viewModels) : Contexts P (T.released l r) c c' := by
  refine ⟨same.argument, fun v hv => lives v (Option.mem_toList.mpr hv), ?_⟩
  have vms := same.viewModel
  simp only [Context.held] at held
  generalize c.viewModel = x, c'.viewModel = y at vms held
  cases vms with
  | none => exact .none
  | some h => exact .some (h.released (held _ (List.mem_singleton_self _)))

theorem Frames.released {f g : Frame} (same : Frames P T f g)
    (lives : ∀ v ∈ f.held.values, (T.left.release l).heap.Lives v)
    (held : ∀ vm ∈ f.held.viewModels, vm ∈ l.viewModels) : Frames P (T.released l r) f g := by
  cases same with
  | steps same tag remaining => exact .steps (same.released lives held) tag remaining
  | turns owed => exact .turns owed
  | hearing event same => exact .hearing event (same.imp fun _ _ h => h.released)
  | call script same => exact .call script (same.released lives held)
  | keep same => exact .keep (same.released lives held)
  | reply tag _ same =>
    refine .reply tag (fun v hv => lives v (List.mem_append_left _ hv)) (same.released (fun v hv => ?_)
      fun vm hvm => ?_)
    · exact lives v (List.mem_append_right _ hv)
    · exact held vm (List.mem_append_right _ hvm)
  | record r => exact .record r

theorem Twins.released (twins : Twins P T s t) (fits : (T.released l r).Fits P)
    (lives : ∀ v ∈ t.held.values, (T.left.release l).heap.Lives v)
    (held : ∀ vm ∈ s.held.viewModels, vm ∈ l.viewModels) :
    Twins P (T.released l r) { s with world := s.world.release l }
      { t with world := t.world.release r } :=
  { twins with
    left := congrArg (World.release · l) twins.left
    right := congrArg (World.release · r) twins.right
    fits := fits
    lives := fun entry h => lives _ (Session.mem_values_held.mpr (.inl ⟨entry, twins.values.symm ▸ h, rfl⟩))
    viewModels := twins.viewModels.mono_mem fun entry h _ _ same => same.released
      (held _ (Session.mem_viewModels_held.mpr (.inl ⟨entry, (mem_spare.mp h).1, rfl⟩)))
    links := twins.links.mono fun _ _ h => h.released
    views := twins.views.mono_mem fun entry h other h' same =>
      { same with
        viewModel := same.viewModel.released
          (held _ (Session.mem_viewModels_held.mpr (.inr ⟨entry, (mem_spare.mp h).1, rfl⟩)))
        lives := same.model ▸ lives _ (Session.mem_values_held.mpr (.inr ⟨other, h', rfl⟩)) }
    ownViewModels := twins.ownViewModels
    ownViews := twins.ownViews }

end

namespace Machine.Twins

variable {a b : Array Answer} {m n : Machine}

/-- Twin machines are twins after their releases, if what is parted stays live. -/
theorem released (twins : Machine.Twins P T a b m n)
    (stays : ∀ c, P.keeps c → n.release.world.heap.isLive c = true) :
    Machine.Twins P (T.released m.held n.held) a b m.release n.release := by
  have holdings := twins.holdings
  have fits := twins.session.fits
  rw [release_eq n] at stays
  have stays (c : Container) (keeps : P.keeps c) : (T.right.release n.held).heap.isLive c = true := by
    rw [← twins.session.right]
    exact stays c keeps
  have lives {v : Value} (hv : v ∈ n.held.values) : (T.left.release m.held).heap.Lives v :=
    holdings.lives_released fits stays (World.mem_roots.mpr (.inl hv))
  refine ⟨?_, twins.shows, twins.spared, ?_, twins.answers⟩
  · exact twins.session.released (fits.released holdings stays)
      (fun v hv => lives (mem_values_held.mpr (.inl hv)))
      fun vm hvm => mem_viewModels_held.mpr (.inl hvm)
  · refine forall₂_imp_mem twins.frames fun f hf g hg same => same.released (fun v hv => ?_)
      fun vm hvm => mem_viewModels_held.mpr (.inr ⟨f, hf, hvm⟩)
    exact lives (mem_values_held.mpr (.inr ⟨g, hg, same.held.values.symm ▸ hv⟩))

/-- Twin machines stay twins in a move. -/
theorem next (twins : Machine.Twins P T a b m n) (spares : n.Spares P)
    (stays : ∀ c, P.keeps c → n.next.world.heap.isLive c = true) :
    ∃ T', Machine.Twins P T' a b m.next n.next := by
  obtain ⟨T', _, moved⟩ := twins.moved spares
  have letsGo : n.frames.head?.any (·.letsGo) = m.frames.head?.any (·.letsGo) := by
    have heads := rel_head? twins.frames
    generalize m.frames.head? = x, n.frames.head? = y at heads
    cases heads with
    | none => rfl
    | some same => exact same.letsGo
  rw [next_eq, letsGo] at stays
  rw [next_eq, next_eq, letsGo]
  split
  · rename_i h
    rw [if_pos h] at stays
    exact ⟨_, moved.released stays⟩
  · exact ⟨T', moved⟩

end Machine.Twins

end DataBinding
