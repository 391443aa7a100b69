-- What moves do. The deeds of a move are those of the step that is performed, of the turn that begins or
-- of the listener that hears an event. A turn that shows a value paints the page, and an input field
-- that writes back makes a call.
import DataBinding.Proofs.Session.Deeds.Steps

namespace DataBinding

/-! ## Moves -/

namespace Machine

/-- The next move may change the page: a step that writes to it, or a turn that shows a value. -/
def Paints (m : Machine) : Prop :=
  match m.frames with
  | .steps _ _ (step :: _) :: _ => step.Paints
  | .turns _ :: _ => True
  | _ => False

/-- The next move compiles a template or mounts a view. -/
def Binds (m : Machine) : Prop :=
  match m.frames with
  | .steps _ _ (step :: _) :: _ => step.Binds
  | _ => False

/-- The edit of containers that are there which the next move makes, and the world in which it is made. -/
inductive Touches (m : Machine) : Edit → World → Prop where
  | call {call : Call} {w : World} (makes : m.Makes call w) : Touches m call.edit w
  | step {context : Context} {tag : Option String} {step : Step} {remaining : List Step}
      {rest : List Frame} {e : Edit} {s : Session}
      (top : m.frames = .steps context tag (step :: remaining) :: rest)
      (touches : step.Touches context m.session e s) : Touches m e s.world

/-- A deed of the next move: if it touches a container, the move makes that edit. -/
structure May (m : Machine) (w : World) (d : Deed) : Prop where
  touches : ∀ e, d.touch? = some e → ∃ w', m.Touches e w' ∧ (w'.collector = none → w = w')
  within : d.Within m.Paints m.Binds w

theorem May.of_plain {m : Machine} {w : World} {d : Deed} (plain : d.Plain m.Paints m.Binds w) :
    m.May w d := by
  refine ⟨fun e he => ?_, plain.2⟩
  rw [plain.1] at he
  cases he

theorem does_steps {m : Machine} {context : Context} {tag : Option String} {step : Step}
    {remaining : List Step} {rest : List Frame}
    (top : m.frames = .steps context tag (step :: remaining) :: rest) :
    m.world.Does m.May (m.session.perform context step).1.world := by
  have paints : m.Paints = step.Paints := by simp [Paints, top]
  have binds : m.Binds = step.Binds := by simp [Binds, top]
  rw [Session.perform_fst]
  refine step.does.mono fun w d of => ⟨fun e he => ?_, ?_⟩
  · obtain ⟨s, touches, same⟩ := of.touches e he
    exact ⟨s.world, .step top touches, same⟩
  · rw [paints, binds]
    exact of.within

theorem does_turn {m : Machine} {id : WatcherId} {owed : List WatcherId} {rest : List Frame}
    (top : m.frames = .turns (id :: owed) :: rest) :
    m.world.Does m.May (turn m.session id).1.world := by
  rcases there : m.world.watcher? id with _ | watcher
  · rw [turn_of_none there]
    exact .nil
  · rw [turn_of_some there]
    rcases watcher.reaction with ⟨directive, n⟩ | script
    · refine .single (.page (m.world.render directive n (m.world.valueOf watcher)).page)
        (.of_plain ⟨rfl, ?_, ?_⟩)
      · simp [Paints, top]
      · rw [World.render_eq]
        exact Page.repaints_showing _ directive n _
    · exact .nil

theorem world_callScript (s : Session) (script : ScriptId) (context : Context) :
    (callScript s script context).1.world = s.world := by
  unfold callScript
  split
  · rfl
  · dsimp only
    split <;> rfl

theorem does_hear {m : Machine} {event : PageEvent} {response : Response}
    {responses : List Response} {rest : List Frame}
    (top : m.frames = .hearing event (response :: responses) :: rest) :
    m.world.Does m.May (hear m.session event response).1.world := by
  have payload : m.world.Does m.May (payload m.world event).1 :=
    .single (.edit (.newMap _)) (.of_plain ⟨rfl, trivial⟩)
  have follow {w : World} (before : m.world.Does m.May w) (link : Link) :
      m.world.Does m.May (w.follow link).1 := by
    obtain ⟨ts, ms, e⟩ := w.aside_follow link
    rw [e]
    exact before.snoc (d := .tables ts ms) (.of_plain ⟨rfl, trivial⟩)
  cases response with
  | script script => exact payload
  | method link script => exact follow payload link
  | writeBack link path =>
    rcases hv : event.value with _ | text
    · simp only [hear, hv]
      exact .nil
    · have assigned : (m.world.follow link).1.Does m.May
          ((m.world.follow link).1.assign (m.world.follow link).2.table path (.text text)).1 := by
        refine World.does_assign (fun _ => .of_plain ⟨rfl, trivial⟩) fun call w' assigns same => ?_
        refine ⟨fun other he => ?_, trivial⟩
        exact ⟨_, Deed.eq_of_touch? he ▸ .call (.writeBack top hv assigns), same⟩
      have all := (follow .nil link).trans assigned
      rcases hr : (m.world.follow link).1.assign (m.world.follow link).2.table path (.text text)
        with ⟨world, cause | owed⟩
      · rw [hear_writeBack_of_error hv hr]
        rwa [hr] at all
      · obtain ⟨held, e⟩ := hear_writeBack_of_ok hv hr
        rw [e]
        rwa [hr] at all

/-- The deeds of the next move. -/
theorem does (m : Machine) : m.world.Does m.May m.moved.world := by
  rcases top : m.frames with _ | ⟨frame, rest⟩
  · have : m.moved = m := by simp [moved, top]
    rw [this]
    exact .nil
  · have same (h : (m.move frame).1.world = m.world) : m.world.Does m.May m.moved.world := by
      rw [moved_of_cons top]
      exact h ▸ .nil
    cases frame with
    | steps context tag remaining =>
      cases remaining with
      | nil => exact same rfl
      | cons step remaining =>
        rw [moved_of_cons top]
        exact does_steps top
    | turns owed =>
      cases owed with
      | nil => exact same rfl
      | cons id owed =>
        rw [moved_of_cons top]
        exact does_turn top
    | hearing event responses =>
      cases responses with
      | nil => exact same rfl
      | cons response responses =>
        rw [moved_of_cons top]
        exact does_hear top
    | call script context => exact same (world_callScript m.session script context)
    | keep _ | record _ => exact same rfl
    | reply tag _ _ => cases tag <;> exact same rfl

end Machine

end DataBinding
