-- Moves of the machine. A move makes licensed edits, then wires, and may then release what nothing
-- holds. Whom its edits owe a turn is owed it by a frame afterwards, and a watcher that is owed a turn
-- stays so until its turn begins.
import DataBinding.Proofs.Session.Performing
import DataBinding.Session.Machine

namespace DataBinding

/-! ## Frames -/

/-- The watchers that a frame owes a turn exist, and the arguments of its scripts are known. -/
def Frame.Sound (w : World) : Frame → Prop
  | .steps context _ _ => context.Known w
  | .turns owed => ∀ id ∈ owed, id.Among w.watchers.size
  | .call _ context => context.Known w
  | .hearing _ _ | .keep _ | .reply _ _ _ | .record _ => True

theorem Frame.Sound.mono {w w' : World} (ext : w'.Extends w) {frame : Frame}
    (sound : frame.Sound w) : frame.Sound w' := by
  cases frame with
  | steps _ _ _ => exact Context.Known.mono sound ext
  | turns _ => exact fun id hid => (sound id hid).mono ext.watchers
  | call _ _ => exact Context.Known.mono sound ext
  | hearing _ _ | keep _ | reply _ _ _ | record _ => trivial

theorem Frame.sound_ofWork {w : World} {work : Work} (sound : work.Sound w) :
    ∀ frame ∈ Frame.ofWork work, frame.Sound w := by
  intro frame hf
  cases work with
  | nothing => cases hf
  | turns owed => exact List.mem_singleton.mp hf ▸ sound
  | hearing event responses => exact List.mem_singleton.mp hf ▸ trivial
  | call script context => exact List.mem_singleton.mp hf ▸ sound

theorem Frame.mem_ofWork_of_owed {work : Work} {id : WatcherId} (hid : id ∈ work.owed) :
    ∃ owed, .turns owed ∈ Frame.ofWork work ∧ id ∈ owed := by
  cases work with
  | turns owed => exact ⟨owed, List.mem_singleton_self _, hid⟩
  | nothing | hearing _ _ | call _ _ => cases hid

/-- Which rare edits the next move of a frame may make. -/
def Frame.licence : Frame → Licence
  | .steps _ _ (step :: _) => step.licence
  | .hearing _ (.writeBack _ _ :: _) => .placing
  | _ => .none

/-- Whom a frame owes a turn. -/
def Frame.owed : Frame → List WatcherId
  | .turns owed => owed
  | _ => []

namespace Machine

def world (m : Machine) : World := m.session.world

structure Sound (m : Machine) : Prop where
  session : m.session.Sound
  frames : ∀ frame ∈ m.frames, frame.Sound m.world

/-- Some frame owes a watcher a turn. -/
def Owes (m : Machine) (id : WatcherId) : Prop := ∃ owed, .turns owed ∈ m.frames ∧ id ∈ owed

theorem not_owes_of_nobody {m : Machine} (nobody : m.frames.flatMap Frame.owed = [])
    (id : WatcherId) : ¬m.Owes id := by
  rintro ⟨owed, hf, hid⟩
  have : id ∈ m.frames.flatMap Frame.owed := List.mem_flatMap.mpr ⟨.turns owed, hf, hid⟩
  rw [nobody] at this
  cases this

/-- The rare edits that the next move may make. -/
def licence (m : Machine) : Licence :=
  match m.frames with
  | [] => .none
  | frame :: _ => frame.licence

/-- The machine after the next move, before anything is released. -/
def moved (m : Machine) : Machine :=
  match m.frames with
  | [] => m
  | frame :: rest =>
    let (m, frames) := m.move frame
    { m with frames := frames ++ rest }

theorem moved_of_cons {m : Machine} {frame : Frame} {rest : List Frame}
    (hf : m.frames = frame :: rest) :
    m.moved = { (m.move frame).1 with frames := (m.move frame).2 ++ rest } := by
  simp [moved, hf]

/-- A move is followed by a release if it may have let go of something. -/
theorem next_eq (m : Machine) :
    m.next = if m.frames.head?.any (·.letsGo) then m.moved.release else m.moved := by
  unfold next moved
  split
  · rename_i hf
    simp [hf]
  · rename_i frame rest hf
    simp [hf]

/-! ## One frame at work -/

/-- The effect of a move on one frame: the world after the edits, whom they owe a turn, and the frames
that come of it. -/
structure FrameMoves (m : Machine) (frame : Frame) (owed : List WatcherId) (mid : World) : Prop where
  changes : m.world.Changes frame.licence owed mid
  wires : mid.Wires (m.move frame).1.world
  session : (m.move frame).1.session.Sound
  frames : ∀ f ∈ (m.move frame).2, f.Sound (m.move frame).1.world
  pays : ∀ id ∈ owed, ∃ owed', .turns owed' ∈ (m.move frame).2 ∧ id ∈ owed'

theorem frameMoves_steps {m : Machine} (sound : m.session.Sound) {context : Context}
    (known : context.Known m.world) (tag : Option String) (step : Step) (remaining : List Step) :
    ∃ owed mid, m.FrameMoves (.steps context tag (step :: remaining)) owed mid := by
  obtain ⟨sound', owed, mid, changes, wires, work, pays⟩ := m.session.perform_effect sound known step
  refine ⟨owed, mid, changes, wires, sound', ?_, ?_⟩
  · intro f hf
    rcases List.mem_append.mp hf with hf | hf
    · exact Frame.sound_ofWork work f hf
    · rcases List.mem_cons.mp hf with rfl | hf
      · trivial
      · rw [List.mem_singleton.mp hf]
        exact known.mono (wires.extend.trans changes.extend)
  · intro id hid
    obtain ⟨owed', hm, hid⟩ := Frame.mem_ofWork_of_owed (pays hid)
    exact ⟨owed', List.mem_append_left _ hm, hid⟩

theorem turn_of_none {s : Session} {id : WatcherId} (none : s.world.watcher? id = none) :
    turn s id = (s, []) := by
  simp [turn, none]

/-- A turn shows the value of the watcher's path on a node, or calls a script with it. -/
theorem turn_of_some {s : Session} {id : WatcherId} {watcher : Watcher}
    (there : s.world.watcher? id = some watcher) :
    turn s id = match watcher.reaction with
      | .render directive n =>
        ({ s with world := s.world.render directive n (s.world.valueOf watcher) }, [])
      | .script script => (s, [.call script ⟨some (s.world.valueOf watcher), none⟩]) := by
  cases hr : watcher.reaction <;> simp [turn, there, hr, World.watched_eq]

theorem frameMoves_turns {m : Machine} (sound : m.session.Sound) {id : WatcherId}
    {owed : List WatcherId} (among : ∀ x ∈ id :: owed, x.Among m.world.watchers.size) :
    m.FrameMoves (.turns (id :: owed)) [] m.world := by
  have left (w : World) (size : w.watchers = m.world.watchers) :
      (Frame.turns owed).Sound w := by
    intro x hx
    rw [size]
    exact among x (List.mem_cons_of_mem _ hx)
  rcases hw : m.world.watcher? id with _ | watcher
  · have e : m.move (.turns (id :: owed)) = (m, [.turns owed]) := by
      have := turn_of_none hw
      simp [move, this]
    refine ⟨.refl _, ?_, ?_, ?_, by simp⟩
    · rw [e]
      exact .refl
    · rw [e]
      exact sound
    · rw [e]
      simpa using left m.world rfl
  · have e := turn_of_some hw
    rcases hr : watcher.reaction with ⟨directive, n⟩ | script
    · simp only [hr] at e
      have wires : m.world.Wires (m.world.render directive n
          (m.world.valueOf watcher)) := World.Wires.refl.page _
      refine ⟨.refl _, ?_, ?_, ?_, by simp⟩
      · simp only [move, e]
        exact wires
      · simp only [move, e]
        exact sound.onWorld (wires.sound sound.world) wires.extend
      · simp only [move, e, List.nil_append, List.mem_singleton, forall_eq]
        exact left _ rfl
    · simp only [hr] at e
      refine ⟨.refl _, ?_, ?_, ?_, by simp⟩
      · simp only [move, e]
        exact .refl
      · simp only [move, e]
        exact sound
      · simp only [move, e, List.cons_append, List.nil_append, List.mem_cons, List.not_mem_nil,
          or_false, forall_eq_or_imp, forall_eq]
        refine ⟨?_, left m.world rfl⟩
        intro v hv
        cases hv
        exact World.knows_readPath sound.world.closed _ _

theorem changes_payload (licence : Licence) (w : World) (event : PageEvent) :
    w.Changes licence [] (payload w event).1 ∧ (payload w event).1.heap.Knows (payload w event).2 := by
  refine ⟨⟨w.heap.edited_newMap ?_, rfl, rfl⟩, w.heap.knows_newMap _⟩
  simp only [List.mem_cons, List.not_mem_nil, or_false, forall_eq_or_imp, forall_eq]
  refine ⟨trivial, ?_⟩
  cases event.value <;> trivial

/-- A write back leaves the turns that it owes, and below them what it wrote to is kept. -/
theorem hear_writeBack_of_ok {s : Session} {event : PageEvent} {text : String} {link : Link}
    {path : KeyPath} {world : World} {owed : List WatcherId} (hv : event.value = some text)
    (ok : (s.world.follow link).1.assign (s.world.follow link).2.table path (.text text) =
      (world, .ok owed)) :
    ∃ held, hear s event (.writeBack link path) =
      ({ s with world }, [.turns owed, .keep held]) := by
  simp [hear, hv, ok]

theorem hear_writeBack_of_error {s : Session} {event : PageEvent} {text : String} {link : Link}
    {path : KeyPath} {world : World} {e : PathError} (hv : event.value = some text)
    (error : (s.world.follow link).1.assign (s.world.follow link).2.table path (.text text) =
      (world, .error e)) :
    hear s event (.writeBack link path) = ({ s with world }, []) := by
  simp [hear, hv, error]

theorem frameMoves_hearing {m : Machine} (sound : m.session.Sound) (event : PageEvent)
    (response : Response) (responses : List Response) :
    ∃ owed mid, m.FrameMoves (.hearing event (response :: responses)) owed mid := by
  cases response with
  | script script =>
    obtain ⟨changes, known⟩ := changes_payload .none m.world event
    refine ⟨[], _, changes, .refl, sound.onWorld (changes.sound sound.world) changes.extend, ?_,
      by simp⟩
    simp only [move, hear, List.cons_append, List.nil_append, List.mem_cons, List.not_mem_nil,
      or_false, forall_eq_or_imp, forall_eq]
    refine ⟨fun v hv => ?_, trivial⟩
    cases hv
    exact known
  | method link script =>
    obtain ⟨changes, known⟩ := changes_payload .none m.world event
    have follows := World.changes_follow .none (payload m.world event).1 link
    have both := changes.trans follows
    refine ⟨[], _, both, .refl, sound.onWorld (both.sound sound.world) both.extend, ?_, by simp⟩
    simp only [move, hear, List.cons_append, List.nil_append, List.mem_cons, List.not_mem_nil,
      or_false, forall_eq_or_imp, forall_eq]
    refine ⟨fun v hv => ?_, trivial⟩
    cases hv
    exact follows.extend.heap.knows known
  | writeBack link path =>
    rcases hv : event.value with _ | text
    · have e : m.move (.hearing event (.writeBack link path :: responses)) =
          (m, [.hearing event responses]) := by
        simp [move, hear, hv]
      refine ⟨[], m.world, .refl _, ?_, ?_, ?_, by simp⟩
      · rw [e]
        exact .refl
      · rw [e]
        exact sound
      · rw [e]
        simp [Frame.Sound]
    · have follows := World.changes_follow .placing m.world link
      have assigned : (m.world.follow link).1.Changes .placing _ _ :=
        World.changes_assign (follows.sound sound.world) (m.world.follow link).2.table path
          (v := .text text) trivial trivial
      have both := follows.trans assigned
      have sound' := sound.onWorld (both.sound sound.world) both.extend
      rcases hr : (m.world.follow link).1.assign (m.world.follow link).2.table path (.text text)
        with ⟨world, cause | owed⟩
      · have e := hear_writeBack_of_error hv hr
        simp only [hr] at both sound'
        refine ⟨[], world, both, ?_, ?_, ?_, by simp⟩
        · simp only [move, e]
          exact .refl
        · simp only [move, e]
          exact sound'
        · simp only [move, e]
          simp [Frame.Sound]
      · obtain ⟨held, e⟩ := hear_writeBack_of_ok hv hr
        simp only [hr] at both sound'
        refine ⟨owed, world, both, ?_, ?_, ?_, ?_⟩
        · simp only [move, e]
          exact .refl
        · simp only [move, e]
          exact sound'
        · simp only [move, e, List.cons_append, List.nil_append, List.mem_cons, List.not_mem_nil,
            or_false, forall_eq_or_imp, forall_eq]
          refine ⟨?_, trivial, trivial⟩
          intro id hid
          exact (both.heap.owed_among sound.world.enrolled id hid).mono both.extend.watchers
        · simp only [move, e]
          exact fun id hid => ⟨owed, by simp, hid⟩

theorem frameMoves_call {m : Machine} (sound : m.session.Sound) (script : ScriptId)
    {context : Context} (known : context.Known m.world) :
    m.FrameMoves (.call script context) [] m.world := by
  have same : ((callScript m.session script context).1.world = m.world ∧
      (callScript m.session script context).1.Sound) ∧
      ∀ f ∈ (callScript m.session script context).2, f.Sound m.world := by
    unfold callScript
    split
    · exact ⟨⟨rfl, sound⟩, by simp⟩
    · dsimp only
      split
      · exact ⟨⟨rfl, sound.world, sound.values, sound.views, sound.watchers⟩, by simp⟩
      · refine ⟨⟨rfl, sound.world, sound.values, sound.views, sound.watchers⟩, ?_⟩
        simpa [Frame.Sound] using known
  have world : (m.move (.call script context)).1.world = m.world := same.1.1
  refine ⟨.refl _, ?_, same.1.2, ?_, by simp⟩
  · rw [world]
    exact .refl
  · rw [world]
    exact same.2

/-- Every frame at work makes licensed edits, then wires, and pays what its edits owe. -/
theorem frameMoves {m : Machine} (sound : m.session.Sound) {frame : Frame}
    (hf : frame.Sound m.world) : ∃ owed mid, m.FrameMoves frame owed mid := by
  cases frame with
  | steps context tag remaining =>
    cases remaining with
    | nil => exact ⟨[], m.world, .refl _, .refl, sound, by simp [move], by simp⟩
    | cons step remaining => exact frameMoves_steps sound hf tag step remaining
  | turns owed =>
    cases owed with
    | nil => exact ⟨[], m.world, .refl _, .refl, sound, by simp [move], by simp⟩
    | cons id owed => exact ⟨[], m.world, frameMoves_turns sound hf⟩
  | hearing event responses =>
    cases responses with
    | nil => exact ⟨[], m.world, .refl _, .refl, sound, by simp [move], by simp⟩
    | cons response responses => exact frameMoves_hearing sound event response responses
  | call script context => exact ⟨[], m.world, frameMoves_call sound script hf⟩
  | keep _ => exact ⟨[], m.world, .refl _, .refl, sound, by simp [move], by simp⟩
  | reply tag reply held =>
    cases tag with
    | none =>
      exact ⟨[], m.world, .refl _, .refl, sound, by simp [move, Frame.Sound], by simp⟩
    | some tag =>
      exact ⟨[], m.world, .refl _, .refl,
        ⟨sound.world, sound.values, sound.views, sound.watchers⟩, by simp [move], by simp⟩
  | record reply =>
    exact ⟨[], m.world, .refl _, .refl,
      ⟨sound.world, sound.values, sound.views, sound.watchers⟩, by simp [move], by simp⟩

/-! ## Moves -/

/-- The effect of the next move, before anything is released. -/
structure Moves (m : Machine) (owed : List WatcherId) (mid : World) : Prop where
  changes : m.world.Changes m.licence owed mid
  wires : mid.Wires m.moved.world
  sound : m.moved.Sound
  pays : ∀ id ∈ owed, m.moved.Owes id

theorem moves {m : Machine} (sound : m.Sound) : ∃ owed mid, m.Moves owed mid := by
  rcases hf : m.frames with _ | ⟨frame, rest⟩
  · have e : m.moved = m := by simp [moved, hf]
    refine ⟨[], m.world, .refl _, ?_, ?_, by simp⟩
    · rw [e]
      exact .refl
    · rw [e]
      exact sound
  · obtain ⟨owed, mid, fm⟩ := frameMoves sound.session
      (sound.frames frame (hf ▸ List.mem_cons_self ..))
    have e := moved_of_cons hf
    have lic : m.licence = frame.licence := by simp [licence, hf]
    have world : m.moved.world = (m.move frame).1.world := by rw [e]; rfl
    refine ⟨owed, mid, lic ▸ fm.changes, world ▸ fm.wires, ⟨?_, ?_⟩, ?_⟩
    · rw [e]
      exact fm.session
    · rw [world]
      intro f hm
      rw [e] at hm
      rcases List.mem_append.mp hm with hm | hm
      · exact fm.frames f hm
      · exact (sound.frames f (hf ▸ List.mem_cons_of_mem _ hm)).mono
          (fm.wires.extend.trans fm.changes.extend)
    · intro id hid
      obtain ⟨owed', hm, hid⟩ := fm.pays id hid
      exact ⟨owed', by rw [e]; exact List.mem_append_left _ hm, hid⟩

/-! ## Release -/

theorem release_effect (m : Machine) :
    m.release.frames = m.frames ∧ m.release.world.watchers = m.world.watchers ∧
      m.release.world.tables = m.world.tables ∧ m.release.world.collector = m.world.collector ∧
      Heap.ReleasedFrom m.world.heap m.release.world.heap :=
  ⟨rfl, rfl, rfl, rfl, Heap.releasedFrom_release _ _⟩

/-- What comes after the move: at most a release. -/
theorem next_effect (m : Machine) :
    m.next.frames = m.moved.frames ∧ m.next.world.watchers = m.moved.world.watchers ∧
      m.next.world.tables = m.moved.world.tables ∧
      m.next.world.collector = m.moved.world.collector ∧
      Heap.ReleasedFrom m.moved.world.heap m.next.world.heap := by
  rw [next_eq]
  split
  · exact release_effect m.moved
  · exact ⟨rfl, rfl, rfl, rfl, .refl _⟩

theorem sound_release {m : Machine} (sound : m.Sound) : m.release.Sound := by
  have released : Heap.ReleasedFrom m.world.heap m.release.world.heap :=
    Heap.releasedFrom_release _ _
  have ext : m.release.world.Extends m.world := ⟨released.extends, Nat.le_refl _⟩
  have world : m.release.world.Sound :=
    ⟨released.closed sound.session.world.closed,
      released.keepsRegistries.enrolled sound.session.world.enrolled, sound.session.world.collector⟩
  exact ⟨sound.session.onWorld world ext, fun f hf => (sound.frames f hf).mono ext⟩

/-- Every move leaves a sound machine. -/
theorem sound_next {m : Machine} (sound : m.Sound) : m.next.Sound := by
  obtain ⟨_, _, moves⟩ := moves sound
  rw [next_eq]
  split
  · exact sound_release moves.sound
  · exact moves.sound

theorem sound_start (steps : List Step) (shows : List Show) : (start steps shows).Sound := by
  refine ⟨⟨⟨⟨?_, ?_⟩, ?_, rfl⟩, ?_, ?_, ?_⟩, ?_⟩
  · intro m c hc
    simp [start, Session.empty, World.empty, Heap.empty, Heap.map?] at hc
  · intro l c hc
    simp [start, Session.empty, World.empty, Heap.empty, Heap.list?] at hc
  · intro r ws hws
    cases r <;> simp [start, Session.empty, World.empty, Heap.empty, Heap.watchers?, Heap.lookup?,
      Heap.map?, Heap.list?] at hws
  · simp [start, Session.empty]
  · simp [start, Session.empty]
  · simp [start, Session.empty]
  · intro frame hf
    rw [List.mem_singleton.mp hf]
    intro v hv
    cases hv

/-! ## Whom a move pays -/

/-- A watcher that is owed a turn is still owed it after a move, unless its turn begins. -/
theorem owes_moved {m : Machine} {id : WatcherId} (owes : m.Owes id) :
    m.moved.Owes id ∨ ∃ owed rest, m.frames = .turns (id :: owed) :: rest := by
  obtain ⟨ids, hm, hid⟩ := owes
  rcases hf : m.frames with _ | ⟨frame, rest⟩
  · rw [hf] at hm
    cases hm
  · have e := moved_of_cons hf
    rw [hf] at hm
    rcases List.mem_cons.mp hm with rfl | hm
    · rcases ids with _ | ⟨first, others⟩
      · cases hid
      · rcases List.mem_cons.mp hid with rfl | hid
        · exact .inr ⟨others, rest, rfl⟩
        · refine .inl ⟨others, ?_, hid⟩
          rw [e]
          exact List.mem_append_left _ (by simp [move])
    · exact .inl ⟨ids, by rw [e]; exact List.mem_append_right _ hm, hid⟩

theorem owes_next_iff (m : Machine) (id : WatcherId) : m.next.Owes id ↔ m.moved.Owes id := by
  unfold Owes
  rw [m.next_effect.1]

end Machine

end DataBinding
