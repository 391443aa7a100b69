-- What moves do to the page. Watchers show their values on nodes of the page, in every state. A move that
-- neither is a step on the page nor binds it changes no node but for a turn, which shows one value; and
-- a page is never bound by a watcher that a user made.
import DataBinding.Proofs.Session.Deeds.Moves
import DataBinding.Proofs.Template.Showing

namespace DataBinding

/-! ## Deeds -/

namespace Deed

variable {paints binds : Prop} {w : World} {d : Deed}

/-- A watcher that a user makes shows nothing, so only compiling makes watchers that show values. -/
theorem mem_watchers_apply (allowed : d.Within paints binds w) (quiet : ¬binds) {watcher : Watcher}
    {directive : Directive} {n : NodeId} (reaction : watcher.reaction = .render directive n)
    (mem : watcher ∈ (d.apply w).watchers) : watcher ∈ w.watchers := by
  cases d with
  | watch link path script =>
    rcases Array.mem_push.mp mem with mem | rfl
    · exact mem
    · cases reaction
  | depend crossed =>
    simp only [apply, World.depend] at mem
    split at mem
    · exact mem
    · exact mem
  | compile _ _ _ => exact absurd allowed quiet
  | edit _ | tables _ _ | listen _ _ _ | page _ => exact mem

theorem renders_apply (allowed : d.Within paints binds w) (quiet : ¬binds) {n : NodeId}
    (renders : (d.apply w).Renders n) : w.Renders n := by
  obtain ⟨watcher, mem, directive, reaction⟩ := renders
  exact ⟨watcher, mem_watchers_apply allowed quiet reaction mem, directive, reaction⟩

theorem page_depend (w : World) (crossed : List Registry) : (w.depend crossed).page = w.page := by
  unfold World.depend
  split <;> rfl

/-- Nodes are never removed. -/
theorem housed_apply (allowed : d.Within paints binds w) (housed : w.Housed) :
    (d.apply w).Housed := by
  cases d with
  | compile marks vm root => exact housed.compile marks vm root
  | page p =>
    intro n renders
    exact Nat.lt_of_lt_of_le (housed n renders) allowed.2.size
  | depend crossed =>
    intro n renders
    rw [apply, page_depend]
    exact housed n (@renders_apply True False w (.depend crossed) trivial not_false n renders)
  | watch link path script =>
    intro n renders
    exact housed n (@renders_apply True False w (.watch link path script) trivial not_false n renders)
  | edit _ | tables _ _ | listen _ _ _ => exact housed

/-- Listeners are never removed. -/
theorem listeners_apply (allowed : d.Within paints binds w)
    {l : Listener Response} (there : l ∈ w.page.listeners) : l ∈ (d.apply w).page.listeners := by
  cases d with
  | page p =>
    rw [apply, allowed.2.listeners]
    exact there
  | listen n event response => exact List.mem_append_left _ there
  | depend crossed =>
    rw [apply, page_depend]
    exact there
  | compile marks vm root => exact World.mem_listeners_compile there marks vm root
  | edit _ | watch _ _ _ | tables _ _ => exact there

theorem page_apply (allowed : d.Within paints binds w) (still : ¬paints) (quiet : ¬binds) :
    (d.apply w).page = w.page := by
  cases d with
  | page p => exact absurd allowed.1 still
  | listen _ _ _ => exact absurd allowed still
  | compile _ _ _ => exact absurd allowed quiet
  | depend crossed => rw [apply, page_depend]
  | edit _ | watch _ _ _ | tables _ _ => rfl

end Deed

/-! ## Moves -/

namespace Machine

theorem page_next (m : Machine) : m.next.world.page = m.moved.world.page := by
  rw [next_eq]
  split <;> rfl

theorem renders_next_iff (m : Machine) (n : NodeId) :
    m.next.world.Renders n ↔ m.moved.world.Renders n := by
  unfold World.Renders
  rw [m.next_effect.2.1]

theorem mem_watchers_next {m : Machine} (quiet : ¬m.Binds) {watcher : Watcher}
    {directive : Directive} {n : NodeId} (reaction : watcher.reaction = .render directive n)
    (mem : watcher ∈ m.next.world.watchers) : watcher ∈ m.world.watchers := by
  rw [m.next_effect.2.1] at mem
  exact m.does.keeps (P := fun w => watcher ∈ w.watchers → watcher ∈ m.world.watchers)
    (fun _ _ may before mem => before (Deed.mem_watchers_apply may.within quiet reaction mem))
    (fun mem => mem) mem

theorem renders_next {m : Machine} (quiet : ¬m.Binds) {n : NodeId}
    (renders : m.next.world.Renders n) : m.world.Renders n := by
  obtain ⟨watcher, mem, directive, reaction⟩ := renders
  exact ⟨watcher, mem_watchers_next quiet reaction mem, directive, reaction⟩

theorem housed_next {m : Machine} (housed : m.world.Housed) : m.next.world.Housed := by
  intro n renders
  rw [page_next]
  exact m.does.keeps (P := World.Housed) (fun _ _ may before => Deed.housed_apply may.within before)
    housed n ((m.renders_next_iff n).mp renders)

theorem housed_start (steps : List Step) (shows : List Show) : (start steps shows).world.Housed := by
  rintro n ⟨watcher, mem, _⟩
  cases mem with
  | mk mem => cases mem

theorem Run.housed {may : Machine → Prop} {m₀ m : Machine} {events : List Event}
    (run : Run may m₀ events m) (housed : m₀.world.Housed) : m.world.Housed := by
  induction run with
  | start => exact housed
  | move _ _ ih => exact housed_next ih

theorem listeners_next {m : Machine} {l : Listener Response}
    (there : l ∈ m.world.page.listeners) : l ∈ m.next.world.page.listeners := by
  rw [page_next]
  exact m.does.keeps (P := fun w => l ∈ w.page.listeners)
    (fun _ _ may before => Deed.listeners_apply may.within before) there

theorem page_next_of_still {m : Machine} (still : ¬m.Paints) (quiet : ¬m.Binds) :
    m.next.world.page = m.world.page := by
  rw [page_next]
  exact m.does.keeps (P := fun w => w.page = m.world.page)
    (fun _ _ may before => (Deed.page_apply may.within still quiet).trans before) rfl

/-! ## What a move paints -/

/-- The next move is a step on the page, and no input. -/
def Arranges (m : Machine) : Prop :=
  match m.frames with
  | .steps _ _ (.page (.input _ _) :: _) :: _ => False
  | .steps _ _ (.page _ :: _) :: _ => True
  | _ => False

/-- What the next move paints: nothing that is not `kept`, the value of a watcher, or the text of an input
field, which then is heard by the listeners of the field. -/
inductive Paint (m : Machine) (kept : Prop) : Prop where
  | nothing (kept : kept)
  | turn {other : WatcherId} {owed : List WatcherId} {rest : List Frame} {watcher : Watcher}
      {directive : Directive} {n : NodeId} (top : m.frames = .turns (other :: owed) :: rest)
      (there : m.world.watcher? other = some watcher)
      (reaction : watcher.reaction = .render directive n)
      (page : m.next.world.page =
        m.world.page.showing directive n (m.world.heap.render (m.world.valueOf watcher)))
  | input {context : Context} {tag : Option String} {handle text : String} {remaining : List Step}
      {rest : List Frame} {n : NodeId}
      (top : m.frames = .steps context tag (.page (.input handle text) :: remaining) :: rest)
      (there : m.session.nodes.lookup handle = some n)
      (page : m.next.world.page = m.world.page.showing .model n text)
      (hearing : .hearing ⟨Compile.inputEvent, some text⟩
        (m.world.page.responses n Compile.inputEvent) ∈ m.next.frames)

theorem Paint.still {m : Machine} (world : m.moved.world = m.world) :
    m.Paint (m.next.world.page = m.world.page) := .nothing (by rw [page_next, world])

theorem Paint.mono {m : Machine} {kept kept' : Prop} (paint : m.Paint kept) (weaker : kept → kept') :
    m.Paint kept' := by
  cases paint with
  | nothing kept => exact .nothing (weaker kept)
  | turn top there reaction page => exact .turn top there reaction page
  | input top there page hearing => exact .input top there page hearing

/-- An input sets the value of the field before the listeners hear of it. -/
theorem perform_input {s : Session} {handle : String} {n : NodeId}
    (there : s.nodes.lookup handle = some n) (context : Context) (text : String) :
    s.perform context (.page (.input handle text)) =
      ({ s with world := { s.world with page := s.world.page.showing .model n text } },
        ⟨.count (s.world.page.responses n Compile.inputEvent).length,
          .hearing ⟨Compile.inputEvent, some text⟩
            (s.world.page.responses n Compile.inputEvent), .nothing⟩) := by
  have on : (Act.node handle).on context s = (.ok n, s) := by
    show (Act.found "node" handle (s.nodes.lookup handle)).on context s = _
    rw [there]
    rfl
  refine Session.perform_of_ok ?_
  show (PageOp.input handle text).perform.on context s = _
  unfold PageOp.perform
  rw [Act.on_bind, on]
  rfl

theorem perform_input_of_none {s : Session} {handle : String} (none : s.nodes.lookup handle = none)
    (context : Context) (text : String) :
    (s.perform context (.page (.input handle text))).1 = s := by
  have on : (Act.node handle).on context s =
      (.error (.misuse ("no node named " ++ handle)), s) := by
    show (Act.found "node" handle (s.nodes.lookup handle)).on context s = _
    rw [none]
    rfl
  rw [Session.perform_fst]
  show ((PageOp.input handle text).perform.on context s).2 = _
  unfold PageOp.perform
  rw [Act.on_bind, on]

theorem paint_input {m : Machine} {context : Context} {tag : Option String} {handle text : String}
    {remaining : List Step} {rest : List Frame}
    (top : m.frames = .steps context tag (.page (.input handle text) :: remaining) :: rest) :
    m.Paint (m.next.world.page = m.world.page) := by
  have world : m.moved.world =
      (m.session.perform context (.page (.input handle text))).1.world := by
    rw [moved_of_cons top]
    rfl
  rcases there : m.session.nodes.lookup handle with _ | n
  · rw [perform_input_of_none there] at world
    exact .still world
  · have performed := perform_input there context text
    refine .input top there ?_ ?_
    · rw [page_next, world, performed]
      rfl
    · rw [next_frames top]
      simp only [move, performed, Frame.ofWork]
      exact List.mem_cons_self ..

theorem paint_turns {m : Machine} {owed : List WatcherId} {rest : List Frame}
    (top : m.frames = .turns owed :: rest) : m.Paint (m.next.world.page = m.world.page) := by
  rcases owed with _ | ⟨other, owed⟩
  · refine .still ?_
    rw [moved_of_cons top]
    rfl
  rcases there : m.world.watcher? other with _ | watcher
  · refine .still ?_
    rw [moved_of_cons top]
    show (turn m.session other).1.world = _
    rw [turn_of_none there]
    rfl
  obtain ⟨_, watcher', there', _, result⟩ := hands_of_turns top there
  rw [there] at there'
  cases there'
  rcases reaction : watcher.reaction with ⟨directive, n⟩ | script
  · rw [reaction] at result
    refine .turn top there reaction ?_
    rw [result.1, World.render_eq]
  · rw [reaction] at result
    exact .nothing (by rw [result.1])

/-- A new listener changes no node. -/
theorem nodes_perform_listen (s : Session) (context : Context) (node event tag : String)
    (script : List Step) (limit : Option Nat) :
    (s.perform context (.listen node event tag script limit)).1.world.page.nodes =
      s.world.page.nodes := by
  rw [Session.perform_fst]
  show ((Step.listen node event tag script limit).perform.on context s).2.world.page.nodes = _
  unfold Step.perform
  rw [Act.on_bind]
  have on : (Act.node node).on context s =
    (Act.found "node" node (s.nodes.lookup node)).on context s := rfl
  rw [on]
  rcases s.nodes.lookup node with _ | n <;> rfl

/-- If the move binds nothing, and a step on the page leaves the nodes that are there alone, unless it is an
input, then at most one place is painted. -/
theorem paint {m : Machine} (quiet : ¬m.Binds)
    (alone : m.Arranges → m.world.page.Retains m.next.world.page) :
    m.Paint (m.world.page.Retains m.next.world.page) := by
  have retains (nodes : m.next.world.page.nodes = m.world.page.nodes) :
      m.world.page.Retains m.next.world.page := by
    intro n _
    rw [Page.face?, Page.node?, nodes]
    rfl
  by_cases paints : m.Paints
  · unfold Paints at paints
    split at paints
    · rename_i context tag step remaining rest top
      cases step with
      | page op =>
        by_cases arranges : m.Arranges
        · exact .nothing (alone arranges)
        · cases op with
          | input handle text => exact (paint_input top).mono fun page => retains (by rw [page])
          | _ => exact absurd (by simp [Arranges, top]) arranges
      | listen node event tag script limit =>
        refine .nothing (retains ?_)
        rw [page_next, moved_of_cons top]
        exact nodes_perform_listen m.session context node event tag script limit
      | _ => exact paints.elim
    · exact (paint_turns ‹_›).mono fun page => retains (by rw [page])
    · exact paints.elim
  · exact .nothing (retains (by rw [page_next_of_still paints quiet]))

end Machine

end DataBinding
