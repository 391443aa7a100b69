-- The machine that runs a session. Its stack of frames holds what is still to be done: the steps of a
-- script, the turns that watchers are owed, the listeners that still have to hear an event. One move
-- works on the topmost frame only, so all that a turn leads to is over before the next turn begins.
-- After a move that may let go of something, all that neither a handle nor a frame holds is released.
import DataBinding.Session.Perform

namespace DataBinding

/-! ## Frames -/

/-- What is still to be done. Steps without a tag are those of the user; `keep` holds what an
operation works on until the frames above it are gone. -/
inductive Frame where
  | steps (context : Context) (tag : Option String) (remaining : List Step)
  | turns (owed : List WatcherId)
  | hearing (event : PageEvent) (responses : List Response)
  | call (script : ScriptId) (context : Context)
  | keep (held : Held)
  | reply (tag : Option String) (reply : Reply Value) (held : Held)
  | record (reply : Reply Snapshot)

namespace Frame

def held : Frame → Held
  | .steps context _ _ => context.held
  | .call _ context => context.held
  | .keep kept => kept
  | .reply _ written kept => written.held.and kept
  | _ => .nothing

/-- Whether work on a frame may let go of something: a step and a listener change the state, and what
a frame holds goes away with it. -/
def letsGo : Frame → Bool
  | .steps _ _ (_ :: _) => true
  | .hearing _ (_ :: _) => true
  | frame => !frame.held.isNothing

/-- The frame of the work that a step leaves. -/
def ofWork : Work → List Frame
  | .nothing => []
  | .turns owed => [.turns owed]
  | .hearing event responses => [.hearing event responses]
  | .call script context => [.call script context]

end Frame

structure Machine where
  session : Session
  shows : List Show
  frames : List Frame
  answers : Array Answer

namespace Machine

def start (steps : List Step) (shows : List Show) : Machine :=
  ⟨.empty, shows, [.steps .outside none steps], #[]⟩

/-- Releases all that neither a handle nor a frame holds. -/
def release (m : Machine) : Machine :=
  let held := .concat (m.session.held :: m.frames.map Frame.held)
  { m with session := { m.session with world := m.session.world.release held } }

/-! ## What is written down -/

/-- What is shown of the state. -/
def shown (s : Session) : Show → Shown
  | .value name =>
    match s.value? name with
    | some v => .dump (s.world.heap.snapshot v)
    | none => .nothing
  | .node name =>
    match s.nodes.lookup name with
    | some n => .markup (s.world.page.markupOf n)
    | none => .nothing
  | .properties name =>
    match s.viewModel? name with
    | some vm => .properties ((s.world.propertyNames vm.table).map fun property =>
        (property, s.world.heap.snapshot (s.world.readProperty vm.table property).value))
    | none => .nothing

/-- Adds the answer of a step of the user and empties the log. -/
def answer (m : Machine) (reply : Reply Snapshot) : Machine :=
  let shown := m.shows.map (shown m.session)
  { m with
    session := { m.session with log := [] }
    answers := m.answers.push { reply, log := m.session.log, shown } }

/-! ## Moves -/

/-- Calls a script: the call is logged, and its steps are run unless they ran often enough. -/
def callScript (s : Session) (id : ScriptId) (context : Context) : Session × List Frame :=
  match s.scripts[id.index]? with
  | none => (s, [])
  | some script =>
    let argument := s.world.heap.snapshot (context.argument.getD .null)
    let s := s.note (.called script.caller script.tag argument)
    if script.limit.any (· ≤ script.runs) then (s, [])
    else
      let counted := { script with runs := script.runs + 1 }
      ({ s with scripts := s.scripts.setIfInBounds id.index counted },
        [.steps context (some script.tag) script.steps])

/-- The turn of one watcher: its path is evaluated and its reaction is given the value. -/
def turn (s : Session) (id : WatcherId) : Session × List Frame :=
  match s.world.watcher? id with
  | none => (s, [])
  | some watcher =>
    let (world, v) := s.world.watched watcher
    match watcher.reaction with
    | .render directive n => ({ s with world := world.render directive n v }, [])
    | .script script => ({ s with world }, [.call script ⟨some v, none⟩])

/-- The payload of an event: a map of its type and its value. -/
def payload (w : World) (event : PageEvent) : World × Value :=
  let value := match event.value with
    | some s => Value.text s
    | none => .null
  let (heap, m) := w.heap.newMap [("type", .text event.name), ("value", value)]
  ({ w with heap }, .map m)

/-- One listener hears an event. A write back that leads nowhere is passed over. -/
def hear (s : Session) (event : PageEvent) : Response → Session × List Frame
  | .script script =>
    let (world, v) := payload s.world event
    ({ s with world }, [.call script ⟨some v, none⟩])
  | .method link script =>
    let (world, v) := payload s.world event
    let (world, vm) := world.follow link
    ({ s with world }, [.call script ⟨some v, some vm⟩])
  | .writeBack link path =>
    match event.value with
    | none => (s, [])
    | some text =>
      let (world, vm) := s.world.follow link
      let target := world.assignTarget? vm.table path
      match world.assign vm.table path (.text text) with
      | (world, .ok owed) => ({ s with world }, [.turns owed, .keep ⟨target.toList, [vm]⟩])
      | (world, .error _) => ({ s with world }, [])

/-- Works on one frame; answers the frames that take its place. -/
def move (m : Machine) : Frame → Machine × List Frame
  | .steps _ _ [] => (m, [])
  | .steps context tag (step :: remaining) =>
    let (session, outcome) := m.session.perform context step
    ({ m with session }, Frame.ofWork outcome.work ++
      [.reply tag outcome.reply outcome.held, .steps context tag remaining])
  | .turns [] => (m, [])
  | .turns (id :: owed) =>
    let (session, frames) := turn m.session id
    ({ m with session }, frames ++ [.turns owed])
  | .hearing _ [] => (m, [])
  | .hearing event (response :: responses) =>
    let (session, frames) := hear m.session event response
    ({ m with session }, frames ++ [.hearing event responses])
  | .call script context =>
    let (session, frames) := callScript m.session script context
    ({ m with session }, frames)
  | .keep _ => (m, [])
  | .reply tag reply _ =>
    let written := reply.map m.session.world.heap.snapshot
    match tag with
    | none => (m, [.record written])
    | some tag => ({ m with session := m.session.note (.replied tag written) }, [])
  | .record reply => (m.answer reply, [])

/-- One move of the machine; a machine without frames is done and stays as it is. -/
def next (m : Machine) : Machine :=
  match m.frames with
  | [] => m
  | frame :: rest =>
    let (m, frames) := m.move frame
    let m := { m with frames := frames ++ rest }
    if frame.letsGo then m.release else m

/-- Moves until nothing is left to be done; none if that takes more moves than given. -/
def run? : Nat → Machine → Option Machine
  | 0, m => if m.frames.isEmpty then some m else none
  | moves + 1, m => if m.frames.isEmpty then some m else run? moves m.next

end Machine

/-- The answers to all steps of a session, if they come within the given number of moves. -/
def answers? (moves : Nat) (steps : List Step) (shows : List Show) : Option (List Answer) :=
  ((Machine.start steps shows).run? moves).map (·.answers.toList)

end DataBinding
