-- Outcomes of steps. A step changes the state at once and may leave work behind: turns that watchers
-- are owed, responses of listeners, or the call of a method. Its reply is written down when that
-- work is over; until then the outcome holds what the step was working on.
import DataBinding.Session.State

namespace DataBinding

/-- What a step leaves to be done. -/
inductive Work where
  | nothing
  | turns (owed : List WatcherId)
  | hearing (event : PageEvent) (responses : List Response)
  | call (script : ScriptId) (context : Context)

structure Outcome where
  reply : Reply Value
  work : Work
  held : Held

namespace Outcome

/-- A reply and nothing left to do. -/
def ofReply (reply : Reply Value) : Outcome := ⟨reply, .nothing, .nothing⟩

def nothing : Outcome := ofReply .nothing

/-- A reply after the turns that are owed. -/
def owing (reply : Reply Value) (owed : List WatcherId) (held : Held) : Outcome :=
  ⟨reply, .turns owed, held⟩

end Outcome

/-- The values of all replies that are held while the work of a step goes on. -/
def Reply.held : Reply Value → Held
  | .value v => .value v
  | .values vs => ⟨vs, []⟩
  | .dump v => .value v
  | .observed _ v => .value v
  | _ => .nothing

end DataBinding
