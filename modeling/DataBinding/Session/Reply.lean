-- Replies: what a step answers. While the effects of a step still go on, its reply names values by
-- their handles; it is written down as snapshots when they are over.
import DataBinding.Session.Step

namespace DataBinding

/-- Why a step has no result. -/
inductive Fault where
  | path (cause : PathError)
  | compile (cause : CompileError)
  | view (cause : ViewError)
  | misuse (message : String)
deriving DecidableEq, Repr

inductive NodeKind where
  | element
  | text
  | other

structure NodeReport where
  kind : NodeKind
  tag : Option String
  parent : Option NodeId
  children : List NodeId
  attributes : List (String × String)
  innerMarkup : Option String
  text : String

/-- A binding with the text of its path. -/
structure BindingReport where
  node : NodeId
  kind : BindingKind
  path : Option String
  watcher : Option WatcherId

structure ViewReport where
  root : Option NodeId
  properties : List String
  wiring : List BindingReport
  described : Option String

/-- The reply to a step; `α` is how it shows a value. -/
inductive Reply (α : Type) where
  | nothing
  | done
  | flag (b : Bool)
  | count (n : Nat)
  | text (s : String)
  | optionalText (s : Option String)
  | names (names : List String)
  | value (a : α)
  | absent
  | values (as : List α)
  | dump (a : α)
  | observed (same : Bool) (a : α)
  | mapInfo (keys : List String) (observed : Bool)
  | keyInfo (contains : Bool) (watchers : Option (List WatcherId))
  | listInfo (length : Nat) (observed : Bool) (watchers : List WatcherId)
  | registryInfo (watchers : List WatcherId) (contains : Option Bool)
  | watcher (w : WatcherId)
  | collecting (now inside : Bool) (collector : Option WatcherId)
  | node (n : Option NodeId)
  | nodes (ns : List NodeId)
  | nodeInfo (report : NodeReport)
  | wiring (bindings : List BindingReport)
  | view (report : ViewReport)
  | fault (f : Fault)

namespace Reply

def map {α β : Type} (f : α → β) : Reply α → Reply β
  | .nothing => .nothing
  | .done => .done
  | .flag b => .flag b
  | .count n => .count n
  | .text s => .text s
  | .optionalText s => .optionalText s
  | .names ns => .names ns
  | .value a => .value (f a)
  | .absent => .absent
  | .values as => .values (as.map f)
  | .dump a => .dump (f a)
  | .observed b a => .observed b (f a)
  | .mapInfo keys b => .mapInfo keys b
  | .keyInfo b ws => .keyInfo b ws
  | .listInfo length b ws => .listInfo length b ws
  | .registryInfo ws b => .registryInfo ws b
  | .watcher w => .watcher w
  | .collecting a b w => .collecting a b w
  | .node n => .node n
  | .nodes ns => .nodes ns
  | .nodeInfo report => .nodeInfo report
  | .wiring bindings => .wiring bindings
  | .view report => .view report
  | .fault f => .fault f

/-- A value, or a mark that there is none. -/
def ofOption {α : Type} : Option α → Reply α
  | some a => .value a
  | none => .absent

end Reply

/-- Who runs a script. -/
inductive Caller where
  | watcher
  | method
  | listener
deriving DecidableEq, Repr

/-- A line of the log: a call with its argument, or the reply to a step of a script. -/
inductive LogEntry where
  | called (caller : Caller) (tag : String) (argument : Snapshot)
  | replied (tag : String) (reply : Reply Snapshot)

/-- What is shown of the state after a step. -/
inductive Shown where
  | nothing
  | dump (s : Snapshot)
  | markup (s : String)
  | properties (entries : List (String × Snapshot))

/-- The answer to a step: its reply, what was logged on the way, and the state after it. -/
structure Answer where
  reply : Reply Snapshot
  log : List LogEntry
  shown : List Shown

end DataBinding
