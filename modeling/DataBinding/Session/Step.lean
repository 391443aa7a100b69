-- Steps of a session: what a user may ask for, one thing at a time. A script is a list of steps that
-- a watcher, a method or a listener runs when it is called; its terms may use the argument of the
-- call.
import DataBinding.Binding.MountedView

namespace DataBinding

/-! ## Terms -/

/-- One segment on the way into a value: a key of a map or a position of a list. -/
inductive Segment where
  | key (key : String)
  | position (position : Nat)

/-- How a step names a value: a fresh one, one behind a handle, or one that is computed. -/
inductive Term where
  | document (d : Document)
  | array (items : List Term)
  | object (entries : List (String × Term))
  | handle (name : String) (segments : List Segment)
  | argument (segments : List Segment)
  | property (viewModel name : String)
  | evaluation (viewModel expression : String)
  | sum (t : Term) (n : Number)
  | joined (parts : List Term)
  | nestedMaps (levels : Nat) (t : Term)
  | nestedLists (levels : Nat) (t : Term)

/-- How a step names a registry. -/
inductive RegistryTerm where
  | handle (name : String)
  | slot (t : Term) (key : String)
  | list (t : Term)

/-- Where the marks of a template come from: they are given, or read from a marker file. -/
inductive MarksTerm where
  | given (marks : Markers)
  | file (source : String)

/-! ## Operations -/

inductive MapOp where
  | get (key : String)
  | peek (key : String)
  | set (key : String) (v : Term)
  | attach (key : String) (v : Term)
  | define (key : String) (v : Term)
  | info
  | keyInfo (key : String)

/-- The comparators of a sort: by number, by number downwards, by the length of the text, or none,
which leaves every order as it is. -/
inductive Comparator where
  | number
  | numberDown
  | length
  | nothing

inductive ListOp where
  | push (v : Term)
  | unshift (v : Term)
  | pop
  | shift
  | sort
  | sortBy (comparator : Comparator)
  | reverse
  | splice (start count : Nat) (inserted : List Term)
  | get (position : Nat)
  | set (position : Nat) (v : Term)
  | info

inductive ViewModelOp where
  | clone (name : String)
  | same (other : String)
  | mount (name : String) (t : Term)
  | container (name : String)
  | data
  | flatten (name : String)
  | properties
  | has (key : String)
  | get (key : String)
  | set (key : String) (v : Term)
  | evaluate (expression : String)
  | assign (expression : String) (v : Term)
  | alias (method name : String)
  | call (method : String) (v : Term)
  | link (name : String)

inductive WatcherOp where
  | value
  | path
  | update

inductive RegistryOp where
  | register (watcher : String)
  | depend
  | notify
  | info (watcher : Option String)

/-- A subtree to build. -/
inductive NodeSpec where
  | text (s : String)
  | comment (s : String)
  | element (name : Option String) (tag : String) (attributes : List (String × String))
      (children : List NodeSpec)

/-- An event with the value of its target, if the target has one. -/
structure PageEvent where
  name : String
  value : Option String
deriving DecidableEq, Repr

inductive PageOp where
  | element (tag : String) (attributes : List (String × String)) (children : List String)
      (name : Option String)
  | text (s : String) (name : Option String)
  | comment (s : String) (name : Option String)
  | build (spec : NodeSpec) (name : Option String)
  | append (parent child : String)
  | query (selector : String) (name : Option String)
  | child (node : String) (position : Nat) (name : Option String)
  | node (node : String)
  | markup (node : String)
  | textOf (node : String)
  | attr (node name : String)
  | property (node name : String)
  | listeners (node event : String)
  | setText (node value : String)
  | setProperty (node name value : String)
  | setAttribute (node name value : String)
  | setMarkup (node value : String)
  | dispatch (node : String) (event : PageEvent)
  | input (node value : String)
  | click (node : String)

/-- The kinds of handles that can be dropped. -/
inductive HandleKind where
  | value
  | viewModel
  | link
  | watcher
  | registry
  | wiring
  | view

/-- What can be described in words. -/
inductive Subject where
  | value (t : Term)
  | viewModel (name : String)
  | link (name : String)
  | registry (d : RegistryTerm)
  | page
  | wiring (name : String)
  | view (name : String)
  | watcher (name : String)

/-- What a new view model starts with: nothing, a mounted map, or a map that is observed, mounted
and flattened. -/
inductive Origin where
  | nothing
  | mounted (t : Term)
  | observed (t : Term)

/-! ## Steps -/

inductive Step where
  | keep (name : String) (t : Term)
  | value (t : Term)
  | render (t : Term)
  | json (t : Term)
  | same (a b : Term)
  | dump (t : Term)
  | observe (t : Term)
  | drop (kind : HandleKind) (name : String)
  | map (t : Term) (op : MapOp)
  | list (t : Term) (op : ListOp)
  | newViewModel (name : String) (origin : Origin)
  | viewModel (name : String) (op : ViewModelOp)
  | defineMethod (viewModel name : String) (script : List Step) (limit : Option Nat)
  | live (link : String)
  | follow (link name : String)
  | watch (viewModel expression name : String) (script : List Step) (limit : Option Nat)
  | watcher (name : String) (op : WatcherOp)
  | collecting
  | newRegistry (name : String)
  | registry (d : RegistryTerm) (op : RegistryOp)
  | page (op : PageOp)
  | listen (node event tag : String) (script : List Step) (limit : Option Nat)
  | compile (node viewModel name : String) (marks : MarksTerm)
  | view (name : String) (data : Term) (mount : Option String)
      (methods : List (String × List Step × Option Nat)) (marks : MarksTerm) (described : Bool)
  | wiring (name : String)
  | bound (name expression : String)
  | describe (subject : Subject)

/-- What is shown of the state after each step. -/
inductive Show where
  | value (name : String)
  | node (name : String)
  | properties (name : String)

end DataBinding
