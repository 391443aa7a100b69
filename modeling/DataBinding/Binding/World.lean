-- The world: the heap of containers, the watchers, the tables of the view models, the page, and the
-- watcher that collects dependencies. Watchers, links and listeners name a view model's tables by a
-- handle that owns nothing; only mounts own containers, and only view models own mounts.
import DataBinding.KeyPath
import DataBinding.Model.Reading
import DataBinding.Page.Basic
import DataBinding.Template.Directive

namespace DataBinding

/-! ## Handles -/

/-- The tables of a view model. -/
structure TableId where
  index : Nat
deriving DecidableEq, Repr

/-- The mounts of a view model, which keep its containers. -/
structure MountsId where
  index : Nat
deriving DecidableEq, Repr

/-- What user code a method, a watcher or a listener runs. -/
structure ScriptId where
  index : Nat
deriving DecidableEq, Repr

/-- A handle of a view model that shares its tables and keeps its mounts. -/
structure ViewModel where
  table : TableId
  mounts : MountsId
deriving DecidableEq, Repr

/-- A handle of a view model that keeps nothing of the model. -/
structure Link where
  table : TableId
  mounts : MountsId
deriving DecidableEq, Repr

def ViewModel.link (vm : ViewModel) : Link := ⟨vm.table, vm.mounts⟩

/-! ## Watchers and listeners -/

/-- What a watcher does with a new value. -/
inductive Reaction where
  | render (directive : Directive) (node : NodeId)
  | script (script : ScriptId)
deriving DecidableEq, Repr

/-- A live binding of a key path. -/
structure Watcher where
  link : Link
  path : KeyPath
  reaction : Reaction
deriving DecidableEq, Repr

/-- What a listener does with an event. -/
inductive Response where
  | script (script : ScriptId)
  | writeBack (link : Link) (path : KeyPath)
  | method (link : Link) (script : ScriptId)
deriving DecidableEq, Repr

/-! ## The world -/

/-- The tables of a view model: its containers by name, the container behind each property, and
its methods. A property forwards to the key of its own name. None of them keeps a container. -/
structure Table where
  containers : List (String × MapId)
  properties : List (String × MapId)
  methods : List (String × ScriptId)
deriving Repr

def Table.empty : Table := ⟨[], [], []⟩

structure World where
  heap : Heap
  watchers : Array Watcher
  tables : Array Table
  mounts : Array (Option (List (String × MapId)))
  page : Page Response
  collector : Option WatcherId

namespace World

def empty : World := ⟨.empty, #[], #[], #[], .empty, none⟩

/-- Watchers are numbered from one in the order of their creation. -/
def watcher? (w : World) (id : WatcherId) : Option Watcher := w.watchers[id.index - 1]?

def table (w : World) (t : TableId) : Table := w.tables[t.index]?.getD .empty

def changeTable (w : World) (t : TableId) (f : Table → Table) : World :=
  { w with tables := w.tables.modify t.index f }

/-! ## Collecting dependencies -/

/-- Registers the collecting watcher, if there is one, with all that was crossed. -/
def depend (w : World) (crossed : List Registry) : World :=
  match w.collector with
  | none => w
  | some id => { w with heap := crossed.foldl (·.register id) w.heap }

/-- Runs a part with another collector, or with none, and puts the old one back. -/
def collecting {α : Type} (w : World) (collector : Option WatcherId) (body : World → World × α) :
    World × α :=
  let (after, a) := body { w with collector }
  ({ after with collector := w.collector }, a)

/-- Runs a part that registers nobody. -/
def untracked {α : Type} (w : World) (body : World → World × α) : World × α :=
  w.collecting none body

end World

end DataBinding
