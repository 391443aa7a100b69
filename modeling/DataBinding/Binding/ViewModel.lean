-- View models: named containers, forwarding properties and methods. Flattening a container makes each
-- of its keys a property of the view model; reads and writes of a property go to the container that
-- was flattened last with that key, for as long as the container is live.
import DataBinding.Binding.World
import DataBinding.Model.Write
import DataBinding.Model.Sequence

namespace DataBinding

namespace World

/-! ## View models and links -/

def newViewModel (w : World) : World × ViewModel :=
  ({ w with tables := w.tables.push .empty, mounts := w.mounts.push (some []) },
    ⟨⟨w.tables.size⟩, ⟨w.mounts.size⟩⟩)

/-- The mounts behind a handle, if a view model still keeps them. -/
def mounts? (w : World) (m : MountsId) : Option (List (String × MapId)) := w.mounts[m.index]?.join

/-- A view model over the tables of a link. It shares the mounts while some view model keeps them,
and has none of its own afterwards. -/
def follow (w : World) (l : Link) : World × ViewModel :=
  if (w.mounts? l.mounts).isSome then (w, ⟨l.table, l.mounts⟩)
  else ({ w with mounts := w.mounts.push (some []) }, ⟨l.table, ⟨w.mounts.size⟩⟩)

/-- Whether one of the containers of a link is live. -/
def isLive (w : World) (l : Link) : Bool :=
  (w.table l.table).containers.any fun entry => w.heap.isLive (.map entry.2)

/-! ## Containers and properties -/

/-- Mounts a container under a name, in place of an earlier one. -/
def mount (w : World) (vm : ViewModel) (name : String) (m : MapId) : World :=
  let w := { w with mounts := w.mounts.modify vm.mounts.index (·.map (putEntry name m)) }
  w.changeTable vm.table fun t => { t with containers := putEntry name m t.containers }

/-- The live container mounted under a name. -/
def container? (w : World) (t : TableId) (name : String) : Option MapId :=
  ((w.table t).containers.lookup name).filter fun m => w.heap.isLive (.map m)

/-- Makes every key of a mounted container a property; answers how many keys there are. -/
def flatten (w : World) (t : TableId) (name : String) : World × Nat :=
  match w.container? t name with
  | none => (w, 0)
  | some m =>
    let keys := w.heap.keys m
    (w.changeTable t fun table =>
      { table with properties := keys.foldl (fun ps key => putEntry key m ps) table.properties },
      keys.length)

def hasProperty (w : World) (t : TableId) (name : String) : Bool :=
  ((w.table t).properties.lookup name).isSome

/-- The names of all properties, sorted. -/
def propertyNames (w : World) (t : TableId) : List String :=
  ((w.table t).properties.map (·.1)).mergeSort fun a b => decide (a ≤ b)

/-- The live container behind a property. -/
def target? (w : World) (t : TableId) (name : String) : Option MapId :=
  ((w.table t).properties.lookup name).filter fun m => w.heap.isLive (.map m)

/-! ## Reads -/

/-- What a property reads; an unknown one reads as null. -/
def readProperty (w : World) (t : TableId) (name : String) : Reading :=
  ((w.target? t name).bind (w.heap.read · name)).getD ⟨.null, []⟩

/-- What a key path reads. -/
def readPath (w : World) (t : TableId) (path : KeyPath) : Reading :=
  w.heap.walk (w.readProperty t path.head) path.rest

/-- The value of a property, as a tracked read. -/
def get (w : World) (t : TableId) (name : String) : World × Value :=
  let r := w.readProperty t name
  (w.depend r.crossed, r.value)

/-- The value of a key path, as a tracked read. -/
def evaluate (w : World) (t : TableId) (path : KeyPath) : World × Value :=
  let r := w.readPath t path
  (w.depend r.crossed, r.value)

/-! ## Writes -/

/-- Replaces the heap by the outcome of a write that owes turns. -/
def written (w : World) (outcome : Heap × List WatcherId) : World × List WatcherId :=
  ({ w with heap := outcome.1 }, outcome.2)

/-- Writes a property. -/
def setProperty (w : World) (t : TableId) (name : String) (v : Value) :
    World × Except PathError (List WatcherId) :=
  match w.target? t name with
  | none => (w, .error (.unresolved name))
  | some m =>
    let (w, owed) := w.written (w.heap.set m name v)
    (w, .ok owed)

/-- Writes into the container that holds the last segment of a path. -/
def assignIn (w : World) (parent : Value) (path : KeyPath) (v : Value) :
    World × Except PathError (List WatcherId) :=
  match parent with
  | .map m =>
    let (w, owed) := w.written (w.heap.set m path.last v)
    (w, .ok owed)
  | .list l =>
    match Text.position? path.last with
    | some position => ({ w with heap := w.heap.setItem l position v }, .ok [])
    | none => (w, .error (.unresolved path.text))
  | _ => (w, .error (.unresolved path.text))

/-- Writes to a key path: a single segment is a property, a longer path is written in the container
that its parent segments lead to. -/
def assign (w : World) (t : TableId) (path : KeyPath) (v : Value) :
    World × Except PathError (List WatcherId) :=
  if path.isSimple then w.setProperty t path.head v
  else
    let start := w.readProperty t path.head
    let parents := path.rest.dropLast
    let w' := w.depend (w.heap.walk start parents).crossed
    match w.heap.walk? start parents with
    | none => (w', .error (.unresolved path.text))
    | some r => w'.assignIn r.value path v

/-- The container that `assign` writes to. -/
def assignTarget? (w : World) (t : TableId) (path : KeyPath) : Option Value :=
  if path.isSimple then (w.target? t path.head).map .map
  else (w.heap.walk? (w.readProperty t path.head) path.rest.dropLast).map (·.value)

/-! ## Methods -/

def putMethod (w : World) (t : TableId) (name : String) (script : ScriptId) : World :=
  w.changeTable t fun table => { table with methods := putEntry name script table.methods }

def method? (w : World) (t : TableId) (name : String) : Option ScriptId :=
  (w.table t).methods.lookup name

/-- The names of all methods, sorted. -/
def methodNames (w : World) (t : TableId) : List String :=
  ((w.table t).methods.map (·.1)).mergeSort fun a b => decide (a ≤ b)

end World

end DataBinding
