-- The state of a session: the world, the handles that the user keeps, the scripts, and the log of the
-- step that runs. An action reads the context of its script, may fail with a fault, and keeps what it
-- changed before the fault.
import DataBinding.Session.Reply
import DataBinding.Binding.Lifetime
import DataBinding.Template.MarkerFile

namespace DataBinding

/-! ## Scripts -/

/-- A script, whom it runs for, how often its steps may run, and how often they have. -/
structure Script where
  caller : Caller
  tag : String
  steps : List Step
  limit : Option Nat
  runs : Nat

/-- What a script is called with: an argument, and the view model that a method works on. -/
structure Context where
  argument : Option Value
  viewModel : Option ViewModel

namespace Context

/-- The context of steps that no script runs. -/
def outside : Context := ⟨none, none⟩

def held (c : Context) : Held := ⟨c.argument.toList, c.viewModel.toList⟩

end Context

/-! ## The session -/

structure Session where
  world : World
  values : List (String × Value)
  viewModels : List (String × ViewModel)
  links : List (String × Link)
  watchers : List (String × WatcherId)
  registries : List (String × RegistryId)
  wirings : List (String × Wiring)
  views : List (String × MountedView)
  nodes : List (String × NodeId)
  scripts : Array Script
  log : List LogEntry

namespace Session

def empty : Session := ⟨.empty, [], [], [], [], [], [], [], [], #[], []⟩

/-- What the handles of a session hold. -/
def held (s : Session) : Held :=
  { values := s.values.map (·.2) ++ s.views.map fun v => .map v.2.model
    viewModels := s.viewModels.map (·.2) ++ s.views.map fun v => v.2.viewModel }

/-- The value of a handle; the name of a view means its model. -/
def value? (s : Session) (name : String) : Option Value :=
  (s.values.lookup name).or ((s.views.lookup name).map fun v => .map v.model)

/-- The view model of a handle; the name of a view means its view model. -/
def viewModel? (s : Session) (name : String) : Option ViewModel :=
  (s.viewModels.lookup name).or ((s.views.lookup name).map (·.viewModel))

/-- The wiring of a handle; the name of a view means its wiring. -/
def wiring? (s : Session) (name : String) : Option Wiring :=
  (s.wirings.lookup name).or ((s.views.lookup name).map (·.wiring))

/-- Adds a line to the log. -/
def note (s : Session) (entry : LogEntry) : Session := { s with log := s.log ++ [entry] }

end Session

/-! ## Actions -/

abbrev Act := ReaderT Context (ExceptT Fault (StateM Session))

namespace Act

def fail {α : Type} (f : Fault) : Act α := throw f

/-- The fault of a name that is not known. -/
def unknown {α : Type} (what name : String) : Act α :=
  fail (.misuse ("no " ++ what ++ " named " ++ name))

/-- What was found under a name. -/
def found {α : Type} (what name : String) : Option α → Act α
  | some a => pure a
  | none => unknown what name

def onWorld {α : Type} (f : World → World × α) : Act α :=
  modifyGet fun s => let (world, a) := f s.world; (a, { s with world })

def onHeap {α : Type} (f : Heap → Heap × α) : Act α :=
  onWorld fun w => let (heap, a) := f w.heap; ({ w with heap }, a)

def onPage {α : Type} (f : Page Response → Page Response × α) : Act α :=
  onWorld fun w => let (page, a) := f w.page; ({ w with page }, a)

def world : Act World := return (← get).world

def heap : Act Heap := return (← get).world.heap

def page : Act (Page Response) := return (← get).world.page

/-- The result of a part that may refuse a path. -/
def ofPath {α : Type} : Except PathError α → Act α
  | .ok a => pure a
  | .error cause => fail (.path cause)

/-- The key path of an expression. -/
def parse (expression : String) : Act KeyPath := ofPath (KeyPath.parse expression)

/-- The name under which a method sees the view model it works on. -/
def ownName : String := "$vm"

def viewModel (name : String) : Act ViewModel := do
  if name = ownName then found "view model" name (← read).viewModel
  else found "view model" name ((← get).viewModel? name)

def watcher (name : String) : Act WatcherId := do found "watcher" name ((← get).watchers.lookup name)

def link (name : String) : Act Link := do found "link" name ((← get).links.lookup name)

def node (name : String) : Act NodeId := do found "node" name ((← get).nodes.lookup name)

def wiring (name : String) : Act Wiring := do found "wiring" name ((← get).wiring? name)

def nameNode (name : Option String) (n : NodeId) : Act Unit :=
  match name with
  | none => pure ()
  | some name => modify fun s => { s with nodes := putEntry name n s.nodes }

/-- A new script. -/
def newScript (caller : Caller) (tag : String) (steps : List Step) (limit : Option Nat) :
    Act ScriptId :=
  modifyGet fun s => (⟨s.scripts.size⟩, { s with scripts := s.scripts.push ⟨caller, tag, steps, limit, 0⟩ })

/-- The marks that a template is read by. -/
def marks : MarksTerm → Act Markers
  | .given marks => pure marks
  | .file source =>
    match MarkerFile.read? source with
    | some marks => pure marks
    | none => fail (.view (.settings "malformed marker file"))

end Act

/-! ## Terms -/

/-- Follows segments into a value; nobody is registered. -/
def follow (v : Value) : List Segment → Act Value
  | [] => pure v
  | segment :: rest => do
    let h ← Act.heap
    let next := match v, segment with
      | .map m, .key key => h.peek m key
      | .list l, .position i => h.item? l i
      | _, _ => none
    match next with
    | some v => follow v rest
    | none => Act.fail (.misuse "no value at the end of the segments")

namespace Term

/-- Wraps a value into containers, one inside the other. -/
def wrap (inside : Value → Act Value) : Nat → Value → Act Value
  | 0, v => pure v
  | levels + 1, v => do wrap inside levels (← inside v)

def newList (items : List Value) : Act Value := Act.onHeap fun h =>
  let (h, l) := h.newList items
  (h, .list l)

def newMap (entries : List (String × Value)) : Act Value := Act.onHeap fun h =>
  let (h, m) := h.newMap entries
  (h, .map m)

/-- The key of the maps that wrap a value. -/
def wrapKey : String := "k"

mutual

/-- The value of a term. -/
def eval : Term → Act Value
  | .document d => Act.onHeap (·.load d)
  | .array items => do newList (← evalAll items)
  | .object entries => do newMap (← evalEntries entries)
  | .handle name segments => do
    follow (← Act.found "value" name ((← get).value? name)) segments
  | .argument segments => do
    follow (← Act.found "value" "$arg" (← read).argument) segments
  | .property viewModel name => do
    let vm ← Act.viewModel viewModel
    Act.onWorld (·.get vm.table name)
  | .evaluation viewModel expression => do
    let vm ← Act.viewModel viewModel
    let path ← Act.parse expression
    Act.onWorld (·.evaluate vm.table path)
  | .sum t n => do return .number ((← eval t).numberOrZero.add n)
  | .joined parts => do
    let values ← evalAll parts
    let h ← Act.heap
    return .text (String.join (values.map h.render))
  | .nestedMaps levels t => do wrap (fun v => newMap [(wrapKey, v)]) levels (← eval t)
  | .nestedLists levels t => do wrap (fun v => newList [v]) levels (← eval t)

def evalAll : List Term → Act (List Value)
  | [] => pure []
  | t :: rest => do
    let v ← eval t
    return v :: (← evalAll rest)

def evalEntries : List (String × Term) → Act (List (String × Value))
  | [] => pure []
  | (key, t) :: rest => do
    let v ← eval t
    return (key, v) :: (← evalEntries rest)

end

def evalMap (t : Term) : Act MapId := do
  match ← t.eval with
  | .map m => pure m
  | _ => Act.fail (.misuse "not a map")

def evalList (t : Term) : Act ListId := do
  match ← t.eval with
  | .list l => pure l
  | _ => Act.fail (.misuse "not a list")

end Term

namespace RegistryTerm

/-- The registry that a term names. It has to exist. -/
def eval (d : RegistryTerm) : Act Registry := do
  let registry ← match d with
    | .handle name => do
      pure (.free (← Act.found "registry" name ((← get).registries.lookup name)))
    | .slot t key => do pure (.slot (← t.evalMap) key)
    | .list t => do pure (.list (← t.evalList))
  match (← Act.heap).watchers? registry with
  | some _ => pure registry
  | none => Act.fail (.misuse "no such registry")

end RegistryTerm

end DataBinding
