-- Wiring a view model to a page: the nodes below a root are visited in document order, and every
-- marked attribute and text becomes a binding. A value binding is shown once and then watched; an
-- event binding calls a method. The first fault ends the walk, and what was bound before stays.
import DataBinding.Binding.Watch
import DataBinding.Page.Reading
import DataBinding.Template.Markers

namespace DataBinding

/-! ## Bindings -/

inductive BindingKind where
  | interpolation
  | directive (directive : Directive)
  | event (event method : String)
deriving DecidableEq, Repr

/-- One binding of a node; a value binding has a watcher and an event binding has none. -/
structure Binding where
  node : NodeId
  kind : BindingKind
  watcher : Option WatcherId
deriving DecidableEq, Repr

/-- All bindings of one walk, in document order. -/
abbrev Wiring := List Binding

namespace Wiring

def watchers (wiring : Wiring) : List WatcherId := wiring.filterMap (·.watcher)

/-- The nodes whose expression is exactly the given text. -/
def boundTo (wiring : Wiring) (w : World) (expression : String) : List NodeId :=
  (wiring.filter fun b =>
    ((b.watcher.bind w.watcher?).map (·.path.text)) = some expression).map (·.node)

end Wiring

/-- Why a template cannot be wired. -/
inductive CompileError where
  | missingMethod (event method : String)
  | invalidExpression (origin : String) (cause : PathError)
deriving DecidableEq, Repr

namespace CompileError

def message : CompileError → String
  | .missingMethod event method =>
    "'" ++ event ++ "' handler refers to unknown method '" ++ method ++ "'"
  | .invalidExpression origin cause =>
    "invalid binding expression in " ++ origin ++ ": " ++ cause.message

def cause? : CompileError → Option PathError
  | .missingMethod _ _ => none
  | .invalidExpression _ cause => some cause

end CompileError

/-! ## Compiling -/

/-- A world and the bindings made in it so far. -/
structure Draft where
  world : World
  wiring : Wiring

/-- Compiling changes a draft and may fail; what was done before a fault is kept. -/
abbrev Compile := ExceptT CompileError (StateM Draft)

namespace Compile

def onWorld {α : Type} (f : World → World × α) : Compile α :=
  modifyGet fun d => let (world, a) := f d.world; (a, { d with world })

def hold (b : Binding) : Compile Unit := modify fun d => { d with wiring := d.wiring ++ [b] }

/-- The key path of an expression; a fault names the place it was found in. -/
def path (expression origin : String) : Compile KeyPath :=
  match KeyPath.parse expression with
  | .ok path => pure path
  | .error cause => throw (.invalidExpression origin cause)

/-- Shows the value of a path on a node and watches it from then on. -/
def bindValue (vm : ViewModel) (n : NodeId) (path : KeyPath) (directive : Directive)
    (kind : BindingKind) : Compile Unit := do
  let v ← onWorld fun w => w.untracked (·.evaluate vm.table path)
  onWorld fun w => (w.render directive n v, ())
  let watcher ← onWorld fun w => w.watch vm.link path (.render directive n)
  hold ⟨n, kind, some watcher⟩

/-- The event by which an input field reports its value. -/
def inputEvent : String := "input"

/-- Binds a directive; `model` also writes each input back to the path. -/
def bindDirective (vm : ViewModel) (n : NodeId) (directive : Directive) (name value : String) :
    Compile Unit := do
  let path ← path value name
  if directive = .model then
    onWorld fun w => ({ w with page := w.page.listen n inputEvent (.writeBack vm.link path) }, ())
  bindValue vm n path directive (.directive directive)

/-- Binds an event to the method of a name. -/
def bindEvent (vm : ViewModel) (n : NodeId) (event method : String) : Compile Unit := do
  let found ← onWorld fun w => (w, w.method? vm.table method)
  match found with
  | none => throw (.missingMethod event method)
  | some script =>
    onWorld fun w => ({ w with page := w.page.listen n event (.method vm.link script) }, ())
    hold ⟨n, .event event method, none⟩

/-- Binds what one attribute asks for; unknown directives are passed over. -/
def compileAttribute (marks : Markers) (vm : ViewModel) (n : NodeId) (name value : String) :
    Compile Unit :=
  match marks.classify name with
  | .plain => pure ()
  | .event event => bindEvent vm n event (Text.trim value)
  | .directive kind argument =>
    match Directive.ofParts? kind argument with
    | none => pure ()
    | some directive => bindDirective vm n directive name value

/-- Binds a text that holds a marker. -/
def compileText (marks : Markers) (vm : ViewModel) (n : NodeId) : Compile Unit := do
  let text := (← get).world.page.textOf n
  match marks.interpolation text with
  | none => pure ()
  | some expression =>
    let path ← path expression (Text.trim text)
    bindValue vm n path .text .interpolation

/-- Compiles one node: the attributes of an element, or the marker of a text. -/
def compileNode (marks : Markers) (vm : ViewModel) (n : NodeId) : Compile Unit := do
  match (← get).world.page.content? n with
  | some (.element _ attributes _ _) =>
    attributes.forM fun (name, value) => compileAttribute marks vm n name value
  | some (.text _) => compileText marks vm n
  | _ => pure ()

/-- Compiles everything below a node. The children of a node are read after the node itself was
compiled, so a text that was put there on the way is visited too. -/
def compileBelow (marks : Markers) (vm : ViewModel) : Nat → NodeId → Compile Unit
  | 0, _ => pure ()
  | fuel + 1, n => do
    (( ← get).world.page.children n).forM fun child => do
      compileNode marks vm child
      compileBelow marks vm fuel child

end Compile

/-- Wires everything below a root to a view model. No way down has more nodes than the page, and
one more where a text was put. -/
def World.compile (w : World) (marks : Markers) (vm : ViewModel) (root : NodeId) :
    World × Except CompileError Wiring :=
  let walk := Compile.compileBelow marks vm (w.page.nodes.size + 2) root
  let (outcome, draft) := walk.run.run ⟨w, []⟩
  (draft.world, outcome.map fun _ => draft.wiring)

end DataBinding
