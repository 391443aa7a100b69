-- Mounted views: one model, one view model over it, and the wiring of the part of the page that a
-- selector finds. A selector that finds nothing gives a view without bindings.
import DataBinding.Binding.Wiring

namespace DataBinding

/-- Why a view cannot be mounted. -/
inductive ViewError where
  | dataNotAMap
  | compile (cause : CompileError)
  | settings (message : String)
deriving DecidableEq, Repr

namespace ViewError

def message : ViewError → String
  | .dataNotAMap => "view data must be a map"
  | .compile cause => "template compile error: " ++ cause.message
  | .settings message => "syntax config error: " ++ message

def cause? : ViewError → Option CompileError
  | .compile cause => some cause
  | _ => none

end ViewError

/-- What a view is made of: the model, the methods by name, the selector of the place where it is
mounted, and the marks of its template. -/
structure ViewPlan where
  data : Value
  methods : List (String × ScriptId)
  mount : Option String
  marks : Markers
deriving Repr

structure MountedView where
  viewModel : ViewModel
  model : MapId
  root : Option NodeId
  wiring : Wiring
deriving Repr

/-- The name under which a model is mounted on its view model. -/
def modelName : String := "$data"

namespace World

/-- A view model over a map: the map is mounted and each of its keys is a property. -/
def viewModelOf (w : World) (m : MapId) : World × ViewModel :=
  let (w, vm) := w.newViewModel
  let (w, _) := (w.mount vm modelName m).flatten vm.table modelName
  (w, vm)

/-- Wires the part of the page that is found, if there is one. -/
def compileMounted (w : World) (marks : Markers) (vm : ViewModel) :
    Option NodeId → World × Except CompileError Wiring
  | none => (w, .ok [])
  | some root => w.compile marks vm root

/-- Mounts a view. The model is observed first, whatever it is. -/
def mountView (w : World) (plan : ViewPlan) : World × Except ViewError MountedView :=
  let w := { w with heap := w.heap.observe plan.data }
  match plan.data with
  | .map model =>
    let (w, viewModel) := w.viewModelOf model
    let w := plan.methods.foldl (fun w (name, script) => w.putMethod viewModel.table name script) w
    let root := plan.mount.bind w.page.query
    match w.compileMounted plan.marks viewModel root with
    | (w, .ok wiring) => (w, .ok { viewModel, model, root, wiring })
    | (w, .error cause) => (w, .error (.compile cause))
  | _ => (w, .error .dataNotAMap)

end World

end DataBinding
