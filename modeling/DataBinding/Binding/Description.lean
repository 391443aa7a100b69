-- Descriptions: short texts about values, view models, views and the page, for a reader who looks for
-- a fault. They name what a thing is and its main counts, not all that it holds.
import DataBinding.Binding.MountedView
import DataBinding.Text.Hidden

namespace DataBinding.Description

/-! ## Layout -/

/-- A field with its name. -/
def field (name value : String) : String := name ++ ": " ++ value

/-- A name and its parts inside braces. -/
def record (name : String) (parts : List String) : String :=
  name ++ " \x7b " ++ String.intercalate ", " parts ++ " \x7d"

/-- A name and its content inside parentheses. -/
def wrapped (name content : String) : String := name ++ "(" ++ content ++ ")"

def listed (items : List String) : String := "[" ++ String.intercalate ", " items ++ "]"

def flag (b : Bool) : String := if b then "true" else "false"

def count (n : Nat) : String := Number.digitsText n

/-- A character inside quotes: hidden characters are written by their code points. -/
def quotedChar (c : Char) : List Char :=
  if c = '"' then ['\\', '"']
  else if c = '\\' then ['\\', '\\']
  else if c = '\n' then ['\\', 'n']
  else if c = '\r' then ['\\', 'r']
  else if c = '\t' then ['\\', 't']
  else if c.toNat = 0 then ['\\', '0']
  else if Text.isHidden c then
    ['\\', 'u', '\x7b'] ++ Nat.toDigits 16 c.toNat ++ ['\x7d']
  else [c]

def quoted (s : String) : String := String.ofList ('"' :: s.toList.flatMap quotedChar ++ ['"'])

def optional (content : Option String) : String :=
  match content with
  | none => "None"
  | some s => wrapped "Some" s

/-! ## Values -/

def ofMap (c : MapCell) : String :=
  record "ReactiveMap" [field "keys" (listed (c.keys.map quoted)), field "observed" (flag c.observed)]

def ofList (c : ListCell) : String :=
  record "ReactiveList" [field "len" (count c.items.length), field "observed" (flag c.observed),
    field "subscriber_count" (count c.watchers.length)]

def ofValue (h : Heap) : Value → String
  | .null => "Null"
  | .bool b => wrapped "Bool" (flag b)
  | .number n => wrapped "Number" n.descriptionText
  | .text s => wrapped "Str" (quoted s)
  | .map m => wrapped "Map" (ofMap ((h.map? m).getD (.ofEntries [])))
  | .list l => wrapped "List" (ofList ((h.list? l).getD (.ofItems [])))

/-! ## View models and watchers -/

def ofViewModel (w : World) (t : TableId) : String :=
  record "Facade" [field "properties" (listed ((w.propertyNames t).map quoted)),
    field "methods" (listed ((w.methodNames t).map quoted))]

def ofLink (w : World) (l : Link) : String := record "FacadeLink" [field "live" (flag (w.isLive l))]

def ofRegistry (watchers : List WatcherId) : String :=
  record "Dep" [field "subscriber_count" (count watchers.length)]

def ofWatcher (id : WatcherId) (watcher : Watcher) : String :=
  record "Watcher" [field "id" (wrapped "WatcherId" (count id.index)),
    field "path" (quoted watcher.path.text), ".."]

/-! ## Pages and views -/

def ofPage {ρ : Type} (p : Page ρ) : String :=
  record "MemTree" [field "node_count" (count p.nodes.size),
    field "listener_count" (count p.listeners.length)]

def ofWiring (wiring : Wiring) : String :=
  record "BindingScope" [field "binding_count" (count wiring.length),
    field "watcher_count" (count wiring.watchers.length)]

def ofNode (n : NodeId) : String := wrapped "NodeId" (count n.index)

def ofView (w : World) (v : MountedView) : String :=
  record "BoundView" [field "facade" (ofViewModel w v.viewModel.table),
    field "root" (optional (v.root.map ofNode)), field "bindings" (ofWiring v.wiring)]

def ofMarks (marks : Markers) : String :=
  record "TemplateSyntax" [field "directive_prefix" (quoted marks.directive),
    field "event_prefix" (quoted marks.event), field "open_delimiter" (quoted marks.opening),
    field "close_delimiter" (quoted marks.closing)]

def ofPlan (plan : ViewPlan) : String :=
  record "ViewConfig" [field "methods" (listed (plan.methods.map fun m => quoted m.1)),
    field "mount" (optional (plan.mount.map quoted)), field "syntax" (ofMarks plan.marks)]

end DataBinding.Description
