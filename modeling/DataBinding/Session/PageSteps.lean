-- Steps on the page and on templates.
import DataBinding.Session.Outcome
import DataBinding.Binding.Description

namespace DataBinding

/-! ## Building nodes -/

mutual

/-- Builds a subtree; the children are made before their parent, in order. -/
def NodeSpec.build : NodeSpec → Act NodeId
  | .text s => Act.onPage (·.text s)
  | .comment s => Act.onPage (·.comment s)
  | .element name tag attributes children => do
    let children ← NodeSpec.buildAll children
    let n ← Act.onPage (·.element tag attributes children)
    Act.nameNode name n
    return n

def NodeSpec.buildAll : List NodeSpec → Act (List NodeId)
  | [] => pure []
  | spec :: rest => do
    let n ← spec.build
    return n :: (← NodeSpec.buildAll rest)

end

/-! ## Reports -/

def NodeReport.ofNode (p : Page Response) (n : NodeId) : NodeReport :=
  { kind := match p.content? n with
      | some (.element ..) => .element
      | some (.text _) => .text
      | _ => .other
    tag := p.tag? n
    parent := p.parent? n
    children := p.children n
    attributes := p.attributes n
    innerMarkup := p.innerMarkup? n
    text := p.textOf n }

def BindingReport.ofBinding (w : World) (b : Binding) : BindingReport :=
  { node := b.node, kind := b.kind, watcher := b.watcher
    path := (b.watcher.bind w.watcher?).map (·.path.text) }

def BindingReport.ofWiring (w : World) (wiring : Wiring) : List BindingReport :=
  wiring.map (ofBinding w)

/-! ## Steps on the page -/

namespace PageOp

/-- Names a new node and answers it. -/
def created (name : Option String) (n : NodeId) : Act Outcome := do
  Act.nameNode name n
  return .ofReply (.node (some n))

/-- Names a node if one was found, and answers it. -/
def located (name : Option String) (n : Option NodeId) : Act Outcome := do
  match n with
  | none => return .ofReply (.node none)
  | some n => created name n

/-- Changes the page at a node. -/
def changing (node : String) (change : NodeId → Page Response → Page Response) : Act Outcome := do
  let n ← Act.node node
  Act.onPage fun p => (change n p, ())
  return .nothing

/-- Answers what the page shows at a node. -/
def reading (node : String) (read : NodeId → Page Response → Reply Value) : Act Outcome := do
  let n ← Act.node node
  return .ofReply (read n (← Act.page))

/-- Delivers an event to the listeners that a node has now; answers how many there are. -/
def dispatching (n : NodeId) (event : PageEvent) : Act Outcome := do
  let responses := (← Act.page).responses n event.name
  return ⟨.count responses.length, .hearing event responses, .nothing⟩

def perform : PageOp → Act Outcome
  | .element tag attributes children name => do
    let children ← children.mapM Act.node
    created name (← Act.onPage (·.element tag attributes children))
  | .text s name => do created name (← Act.onPage (·.text s))
  | .comment s name => do created name (← Act.onPage (·.comment s))
  | .build spec name => do created name (← spec.build)
  | .append above below => do
    let parent ← Act.node above
    let node ← Act.node below
    Act.onPage fun p => (p.append parent node, ())
    return .nothing
  | .query selector name => do located name ((← Act.page).query selector)
  | .child handle position name => do
    let n ← Act.node handle
    located name ((← Act.page).children n)[position]?
  | .node handle => reading handle fun n p => .nodeInfo (.ofNode p n)
  | .markup handle => reading handle fun n p => .text (p.markupOf n)
  | .textOf handle => reading handle fun n p => .text (p.textOf n)
  | .attr handle name => reading handle fun n p => .optionalText (p.attribute? n name)
  | .property handle name => reading handle fun n p => .optionalText (p.property? n name)
  | .listeners handle event => reading handle fun n p => .count (p.responses n event).length
  | .setText handle value => changing handle fun n p => p.setText n value
  | .setProperty handle name value => changing handle fun n p => p.setProperty n name value
  | .setAttribute handle name value => changing handle fun n p => p.setAttribute n name value
  | .setMarkup handle value => changing handle fun n p => p.setMarkup n value
  | .dispatch handle event => do dispatching (← Act.node handle) event
  | .input handle value => do
    let n ← Act.node handle
    Act.onPage fun p => (p.setProperty n "value" value, ())
    dispatching n ⟨Compile.inputEvent, some value⟩
  | .click handle => do dispatching (← Act.node handle) ⟨"click", none⟩

end PageOp

/-! ## Steps on templates -/

/-- Wires the part of the page below a node. -/
def compileStep (node viewModel name : String) (marks : MarksTerm) : Act Outcome := do
  let n ← Act.node node
  let vm ← Act.viewModel viewModel
  let marks ← Act.marks marks
  match ← Act.onWorld (·.compile marks vm n) with
  | .error cause => Act.fail (.compile cause)
  | .ok wiring =>
    modify fun s => { s with wirings := putEntry name wiring s.wirings }
    return .ofReply (.wiring (BindingReport.ofWiring (← Act.world) wiring))

/-- The scripts of the methods of a view. -/
def newMethods (methods : List (String × List Step × Option Nat)) :
    Act (List (String × ScriptId)) :=
  methods.mapM fun (name, steps, limit) => do
    return (name, ← Act.newScript .method name steps limit)

/-- Mounts a view. -/
def viewStep (name : String) (data : Term) (mount : Option String)
    (methods : List (String × List Step × Option Nat)) (marks : MarksTerm) (described : Bool) :
    Act Outcome := do
  let data ← data.eval
  let marks ← Act.marks marks
  let plan : ViewPlan := { data, mount, marks, methods := ← newMethods methods }
  match ← Act.onWorld (·.mountView plan) with
  | .error cause => Act.fail (.view cause)
  | .ok view =>
    modify fun s => { s with views := putEntry name view s.views }
    let w ← Act.world
    return .ofReply (.view
      { root := view.root
        properties := w.propertyNames view.viewModel.table
        wiring := BindingReport.ofWiring w view.wiring
        described := if described then some (Description.ofPlan plan) else none })

/-- Describes a subject in words. -/
def Subject.inWords : Subject → Act String
  | .value t => do
    let v ← t.eval
    return Description.ofValue (← Act.heap) v
  | .viewModel name => do
    let vm ← Act.viewModel name
    return Description.ofViewModel (← Act.world) vm.table
  | .link name => do
    let l ← Act.link name
    return Description.ofLink (← Act.world) l
  | .registry d => do
    let r ← d.eval
    return Description.ofRegistry ((← Act.heap).watchers r)
  | .page => return Description.ofPage (← Act.page)
  | .wiring name => return Description.ofWiring (← Act.wiring name)
  | .view name => do
    let view ← Act.found "view" name ((← get).views.lookup name)
    return Description.ofView (← Act.world) view
  | .watcher name => do
    let id ← Act.watcher name
    let watcher ← Act.found "watcher" name ((← Act.world).watcher? id)
    return Description.ofWatcher id watcher

end DataBinding
