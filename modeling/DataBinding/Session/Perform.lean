-- Performing one step: the change of the state and what is left to be done.
import DataBinding.Session.ModelSteps
import DataBinding.Session.PageSteps

namespace DataBinding

/-- Takes a handle away; answers whether it was there. -/
def HandleKind.drop (name : String) (kind : HandleKind) : Act Bool := do
  let s ← get
  let (there, s) : Bool × Session := match kind with
    | .value => ((s.values.lookup name).isSome, { s with values := dropEntry name s.values })
    | .viewModel =>
      ((s.viewModels.lookup name).isSome, { s with viewModels := dropEntry name s.viewModels })
    | .link => ((s.links.lookup name).isSome, { s with links := dropEntry name s.links })
    | .watcher => ((s.watchers.lookup name).isSome, { s with watchers := dropEntry name s.watchers })
    | .registry =>
      ((s.registries.lookup name).isSome, { s with registries := dropEntry name s.registries })
    | .wiring => ((s.wirings.lookup name).isSome, { s with wirings := dropEntry name s.wirings })
    | .view => ((s.views.lookup name).isSome, { s with views := dropEntry name s.views })
  set s
  return there

namespace Step

/-- Performs a step. -/
def perform : Step → Act Outcome
  | .keep name t => do
    let v ← t.eval
    modify fun s => { s with values := putEntry name v s.values }
    return .ofReply (.value v)
  | .value t => return .ofReply (.value (← t.eval))
  | .render t => do
    let v ← t.eval
    return .ofReply (.text ((← Act.heap).render v))
  | .json t => do
    let v ← t.eval
    return .ofReply (.text ((← Act.heap).document v).compact)
  | .same a b => do
    let a ← a.eval
    return .ofReply (.flag (a.same (← b.eval)))
  | .dump t => return .ofReply (.dump (← t.eval))
  | .observe t => do
    let v ← t.eval
    Act.onHeap fun h => (h.observe v, ())
    return .ofReply (.observed (v.same v) v)
  | .drop kind name => return .ofReply (.flag (← kind.drop name))
  | .map t op => do op.perform (← t.evalMap)
  | .list t op => do op.perform (← t.evalList)
  | .newViewModel name origin => do
    let vm ← origin.make
    modify fun s => { s with viewModels := putEntry name vm s.viewModels }
    return .ofReply (.names ((← Act.world).propertyNames vm.table))
  | .viewModel name op => do op.perform (← Act.viewModel name)
  | .defineMethod owner name script limit => do
    let vm ← Act.viewModel owner
    let script ← Act.newScript .method name script limit
    Act.onWorld fun w => (w.putMethod vm.table name script, ())
    return .nothing
  | .live handle => do
    let l ← Act.link handle
    return .ofReply (.flag ((← Act.world).isLive l))
  | .follow handle name => do
    let l ← Act.link handle
    let vm ← Act.onWorld (·.follow l)
    modify fun s => { s with viewModels := putEntry name vm s.viewModels }
    return .nothing
  | .watch owner expression name script limit => do
    let vm ← Act.viewModel owner
    let path ← Act.parse expression
    let script ← Act.newScript .watcher name script limit
    let id ← Act.onWorld (·.watch vm.link path (.script script))
    modify fun s => { s with watchers := putEntry name id s.watchers }
    return .ofReply (.watcher id)
  | .watcher name op => do op.perform (← Act.watcher name)
  | .collecting => return .ofReply (collectingReply (← Act.world))
  | .newRegistry name => do
    let r ← Act.onHeap (·.newRegistry)
    modify fun s => { s with registries := putEntry name r s.registries }
    return .nothing
  | .registry d op => do op.perform (← d.eval)
  | .page op => op.perform
  | .listen node event tag script limit => do
    let n ← Act.node node
    let script ← Act.newScript .listener tag script limit
    Act.onPage fun p => (p.listen n event (.script script), ())
    return .nothing
  | .compile node owner name marks => compileStep node owner name marks
  | .view name data mount methods marks described =>
    viewStep name data mount methods marks described
  | .wiring name => do
    let wiring ← Act.wiring name
    return .ofReply (.wiring (BindingReport.ofWiring (← Act.world) wiring))
  | .bound name expression => do
    let wiring ← Act.wiring name
    return .ofReply (.nodes (wiring.boundTo (← Act.world) expression))
  | .describe subject => return .ofReply (.text (← subject.inWords))

end Step

/-- Performs a step in a context; a fault becomes the reply. -/
def Session.perform (s : Session) (context : Context) (step : Step) : Session × Outcome :=
  match (step.perform.run context).run.run s with
  | (.ok outcome, s) => (s, outcome)
  | (.error f, s) => (s, .ofReply (.fault f))

end DataBinding
