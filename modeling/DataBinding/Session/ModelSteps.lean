-- Steps on the model: values, maps, lists, view models, watchers and registries.
import DataBinding.Session.Outcome

namespace DataBinding

/-! ## Maps -/

namespace MapOp

/-- Runs a write that owes turns; the map is held until they are over. -/
def writing (m : MapId) (write : Heap → Heap × List WatcherId) : Act Outcome := do
  let owed ← Act.onHeap write
  return .owing .nothing owed (.value (.map m))

def perform (m : MapId) : MapOp → Act Outcome
  | .get key => do
    let reading := (← Act.heap).read m key
    Act.onWorld fun w => (w.depend ((reading.map (·.crossed)).getD []), ())
    return .ofReply (.ofOption (reading.map (·.value)))
  | .peek key => return .ofReply (.ofOption ((← Act.heap).peek m key))
  | .set key v => do
    let v ← v.eval
    writing m (·.set m key v)
  | .attach key v => do
    let v ← v.eval
    writing m (·.attach m key v)
  | .define key v => do
    let v ← v.eval
    Act.onHeap fun h => (h.define m key v, ())
    return .nothing
  | .info => do
    let cell := ((← Act.heap).map? m).getD (.ofEntries [])
    return .ofReply (.mapInfo cell.keys cell.observed)
  | .keyInfo key => do
    let h ← Act.heap
    return .ofReply (.keyInfo (h.lookup? m key).isSome (h.watchers? (.slot m key)))

end MapOp

/-! ## Lists -/

/-- Whether the first of two values may stand before the second. -/
def Comparator.le (h : Heap) : Comparator → Value → Value → Bool
  | .number, a, b => a.numberOrZero.rank ≤ b.numberOrZero.rank
  | .numberDown, a, b => b.numberOrZero.rank ≤ a.numberOrZero.rank
  | .length, a, b => (h.render a).utf8ByteSize ≤ (h.render b).utf8ByteSize
  | .nothing, _, _ => true

namespace ListOp

/-- Runs an operation that owes turns; the list and `held` are held until they are over. -/
def mutating (l : ListId) (reply : Reply Value) (held : List Value)
    (operate : Heap → Heap × List WatcherId) : Act Outcome := do
  let owed ← Act.onHeap operate
  return .owing reply owed ⟨.list l :: held, []⟩

def perform (l : ListId) : ListOp → Act Outcome
  | .push v => do
    let v ← v.eval
    mutating l (.count (((← Act.heap).items l).length + 1)) [] (·.push l v)
  | .unshift v => do
    let v ← v.eval
    mutating l (.count (((← Act.heap).items l).length + 1)) [] (·.unshift l v)
  | .pop => do mutating l (.ofOption ((← Act.heap).items l).getLast?) [] (·.pop l)
  | .shift => do mutating l (.ofOption ((← Act.heap).items l).head?) [] (·.shift l)
  | .sort => mutating l .nothing [] (·.sort l)
  | .sortBy comparator => mutating l .nothing [] fun h => h.sortBy l (comparator.le h)
  | .reverse => mutating l .nothing [] (·.reverse l)
  | .splice start count inserted => do
    let inserted ← Term.evalAll inserted
    mutating l (.values ((← Act.heap).slice l start count)) inserted
      (·.splice l start count inserted)
  | .get position => return .ofReply (.ofOption ((← Act.heap).item? l position))
  | .set position v => do
    let v ← v.eval
    Act.onHeap fun h => (h.setItem l position v, ())
    return .nothing
  | .info => do
    let cell := ((← Act.heap).list? l).getD (.ofItems [])
    return .ofReply (.listInfo cell.items.length cell.observed cell.watchers)

end ListOp

/-! ## View models -/

namespace ViewModelOp

/-- Runs a write that owes turns or is refused; the view model and the written container are held
until the turns are over. -/
def writing (vm : ViewModel) (target : Option Value)
    (write : World → World × Except PathError (List WatcherId)) : Act Outcome := do
  let owed ← Act.ofPath (← Act.onWorld write)
  return .owing .done owed ⟨target.toList, [vm]⟩

def perform (vm : ViewModel) : ViewModelOp → Act Outcome
  | .clone name => do
    modify fun s => { s with viewModels := putEntry name vm s.viewModels }
    return .nothing
  | .same other => return .ofReply (.flag ((← Act.viewModel other).table = vm.table))
  | .mount name t => do
    let m ← t.evalMap
    Act.onWorld fun w => (w.mount vm name m, ())
    return .nothing
  | .container name => return .ofReply (.ofOption (((← Act.world).container? vm.table name).map .map))
  | .data => return .ofReply (.ofOption (((← Act.world).container? vm.table modelName).map .map))
  | .flatten name => return .ofReply (.count (← Act.onWorld (·.flatten vm.table name)))
  | .properties => return .ofReply (.names ((← Act.world).propertyNames vm.table))
  | .has key => return .ofReply (.flag ((← Act.world).hasProperty vm.table key))
  | .get key => return .ofReply (.value (← Act.onWorld (·.get vm.table key)))
  | .set key v => do
    let v ← v.eval
    let target := ((← Act.world).target? vm.table key).map Value.map
    writing vm target (·.setProperty vm.table key v)
  | .evaluate expression => do
    let path ← Act.parse expression
    return .ofReply (.value (← Act.onWorld (·.evaluate vm.table path)))
  | .assign expression v => do
    let path ← Act.parse expression
    let v ← v.eval
    let target := (← Act.world).assignTarget? vm.table path
    writing vm target (·.assign vm.table path v)
  | .alias method name => do
    match (← Act.world).method? vm.table method with
    | none => return .ofReply (.flag false)
    | some script =>
      Act.onWorld fun w => (w.putMethod vm.table name script, ())
      return .ofReply (.flag true)
  | .call method v => do
    let v ← v.eval
    match (← Act.world).method? vm.table method with
    | none => return .ofReply (.flag false)
    | some script => return ⟨.flag true, .call script ⟨some v, some vm⟩, .nothing⟩
  | .link name => do
    modify fun s => { s with links := putEntry name vm.link s.links }
    return .nothing

end ViewModelOp

/-- A new view model over a map, as its origin says. -/
def Origin.make : Origin → Act ViewModel
  | .nothing => Act.onWorld (·.newViewModel)
  | .mounted t => do
    let m ← t.evalMap
    Act.onWorld fun w =>
      let (w, vm) := w.newViewModel
      (w.mount vm modelName m, vm)
  | .observed t => do
    let m ← t.evalMap
    Act.onHeap fun h => (h.observe (.map m), ())
    Act.onWorld (·.viewModelOf m)

/-! ## Watchers and registries -/

def WatcherOp.perform (id : WatcherId) (op : WatcherOp) : Act Outcome := do
  match (← Act.world).watcher? id with
  | none => Act.unknown "watcher" (toString id.index)
  | some watcher =>
    match op with
    | .value => return .ofReply (.value (← Act.onWorld (·.watched watcher)))
    | .path => return .ofReply (.text watcher.path.text)
    | .update => return .owing .nothing [id] .nothing

namespace RegistryOp

/-- The container of a registry, which is held while its watchers have their turns. -/
def owner : Registry → Held
  | .slot m _ => .value (.map m)
  | .list l => .value (.list l)
  | .free _ => .nothing

def perform (r : Registry) : RegistryOp → Act Outcome
  | .register watcher => do
    let id ← Act.watcher watcher
    let before := (← Act.heap).watchers r
    Act.onHeap fun h => (h.register id r, ())
    return .ofReply (.flag (!before.contains id))
  | .depend => do
    Act.onWorld fun w => (w.depend [r], ())
    return .ofReply (.count ((← Act.heap).watchers r).length)
  | .notify => return .owing .nothing ((← Act.heap).watchers r) (owner r)
  | .info watcher => do
    let watchers := (← Act.heap).watchers r
    let contains ← match watcher with
      | none => pure none
      | some name => do pure (some (watchers.contains (← Act.watcher name)))
    return .ofReply (.registryInfo watchers contains)

end RegistryOp

/-- Whether a watcher collects: now, and in a part that registers nobody. -/
def collectingReply (w : World) : Reply Value :=
  let (_, inside) := w.untracked fun w => (w, w.collector.isSome)
  .collecting w.collector.isSome inside w.collector

end DataBinding
