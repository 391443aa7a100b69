-- Writes to maps. Every write hands back the watchers it owes a turn: those of an observed slot
-- whose value changed, in the order of their registration, and no one in every other case.
import DataBinding.Model.Observe

namespace DataBinding.Heap

/-- Stores a value under a key. A slot takes a value that differs from its own, observed first,
and owes its watchers a turn each; any other key holds the value as a plain field. -/
def set (h : Heap) (m : MapId) (key : String) (v : Value) : Heap × List WatcherId :=
  match h.lookup? m key with
  | some { value := old, watchers := some watchers, .. } =>
    if old.same v then (h, []) else ((h.observe v).changeMap m (·.store key v), watchers)
  | _ => (h.changeMap m (·.store key v), [])

/-- Makes a key an observed slot with the given value; nobody gets a turn. -/
def define (h : Heap) (m : MapId) (key : String) (v : Value) : Heap :=
  (h.observe v).changeMap m (·.install key v)

/-- Adds a slot to a map; on a slot that exists it is an ordinary write. -/
def attach (h : Heap) (m : MapId) (key : String) (v : Value) : Heap × List WatcherId :=
  if h.isSlot m key then h.set m key v else (h.define m key v, [])

end DataBinding.Heap
