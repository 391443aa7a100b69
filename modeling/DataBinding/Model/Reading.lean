-- Tracked reads. A read of an observed slot crosses the slot's registry, and the registry of a list
-- that is its value; reads of plain fields and of list items cross nothing. A walk along key path
-- segments reads one after the other and gathers all that is crossed, in order.
import DataBinding.Model.Heap
import DataBinding.Text.Search

namespace DataBinding

/-- A value that was read and the registries crossed on the way, in order. -/
structure Reading where
  value : Value
  crossed : List Registry
deriving DecidableEq, Repr

namespace Heap

/-- The registries that a read of an entry crosses. -/
def crossedBy (m : MapId) (e : Entry) : List Registry :=
  match e.watchers, e.value with
  | none, _ => []
  | some _, .list l => [.slot m e.key, .list l]
  | some _, _ => [.slot m e.key]

/-- The tracked read of a key. -/
def read (h : Heap) (m : MapId) (key : String) : Option Reading :=
  (h.lookup? m key).map fun e => ⟨e.value, crossedBy m e⟩

/-- One segment further: a key of a map or a position of a list. -/
def hop (h : Heap) (v : Value) (segment : String) : Option Reading :=
  match v with
  | .map m => h.read m segment
  | .list l => ((Text.position? segment).bind (h.item? l)).map fun item => ⟨item, []⟩
  | _ => none

/-- Walks on from a reading; what cannot be reached reads as null. -/
def walk (h : Heap) (start : Reading) (segments : List String) : Reading :=
  segments.foldl (fun r segment =>
    let next := (h.hop r.value segment).getD ⟨.null, []⟩
    ⟨next.value, r.crossed ++ next.crossed⟩) start

/-- Walks on from a reading and fails at the first segment that leads nowhere. -/
def walk? (h : Heap) (start : Reading) (segments : List String) : Option Reading :=
  segments.foldlM (fun r segment =>
    (h.hop r.value segment).map fun next => ⟨next.value, r.crossed ++ next.crossed⟩) start

theorem walk?_cons (h : Heap) (start : Reading) (segment : String) (rest : List String) :
    h.walk? start (segment :: rest) = (h.hop start.value segment).bind fun next =>
      h.walk? ⟨next.value, start.crossed ++ next.crossed⟩ rest := by
  rw [walk?, List.foldlM_cons]
  cases h.hop start.value segment <;> rfl

end Heap

end DataBinding
