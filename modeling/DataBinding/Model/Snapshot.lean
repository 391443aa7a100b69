-- Snapshots of values: a finite tree with everything a value shows, its registries included. A
-- container that is open above itself ends the tree there, by its depth below the outermost one,
-- so a cyclic value has a snapshot too.
import DataBinding.Model.Heap

namespace DataBinding

/-- What a value shows. The entries of a map come in their own order, each with its registry. -/
inductive Snapshot where
  | null
  | bool (b : Bool)
  | number (n : Number)
  | text (s : String)
  | map (entries : List (String × Option (List WatcherId) × Snapshot)) (observed : Bool)
  | list (items : List Snapshot) (observed : Bool) (watchers : List WatcherId)
  | loop (depth : Nat)

/-- How many containers are open outside a given one; the innermost comes first. -/
def depthAmong? (c : Container) : List Container → Option Nat
  | [] => none
  | innermost :: outer => if innermost = c then some outer.length else depthAmong? c outer

theorem depthAmong?_eq_none_iff {c : Container} {opened : List Container} :
    depthAmong? c opened = none ↔ c ∉ opened := by
  induction opened with
  | nil => simp [depthAmong?]
  | cons d outer ih => by_cases h : d = c <;> simp [depthAmong?, h, ih, eq_comm (a := c)]

namespace Heap

/-- The snapshot of a value inside the open containers, innermost first. A container that is not
live shows as null; `fuel` bounds how many containers may still open. -/
def snapshotIn (h : Heap) : Nat → List Container → Value → Snapshot
  | _, _, .null => .null
  | _, _, .bool b => .bool b
  | _, _, .number n => .number n
  | _, _, .text s => .text s
  | 0, _, _ => .null
  | fuel + 1, opened, .map m =>
    match depthAmong? (.map m) opened, h.map? m with
    | some depth, _ => .loop depth
    | none, none => .null
    | none, some c =>
      .map (c.entries.map fun e => (e.key, e.watchers, h.snapshotIn fuel (.map m :: opened) e.value))
        c.observed
  | fuel + 1, opened, .list l =>
    match depthAmong? (.list l) opened, h.list? l with
    | some depth, _ => .loop depth
    | none, none => .null
    | none, some c =>
      .list (c.items.map (h.snapshotIn fuel (.list l :: opened))) c.observed c.watchers

/-- The snapshot of a value. Every open container is another one, so as many levels as there are
containers, and one more for a loop, always suffice. -/
def snapshot (h : Heap) (v : Value) : Snapshot :=
  h.snapshotIn (h.maps.size + h.lists.size + 1) [] v

end Heap

end DataBinding
