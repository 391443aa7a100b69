-- The heap of containers. A map keeps its entries in the order of their first insertion; an entry
-- is a plain field or an observed slot with a registry of watchers. A list has one registry of its
-- own. A released container leaves an empty cell, which is never used again, so a handle never
-- changes its meaning.
import DataBinding.Model.Value

namespace DataBinding

/-! ## Registries -/

structure WatcherId where
  index : Nat
deriving DecidableEq, Repr, Hashable

structure RegistryId where
  index : Nat
deriving DecidableEq, Repr

/-- The place of a registry: an observed slot, a list, or a registry that stands free. -/
inductive Registry where
  | slot (m : MapId) (key : String)
  | list (l : ListId)
  | free (r : RegistryId)
deriving DecidableEq, Repr

/-- Adds a watcher at the end, unless it is there already. -/
def enlist (watchers : List WatcherId) (w : WatcherId) : List WatcherId :=
  if w ∈ watchers then watchers else watchers ++ [w]

theorem mem_enlist {watchers : List WatcherId} {w x : WatcherId} :
    x ∈ enlist watchers w ↔ x ∈ watchers ∨ x = w := by
  by_cases h : w ∈ watchers
  · simp only [enlist, if_pos h]
    exact ⟨Or.inl, fun hx => hx.elim id fun e => e ▸ h⟩
  · simp [enlist, h]

/-- Nobody is in a registry twice. -/
theorem nodup_enlist {watchers : List WatcherId} (w : WatcherId) (h : watchers.Nodup) :
    (enlist watchers w).Nodup := by
  by_cases hw : w ∈ watchers
  · simpa [enlist, hw] using h
  · simp only [enlist, if_neg hw, List.nodup_append, h, List.nodup_cons, List.not_mem_nil,
      not_false_eq_true, List.nodup_nil, and_self, List.mem_singleton, forall_eq, true_and]
    intro x hx e
    exact hw (e ▸ hx)

/-- A registry keeps its watchers, in their order, when one more is added. -/
theorem enlist_extends (watchers : List WatcherId) (w : WatcherId) :
    watchers <+: enlist watchers w := by
  by_cases hw : w ∈ watchers
  · simp [enlist, hw]
  · simp [enlist, hw]

/-! ## Cells -/

/-- An entry of a map. It is a plain field if it has no registry, and an observed slot if it has
one, be it empty. -/
structure Entry where
  key : String
  value : Value
  watchers : Option (List WatcherId)
deriving DecidableEq, Repr

structure MapCell where
  entries : List Entry
  observed : Bool
deriving DecidableEq, Repr

structure ListCell where
  items : List Value
  observed : Bool
  watchers : List WatcherId
deriving DecidableEq, Repr

namespace Entry

/-- The entry as an observed slot; a slot keeps its registry. -/
def slotted (e : Entry) : Entry := { e with watchers := some (e.watchers.getD []) }

def enlist (e : Entry) (w : WatcherId) : Entry :=
  { e with watchers := e.watchers.map (DataBinding.enlist · w) }

end Entry

namespace MapCell

def ofEntries (entries : List Entry) : MapCell := ⟨entries, false⟩

def keys (c : MapCell) : List String := c.entries.map (·.key)

def lookup? (c : MapCell) (key : String) : Option Entry := c.entries.find? (·.key = key)

/-- Changes the entry of a key in its place, or adds one at the end. -/
def alter (c : MapCell) (key : String) (change : Entry → Entry) (fresh : Entry) : MapCell :=
  if (c.lookup? key).isSome then
    { c with entries := c.entries.map fun e => if e.key = key then change e else e }
  else { c with entries := c.entries ++ [fresh] }

/-- Keys keep their order, and a new one comes last. -/
theorem keys_alter (c : MapCell) (key : String) {change : Entry → Entry} {fresh : Entry}
    (same : ∀ e, (change e).key = e.key) (hf : fresh.key = key) :
    (c.alter key change fresh).keys = if key ∈ c.keys then c.keys else c.keys ++ [key] := by
  have hmem : (c.lookup? key).isSome ↔ key ∈ c.keys := by
    simp [lookup?, keys, List.find?_isSome]
  by_cases h : (c.lookup? key).isSome
  · rw [if_pos (hmem.mp h), alter, if_pos h, keys, keys, List.map_map]
    congr 1
    funext e
    by_cases he : e.key = key <;> simp [he, same]
  · rw [if_neg (mt hmem.mpr h), alter, if_neg h]
    simp [keys, hf]

/-- Stores a value; a slot stays a slot, and a new key is a plain field. -/
def store (c : MapCell) (key : String) (v : Value) : MapCell :=
  c.alter key (fun e => { e with value := v }) ⟨key, v, none⟩

/-- Stores a value in an observed slot; a slot keeps its registry. -/
def install (c : MapCell) (key : String) (v : Value) : MapCell :=
  c.alter key (fun e => { e with value := v }.slotted) ⟨key, v, some []⟩

/-- The map marked as observed, with every entry a slot. -/
def slotted (c : MapCell) : MapCell := ⟨c.entries.map Entry.slotted, true⟩

/-- Adds a watcher to the registry of a slot. -/
def enlist (c : MapCell) (key : String) (w : WatcherId) : MapCell :=
  { c with entries := c.entries.map fun e => if e.key = key then e.enlist w else e }

/-- The values a map holds. -/
def contents (c : MapCell) : List Value := c.entries.map (·.value)

end MapCell

namespace ListCell

def ofItems (items : List Value) : ListCell := ⟨items, false, []⟩

end ListCell

/-! ## The heap -/

structure Heap where
  maps : Array (Option MapCell)
  lists : Array (Option ListCell)
  registries : Array (List WatcherId)

namespace Heap

def empty : Heap := ⟨#[], #[], #[]⟩

def map? (h : Heap) (m : MapId) : Option MapCell := h.maps[m.index]?.join

def list? (h : Heap) (l : ListId) : Option ListCell := h.lists[l.index]?.join

def isLive (h : Heap) : Container → Bool
  | .map m => (h.map? m).isSome
  | .list l => (h.list? l).isSome

/-- A fresh map holding the given entries as plain fields. A repeated key keeps its first place
and takes the last value. -/
def newMap (h : Heap) (entries : List (String × Value)) : Heap × MapId :=
  let cell := entries.foldl (fun c (key, v) => c.store key v) (MapCell.ofEntries [])
  ({ h with maps := h.maps.push (some cell) }, ⟨h.maps.size⟩)

def newList (h : Heap) (items : List Value) : Heap × ListId :=
  ({ h with lists := h.lists.push (some (.ofItems items)) }, ⟨h.lists.size⟩)

def newRegistry (h : Heap) : Heap × RegistryId :=
  ({ h with registries := h.registries.push [] }, ⟨h.registries.size⟩)

/-- Puts a cell in the place of a map. -/
def putMap (h : Heap) (m : MapId) (cell : MapCell) : Heap :=
  { h with maps := h.maps.setIfInBounds m.index (some cell) }

def putList (h : Heap) (l : ListId) (cell : ListCell) : Heap :=
  { h with lists := h.lists.setIfInBounds l.index (some cell) }

theorem map?_putMap_self {h : Heap} {m : MapId} {cell old : MapCell} (live : h.map? m = some old) :
    (h.putMap m cell).map? m = some cell := by
  have hlt : m.index < h.maps.size := by
    by_cases hlt : m.index < h.maps.size
    · exact hlt
    · simp [map?, hlt] at live
  simp [map?, putMap, hlt]

theorem map?_putMap_of_ne {h : Heap} {m other : MapId} {cell : MapCell} (ne : other ≠ m) :
    (h.putMap m cell).map? other = h.map? other := by
  have : m.index ≠ other.index := fun e => ne (by cases m; cases other; simp_all)
  simp [map?, putMap, Array.getElem?_setIfInBounds_ne this]

theorem list?_putList_self {h : Heap} {l : ListId} {cell old : ListCell}
    (live : h.list? l = some old) : (h.putList l cell).list? l = some cell := by
  have hlt : l.index < h.lists.size := by
    by_cases hlt : l.index < h.lists.size
    · exact hlt
    · simp [list?, hlt] at live
  simp [list?, putList, hlt]

theorem list?_putList_of_ne {h : Heap} {l other : ListId} {cell : ListCell} (ne : other ≠ l) :
    (h.putList l cell).list? other = h.list? other := by
  have : l.index ≠ other.index := fun e => ne (by cases l; cases other; simp_all)
  simp [list?, putList, Array.getElem?_setIfInBounds_ne this]

@[simp]
theorem list?_putMap (h : Heap) (m : MapId) (cell : MapCell) (l : ListId) :
    (h.putMap m cell).list? l = h.list? l := rfl

@[simp]
theorem map?_putList (h : Heap) (l : ListId) (cell : ListCell) (m : MapId) :
    (h.putList l cell).map? m = h.map? m := rfl

/-- Changes a map that is live. -/
def changeMap (h : Heap) (m : MapId) (change : MapCell → MapCell) : Heap :=
  match h.map? m with
  | some cell => h.putMap m (change cell)
  | none => h

def changeList (h : Heap) (l : ListId) (change : ListCell → ListCell) : Heap :=
  match h.list? l with
  | some cell => h.putList l (change cell)
  | none => h

def lookup? (h : Heap) (m : MapId) (key : String) : Option Entry :=
  (h.map? m).bind (·.lookup? key)

/-- The value of a key, without a look at any registry. -/
def peek (h : Heap) (m : MapId) (key : String) : Option Value := (h.lookup? m key).map (·.value)

def item? (h : Heap) (l : ListId) (position : Nat) : Option Value :=
  (h.list? l).bind (·.items[position]?)

def keys (h : Heap) (m : MapId) : List String := ((h.map? m).map MapCell.keys).getD []

def items (h : Heap) (l : ListId) : List Value := ((h.list? l).map (·.items)).getD []

/-- Whether a key is an observed slot. -/
def isSlot (h : Heap) (m : MapId) (key : String) : Bool :=
  ((h.lookup? m key).bind (·.watchers)).isSome

/-! ## Watchers of a registry -/

/-- The watchers of a registry in the order of their registration; none if there is no such
registry. -/
def watchers? (h : Heap) : Registry → Option (List WatcherId)
  | .slot m key => (h.lookup? m key).bind (·.watchers)
  | .list l => (h.list? l).map (·.watchers)
  | .free r => h.registries[r.index]?

def watchers (h : Heap) (r : Registry) : List WatcherId := (h.watchers? r).getD []

/-- Adds a watcher to a registry, unless it is there already. -/
def register (h : Heap) (w : WatcherId) : Registry → Heap
  | .slot m key => h.changeMap m (·.enlist key w)
  | .list l => h.changeList l fun c => { c with watchers := enlist c.watchers w }
  | .free r => { h with registries := h.registries.modify r.index (enlist · w) }

end Heap

end DataBinding
