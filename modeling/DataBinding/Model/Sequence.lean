-- Operations on lists. The seven operations that change the length or the order of a list share
-- `mutate`: the items are replaced, the inserted ones are observed, and the watchers of an observed
-- list are owed one turn each, also if nothing changed. A write to a position observes nothing and
-- owes nobody a turn.
import DataBinding.Model.Observe
import DataBinding.Model.Document

namespace DataBinding.Heap

/-- Replaces the items of a list, of which some are newly inserted. -/
def mutate (h : Heap) (l : ListId) (items inserted : List Value) : Heap × List WatcherId :=
  match h.list? l with
  | none => (h, [])
  | some c =>
    let stored := h.putList l { c with items }
    if c.observed then (stored.observeAll inserted, c.watchers) else (stored, [])

/-! ## Ends of the list -/

def push (h : Heap) (l : ListId) (v : Value) : Heap × List WatcherId :=
  h.mutate l (h.items l ++ [v]) [v]

def unshift (h : Heap) (l : ListId) (v : Value) : Heap × List WatcherId :=
  h.mutate l (v :: h.items l) [v]

def pop (h : Heap) (l : ListId) : Heap × List WatcherId :=
  h.mutate l (h.items l).dropLast []

def shift (h : Heap) (l : ListId) : Heap × List WatcherId :=
  h.mutate l (h.items l).tail []

/-! ## Order -/

def reverse (h : Heap) (l : ListId) : Heap × List WatcherId :=
  h.mutate l (h.items l).reverse []

/-- The order of a sort without a comparator: by text, null last. -/
def textOrder (h : Heap) (a b : Value) : Bool :=
  match a.isNull, b.isNull with
  | true, other => other
  | false, true => true
  | false, false => decide (h.render a ≤ h.render b)

/-- Stable sort by `le`, which says whether the first of two items may stand before the second. -/
def sortBy (h : Heap) (l : ListId) (le : Value → Value → Bool) : Heap × List WatcherId :=
  h.mutate l ((h.items l).mergeSort le) []

def sort (h : Heap) (l : ListId) : Heap × List WatcherId := h.sortBy l h.textOrder

/-! ## Ranges -/

/-- The bounds of a range of a list, both cut off at its length. -/
def rangeIn (length start count : Nat) : Nat × Nat :=
  let first := min start length
  (first, min (first + count) length)

/-- The items of a range. -/
def slice (h : Heap) (l : ListId) (start count : Nat) : List Value :=
  let items := h.items l
  let (first, past) := rangeIn items.length start count
  (items.take past).drop first

/-- Replaces a range by other items. -/
def splice (h : Heap) (l : ListId) (start count : Nat) (inserted : List Value) :
    Heap × List WatcherId :=
  let items := h.items l
  let (first, past) := rangeIn items.length start count
  h.mutate l (items.take first ++ inserted ++ items.drop past) inserted

/-! ## Positions -/

/-- Writes to a position. A position past the end is filled up to with nulls. The position has to be below
the greatest word, 2^64 - 1: a list with an item there would have a length that is no word. -/
def setItem (h : Heap) (l : ListId) (position : Nat) (v : Value) : Heap :=
  h.changeList l fun c =>
    let padded := c.items ++ List.replicate (position + 1 - c.items.length) .null
    { c with items := padded.set position v }

end DataBinding.Heap
