-- Observation of values. `Heap.observe` marks every container it can reach through containers that
-- were not observed yet, and makes every entry of a newly marked map a slot. A container that is
-- observed is left as it is, so the walk ends on shared and cyclic values too: each step marks a
-- container or shortens the list of values that are left.
import DataBinding.Model.Heap

namespace DataBinding.Heap

/-! ## The measure -/

def openMaps (h : Heap) : Nat := h.maps.countP fun c => c.any fun c => !c.observed

def openLists (h : Heap) : Nat := h.lists.countP fun c => c.any fun c => !c.observed

/-- How many live containers are not observed. -/
def unobserved (h : Heap) : Nat := h.openMaps + h.openLists

/-- Replacing one element that counts by one that does not lowers the count. -/
theorem countP_setIfInBounds_lt {α : Type} (p : α → Bool) (a : Array α) (i : Nat) (x y : α)
    (hi : a[i]? = some x) (hx : p x = true) (hy : p y = false) :
    (a.setIfInBounds i y).countP p < a.countP p := by
  obtain ⟨hlt, rfl⟩ := Array.getElem?_eq_some_iff.mp hi
  have hpos : 0 < a.countP p := Array.countP_pos_iff.mpr ⟨a[i], Array.getElem_mem hlt, hx⟩
  rw [Array.setIfInBounds, dif_pos hlt, Array.countP_set]
  simp only [hx, hy, Bool.false_eq_true, if_true, if_false]
  omega

theorem unobserved_putMap_lt {h : Heap} {m : MapId} {c c' : MapCell} (hc : h.map? m = some c)
    (unmarked : c.observed = false) (marked : c'.observed = true) :
    (h.putMap m c').unobserved < h.unobserved := by
  have hi : h.maps[m.index]? = some (some c) := by
    simpa [map?, Option.join_eq_some_iff] using hc
  have := countP_setIfInBounds_lt (fun c : Option MapCell => c.any fun c => !c.observed)
    h.maps m.index (some c) (some c') hi (by simp [unmarked]) (by simp [marked])
  simpa [unobserved, openMaps, openLists, putMap] using this

theorem unobserved_putList_lt {h : Heap} {l : ListId} {c c' : ListCell} (hc : h.list? l = some c)
    (unmarked : c.observed = false) (marked : c'.observed = true) :
    (h.putList l c').unobserved < h.unobserved := by
  have hi : h.lists[l.index]? = some (some c) := by
    simpa [list?, Option.join_eq_some_iff] using hc
  have := countP_setIfInBounds_lt (fun c : Option ListCell => c.any fun c => !c.observed)
    h.lists l.index (some c) (some c') hi (by simp [unmarked]) (by simp [marked])
  simpa [unobserved, openMaps, openLists, putList] using this

/-! ## The walk -/

/-- Observes all values of a list: a container that is not observed is marked, its entries become
slots, and its contents are observed next. -/
def observeAll (h : Heap) : List Value → Heap
  | [] => h
  | .map m :: rest =>
    match _ : h.map? m with
    | none => h.observeAll rest
    | some c =>
      if _ : c.observed then h.observeAll rest
      else (h.putMap m c.slotted).observeAll (c.contents ++ rest)
  | .list l :: rest =>
    match _ : h.list? l with
    | none => h.observeAll rest
    | some c =>
      if _ : c.observed then h.observeAll rest
      else (h.putList l { c with observed := true }).observeAll (c.items ++ rest)
  | _ :: rest => h.observeAll rest
termination_by pending => (h.unobserved, pending.length)
decreasing_by
  all_goals first
    | exact Prod.Lex.right _ (by simp)
    | exact Prod.Lex.left _ _ (unobserved_putMap_lt ‹_› (by simp_all) rfl)
    | exact Prod.Lex.left _ _ (unobserved_putList_lt ‹_› (by simp_all) rfl)

/-- Makes a value and all it holds observed. -/
def observe (h : Heap) (v : Value) : Heap := h.observeAll [v]

end DataBinding.Heap
