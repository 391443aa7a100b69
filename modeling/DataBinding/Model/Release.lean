-- Release of containers. A container is held from outside the heap or by live containers.
-- `Heap.release` counts how often each one is held, frees those that nothing holds, and goes on with
-- what only the freed ones held. Containers that hold each other in a circle are never freed. Each
-- step frees a container or shortens the list of those that are left to look at.
import DataBinding.Model.Observe

namespace DataBinding

/-! ## Counts -/

/-- How often each container is held. -/
structure HoldCounts where
  maps : Array Nat
  lists : Array Nat

namespace HoldCounts

def of (t : HoldCounts) : Container → Nat
  | .map m => t.maps[m.index]?.getD 0
  | .list l => t.lists[l.index]?.getD 0

@[inline]
def change (t : HoldCounts) (f : Nat → Nat) : Container → HoldCounts
  | .map m => { t with maps := t.maps.modify m.index f }
  | .list l => { t with lists := t.lists.modify l.index f }

/-- One hold more of what a value names. A scalar names nothing. -/
def raise (t : HoldCounts) : Value → HoldCounts
  | .map m => t.change (· + 1) (.map m)
  | .list l => t.change (· + 1) (.list l)
  | _ => t

/-- One hold less of what a value names. -/
def lower (t : HoldCounts) : Value → HoldCounts
  | .map m => t.change (· - 1) (.map m)
  | .list l => t.change (· - 1) (.list l)
  | _ => t

theorem of_change_of_ne (t : HoldCounts) (f : Nat → Nat) {c d : Container} (ne : d ≠ c) :
    (t.change f c).of d = t.of d := by
  match c, d with
  | .map m, .map n =>
    have : m.index ≠ n.index := fun e => ne (by cases m; cases n; simp_all)
    simp [change, of, Array.getElem?_modify, this]
  | .list k, .list l =>
    have : k.index ≠ l.index := fun e => ne (by cases k; cases l; simp_all)
    simp [change, of, Array.getElem?_modify, this]
  | .map _, .list _ => rfl
  | .list _, .map _ => rfl

end HoldCounts

namespace Heap

/-- The values that a container holds; a freed one holds nothing. -/
def contents (h : Heap) : Container → List Value
  | .map m => ((h.map? m).map MapCell.contents).getD []
  | .list l => h.items l

/-- How often each container is held, by the given values and by live containers. -/
def holdCounts (h : Heap) (held : List Value) : HoldCounts :=
  let none : HoldCounts := ⟨.replicate h.maps.size 0, .replicate h.lists.size 0⟩
  let outside := held.foldl .raise none
  let maps := h.maps.foldl (fun t c => match c with
    | some c => c.entries.foldl (fun t e => t.raise e.value) t
    | .none => t) outside
  h.lists.foldl (fun t c => match c with
    | some c => c.items.foldl .raise t
    | .none => t) maps

/-- The live containers that are held by nothing. -/
def unheld (h : Heap) (counts : HoldCounts) : List Container :=
  let free (cs : List Container) (c : Container) : List Container :=
    if counts.of c = 0 ∧ h.isLive c = true then c :: cs else cs
  let maps := h.maps.size.fold (fun i _ cs => free cs (.map ⟨i⟩)) []
  h.lists.size.fold (fun i _ cs => free cs (.list ⟨i⟩)) maps

/-! ## Freeing -/

/-- Empties the cell of a container. -/
def free (h : Heap) : Container → Heap
  | .map m => { h with maps := h.maps.setIfInBounds m.index none }
  | .list l => { h with lists := h.lists.setIfInBounds l.index none }

/-- How many containers are live. -/
def liveCount (h : Heap) : Nat := h.maps.countP Option.isSome + h.lists.countP Option.isSome

theorem liveCount_free_lt {h : Heap} {c : Container} (live : h.isLive c = true) :
    (h.free c).liveCount < h.liveCount := by
  match c with
  | .map m =>
    obtain ⟨cell, hc⟩ := Option.isSome_iff_exists.mp live
    have hi : h.maps[m.index]? = some (some cell) := by
      simpa [map?, Option.join_eq_some_iff] using hc
    have := countP_setIfInBounds_lt Option.isSome h.maps m.index (some cell) none hi rfl rfl
    simpa [liveCount, free] using this
  | .list l =>
    obtain ⟨cell, hc⟩ := Option.isSome_iff_exists.mp live
    have hi : h.lists[l.index]? = some (some cell) := by
      simpa [list?, Option.join_eq_some_iff] using hc
    have := countP_setIfInBounds_lt Option.isSome h.lists l.index (some cell) none hi rfl rfl
    simpa [liveCount, free] using this

/-- Frees those of the given containers that are held no more, and then what only they held. -/
def releaseAll (h : Heap) (counts : HoldCounts) : List Container → Heap
  | [] => h
  | c :: pending =>
    if _ : h.isLive c = true ∧ counts.of c = 0 then
      let contents := h.contents c
      (h.free c).releaseAll (contents.foldl .lower counts)
        (contents.filterMap Value.container? ++ pending)
    else h.releaseAll counts pending
termination_by pending => (h.liveCount, pending.length)
decreasing_by
  · exact Prod.Lex.left _ _ (liveCount_free_lt ‹_ ∧ _›.1)
  · exact Prod.Lex.right _ (by simp)

/-- Frees the containers that nothing holds, as long as there are some. -/
def release (h : Heap) (held : List Value) : Heap :=
  let counts := h.holdCounts held
  h.releaseAll counts (h.unheld counts)

/-! ## What a release leaves -/

theorem map?_free (h : Heap) (c : Container) (m : MapId) :
    (h.free c).map? m = h.map? m ∨ (h.free c).map? m = none := by
  match c with
  | .map n =>
    by_cases e : n.index = m.index
    · by_cases hlt : m.index < h.maps.size <;> simp [map?, free, e, hlt]
    · simp [map?, free, Array.getElem?_setIfInBounds_ne e]
  | .list _ => exact .inl rfl

theorem list?_free (h : Heap) (c : Container) (l : ListId) :
    (h.free c).list? l = h.list? l ∨ (h.free c).list? l = none := by
  match c with
  | .map _ => exact .inl rfl
  | .list k =>
    by_cases e : k.index = l.index
    · by_cases hlt : l.index < h.lists.size <;> simp [list?, free, e, hlt]
    · simp [list?, free, Array.getElem?_setIfInBounds_ne e]

/-- A map is as it was before, or it is freed. -/
theorem map?_releaseAll (h : Heap) (counts : HoldCounts) (pending : List Container) (m : MapId) :
    (h.releaseAll counts pending).map? m = h.map? m ∨
      (h.releaseAll counts pending).map? m = none := by
  fun_induction releaseAll h counts pending with
  | case1 => exact .inl rfl
  | case2 h _ c _ _ _ ih =>
    rcases map?_free h c m with e | e
    · rwa [e] at ih
    · exact .inr (by simpa [e] using ih)
  | case3 _ _ _ _ _ ih => exact ih

/-- A list is as it was before, or it is freed. -/
theorem list?_releaseAll (h : Heap) (counts : HoldCounts) (pending : List Container) (l : ListId) :
    (h.releaseAll counts pending).list? l = h.list? l ∨
      (h.releaseAll counts pending).list? l = none := by
  fun_induction releaseAll h counts pending with
  | case1 => exact .inl rfl
  | case2 h _ c _ _ _ ih =>
    rcases list?_free h c l with e | e
    · rwa [e] at ih
    · exact .inr (by simpa [e] using ih)
  | case3 _ _ _ _ _ ih => exact ih

end Heap

end DataBinding
