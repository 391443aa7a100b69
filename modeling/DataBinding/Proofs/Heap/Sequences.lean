-- Lists as plain sequences. Six of the operations remove a range of a sequence and put other items in
-- its place: each of them is a splice, at the end or at the front. A reversal turns the sequence
-- around, and a write to a position fills the gap up to it.
import DataBinding.Proofs.Heap.Edits
import DataBinding.Model.Sequence

namespace DataBinding

/-! ## Plain sequences -/

/-- One sequence is another one with `count` items from `start` on, as far as it has them, removed and
other items in their place. -/
def Spliced (xs : List Value) (start count : Nat) (inserted removed ys : List Value) : Prop :=
  ∃ before after, xs = before ++ removed ++ after ∧ ys = before ++ inserted ++ after ∧
    before.length = min start xs.length ∧
    before.length + removed.length = min (min start xs.length + count) xs.length

/-- One sequence is another one with a value at a position, and null wherever that is past the end. It says
something about a write only below the greatest word, 2^64 - 1, where the new length is a word, too. -/
structure Placed (xs : List Value) (position : Nat) (v : Value) (ys : List Value) : Prop where
  length : ys.length = max xs.length (position + 1)
  here : ys[position]? = some v
  gap : ∀ i, xs.length ≤ i → i < position → ys[i]? = some .null
  others : ∀ i, i < xs.length → i ≠ position → ys[i]? = xs[i]?

variable {xs : List Value}

theorem spliced_range (start count : Nat) (inserted : List Value) :
    Spliced xs start count inserted
      ((xs.take (Heap.rangeIn xs.length start count).2).drop (Heap.rangeIn xs.length start count).1)
      (xs.take (Heap.rangeIn xs.length start count).1 ++ inserted ++
        xs.drop (Heap.rangeIn xs.length start count).2) := by
  simp only [Heap.rangeIn]
  generalize hf : min start xs.length = first
  generalize hp : min (first + count) xs.length = past
  have le : first ≤ past := by omega
  refine ⟨xs.take first, xs.drop past, ?_, rfl, by simp; omega, by simp; omega⟩
  have front : xs.take first = (xs.take past).take first := by rw [List.take_take, Nat.min_eq_left le]
  rw [front, List.take_append_drop, List.take_append_drop]

theorem spliced_end (v : Value) : Spliced xs xs.length 0 [v] [] (xs ++ [v]) :=
  ⟨xs, [], by simp, by simp, by simp, by simp⟩

theorem spliced_front (v : Value) : Spliced xs 0 0 [v] [] (v :: xs) :=
  ⟨[], xs, by simp, by simp, by simp, by simp⟩

theorem spliced_last : Spliced xs (xs.length - 1) 1 [] xs.getLast?.toList xs.dropLast := by
  rcases List.eq_nil_or_concat xs with rfl | ⟨front, last, rfl⟩
  · exact ⟨[], [], by simp, by simp, by simp, by simp⟩
  · exact ⟨front, [], by simp, by simp, by simp, by simp⟩

theorem spliced_first : Spliced xs 0 1 [] xs.head?.toList xs.tail := by
  cases xs with
  | nil => exact ⟨[], [], by simp, by simp, by simp, by simp⟩
  | cons first rest => exact ⟨[], rest, by simp, by simp, by simp, by simp⟩

theorem placed_set (position : Nat) (v : Value) : Placed xs position v
    ((xs ++ List.replicate (position + 1 - xs.length) Value.null).set position v) := by
  refine ⟨by simp; omega, ?_, fun i past before => ?_, fun i within ne => ?_⟩
  · rw [List.getElem?_set_self (by simp; omega)]
  · rw [List.getElem?_set_ne (Nat.ne_of_gt before), List.getElem?_append_right past,
      List.getElem?_replicate, if_pos (by omega)]
  · rw [List.getElem?_set_ne (Ne.symm ne), List.getElem?_append_left within]

namespace Heap

variable {h : Heap} {l : ListId}

theorem items_mutate (live : h.isLive (.list l) = true) (items inserted : List Value) :
    (h.mutate l items inserted).1.items l = items := by
  obtain ⟨c, hc⟩ := Option.isSome_iff_exists.mp live
  have stored : (h.changeList l ({ · with items })).items l = items := by
    simp [Heap.items, list?_changeList, hc]
  rcases h.mutate_cases l items inserted with ⟨dead, _⟩ | ⟨_, _, _, e⟩ | ⟨_, _, _, e⟩
  · rw [hc] at dead
    contradiction
  · rw [e, (observedFrom_observeAll _ _).items l, stored]
  · rw [e, stored]

theorem items_setItem (live : h.isLive (.list l) = true) (position : Nat) (v : Value) :
    (h.setItem l position v).items l =
      (h.items l ++ List.replicate (position + 1 - (h.items l).length) Value.null).set position v := by
  obtain ⟨c, hc⟩ := Option.isSome_iff_exists.mp live
  simp [setItem, items, list?_changeList, hc]

end Heap

end DataBinding
