-- Sorting a list. The order by text, null last, is a total preorder, so the sort without a comparator is
-- stable, and a list is the same after it however the items of different texts stood before. A
-- comparator that is a total preorder sorts in the same way.
import DataBinding.Proofs.Heap.Liveness
import DataBinding.Proofs.Heap.Sequences
import DataBinding.Proofs.Heap.Unfolding
import DataBinding.Proofs.Text.Bytes

namespace DataBinding

/-! ## Stable sorts of plain lists -/

/-- A reordering that keeps the relative order of items that `same` does not tell apart. -/
structure Rearranges {α : Type} (same : α → α → Bool) (xs ys : List α) : Prop where
  perm : ys.Perm xs
  order : ∀ x, ys.filter (same x) = xs.filter (same x)

namespace Rearranges

variable {α : Type} {same : α → α → Bool} {xs ys zs : List α}

theorem trans (first : Rearranges same xs ys) (second : Rearranges same ys zs) :
    Rearranges same xs zs :=
  ⟨second.perm.trans first.perm, fun x => (second.order x).trans (first.order x)⟩

theorem symm (r : Rearranges same xs ys) : Rearranges same ys xs :=
  ⟨r.perm.symm, fun x => (r.order x).symm⟩

end Rearranges

section Preorders

variable {α : Type} {le : α → α → Bool} (trans : ∀ a b c, le a b → le b c → le a c)
  (total : ∀ a b, (le a b || le b a) = true)
include trans total

/-- Merge sort keeps the relative order of items of which each may stand before the other. -/
theorem rearranges_mergeSort (xs : List α) :
    Rearranges (fun a b => le a b && le b a) xs (xs.mergeSort le) := by
  have perm := List.mergeSort_perm xs le
  refine ⟨perm, fun x => ?_⟩
  -- the items tied with `x` are sorted as they stand, so merge sort keeps them as a sublist
  have tied : (xs.filter fun b => le x b && le b x).Pairwise fun a b => le a b := by
    refine List.pairwise_of_forall_mem_list fun a ha b hb => ?_
    have ha := (List.mem_filter.mp ha).2
    have hb := (List.mem_filter.mp hb).2
    rw [Bool.and_eq_true] at ha hb
    exact trans a x b ha.2 hb.1
  have within := (List.sublist_mergeSort trans total tied List.filter_sublist).filter
    fun b => le x b && le b x
  simp only [List.filter_filter, Bool.and_self] at within
  refine (within.eq_of_length ?_).symm
  exact (perm.filter _).length_eq.symm

omit trans in
/-- Sorted lists with the same items in the same relative order are the same. -/
theorem eq_of_rearranges {xs ys : List α} (hx : xs.Pairwise fun a b => le a b)
    (hy : ys.Pairwise fun a b => le a b)
    (same : Rearranges (fun a b => le a b && le b a) xs ys) : ys = xs := by
  have refl (a : α) : le a a = true := by simpa using total a a
  induction xs generalizing ys with
  | nil => exact same.perm.eq_nil
  | cons a xs ih =>
    obtain _ | ⟨b, ys⟩ := ys
    · exact absurd same.perm.symm.eq_nil (List.cons_ne_nil a xs)
    have ab : le a b := by
      rcases List.mem_cons.mp (same.perm.mem_iff.mp List.mem_cons_self) with rfl | hb
      · exact refl b
      · exact (List.pairwise_cons.mp hx).1 b hb
    have ba : le b a := by
      rcases List.mem_cons.mp (same.perm.mem_iff.mpr List.mem_cons_self) with rfl | ha
      · exact refl a
      · exact (List.pairwise_cons.mp hy).1 a ha
    -- the heads are tied, so the first item of their class is the head of both lists
    obtain rfl : b = a := by
      have first := same.order a
      simp only [List.filter_cons, ab, ba, refl, Bool.and_self, if_true, List.cons.injEq] at first
      exact first.1
    rw [ih hx.of_cons hy.of_cons ⟨same.perm.cons_inv, fun x => ?_⟩]
    have rest := same.order x
    simp only [List.filter_cons] at rest
    split at rest
    · exact (List.cons.inj rest).2
    · exact rest

/-- A sort forgets how the items stood, apart from the order of those that it does not tell apart. -/
theorem mergeSort_eq_of_rearranges {xs zs : List α}
    (same : Rearranges (fun a b => le a b && le b a) xs zs) : zs.mergeSort le = xs.mergeSort le :=
  eq_of_rearranges total (List.pairwise_mergeSort trans total xs) (List.pairwise_mergeSort trans total zs)
    ((rearranges_mergeSort trans total xs).symm.trans
      (same.trans (rearranges_mergeSort trans total zs)))

end Preorders

namespace Heap

/-! ## The order by text -/

/-- Two items between which the order by text does not choose: both are null, or neither is and their
texts are the same. -/
def sameText (h : Heap) (a b : Value) : Bool :=
  a.isNull == b.isNull && (a.isNull || h.render a == h.render b)

/-- The items sorted by their texts: those that are not null ascend by the bytes of their texts, all
nulls come after them, and of items with the same text the relative order is kept. -/
structure SortedByText (h : Heap) (xs ys : List Value) : Prop extends Rearranges h.sameText xs ys where
  split : ∃ texts, ys = texts ++ List.replicate (xs.count .null) .null ∧ .null ∉ texts ∧
    texts.Pairwise fun a b => Text.bytes (h.render a) ≤ Text.bytes (h.render b)

variable (h : Heap)

theorem textOrder_trans (a b c : Value) : h.textOrder a b → h.textOrder b c → h.textOrder a c := by
  unfold textOrder
  rcases a.isNull <;> rcases b.isNull <;> rcases c.isNull <;> simp
  exact le_trans

theorem textOrder_total (a b : Value) : (h.textOrder a b || h.textOrder b a) = true := by
  unfold textOrder
  rcases a.isNull <;> rcases b.isNull <;> simp
  exact le_total _ _

/-- Each of two items may stand before the other if and only if the order does not choose. -/
theorem textOrder_tie (a b : Value) : (h.textOrder a b && h.textOrder b a) = h.sameText a b := by
  unfold textOrder sameText
  refine Bool.eq_iff_iff.mpr ?_
  rcases a.isNull <;> rcases b.isNull <;> simp [le_antisymm_iff (α := String)]

theorem isNull_iff {v : Value} : v.isNull ↔ v = .null := by cases v <;> simp [Value.isNull]

theorem textOrder_of_texts {a b : Value} (ha : a ≠ .null) (hb : b ≠ .null) :
    h.textOrder a b ↔ Text.bytes (h.render a) ≤ Text.bytes (h.render b) := by
  have ha : a.isNull = false := Bool.eq_false_of_not_eq_true (mt isNull_iff.mp ha)
  have hb : b.isNull = false := Bool.eq_false_of_not_eq_true (mt isNull_iff.mp hb)
  simp only [textOrder, ha, hb, decide_eq_true_eq, Text.bytes_le_iff]

/-- In a sorted list all nulls are at the end. -/
theorem nulls_last {ys : List Value} (sorted : ys.Pairwise fun a b => h.textOrder a b) :
    ys = ys.filter (· ≠ .null) ++ List.replicate (ys.count .null) .null := by
  induction ys with
  | nil => rfl
  | cons a rest ih =>
    obtain ⟨first, sorted⟩ := List.pairwise_cons.mp sorted
    by_cases ha : a = .null
    · subst ha
      have nulls : ∀ b ∈ rest, b = .null := fun b hb => isNull_iff.mp (first b hb)
      have all : rest = List.replicate rest.length .null := List.eq_replicate_iff.mpr ⟨rfl, nulls⟩
      rw [all]
      simp [List.replicate_succ]
    · rw [List.filter_cons_of_pos (by simpa using ha), List.count_cons_of_ne ha, List.cons_append,
        ← ih sorted]

theorem sortedByText_mergeSort (xs : List Value) : h.SortedByText xs (xs.mergeSort h.textOrder) := by
  have trans := h.textOrder_trans
  have total := h.textOrder_total
  have sorted := List.pairwise_mergeSort trans total xs
  have rearranged := rearranges_mergeSort trans total xs
  simp only [textOrder_tie] at rearranged
  refine ⟨rearranged, (xs.mergeSort h.textOrder).filter (· ≠ .null), ?_, by simp, ?_⟩
  · rw [← rearranged.perm.count_eq]
    exact h.nulls_last sorted
  · refine (sorted.filter _).imp_of_mem fun ha hb le => ?_
    exact (h.textOrder_of_texts (by simpa using (List.mem_filter.mp ha).2)
      (by simpa using (List.mem_filter.mp hb).2)).mp le

/-! ## Lists whose items have a text -/

variable {h} {l : ListId}

theorem isLive_mutate (live : h.isLive (.list l) = true) (items inserted : List Value) :
    (h.mutate l items inserted).1.isLive (.list l) = true :=
  (takes_apply h (.mutate l items inserted)).live _ live

/-- To replace the items of a list by known ones changes no other container. -/
theorem sameCell_mutate (items : List Value) {c : Container} (other : c ≠ .list l) :
    SameCell h (h.mutate l items []).1 c := by
  have stored : SameCell h (h.changeList l ({ · with items })) c := by
    cases c with
    | map m => exact map?_changeList h l _ m
    | list k => exact (list?_changeList h l k _).trans (if_neg fun same => other (congrArg _ same))
  rcases h.mutate_cases l items [] with ⟨_, e⟩ | ⟨_, _, _, e⟩ | ⟨_, _, _, e⟩
  · rw [e]
    exact SameCell.refl h c
  · rw [e, observeAll]
    exact stored
  · rw [e]
    exact stored

/-- The items of a list do not lead back to it if none of them contains itself. -/
theorem apart_of_unfolds {v : Value} (hv : v ∈ h.items l) (unfolds : h.Unfolds v) {c : Container}
    (reaches : h.Reaches v c) : c ≠ .list l := by
  rintro rfl
  exact unfolds.noLoop _ reaches (contains_iff.mpr ⟨v, hv, reaches⟩)

/-- Heaps that agree below the items of a list order them in the same way. -/
theorem textOrder_congr {g : Heap} {a b : Value} (unfolds : ∀ v ∈ h.items l, h.Unfolds v)
    (below : ∀ v ∈ h.items l, ∀ c, h.Reaches v c → SameCell h g c) (ha : a ∈ h.items l)
    (hb : b ∈ h.items l) : g.textOrder a b = h.textOrder a b := by
  simp only [textOrder, render_congr (unfolds a ha) (below a ha), render_congr (unfolds b hb) (below b hb)]

theorem items_sort (live : h.isLive (.list l) = true) :
    (h.sort l).1.items l = (h.items l).mergeSort h.textOrder := items_mutate live _ _

/-- A list whose items stand in another order, but for those of the same text, is sorted to the same
items. -/
theorem items_sort_of_rearranged {g : Heap} (live : h.isLive (.list l) = true)
    (live' : g.isLive (.list l) = true) (unfolds : ∀ v ∈ h.items l, h.Unfolds v)
    (below : ∀ v ∈ h.items l, ∀ c, h.Reaches v c → SameCell h g c)
    (same : Rearranges h.sameText (h.items l) (g.items l)) :
    (g.sort l).1.items l = (h.sort l).1.items l := by
  have texts : (g.items l).mergeSort g.textOrder = (g.items l).mergeSort h.textOrder := by
    have sorted := List.map_mergeSort (f := id) (l := g.items l) fun a ha b hb =>
      textOrder_congr unfolds below (same.perm.mem_iff.mp ha) (same.perm.mem_iff.mp hb)
    simpa using sorted
  have tied : Rearranges (fun a b => h.textOrder a b && h.textOrder b a) (h.items l) (g.items l) := by
    simpa only [textOrder_tie] using same
  rw [items_sort live, items_sort live', texts]
  exact mergeSort_eq_of_rearranges h.textOrder_trans h.textOrder_total tied

/-- To sort a list again changes nothing. -/
theorem items_sort_sort (live : h.isLive (.list l) = true) (unfolds : ∀ v ∈ h.items l, h.Unfolds v) :
    ((h.sort l).1.sort l).1.items l = (h.sort l).1.items l := by
  refine items_sort_of_rearranged live (isLive_mutate live _ _) unfolds (fun v hv c hc => ?_) ?_
  · exact sameCell_mutate _ (apart_of_unfolds hv (unfolds v hv) hc)
  · rw [items_sort live]
    exact (h.sortedByText_mergeSort _).toRearranges

/-- A comparator sorts: every item may stand before all later ones, and the relative order of those that
it takes for equal is kept. -/
structure SortedBy (cmp : Value → Value → Ordering) (xs ys : List Value) : Prop
    extends Rearranges (fun a b => cmp a b == .eq) xs ys where
  ordered : ys.Pairwise fun a b => cmp a b ≠ .gt

theorem sortedBy_mergeSort (cmp : Value → Value → Ordering) [Std.TransCmp cmp] (xs : List Value) :
    SortedBy cmp xs (xs.mergeSort fun a b => (cmp a b).isLE) := by
  have trans (a b c : Value) : (cmp a b).isLE → (cmp b c).isLE → (cmp a c).isLE :=
    Std.TransCmp.isLE_trans
  have swap (a b : Value) : cmp b a = (cmp a b).swap := Std.OrientedCmp.eq_swap
  have total (a b : Value) : ((cmp a b).isLE || (cmp b a).isLE) = true := by
    rw [swap a b]
    cases cmp a b <;> rfl
  have tie (a b : Value) : ((cmp a b).isLE && (cmp b a).isLE) = (cmp a b == .eq) := by
    rw [swap a b]
    cases cmp a b <;> rfl
  have rearranged := rearranges_mergeSort trans total xs
  simp only [tie] at rearranged
  refine ⟨rearranged, (List.pairwise_mergeSort trans total xs).imp fun le => ?_⟩
  exact Ordering.isLE_iff_ne_gt.mp le

end Heap

end DataBinding
