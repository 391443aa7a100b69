-- Document order: a node comes before all that stands below it, and what stands below its children
-- follows child by child. The text of a node is what the nodes below it add in that order. A change at
-- one node shows only in the orders of the nodes above it, and there only in its own place.
import DataBinding.Proofs.Page.Edits

namespace DataBinding

namespace Tree

theorem idsOfAll_eq_flatMap (ts : List Tree) : idsOfAll ts = ts.flatMap ids := by
  induction ts with
  | nil => rfl
  | cons t rest ih => rw [idsOfAll, ih, List.flatMap_cons]

mutual

/-- The markup of a node and all below it. -/
def markup : Tree → String
  | .node _ content below =>
    match content with
    | none => ""
    | some (.text s) => s
    | some (.comment s) => "<!--" ++ s ++ "-->"
    | some (.element tag attributes _ raw) =>
      Page.startTag tag attributes ++ raw.getD "" ++ markupOfAll below ++ Page.endTag tag

def markupOfAll : List Tree → String
  | [] => ""
  | t :: rest => markup t ++ markupOfAll rest

end

end Tree

namespace Page

variable {ρ : Type} {p p' : Page ρ} {n : NodeId}

mutual

/-- The markup of a tree is what is written for the page, if it is read deep enough. -/
theorem markupIn_of_holds : ∀ {t : Tree} {fuel : Nat}, p.Holds t → t.height ≤ fuel →
    p.markupIn fuel t.id = t.markup
  | .node n content below, 0, _, deep => by simp [Tree.height] at deep
  | .node n content below, fuel + 1, holds, deep => by
    obtain ⟨hc, hk, hb⟩ := holds
    have others := markupsIn_of_holds hb (show Tree.heightOfAll below ≤ fuel by
      simpa [Tree.height] using deep)
    rcases content with _ | (_ | _ | _) <;>
      simp only [markupIn, Tree.id, hc, hk, others, Tree.markup]

theorem markupsIn_of_holds : ∀ {ts : List Tree} {fuel : Nat}, p.HoldsAll ts →
    Tree.heightOfAll ts ≤ fuel →
    String.join ((ts.map Tree.id).map (p.markupIn fuel)) = Tree.markupOfAll ts
  | [], _, _, _ => rfl
  | t :: rest, fuel, holds, deep => by
    simp only [Tree.heightOfAll, Nat.max_le] at deep
    have first := markupIn_of_holds holds.1 deep.1
    have others := markupsIn_of_holds holds.2 deep.2
    simp only [List.map_cons, String.join_cons, first, others, Tree.markupOfAll]

end

mutual

/-- The text of a tree is what its nodes add, one after the other. -/
theorem text_of_holds : ∀ {t : Tree}, p.Holds t → t.text = String.join (t.ids.map p.ownText)
  | .node n content below, holds => by
    obtain ⟨hc, hk, hb⟩ := holds
    have own : p.ownText n = Tree.ownText content := by
      rw [ownText, hc]
      rcases content with _ | (⟨_, _, _, _ | _⟩ | _ | _) <;> rfl
    rw [Tree.text, Tree.ids, List.map_cons, String.join_cons, own, textOfAll_of_holds hb]

theorem textOfAll_of_holds : ∀ {ts : List Tree}, p.HoldsAll ts →
    Tree.textOfAll ts = String.join ((Tree.idsOfAll ts).map p.ownText)
  | [], _ => rfl
  | t :: rest, holds => by
    rw [Tree.textOfAll, Tree.idsOfAll, List.map_append, String.join_append, text_of_holds holds.1,
      textOfAll_of_holds holds.2]

end

/-! ## The order below a node -/

/-- A node and all below it, in document order. -/
def orderOf (p : Page ρ) (n : NodeId) : List NodeId := (p.tree p.nodes.size n).ids

namespace Forest

theorem tree_eq (forest : p.Forest) (n : NodeId) :
    p.tree p.nodes.size n = .node n (p.content? n) (p.below n) := by
  by_cases lt : n.index < p.nodes.size
  · obtain ⟨⟨m, content, ts⟩, rfl, holds⟩ := forest.exists_tree n
    have deep := forest.height_le holds lt
    rw [tree_of_holds holds deep]
    obtain ⟨hc, hk, hb⟩ := holds
    have le : Tree.heightOfAll ts ≤ p.nodes.size := by
      rw [Tree.height] at deep
      exact Nat.le_of_succ_le deep
    rw [below, Tree.id, hc, hk, trees_of_holds hb le]
  · have childless := p.children_of_size_le (Nat.le_of_not_lt lt)
    rw [below, childless]
    cases p.nodes.size with
    | zero => rfl
    | succ fuel => rw [tree, childless]; rfl

theorem holds_tree_of_any (forest : p.Forest) (n : NodeId) : p.Holds (p.tree p.nodes.size n) := by
  rw [forest.tree_eq]
  exact ⟨rfl, (p.map_id_below n).symm, (forest.holds_below n).1⟩

/-- A node comes first, and its children follow, each with all below it. -/
theorem orderOf_eq (forest : p.Forest) (n : NodeId) :
    p.orderOf n = n :: (p.children n).flatMap p.orderOf := by
  rw [orderOf, forest.tree_eq, Tree.ids, Tree.idsOfAll_eq_flatMap, below, List.flatMap_map]
  rfl

theorem mem_orderOf_iff (forest : p.Forest) {x : NodeId} : x ∈ p.orderOf n ↔ p.Under x n := by
  rw [orderOf, mem_ids_iff (forest.holds_tree_of_any n), id_tree]

theorem nodup_orderOf (forest : p.Forest) (n : NodeId) : (p.orderOf n).Nodup :=
  nodup_ids forest (forest.holds_tree_of_any n)

theorem textOf_eq (forest : p.Forest) (lt : n.index < p.nodes.size) :
    p.textOf n = String.join ((p.orderOf n).map p.ownText) := by
  obtain ⟨holds, deep⟩ := forest.holds_tree lt
  have read := textIn_of_holds holds deep
  rw [id_tree] at read
  rw [textOf, read, text_of_holds holds, orderOf]

end Forest

/-- What stands above a node of the page is a node of the page. -/
theorem lt_of_above {a : NodeId} (lt : n.index < p.nodes.size) (under : p.Under n a) :
    a.index < p.nodes.size := by
  rcases Relation.ReflTransGen.cases_head under with rfl | ⟨child, h, _⟩
  · exact lt
  · exact lt_of_mem_children h

/-! ## Changes at one node -/

/-- What does not stand above a changed node looks as before. -/
theorem Spares.tree_eq (spares : Spares p p' n) (forest : p.Forest) {x : NodeId}
    (lt : x.index < p.nodes.size) (aside : ¬p.Under n x) :
    p'.Holds (p.tree p.nodes.size x) ∧ p'.tree p'.nodes.size x = p.tree p.nodes.size x := by
  obtain ⟨holds, deep⟩ := forest.holds_tree lt
  have still : p'.Holds (p.tree p.nodes.size x) := holds.keep fun m hm => by
    have under : p.Under m x := forest.mem_orderOf_iff.mp hm
    have ne : m ≠ n := fun e => aside (e ▸ under)
    exact spares.others m ne (forest.lt_of_under lt under)
  have same := tree_of_holds still (Nat.le_trans deep spares.size)
  rw [id_tree] at same
  exact ⟨still, same⟩

theorem Spares.orderOf_eq (spares : Spares p p' n) (forest : p.Forest) {x : NodeId}
    (lt : x.index < p.nodes.size) (aside : ¬p.Under n x) : p'.orderOf x = p.orderOf x := by
  rw [orderOf, (spares.tree_eq forest lt aside).2, orderOf]

/-- What does not stand above a changed node reads as before. -/
theorem Spares.reads_eq (spares : Spares p p' n) (forest : p.Forest) {x : NodeId}
    (lt : x.index < p.nodes.size) (aside : ¬p.Under n x) :
    p'.textOf x = p.textOf x ∧ p'.markupOf x = p.markupOf x := by
  obtain ⟨holds, deep⟩ := forest.holds_tree lt
  have still := (spares.tree_eq forest lt aside).1
  have deep' := Nat.le_trans deep spares.size
  have text := (textIn_of_holds still deep').trans (textIn_of_holds holds deep).symm
  have markup := (markupIn_of_holds still deep').trans (markupIn_of_holds holds deep).symm
  rw [id_tree] at text markup
  exact ⟨text, markup⟩

/-- Above a changed node, its own stretch of the order is replaced and the rest stays. -/
theorem Spares.orderOf_above (spares : Spares p p' n) (forest : p.Forest) (forest' : p'.Forest)
    {a : NodeId} (lt : a.index < p.nodes.size) (under : p.Under n a) :
    ∃ before after, p.orderOf a = before ++ p.orderOf n ++ after ∧
      p'.orderOf a = before ++ p'.orderOf n ++ after := by
  induction under using Relation.ReflTransGen.head_induction_on with
  | refl => exact ⟨[], [], by simp, by simp⟩
  | @head a child hc under ih =>
    obtain ⟨before, after, old, new⟩ := ih (forest.lt_of_child hc)
    have ne : a ≠ n := by
      rintro rfl
      exact forest.no_cycle a (Under.below under hc)
    have kids : p'.children a = p.children a := by
      rw [children_eq, spares.others a ne lt, ← children_eq]
    obtain ⟨left, right, split⟩ := List.append_of_mem hc
    -- the changed node stands below this child only
    have aside : ∀ other ∈ left ++ right, p'.orderOf other = p.orderOf other := by
      intro other ho
      have nodup := forest.nodup a
      rw [split, List.nodup_middle, List.nodup_cons] at nodup
      have here : other ∈ p.children a := by
        rw [split]
        simp only [List.mem_append, List.mem_cons] at ho ⊢
        tauto
      have distinct : child ≠ other := fun e => nodup.1 (e ▸ ho)
      exact spares.orderOf_eq forest (forest.lt_of_child here) (forest.apart hc here distinct under)
    have lefts : left.flatMap p'.orderOf = left.flatMap p.orderOf :=
      List.flatMap_congr fun other ho => aside other (List.mem_append_left _ ho)
    have rights : right.flatMap p'.orderOf = right.flatMap p.orderOf :=
      List.flatMap_congr fun other ho => aside other (List.mem_append_right _ ho)
    refine ⟨a :: left.flatMap p.orderOf ++ before, after ++ right.flatMap p.orderOf, ?_, ?_⟩
    · rw [forest.orderOf_eq, split, List.flatMap_append, List.flatMap_cons, old]
      simp only [List.cons_append, List.append_assoc]
    · rw [forest'.orderOf_eq, kids, split, List.flatMap_append, List.flatMap_cons, new, lefts, rights]
      simp only [List.cons_append, List.append_assoc]

/-! ## The order of the page -/

/-- All nodes: the roots in the order of their creation, each followed by all below it. -/
def order (p : Page ρ) : List NodeId := p.roots.flatMap p.orderOf

theorem mem_roots_iff (p : Page ρ) (n : NodeId) :
    n ∈ p.roots ↔ n.index < p.nodes.size ∧ p.parent? n = none := by
  simp only [roots, List.mem_filter, List.mem_map, List.mem_range, Option.isNone_iff_eq_none]
  constructor
  · rintro ⟨⟨i, lt, rfl⟩, root⟩
    exact ⟨lt, root⟩
  · rintro ⟨lt, root⟩
    exact ⟨⟨n.index, lt, rfl⟩, root⟩

theorem roots_ascending (p : Page ρ) : p.roots.Pairwise fun a b => a.index < b.index :=
  .filter _ (List.pairwise_map.mpr (List.pairwise_lt_range (n := p.nodes.size)))

namespace Linked

/-- Every node of the page has its place in the order. -/
theorem mem_order_iff (linked : p.Linked) (n : NodeId) : n ∈ p.order ↔ n.index < p.nodes.size := by
  simp only [order, List.mem_flatMap, mem_roots_iff, linked.forest.mem_orderOf_iff]
  constructor
  · rintro ⟨root, ⟨lt, _⟩, under⟩
    exact linked.forest.lt_of_under lt under
  · intro lt
    obtain ⟨root, top, _, under⟩ := linked.exists_root n
    exact ⟨root, ⟨lt_of_above lt under, top⟩, under⟩

/-- No node has two places in the order. -/
theorem nodup_order (linked : p.Linked) : p.order.Nodup := by
  refine List.nodup_flatMap.mpr ⟨fun root _ => linked.forest.nodup_orderOf root, ?_⟩
  refine p.roots_ascending.imp_of_mem fun {a b} ha hb lt => ?_
  intro x below below'
  rw [linked.forest.mem_orderOf_iff] at below below'
  have rootA := ((p.mem_roots_iff a).mp ha).2
  have rootB := ((p.mem_roots_iff b).mp hb).2
  rcases linked.forest.under_or_under below below' with under | under
  · rw [linked.eq_of_under rootA under] at lt
    exact Nat.lt_irrefl _ lt
  · rw [linked.eq_of_under rootB under] at lt
    exact Nat.lt_irrefl _ lt

end Linked

end Page

end DataBinding
