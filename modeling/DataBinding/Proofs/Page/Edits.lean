-- Pages that come about by edits. Parents and children are written in two places, and every edit keeps them in
-- step: a node stands once among the children of its parent and nowhere else. As long as no node is
-- moved below itself, every way up ends in a root, and no edit takes a node away.
import DataBinding.Proofs.Page.Places
import DataBinding.Proofs.Page.Trees
import Mathlib.Data.Finset.Card
import Mathlib.Data.Finset.Range

namespace DataBinding.Page

variable {ρ : Type} {p p' : Page ρ}

/-! ## Parents and children -/

theorem parent?_change_self (p : Page ρ) (n : NodeId) (f : Node → Node) :
    (p.change n f).parent? n = (p.node? n).bind fun d => (f d).parent := by
  rw [parent?, node?_change_self, Option.bind_map]
  rfl

theorem parent?_change_of_ne (f : Node → Node) {n m : NodeId} (ne : m ≠ n) :
    (p.change n f).parent? m = p.parent? m := by
  rw [parent?, parent?, node?_change_of_ne f ne]

/-- A change that leaves the parents alone. -/
theorem parent?_change (p : Page ρ) (n : NodeId) {f : Node → Node} (hf : ∀ d, (f d).parent = d.parent)
    (m : NodeId) : (p.change n f).parent? m = p.parent? m := by
  by_cases ne : m = n
  · subst ne
    rw [parent?_change_self, parent?]
    simp only [hf]
  · exact parent?_change_of_ne f ne

theorem children_change_of_ne (f : Node → Node) {n m : NodeId} (ne : m ≠ n) :
    (p.change n f).children m = p.children m := by
  rw [children_eq, children_eq, face?_change_of_ne f ne]

/-- A change that leaves the children alone. -/
theorem children_change (p : Page ρ) (n : NodeId) {f : Node → Node}
    (hf : ∀ d, (f d).children = d.children) (m : NodeId) :
    (p.change n f).children m = p.children m := by
  by_cases ne : m = n
  · subst ne
    simp only [children, node?_change_self, Option.map_map, Function.comp_def, hf]
  · exact children_change_of_ne f ne

/-- The children of a node are changed. -/
theorem children_change_self {n : NodeId} (lt : n.index < p.nodes.size)
    (f : List NodeId → List NodeId) :
    (p.change n fun d => { d with children := f d.children }).children n = f (p.children n) := by
  obtain ⟨d, hd⟩ : ∃ d, p.node? n = some d := ⟨_, Array.getElem?_eq_getElem lt⟩
  simp only [children, node?_change_self, hd, Option.map_some, Option.getD_some]

theorem parent?_of_size_le {n : NodeId} (le : p.nodes.size ≤ n.index) : p.parent? n = none := by
  rw [parent?, node?, Array.getElem?_eq_none le, Option.bind_none]

theorem children_of_size_le {n : NodeId} (le : p.nodes.size ≤ n.index) : p.children n = [] := by
  rw [children, node?, Array.getElem?_eq_none le]
  rfl

theorem isSome_node?_iff {n : NodeId} : (p.node? n).isSome ↔ n.index < p.nodes.size := by
  simp [node?]

theorem lt_of_parent? {n parent : NodeId} (h : p.parent? n = some parent) :
    n.index < p.nodes.size := by
  by_contra le
  rw [parent?_of_size_le (Nat.le_of_not_lt le)] at h
  cases h

theorem lt_of_mem_children {n child : NodeId} (h : child ∈ p.children n) :
    n.index < p.nodes.size := by
  by_contra le
  rw [children_of_size_le (Nat.le_of_not_lt le)] at h
  cases h

/-- Every node has kept its parent and its children. -/
structure SameLinks (p p' : Page ρ) : Prop where
  parent? : ∀ n, p'.parent? n = p.parent? n
  children : ∀ n, p'.children n = p.children n

theorem sameLinks_change (p : Page ρ) (n : NodeId) {f : Node → Node}
    (hf : ∀ d, (f d).parent = d.parent ∧ (f d).children = d.children) :
    SameLinks p (p.change n f) :=
  ⟨p.parent?_change n fun d => (hf d).1, p.children_change n fun d => (hf d).2⟩

/-- A new node has no parent and no children, and a node that is not there has none either. -/
theorem sameLinks_create (p : Page ρ) (content : Content) : SameLinks p (p.create content).1 := by
  have cases (n : NodeId) : (p.create content).1.node? n = p.node? n ∨
      p.node? n = none ∧ (p.create content).1.node? n = some ⟨content, none, []⟩ := by
    simp only [node?, create, Array.getElem?_push]
    split
    · next here => exact .inr ⟨Array.getElem?_eq_none (Nat.le_of_eq here.symm), rfl⟩
    · exact .inl rfl
  constructor <;> intro n <;> rcases cases n with same | ⟨before, after⟩
  · simp only [Page.parent?, same]
  · simp only [Page.parent?, before, after, Option.bind_none, Option.bind_some]
  · simp only [Page.children, same]
  · simp only [Page.children, before, after, Option.map_some, Option.map_none, Option.getD_some,
      Option.getD_none]

/-! ## Pages in step -/

open Classical in
/-- A relation without cycles among finitely many nodes is well-founded. -/
theorem wellFounded_of_acyclic {r : NodeId → NodeId → Prop} {bound : Nat}
    (within : ∀ a b, r a b → b.index < bound) (acyclic : ∀ a, ¬Relation.TransGen r a a) :
    WellFounded r := by
  let before (b : NodeId) : Finset Nat :=
    (Finset.range bound).filter fun i => Relation.ReflTransGen r ⟨i⟩ b
  -- what leads to the smaller of two nodes leads to the larger one, which does not lead back
  refine Subrelation.wf (r := InvImage (· < ·) fun b => (before b).card) ?_
    (InvImage.wf _ Nat.lt_wfRel.wf)
  intro a b hab
  refine Finset.card_lt_card ((Finset.ssubset_iff_of_subset ?_).mpr ⟨b.index, ?_, ?_⟩)
  · intro i hi
    rw [Finset.mem_filter] at hi ⊢
    exact ⟨hi.1, hi.2.tail hab⟩
  · exact Finset.mem_filter.mpr ⟨Finset.mem_range.mpr (within a b hab), .refl⟩
  · exact fun hi => acyclic b (.tail' (Finset.mem_filter.mp hi).2 hab)

/-- Parents and children agree, and no node is below itself. -/
structure Linked (p : Page ρ) : Prop where
  count : ∀ n child, (p.children n).count child = if p.parent? child = some n then 1 else 0
  acyclic : ∀ n, ¬Relation.TransGen (fun a b => b ∈ p.children a) n n

namespace Linked

theorem mem_children_iff (linked : p.Linked) {n child : NodeId} :
    child ∈ p.children n ↔ p.parent? child = some n := by
  rw [← List.count_pos_iff, linked.count]
  split <;> simp_all

theorem forest (linked : p.Linked) : p.Forest where
  parents _ _ h := linked.mem_children_iff.mp h
  nodup n := List.nodup_iff_count_le_one.mpr fun child => by
    rw [linked.count]
    split <;> omega
  wellFounded := wellFounded_of_acyclic (fun _ _ h => lt_of_mem_children h) fun n cycle =>
    linked.acyclic n (Relation.transGen_swap.mp cycle)

/-- No way up goes on for ever. -/
theorem wellFounded_parent (linked : p.Linked) :
    WellFounded fun parent n => p.parent? n = some parent := by
  refine wellFounded_of_acyclic (fun _ _ h => lt_of_parent? h) fun n cycle => ?_
  exact linked.acyclic n (cycle.lift id fun _ _ => linked.mem_children_iff.mpr)

/-- Every node stands under exactly one node without a parent. -/
theorem exists_root (linked : p.Linked) (n : NodeId) :
    ∃ root, p.parent? root = none ∧
      Relation.ReflTransGen (fun a b => p.parent? a = some b) n root ∧ p.Under n root := by
  induction n using linked.wellFounded_parent.induction with
  | _ n ih =>
    rcases h : p.parent? n with _ | parent
    · exact ⟨n, h, .refl, .refl⟩
    · obtain ⟨root, top, up, under⟩ := ih parent h
      exact ⟨root, top, .head h up, under.tail (linked.mem_children_iff.mpr h)⟩

theorem congr (linked : p.Linked) (same : SameLinks p p') : p'.Linked := by
  have kids : p'.children = p.children := funext same.children
  constructor
  · intro n child
    rw [kids, same.parent?]
    exact linked.count n child
  · rw [kids]
    exact linked.acyclic

/-- Only a node itself stands under it and has no parent. -/
theorem eq_of_under (linked : p.Linked) {x n : NodeId} (root : p.parent? x = none)
    (under : p.Under x n) : x = n := by
  rcases Relation.ReflTransGen.cases_tail under with e | ⟨parent, _, h⟩
  · exact e
  · rw [linked.mem_children_iff, root] at h
    cases h

end Linked

/-! ## What an edit does to parents and children -/

theorem parent?_detach (p : Page ρ) (n m : NodeId) :
    (p.detach n).parent? m = if m = n then none else p.parent? m := by
  rcases h : p.parent? n with _ | old
  · simp only [detach, h]
    split
    · next e => rw [e, h]
    · rfl
  · simp only [detach, h]
    refine (parent?_change _ old ?_ m).trans ?_
    · exact fun _ => rfl
    split
    · next e =>
      subst e
      rw [parent?_change_self]
      exact Option.bind_eq_none_iff.mpr fun _ _ => rfl
    · next ne => exact parent?_change_of_ne _ ne

theorem Linked.children_detach (linked : p.Linked) (n m : NodeId) :
    (p.detach n).children m = (p.children m).filter (· ≠ n) := by
  have absent (ne : p.parent? n ≠ some m) : (p.children m).filter (· ≠ n) = p.children m := by
    refine List.filter_eq_self.mpr fun child hc => ?_
    have : child ≠ n := fun e => ne (linked.mem_children_iff.mp (e ▸ hc))
    simpa using this
  rcases h : p.parent? n with _ | old
  · simp only [detach, h]
    exact (absent (by simp [h])).symm
  · simp only [detach, h]
    have kept : (p.change n fun d => { d with parent := none }).children = p.children :=
      funext (p.children_change n fun _ => rfl)
    by_cases e : m = old
    · subst e
      have lt := lt_of_mem_children (linked.mem_children_iff.mpr h)
      rw [children_change_self ((size_change p n _).symm ▸ lt) (List.filter (· ≠ n)), kept]
    · rw [children_change_of_ne _ e, kept]
      exact (absent (by rw [h]; simpa using Ne.symm e)).symm

theorem parent?_append {child : NodeId} (parent : NodeId) (lt : child.index < p.nodes.size)
    (m : NodeId) :
    (p.append parent child).parent? m = if m = child then some parent else p.parent? m := by
  refine (parent?_change _ parent ?_ m).trans ?_
  · exact fun _ => rfl
  split
  · next e =>
    subst e
    have there : m.index < (p.detach m).nodes.size :=
      Nat.lt_of_lt_of_le lt (repaints_detach p m).size
    rw [parent?_change_self, node?, Array.getElem?_eq_getElem there]
    rfl
  · next ne => rw [parent?_change_of_ne _ ne, parent?_detach, if_neg ne]

theorem Linked.children_append (linked : p.Linked) {parent : NodeId} (child : NodeId)
    (lt : parent.index < p.nodes.size) (m : NodeId) :
    (p.append parent child).children m =
      (p.children m).filter (· ≠ child) ++ if m = parent then [child] else [] := by
  have kept : ((p.detach child).change child fun d => { d with parent := some parent }).children =
      (p.detach child).children := funext ((p.detach child).children_change child fun _ => rfl)
  rw [append]
  split
  · next e =>
    subst e
    have there := Nat.lt_of_lt_of_le lt
      ((repaints_detach p child).trans
        (repaints_change _ child fun d => { d with parent := some m })).size
    rw [children_change_self there (· ++ [child]), kept, linked.children_detach]
  · next ne => rw [children_change_of_ne _ ne, kept, linked.children_detach, List.append_nil]

/-- A path after a move has taken no new way, or it comes through the new place. -/
theorem Linked.path_of_append (linked : p.Linked) {parent child : NodeId}
    (lt : parent.index < p.nodes.size) (apart : ¬p.Under parent child) {x y : NodeId}
    (path : Relation.TransGen (fun a b => b ∈ (p.append parent child).children a) x y) :
    Relation.TransGen (fun a b => b ∈ p.children a) x y ∨ p.Under parent x ∧ p.Under y child := by
  have step {a b : NodeId} (h : b ∈ (p.append parent child).children a) :
      b ∈ p.children a ∨ a = parent ∧ b = child := by
    rw [linked.children_append child lt, List.mem_append] at h
    rcases h with h | h
    · exact .inl (List.mem_filter.mp h).1
    · split at h
      · next e => exact .inr ⟨e, List.mem_singleton.mp h⟩
      · cases h
  induction path with
  | single h =>
    rcases step h with old | ⟨rfl, rfl⟩
    · exact .inl (.single old)
    · exact .inr ⟨.refl, .refl⟩
  | tail _ h ih =>
    rcases step h with old | ⟨rfl, rfl⟩
    · exact ih.imp (·.tail old) fun through => ⟨through.1, through.2.tail old⟩
    · rcases ih with before | ⟨_, back⟩
      · exact .inr ⟨before.to_reflTransGen, .refl⟩
      · exact absurd back apart

/-- A move keeps parents and children in step, unless it moves a node below itself. -/
theorem Linked.append (linked : p.Linked) {parent child : NodeId}
    (ltParent : parent.index < p.nodes.size) (ltChild : child.index < p.nodes.size)
    (apart : ¬p.Under parent child) : (p.append parent child).Linked := by
  constructor
  · intro n other
    rw [linked.children_append child ltParent, parent?_append parent ltChild, List.count_append]
    by_cases e : other = child
    · subst e
      have gone : ((p.children n).filter (· ≠ other)).count other = 0 := by
        rw [List.count_eq_zero, List.mem_filter]
        simp
      rw [gone, if_pos rfl, Nat.zero_add]
      by_cases here : n = parent <;> simp [here, Ne.symm]
    · have kept : ((p.children n).filter (· ≠ child)).count other = (p.children n).count other :=
        List.count_filter (by simpa using e)
      have none : (if n = parent then [child] else []).count other = 0 := by
        rw [List.count_eq_zero]
        split <;> simp [e]
      rw [kept, none, if_neg e, Nat.add_zero, linked.count]
  · intro n cycle
    rcases linked.path_of_append ltParent apart cycle with old | ⟨down, up⟩
    · exact linked.acyclic n old
    · exact apart (up.trans down)

theorem parent?_foldl_orphan (kids : List NodeId) (p : Page ρ) (m : NodeId) :
    (kids.foldl (fun p child => p.change child fun d => { d with parent := none }) p).parent? m =
      if m ∈ kids then none else p.parent? m := by
  induction kids generalizing p with
  | nil => simp
  | cons child rest ih =>
    rw [List.foldl_cons, ih]
    by_cases e : m = child
    · subst e
      have gone : (p.change m fun d => { d with parent := none }).parent? m = none := by
        rw [parent?_change_self]
        exact Option.bind_eq_none_iff.mpr fun _ _ => rfl
      simp [gone]
    · rw [parent?_change_of_ne _ e]
      simp [e]

/-- The children of a node have become roots. -/
theorem Linked.dropChildren (linked : p.Linked) (n : NodeId) : (p.dropChildren n).Linked := by
  have parents (m : NodeId) :
      (p.dropChildren n).parent? m = if m ∈ p.children n then none else p.parent? m := by
    refine (parent?_foldl_orphan _ _ m).trans ?_
    congr 1
    refine parent?_change p n ?_ m
    exact fun _ => rfl
  have kids (m : NodeId) :
      (p.dropChildren n).children m = if m = n then [] else p.children m := by
    rw [children_eq]
    split
    · next e =>
      subst e
      rw [face?_dropChildren_self]
      cases p.face? m <;> rfl
    · next ne =>
      have same : (p.dropChildren n).face? m = p.face? m :=
        (face?_foldl_orphan _ _ m).trans (face?_change_of_ne _ ne)
      rw [same, ← children_eq]
  constructor
  · intro m child
    rw [kids, parents]
    have count := linked.count m child
    by_cases here : m = n
    · subst here
      rw [if_pos rfl, List.count_nil]
      by_cases hc : child ∈ p.children m
      · rw [if_pos hc, if_neg (by simp)]
      · rw [if_neg hc, if_neg fun h => hc (linked.mem_children_iff.mpr h)]
    · rw [if_neg here, count]
      by_cases hc : child ∈ p.children n
      · have ne : p.parent? child ≠ some m := by
          rw [linked.mem_children_iff.mp hc]
          simpa using Ne.symm here
        rw [if_pos hc, if_neg ne, if_neg (by simp)]
      · rw [if_neg hc]
  · intro m cycle
    refine linked.acyclic m (cycle.lift id fun a b h => ?_)
    rw [kids] at h
    split at h
    · cases h
    · exact h

theorem sameLinks_content (p : Page ρ) (n : NodeId) (content : Content) :
    SameLinks p (p.change n fun d => { d with content }) :=
  sameLinks_change p n fun _ => ⟨rfl, rfl⟩

theorem sameLinks_setAttribute (p : Page ρ) (n : NodeId) (name value : String) :
    SameLinks p (p.setAttribute n name value) := by
  refine sameLinks_change p n fun d => ?_
  rcases d with ⟨_ | _ | _, _, _⟩ <;> exact ⟨rfl, rfl⟩

theorem sameLinks_setProperty (p : Page ρ) (n : NodeId) (name value : String) :
    SameLinks p (p.setProperty n name value) := by
  refine sameLinks_change p n fun d => ?_
  rcases d with ⟨_ | _ | _, _, _⟩ <;> exact ⟨rfl, rfl⟩

/-- A new text goes below a node. -/
theorem Linked.appendText (linked : p.Linked) {n : NodeId} (lt : n.index < p.nodes.size)
    (s : String) : ((p.text s).1.append n (p.text s).2).Linked := by
  have same : SameLinks p (p.text s).1 := sameLinks_create p _
  have grown : (p.text s).1.nodes.size = p.nodes.size + 1 := size_create p _
  refine (linked.congr same).append (grown ▸ Nat.lt_succ_of_lt lt) (grown ▸ Nat.lt_succ_self _) ?_
  -- nothing stands under the new text but itself
  have childless : p.children (p.text s).2 = [] := children_of_size_le (Nat.le_refl _)
  intro under
  rcases Relation.ReflTransGen.cases_head under with e | ⟨child, h, _⟩
  · rw [← e] at lt
    exact Nat.lt_irrefl _ lt
  · rw [same.children, childless] at h
    cases h

theorem Linked.setText (linked : p.Linked) (n : NodeId) (s : String) : (p.setText n s).Linked := by
  unfold Page.setText
  split
  · exact linked.congr (p.sameLinks_content n _)
  · exact linked.congr (p.sameLinks_content n _)
  · next tag attributes properties _ content =>
    obtain ⟨d, hd, _⟩ := Option.map_eq_some_iff.mp content
    refine ((linked.congr (p.sameLinks_content n _)).dropChildren n).appendText ?_ s
    rw [size_dropChildren, size_change]
    exact index_lt_of_node? hd
  · exact linked

theorem Linked.setMarkup (linked : p.Linked) (n : NodeId) (s : String) :
    (p.setMarkup n s).Linked := by
  unfold Page.setMarkup
  split
  · exact (linked.congr (p.sameLinks_content n _)).dropChildren n
  · exact linked

/-- A root takes other nodes below it, one after the other. -/
theorem Linked.foldl_append {n : NodeId} (children : List NodeId) (linked : p.Linked)
    (root : p.parent? n = none) (lt : n.index < p.nodes.size)
    (others : ∀ child ∈ children, child.index < p.nodes.size ∧ child ≠ n) :
    (children.foldl (fun p child => p.append n child) p).Linked := by
  induction children generalizing p with
  | nil => exact linked
  | cons child rest ih =>
    obtain ⟨ltChild, ne⟩ := others child (List.mem_cons_self ..)
    have size := (repaints_append p n child).size
    refine ih (linked.append lt ltChild fun under => ne (linked.eq_of_under root under).symm) ?_
      (Nat.lt_of_lt_of_le lt size) fun other ho => ?_
    · rw [parent?_append n ltChild, if_neg ne.symm, root]
    · obtain ⟨ltOther, ne⟩ := others other (List.mem_cons_of_mem _ ho)
      exact ⟨Nat.lt_of_lt_of_le ltOther size, ne⟩

theorem Linked.element (linked : p.Linked) (tag : String) (attributes : List (String × String))
    {children : List NodeId} (there : ∀ child ∈ children, child.index < p.nodes.size) :
    (p.element tag attributes children).1.Linked := by
  have same := sameLinks_create p (.element tag attributes [] none)
  have grown := size_create p (.element tag attributes [] none)
  refine (linked.congr same).foldl_append (n := ⟨p.nodes.size⟩) children ?_ ?_ fun child hc => ?_
  · rw [same.parent?]
    exact parent?_of_size_le (Nat.le_refl _)
  · exact grown ▸ Nat.lt_succ_self _
  · refine ⟨grown ▸ Nat.lt_succ_of_lt (there child hc), fun e => ?_⟩
    have := there child hc
    rw [e] at this
    exact Nat.lt_irrefl _ this

/-! ## Edits -/

/-- What can be done to a page from outside. -/
inductive Edit (ρ : Type) where
  | element (tag : String) (attributes : List (String × String)) (children : List NodeId)
  | text (s : String)
  | comment (s : String)
  | append (parent child : NodeId)
  | setText (n : NodeId) (s : String)
  | setMarkup (n : NodeId) (s : String)
  | setAttribute (n : NodeId) (name value : String)
  | setProperty (n : NodeId) (name value : String)
  | listen (n : NodeId) (event : String) (response : ρ)

def edit (p : Page ρ) : Edit ρ → Page ρ
  | .element tag attributes children => (p.element tag attributes children).1
  | .text s => (p.text s).1
  | .comment s => (p.comment s).1
  | .append parent child => p.append parent child
  | .setText n s => p.setText n s
  | .setMarkup n s => p.setMarkup n s
  | .setAttribute n name value => p.setAttribute n name value
  | .setProperty n name value => p.setProperty n name value
  | .listen n event response => p.listen n event response

/-- The nodes that an edit places are nodes of the page, and none of them is put below itself. -/
def Admits (p : Page ρ) : Edit ρ → Prop
  | .element _ _ children => ∀ child ∈ children, child.index < p.nodes.size
  | .append parent child => parent.index < p.nodes.size ∧ child.index < p.nodes.size ∧
      ¬p.Under parent child
  | _ => True

def editAll (p : Page ρ) (edits : List (Edit ρ)) : Page ρ := edits.foldl edit p

/-- Every edit is admitted on the page that it is made on. -/
def AdmitsAll (p : Page ρ) : List (Edit ρ) → Prop
  | [] => True
  | e :: rest => p.Admits e ∧ (p.edit e).AdmitsAll rest

theorem editAll_append (p : Page ρ) (before after : List (Edit ρ)) :
    p.editAll (before ++ after) = (p.editAll before).editAll after := List.foldl_append

/-- An edit takes no node away. -/
theorem size_le_edit (p : Page ρ) (e : Edit ρ) : p.nodes.size ≤ (p.edit e).nodes.size := by
  cases e with
  | element tag attributes children => exact (repaints_element p tag attributes children).size
  | text s => exact (repaints_create p (.text s)).size
  | comment s => exact (repaints_create p (.comment s)).size
  | append parent child => exact (repaints_append p parent child).size
  | setText n s => exact (repaints_setText p n s).size
  | setMarkup n s => exact (repaints_setMarkup p n s).size
  | setAttribute n _ _ => exact (repaints_change p n _).size
  | setProperty n _ _ => exact (repaints_change p n _).size
  | listen _ _ _ => exact Nat.le_refl _

theorem size_le_editAll (p : Page ρ) (edits : List (Edit ρ)) :
    p.nodes.size ≤ (p.editAll edits).nodes.size := by
  induction edits generalizing p with
  | nil => exact Nat.le_refl _
  | cons e rest ih => exact Nat.le_trans (p.size_le_edit e) (ih _)

theorem linked_empty : (empty : Page ρ).Linked where
  count _ _ := rfl
  acyclic n cycle := by
    obtain ⟨_, h, _⟩ := Relation.TransGen.head'_iff.mp cycle
    cases h

theorem Linked.edit (linked : p.Linked) {e : Edit ρ} (admits : p.Admits e) :
    (p.edit e).Linked := by
  cases e with
  | element tag attributes children => exact linked.element tag attributes admits
  | text s => exact linked.congr (sameLinks_create p _)
  | comment s => exact linked.congr (sameLinks_create p _)
  | append parent child =>
    obtain ⟨ltParent, ltChild, apart⟩ := admits
    exact linked.append ltParent ltChild apart
  | setText n s => exact linked.setText n s
  | setMarkup n s => exact linked.setMarkup n s
  | setAttribute n name value => exact linked.congr (p.sameLinks_setAttribute n name value)
  | setProperty n name value => exact linked.congr (p.sameLinks_setProperty n name value)
  | listen n event response => exact linked.congr ⟨fun _ => rfl, fun _ => rfl⟩

theorem Linked.editAll {edits : List (Edit ρ)} (linked : p.Linked) (admits : p.AdmitsAll edits) :
    (p.editAll edits).Linked := by
  induction edits generalizing p with
  | nil => exact linked
  | cons e rest ih => exact ih (linked.edit admits.1) admits.2

/-- On a page that came about by edits, parents and children agree, every node stands under exactly one
root, to which its parents lead up, and no node that ever was there is missing. -/
theorem forest_of_edits (edits : List (Edit ρ)) (admits : (empty : Page ρ).AdmitsAll edits) :
    let p := (empty : Page ρ).editAll edits
    (∀ n child, (p.children n).count child = if p.parent? child = some n then 1 else 0) ∧
      (∀ n, n.index < p.nodes.size → ∃ root, root.index < p.nodes.size ∧ p.parent? root = none ∧
        Relation.ReflTransGen (fun a b => p.parent? a = some b) n root ∧ p.Under n root ∧
          ∀ other, p.parent? other = none → p.Under n other → other = root) ∧
      ∀ before after, edits = before ++ after →
        let earlier := (empty : Page ρ).editAll before
        earlier.nodes.size ≤ p.nodes.size ∧
          ∀ n, (earlier.node? n).isSome → (p.node? n).isSome := by
  intro p
  have linked : p.Linked := linked_empty.editAll admits
  refine ⟨linked.count, fun n lt => ?_, ?_⟩
  · obtain ⟨root, top, up, under⟩ := linked.exists_root n
    refine ⟨root, ?_, top, up, under, fun other none below => ?_⟩
    · rcases Relation.ReflTransGen.cases_head under with rfl | ⟨child, h, _⟩
      · exact lt
      · exact lt_of_mem_children h
    · rcases linked.forest.under_or_under below under with e | e
      · exact linked.eq_of_under none e
      · exact (linked.eq_of_under top e).symm
  · rintro before after rfl earlier
    have le : earlier.nodes.size ≤ p.nodes.size := by
      simp only [p, editAll_append]
      exact size_le_editAll _ after
    refine ⟨le, fun n there => ?_⟩
    exact isSome_node?_iff.mpr (Nat.lt_of_lt_of_le (isSome_node?_iff.mp there) le)

/-- What is under a node is among any nodes that hold it and all their children. -/
theorem Under.mem_of_closed {x n : NodeId} (under : p.Under x n) (nodes : List NodeId)
    (here : n ∈ nodes) (closed : ∀ a ∈ nodes, ∀ b ∈ p.children a, b ∈ nodes) : x ∈ nodes := by
  induction under with
  | refl => exact here
  | tail _ child ih => exact closed _ ih _ child

/-- A text is listed twice and then moved twice, and its old place and its new one are filled anew. -/
def rearranging : List (Edit Unit) :=
  [.text "a", .element "p" [] [⟨0⟩, ⟨0⟩], .element "div" [] [], .append ⟨2⟩ ⟨0⟩, .append ⟨2⟩ ⟨0⟩,
    .setText ⟨1⟩ "b", .append ⟨2⟩ ⟨1⟩, .setMarkup ⟨2⟩ "c", .append ⟨1⟩ ⟨2⟩, .append ⟨2⟩ ⟨0⟩]

theorem forest_of_rearranging :
    (empty.AdmitsAll rearranging ∧ (empty.editAll rearranging).children ⟨1⟩ = [⟨3⟩, ⟨2⟩] ∧
      (empty.editAll rearranging).children ⟨2⟩ = [⟨0⟩]) ∧
    ∀ n child, ((empty.editAll rearranging).children n).count child =
      if (empty.editAll rearranging).parent? child = some n then 1 else 0 := by
  have admits : empty.AdmitsAll rearranging := by
    refine ⟨trivial, by simp [Admits, edit, text, create, empty], nofun, ⟨by decide, by decide, fun under => ?_⟩,
      ⟨by decide, by decide, fun under => ?_⟩, trivial, ⟨by decide, by decide, fun under => ?_⟩,
      trivial, ⟨by decide, by decide, fun under => ?_⟩, ⟨by decide, by decide, fun under => ?_⟩,
      trivial⟩
    · exact absurd (under.mem_of_closed [⟨0⟩] (by decide) (by decide)) (by decide)
    · exact absurd (under.mem_of_closed [⟨0⟩] (by decide) (by decide)) (by decide)
    · exact absurd (under.mem_of_closed [⟨1⟩, ⟨3⟩] (by decide) (by decide)) (by decide)
    · exact absurd (under.mem_of_closed [⟨2⟩] (by decide) (by decide)) (by decide)
    · exact absurd (under.mem_of_closed [⟨0⟩] (by decide) (by decide)) (by decide)
  exact ⟨⟨admits, by decide, by decide⟩, (forest_of_edits rearranging admits).1⟩

end DataBinding.Page
