-- Parts of a page as trees. On a forest, what stands below a node is a finite tree whose nodes are all
-- different, so a walk down that goes as deep as the page has nodes sees all of it.
import DataBinding.Proofs.Page.Faces
import Mathlib.Data.List.Nodup
import Mathlib.Data.List.Perm.Subperm
import Mathlib.Logic.Relation
import Mathlib.Order.WellFounded

namespace DataBinding

/-! ## Trees -/

/-- A node, what it is, and the trees below it. -/
inductive Tree where
  | node (n : NodeId) (content : Option Content) (below : List Tree)

namespace Tree

def id : Tree → NodeId
  | .node n _ _ => n

/-- What a node of some content itself adds to the text. -/
def ownText : Option Content → String
  | some (.text s) => s
  | some (.element _ _ _ (some markup)) => markup
  | _ => ""

mutual

def ids : Tree → List NodeId
  | .node n _ below => n :: idsOfAll below

def idsOfAll : List Tree → List NodeId
  | [] => []
  | t :: rest => ids t ++ idsOfAll rest

end

mutual

def height : Tree → Nat
  | .node _ _ below => heightOfAll below + 1

def heightOfAll : List Tree → Nat
  | [] => 0
  | t :: rest => max (height t) (heightOfAll rest)

end

mutual

/-- The text of a node and all below it. -/
def text : Tree → String
  | .node _ content below => ownText content ++ textOfAll below

def textOfAll : List Tree → String
  | [] => ""
  | t :: rest => text t ++ textOfAll rest

end

theorem id_mem_ids (t : Tree) : t.id ∈ t.ids := by
  cases t
  simp [ids, id]

theorem mem_idsOfAll {ts : List Tree} {x : NodeId} : x ∈ idsOfAll ts ↔ ∃ t ∈ ts, x ∈ t.ids := by
  induction ts with
  | nil => simp [idsOfAll]
  | cons t rest ih => simp [idsOfAll, ih]

theorem heightOfAll_le {ts : List Tree} {bound : Nat} (h : ∀ t ∈ ts, t.height ≤ bound) :
    heightOfAll ts ≤ bound := by
  induction ts with
  | nil => exact Nat.zero_le _
  | cons t rest ih =>
    rw [heightOfAll, Nat.max_le]
    exact ⟨h t (List.mem_cons_self ..), ih fun s hs => h s (List.mem_cons_of_mem _ hs)⟩

mutual

/-- A tree is at most as high as it has nodes. -/
theorem height_le_length : ∀ t : Tree, t.height ≤ t.ids.length
  | .node _ _ below => by
    have := heightOfAll_le_length below
    simp only [height, ids, List.length_cons]
    omega

theorem heightOfAll_le_length : ∀ ts : List Tree, heightOfAll ts ≤ (idsOfAll ts).length
  | [] => Nat.le_refl _
  | t :: rest => by
    have first := height_le_length t
    have others := heightOfAll_le_length rest
    simp only [heightOfAll, idsOfAll, List.length_append]
    omega

end

end Tree

namespace Page

variable {ρ : Type} {p : Page ρ}

/-! ## Trees of a page -/

mutual

/-- A tree stands on a page as it is. -/
def Holds (p : Page ρ) : Tree → Prop
  | .node n content below =>
    p.content? n = content ∧ p.children n = below.map Tree.id ∧ HoldsAll p below

def HoldsAll (p : Page ρ) : List Tree → Prop
  | [] => True
  | t :: rest => Holds p t ∧ HoldsAll p rest

end

theorem holdsAll_iff {ts : List Tree} : p.HoldsAll ts ↔ ∀ t ∈ ts, p.Holds t := by
  induction ts with
  | nil => simp [HoldsAll]
  | cons t rest ih => simp [HoldsAll, ih]

mutual

/-- A tree still stands where its nodes have kept their faces. -/
theorem Holds.keep {p' : Page ρ} : ∀ {t : Tree}, p.Holds t →
    (∀ n ∈ t.ids, p'.face? n = p.face? n) → p'.Holds t
  | .node n content below, holds, same => by
    obtain ⟨hc, hk, hb⟩ := holds
    have here := same n (by simp [Tree.ids])
    refine ⟨?_, ?_, HoldsAll.keep hb fun m hm => same m (by simp [Tree.ids, hm])⟩
    · rw [content?_eq, here, ← content?_eq, hc]
    · rw [children_eq, here, ← children_eq, hk]

theorem HoldsAll.keep {p' : Page ρ} : ∀ {ts : List Tree}, p.HoldsAll ts →
    (∀ n ∈ Tree.idsOfAll ts, p'.face? n = p.face? n) → p'.HoldsAll ts
  | [], _, _ => trivial
  | t :: rest, holds, same =>
    ⟨Holds.keep holds.1 fun n hn => same n (by simp [Tree.idsOfAll, hn]),
      HoldsAll.keep holds.2 fun n hn => same n (by simp [Tree.idsOfAll, hn])⟩

end

mutual

/-- The text of a tree is what is read on the page, if it is read deep enough. -/
theorem textIn_of_holds : ∀ {t : Tree} {fuel : Nat}, p.Holds t → t.height ≤ fuel →
    p.textIn fuel t.id = t.text
  | .node n content below, 0, _, deep => by simp [Tree.height] at deep
  | .node n content below, fuel + 1, holds, deep => by
    obtain ⟨hc, hk, hb⟩ := holds
    have others := textsIn_of_holds hb (show Tree.heightOfAll below ≤ fuel by
      simpa [Tree.height] using deep)
    have own : p.ownText n = Tree.ownText content := by
      rw [ownText, hc]
      rcases content with _ | (⟨_, _, _, _ | _⟩ | _ | _) <;> rfl
    simp only [textIn, Tree.id, hk, own, others, Tree.text]

theorem textsIn_of_holds : ∀ {ts : List Tree} {fuel : Nat}, p.HoldsAll ts →
    Tree.heightOfAll ts ≤ fuel →
    String.join ((ts.map Tree.id).map (p.textIn fuel)) = Tree.textOfAll ts
  | [], _, _, _ => rfl
  | t :: rest, fuel, holds, deep => by
    simp only [Tree.heightOfAll, Nat.max_le] at deep
    have first := textIn_of_holds holds.1 deep.1
    have others := textsIn_of_holds holds.2 deep.2
    simp only [List.map_cons, String.join_cons, first, others, Tree.textOfAll]

end

/-- The tree below a node, cut off at a depth. -/
def tree (p : Page ρ) : Nat → NodeId → Tree
  | 0, n => .node n (p.content? n) []
  | fuel + 1, n => .node n (p.content? n) ((p.children n).map (p.tree fuel))

theorem id_tree (p : Page ρ) (fuel : Nat) (n : NodeId) : (p.tree fuel n).id = n := by
  cases fuel <;> rfl

mutual

theorem tree_of_holds : ∀ {t : Tree} {fuel : Nat}, p.Holds t → t.height ≤ fuel →
    p.tree fuel t.id = t
  | .node n content below, 0, _, deep => by simp [Tree.height] at deep
  | .node n content below, fuel + 1, holds, deep => by
    obtain ⟨hc, hk, hb⟩ := holds
    have others := trees_of_holds hb (show Tree.heightOfAll below ≤ fuel by
      simpa [Tree.height] using deep)
    simp only [tree, Tree.id, hc, hk, others]

theorem trees_of_holds : ∀ {ts : List Tree} {fuel : Nat}, p.HoldsAll ts →
    Tree.heightOfAll ts ≤ fuel → (ts.map Tree.id).map (p.tree fuel) = ts
  | [], _, _, _ => rfl
  | t :: rest, fuel, holds, deep => by
    simp only [Tree.heightOfAll, Nat.max_le] at deep
    have first := tree_of_holds holds.1 deep.1
    have others := trees_of_holds holds.2 deep.2
    simp only [List.map_cons, first, others]

end

/-! ## Forests -/

/-- A page without shared children and without an endless way down. -/
structure Forest (p : Page ρ) : Prop where
  parents : ∀ n child, child ∈ p.children n → p.parent? child = some n
  nodup : ∀ n, (p.children n).Nodup
  wellFounded : WellFounded fun child n => child ∈ p.children n

/-- The parents and the children decide whether a page is a forest. -/
theorem Forest.congr {p' : Page ρ} (forest : p.Forest) (nodes : p'.nodes = p.nodes) :
    p'.Forest := by
  have kids : p'.children = p.children := by
    funext n
    simp only [children, node?, nodes]
  have parents : p'.parent? = p.parent? := by
    funext n
    simp only [parent?, node?, nodes]
  exact ⟨by rw [kids, parents]; exact forest.parents, by rw [kids]; exact forest.nodup,
    by rw [kids]; exact forest.wellFounded⟩

/-- A node is another one or stands somewhere below it. -/
def Under (p : Page ρ) (x n : NodeId) : Prop :=
  Relation.ReflTransGen (fun a b => b ∈ p.children a) n x

theorem Under.below {x a n : NodeId} (under : p.Under x a) (child : a ∈ p.children n) :
    Relation.TransGen (fun a b => b ∈ p.children a) n x := .head' child under

mutual

theorem under_of_mem_ids : ∀ {t : Tree} {x : NodeId}, p.Holds t → x ∈ t.ids → p.Under x t.id
  | .node n content below, x, holds, hx => by
    obtain ⟨hc, hk, hb⟩ := holds
    rcases List.mem_cons.mp (by simpa only [Tree.ids] using hx) with rfl | hx
    · exact .refl
    · obtain ⟨t, ht, under⟩ := under_of_mem_idsOfAll hb hx
      have child : t.id ∈ p.children n := hk ▸ List.mem_map_of_mem ht
      exact .head child under

theorem under_of_mem_idsOfAll : ∀ {ts : List Tree} {x : NodeId}, p.HoldsAll ts →
    x ∈ Tree.idsOfAll ts → ∃ t ∈ ts, p.Under x t.id
  | [], _, _, hx => by cases hx
  | t :: rest, x, holds, hx => by
    rcases List.mem_append.mp (by simpa only [Tree.idsOfAll] using hx) with hx | hx
    · exact ⟨t, List.mem_cons_self .., under_of_mem_ids holds.1 hx⟩
    · obtain ⟨t', ht', under⟩ := under_of_mem_idsOfAll holds.2 hx
      exact ⟨t', List.mem_cons_of_mem _ ht', under⟩

end

mutual

/-- The children of the nodes of a tree are among its nodes. -/
theorem child_mem_ids : ∀ {t : Tree} {x y : NodeId}, p.Holds t → x ∈ t.ids → y ∈ p.children x →
    y ∈ t.ids
  | .node n content below, x, y, holds, hx, hy => by
    obtain ⟨hc, hk, hb⟩ := holds
    rw [Tree.ids]
    rcases List.mem_cons.mp (by simpa only [Tree.ids] using hx) with rfl | hx
    · rw [hk] at hy
      obtain ⟨t, ht, rfl⟩ := List.mem_map.mp hy
      exact List.mem_cons_of_mem _ (Tree.mem_idsOfAll.mpr ⟨t, ht, t.id_mem_ids⟩)
    · exact List.mem_cons_of_mem _ (child_mem_idsOfAll hb hx hy)

theorem child_mem_idsOfAll : ∀ {ts : List Tree} {x y : NodeId}, p.HoldsAll ts →
    x ∈ Tree.idsOfAll ts → y ∈ p.children x → y ∈ Tree.idsOfAll ts
  | [], _, _, _, hx, _ => by cases hx
  | t :: rest, x, y, holds, hx, hy => by
    rw [Tree.idsOfAll]
    rcases List.mem_append.mp (by simpa only [Tree.idsOfAll] using hx) with hx | hx
    · exact List.mem_append_left _ (child_mem_ids holds.1 hx hy)
    · exact List.mem_append_right _ (child_mem_idsOfAll holds.2 hx hy)

end

/-- The nodes of a tree are those under its first node. -/
theorem mem_ids_iff {t : Tree} (holds : p.Holds t) {x : NodeId} : x ∈ t.ids ↔ p.Under x t.id := by
  constructor
  · exact under_of_mem_ids holds
  · intro under
    induction under with
    | refl => exact t.id_mem_ids
    | tail _ child ih => exact child_mem_ids holds ih child

namespace Forest

theorem no_cycle (forest : p.Forest) (n : NodeId) :
    ¬Relation.TransGen (fun a b => b ∈ p.children a) n n := by
  intro cycle
  exact forest.wellFounded.transGen.irrefl.irrefl n (Relation.transGen_swap.mp cycle)

/-- Of two nodes with a common node under them, one is under the other. -/
theorem under_or_under (forest : p.Forest) {x a b : NodeId} (ha : p.Under x a) (hb : p.Under x b) :
    p.Under a b ∨ p.Under b a := by
  induction ha generalizing b with
  | refl => exact .inl hb
  | @tail y x before child ih =>
    rcases Relation.ReflTransGen.cases_tail hb with rfl | ⟨z, hz, child'⟩
    · exact .inr (before.tail child)
    · have e := (forest.parents y x child).symm.trans (forest.parents z x child')
      cases e
      exact ih hz

/-- Below different children stand different nodes. -/
theorem apart (forest : p.Forest) {n a b x : NodeId} (ha : a ∈ p.children n)
    (hb : b ∈ p.children n) (ne : a ≠ b) (hx : p.Under x a) : ¬p.Under x b := by
  -- a child under another one would bring its parent, and so a cycle, with it
  have never {a b : NodeId} (ha : a ∈ p.children n) (hb : b ∈ p.children n) (ne : a ≠ b) :
      ¬p.Under a b := by
    intro under
    rcases Relation.ReflTransGen.cases_tail under with e | ⟨z, hz, child⟩
    · exact ne e
    · have e := (forest.parents z a child).symm.trans (forest.parents n a ha)
      cases e
      exact forest.no_cycle n (Under.below hz hb)
  intro hx'
  rcases forest.under_or_under hx hx' with under | under
  · exact never ha hb ne under
  · exact never hb ha ne.symm under

mutual

theorem nodup_ids (forest : p.Forest) : ∀ {t : Tree}, p.Holds t → t.ids.Nodup
  | .node n content below, holds => by
    obtain ⟨hc, hk, hb⟩ := holds
    rw [Tree.ids, List.nodup_cons]
    have kids (t : Tree) (ht : t ∈ below) : t.id ∈ p.children n := hk ▸ List.mem_map_of_mem ht
    refine ⟨?_, nodup_idsOfAll forest hb kids (hk ▸ forest.nodup n)⟩
    intro hn
    obtain ⟨t, ht, under⟩ := under_of_mem_idsOfAll hb hn
    exact forest.no_cycle n (under.below (kids t ht))

theorem nodup_idsOfAll (forest : p.Forest) {n : NodeId} : ∀ {ts : List Tree}, p.HoldsAll ts →
    (∀ t ∈ ts, t.id ∈ p.children n) → (ts.map Tree.id).Nodup → (Tree.idsOfAll ts).Nodup
  | [], _, _, _ => List.nodup_nil
  | t :: rest, holds, kids, nodup => by
    rw [List.map_cons, List.nodup_cons] at nodup
    rw [Tree.idsOfAll, List.nodup_append]
    refine ⟨nodup_ids forest holds.1, nodup_idsOfAll forest holds.2 (fun s hs =>
      kids s (List.mem_cons_of_mem _ hs)) nodup.2, ?_⟩
    rintro x hx y hy rfl
    obtain ⟨s, hs, under⟩ := under_of_mem_idsOfAll holds.2 hy
    have ne : t.id ≠ s.id := fun e => nodup.1 (e ▸ List.mem_map_of_mem hs)
    exact forest.apart (kids t (List.mem_cons_self ..)) (kids s (List.mem_cons_of_mem _ hs)) ne
      (under_of_mem_ids holds.1 hx) under

end

/-- What stands below a node is a finite tree. -/
theorem exists_tree (forest : p.Forest) (n : NodeId) : ∃ t : Tree, t.id = n ∧ p.Holds t := by
  induction n using forest.wellFounded.induction with
  | _ n ih =>
    have all : ∀ kids, (∀ child ∈ kids, child ∈ p.children n) →
        ∃ ts : List Tree, ts.map Tree.id = kids ∧ p.HoldsAll ts := by
      intro kids
      induction kids with
      | nil => exact fun _ => ⟨[], rfl, trivial⟩
      | cons child rest ihr =>
        intro sub
        obtain ⟨t, ht, holds⟩ := ih child (sub child (List.mem_cons_self ..))
        obtain ⟨ts, hts, holdsAll⟩ := ihr fun c hc => sub c (List.mem_cons_of_mem _ hc)
        exact ⟨t :: ts, by rw [List.map_cons, ht, hts], holds, holdsAll⟩
    obtain ⟨ts, hts, holds⟩ := all (p.children n) fun _ h => h
    exact ⟨.node n (p.content? n) ts, rfl, rfl, hts.symm, holds⟩

theorem lt_of_child (forest : p.Forest) {n child : NodeId} (h : child ∈ p.children n) :
    child.index < p.nodes.size := by
  obtain ⟨d, hd, _⟩ := Option.bind_eq_some_iff.mp (forest.parents n child h)
  exact index_lt_of_node? hd

/-- Below a node stand nodes of the page only. -/
theorem lt_of_under (forest : p.Forest) {x n : NodeId} (lt : n.index < p.nodes.size)
    (under : p.Under x n) : x.index < p.nodes.size := by
  rcases Relation.ReflTransGen.cases_tail under with rfl | ⟨y, _, child⟩
  · exact lt
  · exact forest.lt_of_child child

/-- The tree of a node is at most as high as the page has nodes. -/
theorem height_le (forest : p.Forest) {t : Tree} (holds : p.Holds t)
    (lt : t.id.index < p.nodes.size) : t.height ≤ p.nodes.size := by
  have nodup : (t.ids.map NodeId.index).Nodup :=
    .map (fun a b e => congrArg NodeId.mk e) (nodup_ids forest holds)
  have sub : t.ids.map NodeId.index ⊆ List.range p.nodes.size := by
    intro i hi
    obtain ⟨x, hx, rfl⟩ := List.mem_map.mp hi
    exact List.mem_range.mpr (forest.lt_of_under lt (under_of_mem_ids holds hx))
  have le := (List.subperm_of_subset nodup sub).length_le
  rw [List.length_map, List.length_range] at le
  exact Nat.le_trans t.height_le_length le

/-- As deep as the page has nodes, the tree of a node is seen as it is. -/
theorem holds_tree (forest : p.Forest) {n : NodeId} (lt : n.index < p.nodes.size) :
    p.Holds (p.tree p.nodes.size n) ∧ (p.tree p.nodes.size n).height ≤ p.nodes.size := by
  obtain ⟨t, rfl, holds⟩ := forest.exists_tree n
  have le := forest.height_le holds lt
  rw [tree_of_holds holds le]
  exact ⟨holds, le⟩

end Forest

/-- The trees below a node. -/
def below (p : Page ρ) (n : NodeId) : List Tree := (p.children n).map (p.tree p.nodes.size)

theorem map_id_below (p : Page ρ) (n : NodeId) : (p.below n).map Tree.id = p.children n := by
  rw [below, List.map_map]
  exact (List.map_congr_left fun child _ => p.id_tree _ child).trans (List.map_id _)

/-- The trees below a node of a forest stand there; their nodes are all different and all on the page, and
they are no higher than the page has nodes. -/
theorem Forest.holds_below (forest : p.Forest) (n : NodeId) :
    p.HoldsAll (p.below n) ∧ (Tree.idsOfAll (p.below n)).Nodup ∧
      (∀ m ∈ Tree.idsOfAll (p.below n), m.index < p.nodes.size) ∧
      Tree.heightOfAll (p.below n) ≤ p.nodes.size := by
  have each (t : Tree) (ht : t ∈ p.below n) : t.id ∈ p.children n ∧ p.Holds t ∧
      t.height ≤ p.nodes.size := by
    obtain ⟨child, hc, rfl⟩ := List.mem_map.mp ht
    have holds := forest.holds_tree (forest.lt_of_child hc)
    rw [id_tree]
    exact ⟨hc, holds.1, holds.2⟩
  have holds : p.HoldsAll (p.below n) := holdsAll_iff.mpr fun t ht => (each t ht).2.1
  refine ⟨holds, ?_, ?_, Tree.heightOfAll_le fun t ht => (each t ht).2.2⟩
  · exact nodup_idsOfAll forest holds (fun t ht => (each t ht).1) (p.map_id_below n ▸ forest.nodup n)
  · intro m hm
    obtain ⟨t, ht, hm⟩ := Tree.mem_idsOfAll.mp hm
    obtain ⟨hc, stands, _⟩ := each t ht
    exact forest.lt_of_under (forest.lt_of_child hc) (under_of_mem_ids stands hm)

end Page

end DataBinding
