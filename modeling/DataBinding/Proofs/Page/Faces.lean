-- The faces of nodes: what a page shows of a node beside its parent. A change at one node leaves the faces
-- of all others as they are. What an element shows below it changes in two ways only: raw markup
-- leaves nothing there, and a text leaves one new node that holds it.
import DataBinding.Page.Reading

namespace DataBinding.Page

variable {ρ : Type} {p p' : Page ρ} {n : NodeId}

/-! ## Faces -/

/-- The content and the children of a node. -/
def Node.face (d : Node) : Content × List NodeId := (d.content, d.children)

def face? (p : Page ρ) (n : NodeId) : Option (Content × List NodeId) := (p.node? n).map Node.face

theorem content?_eq (p : Page ρ) (n : NodeId) : p.content? n = (p.face? n).map (·.1) := by
  simp only [content?, face?, Option.map_map]
  rfl

theorem children_eq (p : Page ρ) (n : NodeId) :
    p.children n = ((p.face? n).map (·.2)).getD [] := by
  simp only [children, face?, Option.map_map]
  rfl

theorem face?_of_content? {content : Content} (h : p.content? n = some content) :
    p.face? n = some (content, p.children n) := by
  obtain ⟨d, hd, rfl⟩ := Option.map_eq_some_iff.mp h
  rw [face?, children, hd]
  rfl

theorem face?_of_node? {d : Node} (h : p.node? n = some d) : p.face? n = some (d.content, d.children) := by
  rw [face?, h]
  rfl

/-- The parent of a node shows nowhere. -/
theorem face?_change_parent (p : Page ρ) (n : NodeId) (parent : Option NodeId) (other : NodeId) :
    (p.change n fun d => { d with parent }).face? other = p.face? other := by
  by_cases h : other = n
  · subst h
    rw [face?, face?, node?_change_self, Option.map_map]
    rfl
  · rw [face?, face?, node?_change_of_ne _ h]

theorem face?_change_of_ne (f : Node → Node) {other : NodeId} (h : other ≠ n) :
    (p.change n f).face? other = p.face? other := by
  rw [face?, face?, node?_change_of_ne f h]

theorem face?_change_self (p : Page ρ) (n : NodeId) (f : Node → Node) :
    (p.change n f).face? n = (p.node? n).map fun d => Node.face (f d) := by
  rw [face?, node?_change_self, Option.map_map]
  rfl

/-- The children are changed, and the content is not. -/
theorem face?_change_children (p : Page ρ) (n : NodeId) (f : List NodeId → List NodeId) :
    (p.change n fun d => { d with children := f d.children }).face? n =
      (p.face? n).map fun face => (face.1, f face.2) := by
  rw [face?_change_self, face?, Option.map_map]
  rfl

theorem size_change (p : Page ρ) (n : NodeId) (f : Node → Node) :
    (p.change n f).nodes.size = p.nodes.size := Array.size_modify ..

theorem index_lt_of_node? {d : Node} (h : p.node? n = some d) : n.index < p.nodes.size :=
  (Array.getElem?_eq_some_iff.mp h).1

/-! ## Changes at one node -/

/-- Only the node itself and new nodes have got other faces. -/
structure Spares (p p' : Page ρ) (n : NodeId) : Prop where
  others : ∀ m, m ≠ n → m.index < p.nodes.size → p'.face? m = p.face? m
  size : p.nodes.size ≤ p'.nodes.size

theorem Spares.refl (p : Page ρ) (n : NodeId) : Spares p p n := ⟨fun _ _ _ => rfl, Nat.le_refl _⟩

theorem Spares.trans {p₁ p₂ p₃ : Page ρ} (a : Spares p₁ p₂ n) (b : Spares p₂ p₃ n) :
    Spares p₁ p₃ n := by
  refine ⟨?_, Nat.le_trans a.size b.size⟩
  intro m hm lt
  rw [b.others m hm (Nat.lt_of_lt_of_le lt a.size), a.others m hm lt]

theorem spares_change (p : Page ρ) (n : NodeId) (f : Node → Node) : Spares p (p.change n f) n :=
  ⟨fun _ hm _ => face?_change_of_ne f hm, Nat.le_of_eq (size_change p n f).symm⟩

/-- A node is an element with the given children. -/
def HasBelow (p : Page ρ) (n : NodeId) (children : List NodeId) : Prop :=
  ∃ tag attributes properties markup,
    p.face? n = some (.element tag attributes properties markup, children)

theorem HasBelow.children {kids : List NodeId} (h : p.HasBelow n kids) : p.children n = kids := by
  obtain ⟨_, _, _, _, hf⟩ := h
  rw [children_eq, hf]
  rfl

theorem HasBelow.node? {kids : List NodeId} (h : p.HasBelow n kids) : ∃ d, p.node? n = some d ∧
    ∃ tag attributes properties markup, d.content = .element tag attributes properties markup ∧
      d.children = kids := by
  obtain ⟨tag, attributes, properties, markup, hf⟩ := h
  obtain ⟨d, hd, face⟩ := Option.map_eq_some_iff.mp hf
  simp only [Node.face, Prod.mk.injEq] at face
  exact ⟨d, hd, tag, attributes, properties, markup, face.1, face.2⟩

theorem hasBelow_change {kids kids' : List NodeId} {f : Node → Node} (h : p.HasBelow n kids)
    (hf : ∀ d, p.node? n = some d → ∃ tag attributes properties markup,
      Node.face (f d) = (.element tag attributes properties markup, kids')) :
    (p.change n f).HasBelow n kids' := by
  obtain ⟨d, hd, _⟩ := h.node?
  obtain ⟨tag, attributes, properties, markup, e⟩ := hf d hd
  refine ⟨tag, attributes, properties, markup, ?_⟩
  rw [face?, node?_change_self, hd, Option.map_some, Option.map_some, e]

theorem hasBelow_setAttribute {kids : List NodeId} (h : p.HasBelow n kids) (name value : String) :
    (p.setAttribute n name value).HasBelow n kids := by
  refine hasBelow_change h fun d hd => ?_
  obtain ⟨d', hd', tag, attributes, properties, markup, content, children⟩ := h.node?
  rw [hd] at hd'
  cases hd'
  exact ⟨_, _, _, _, by simp only [content, Node.face, children]; rfl⟩

theorem hasBelow_setProperty {kids : List NodeId} (h : p.HasBelow n kids) (name value : String) :
    (p.setProperty n name value).HasBelow n kids := by
  refine hasBelow_change h fun d hd => ?_
  obtain ⟨d', hd', tag, attributes, properties, markup, content, children⟩ := h.node?
  rw [hd] at hd'
  cases hd'
  exact ⟨_, _, _, _, by simp only [content, Node.face, children]; rfl⟩

/-! ## Children that are put away -/

theorem face?_foldl_orphan (kids : List NodeId) (p : Page ρ) (m : NodeId) :
    (kids.foldl (fun p child => p.change child fun d => { d with parent := none }) p).face? m =
      p.face? m := by
  induction kids generalizing p with
  | nil => rfl
  | cons child rest ih =>
    rw [List.foldl_cons, ih]
    exact face?_change_parent p child none m

theorem size_foldl_orphan (kids : List NodeId) (p : Page ρ) :
    (kids.foldl (fun p child => p.change child fun d => { d with parent := none }) p).nodes.size =
      p.nodes.size := by
  induction kids generalizing p with
  | nil => rfl
  | cons child rest ih =>
    rw [List.foldl_cons, ih]
    exact size_change ..

theorem size_dropChildren (p : Page ρ) (n : NodeId) :
    (p.dropChildren n).nodes.size = p.nodes.size :=
  (size_foldl_orphan _ _).trans (size_change ..)

theorem spares_dropChildren (p : Page ρ) (n : NodeId) : Spares p (p.dropChildren n) n := by
  refine ⟨?_, Nat.le_of_eq (size_dropChildren p n).symm⟩
  intro m hm _
  exact (face?_foldl_orphan _ _ m).trans (face?_change_of_ne _ hm)

theorem face?_dropChildren_self (p : Page ρ) (n : NodeId) :
    (p.dropChildren n).face? n = (p.face? n).map fun face => (face.1, []) :=
  (face?_foldl_orphan _ _ n).trans (face?_change_children p n fun _ => [])

theorem content?_of_face {content : Content} {kids : List NodeId}
    (h : p.face? n = some (content, kids)) : p.content? n = some content := by
  rw [content?_eq, h]
  rfl

/-- Raw markup takes the place of the children and of older markup. -/
theorem face?_setMarkup_self {tag : String} {attributes properties : List (String × String)}
    {markup : Option String} {kids : List NodeId}
    (h : p.face? n = some (.element tag attributes properties markup, kids)) (s : String) :
    (p.setMarkup n s).face? n = some (.element tag attributes properties (some s), []) := by
  obtain ⟨d, hd, _⟩ := Option.map_eq_some_iff.mp h
  unfold setMarkup
  rw [content?_of_face h, face?_dropChildren_self, face?_change_self, hd]
  rfl

theorem setMarkup_effect {kids : List NodeId} (h : p.HasBelow n kids) (s : String) :
    Spares p (p.setMarkup n s) n ∧ (p.setMarkup n s).HasBelow n [] ∧
      (p.setMarkup n s).nodes.size = p.nodes.size := by
  obtain ⟨tag, attributes, properties, markup, hf⟩ := h
  refine ⟨?_, ⟨_, _, _, _, face?_setMarkup_self hf s⟩, ?_⟩
  · unfold setMarkup
    rw [content?_of_face hf]
    exact (spares_change p n _).trans (spares_dropChildren _ n)
  · unfold setMarkup
    rw [content?_of_face hf]
    exact (size_dropChildren _ n).trans (size_change ..)

/-! ## Texts that are put -/

theorem size_create (p : Page ρ) (content : Content) :
    (p.create content).1.nodes.size = p.nodes.size + 1 := Array.size_push ..

theorem face?_create_of_lt (content : Content) {m : NodeId} (lt : m.index < p.nodes.size) :
    (p.create content).1.face? m = p.face? m := by
  simp only [face?, node?, create]
  rw [Array.getElem?_push_lt lt, Array.getElem?_eq_getElem lt]

/-- A node without a parent is appended: it comes last among the children. -/
theorem append_effect (p : Page ρ) (n : NodeId) {child : NodeId} (root : p.parent? child = none) :
    (∀ m, m ≠ n → (p.append n child).face? m = p.face? m) ∧
      (p.append n child).face? n = (p.face? n).map (fun face => (face.1, face.2 ++ [child])) ∧
      (p.append n child).nodes.size = p.nodes.size := by
  let placed := p.change child fun d => { d with parent := some n }
  have appended : p.append n child =
      placed.change n fun d => { d with children := d.children ++ [child] } := by
    simp only [append, detach, root, placed]
  have same (m : NodeId) : placed.face? m = p.face? m := face?_change_parent p child (some n) m
  rw [appended]
  refine ⟨fun m hm => (face?_change_of_ne _ hm).trans (same m), ?_, ?_⟩
  · rw [face?_change_children placed n (· ++ [child]), same]
  · exact (size_change ..).trans (size_change ..)

/-- A new text takes the place of the children of an element, and of its markup. -/
theorem setText_effect_of_element {tag : String} {attributes properties : List (String × String)}
    {markup : Option String} {kids : List NodeId}
    (h : p.face? n = some (.element tag attributes properties markup, kids)) (s : String) :
    Spares p (p.setText n s) n ∧
      (p.setText n s).face? n =
        some (.element tag attributes properties none, [⟨p.nodes.size⟩]) ∧
      (p.setText n s).face? ⟨p.nodes.size⟩ = some (.text s, []) ∧
      (p.setText n s).nodes.size = p.nodes.size + 1 := by
  obtain ⟨d, hd, _⟩ := Option.map_eq_some_iff.mp h
  have lt := index_lt_of_node? hd
  -- the page without the children, and then with the new text as a root
  generalize hq : (p.change n fun d =>
    { d with content := .element tag attributes properties none }).dropChildren n = q
  have spared : Spares p q n := hq ▸ (spares_change p n _).trans (spares_dropChildren _ n)
  have size : q.nodes.size = p.nodes.size := hq ▸ (size_dropChildren _ n).trans (size_change ..)
  have empty : q.face? n = some (.element tag attributes properties none, []) := by
    rw [← hq, face?_dropChildren_self, face?_change_self, hd]
    rfl
  have put : p.setText n s = (q.create (.text s)).1.append n ⟨p.nodes.size⟩ := by
    rw [← size, ← hq]
    simp only [setText, content?_of_face h]
    rfl
  have fresh : (q.create (.text s)).1.node? ⟨p.nodes.size⟩ = some ⟨.text s, none, []⟩ := by
    rw [← size]
    exact q.node?_create_self (.text s)
  have root : (q.create (.text s)).1.parent? ⟨p.nodes.size⟩ = none := by
    rw [parent?, fresh]
    rfl
  have kept {m : NodeId} (hm : m.index < p.nodes.size) :
      (q.create (.text s)).1.face? m = q.face? m := face?_create_of_lt (.text s) (size ▸ hm)
  obtain ⟨others, appended, total⟩ := append_effect (q.create (.text s)).1 n root
  rw [size_create, size] at total
  rw [put]
  refine ⟨⟨?_, ?_⟩, ?_, ?_, total⟩
  · intro m hm hlt
    rw [others m hm, kept hlt, spared.others m hm hlt]
  · rw [total]
    exact Nat.le_succ _
  · rw [appended, kept lt, empty]
    rfl
  · rw [others, face?_of_node? fresh]
    intro e
    rw [← e] at lt
    exact Nat.lt_irrefl _ lt

theorem setText_effect {kids : List NodeId} (h : p.HasBelow n kids) (s : String) :
    Spares p (p.setText n s) n ∧ (p.setText n s).HasBelow n [⟨p.nodes.size⟩] ∧
      (p.setText n s).face? ⟨p.nodes.size⟩ = some (.text s, []) ∧
      (p.setText n s).nodes.size = p.nodes.size + 1 := by
  obtain ⟨tag, attributes, properties, markup, hf⟩ := h
  obtain ⟨spares, replaced, fresh, size⟩ := setText_effect_of_element hf s
  exact ⟨spares, ⟨_, _, _, _, replaced⟩, fresh, size⟩

/-- The text of a text node is replaced in its place. -/
theorem setText_effect_of_text {kids : List NodeId} {old : String}
    (h : p.face? n = some (.text old, kids)) (s : String) :
    Spares p (p.setText n s) n ∧ (p.setText n s).face? n = some (.text s, kids) ∧
      (p.setText n s).nodes.size = p.nodes.size := by
  have content : p.content? n = some (.text old) := by
    rw [content?_eq, h]
    rfl
  obtain ⟨d, hd, face⟩ := Option.map_eq_some_iff.mp h
  simp only [Node.face, Prod.mk.injEq] at face
  unfold setText
  rw [content]
  refine ⟨spares_change p n _, ?_, size_change ..⟩
  rw [face?, node?_change_self, hd]
  simp only [Option.map_some, Node.face, face.2]

end DataBinding.Page
