-- Pages with the same nodes. Listeners do not matter for what a page shows, nor for what a change makes of
-- its nodes: two pages with the same nodes read the same, and the same change leaves them with the
-- same nodes.
import DataBinding.Proofs.Page.Places

namespace DataBinding.Page

variable {ρ : Type} {p q : Page ρ}

/-! ## What is read -/

theorem node?_congr (same : q.nodes = p.nodes) (n : NodeId) : q.node? n = p.node? n := by
  simp only [node?, same]

theorem content?_congr (same : q.nodes = p.nodes) (n : NodeId) : q.content? n = p.content? n := by
  simp only [content?, node?_congr same]

theorem parent?_congr (same : q.nodes = p.nodes) (n : NodeId) : q.parent? n = p.parent? n := by
  simp only [parent?, node?_congr same]

theorem children_congr (same : q.nodes = p.nodes) (n : NodeId) : q.children n = p.children n := by
  simp only [children, node?_congr same]

theorem attribute?_congr (same : q.nodes = p.nodes) (n : NodeId) (name : String) :
    q.attribute? n name = p.attribute? n name := by
  simp only [attribute?, attributes, content?_congr same]

theorem property?_congr (same : q.nodes = p.nodes) (n : NodeId) (name : String) :
    q.property? n name = p.property? n name := by
  simp only [property?, properties, content?_congr same]

theorem tag?_congr (same : q.nodes = p.nodes) (n : NodeId) : q.tag? n = p.tag? n := by
  simp only [tag?, content?_congr same]

theorem innerMarkup?_congr (same : q.nodes = p.nodes) (n : NodeId) :
    q.innerMarkup? n = p.innerMarkup? n := by
  simp only [innerMarkup?, content?_congr same]

theorem textOf_congr (same : q.nodes = p.nodes) (n : NodeId) : q.textOf n = p.textOf n := by
  have inside (fuel : Nat) : q.textIn fuel = p.textIn fuel := by
    induction fuel with
    | zero => rfl
    | succ fuel ih =>
      funext n
      simp only [textIn, ownText, content?_congr same, children_congr same, ih]
  rw [textOf, textOf, same, inside]

theorem markupOf_congr (same : q.nodes = p.nodes) (n : NodeId) : q.markupOf n = p.markupOf n := by
  have inside (fuel : Nat) : q.markupIn fuel = p.markupIn fuel := by
    induction fuel with
    | zero => rfl
    | succ fuel ih =>
      funext n
      simp only [markupIn, content?_congr same, children_congr same, ih]
  rw [markupOf, markupOf, same, inside]

theorem query_congr (same : q.nodes = p.nodes) (selector : String) :
    q.query selector = p.query selector := by
  have fits (n : NodeId) : q.fits selector n = p.fits selector n := by
    simp only [Page.fits, attribute?_congr same, tag?_congr same]
  have inside (fuel : Nat) : q.findIn selector fuel = p.findIn selector fuel := by
    induction fuel with
    | zero => rfl
    | succ fuel ih =>
      funext n
      simp only [findIn, fits, children_congr same, ih]
  simp only [query, roots, same, parent?_congr same, inside]

/-! ## What changes -/

theorem nodes_change_congr (same : q.nodes = p.nodes) (n : NodeId) (f : Node → Node) :
    (q.change n f).nodes = (p.change n f).nodes := by
  simp only [change, same]

theorem nodes_create_congr (same : q.nodes = p.nodes) (content : Content) :
    (q.create content).1.nodes = (p.create content).1.nodes ∧
      (q.create content).2 = (p.create content).2 := by
  simp only [create, same, and_self]

theorem nodes_detach_congr (same : q.nodes = p.nodes) (n : NodeId) :
    (q.detach n).nodes = (p.detach n).nodes := by
  unfold detach
  rw [parent?_congr same]
  split
  · exact same
  · exact nodes_change_congr (nodes_change_congr same n _) _ _

theorem nodes_append_congr (same : q.nodes = p.nodes) (parent child : NodeId) :
    (q.append parent child).nodes = (p.append parent child).nodes :=
  nodes_change_congr (nodes_change_congr (nodes_detach_congr same child) child _) parent _

theorem nodes_foldl_congr {α : Type} {f : Page ρ → α → Page ρ}
    (hf : ∀ p q a, q.nodes = p.nodes → (f q a).nodes = (f p a).nodes) (as : List α)
    (same : q.nodes = p.nodes) : (as.foldl f q).nodes = (as.foldl f p).nodes := by
  induction as generalizing p q with
  | nil => exact same
  | cons a rest ih => exact ih (hf p q a same)

theorem nodes_element_congr (same : q.nodes = p.nodes) (tag : String)
    (attributes : List (String × String)) (children : List NodeId) :
    (q.element tag attributes children).1.nodes = (p.element tag attributes children).1.nodes ∧
      (q.element tag attributes children).2 = (p.element tag attributes children).2 := by
  obtain ⟨nodes, id⟩ := nodes_create_congr same (.element tag attributes [] none)
  refine ⟨?_, id⟩
  simp only [element, id]
  exact nodes_foldl_congr (fun _ _ child same => nodes_append_congr same _ child) children nodes

theorem nodes_dropChildren_congr (same : q.nodes = p.nodes) (n : NodeId) :
    (q.dropChildren n).nodes = (p.dropChildren n).nodes := by
  simp only [dropChildren, children_congr same]
  exact nodes_foldl_congr (fun _ _ child same => nodes_change_congr same child _) _
    (nodes_change_congr same n _)

/-- A new text below a node. -/
theorem nodes_appendText_congr (same : q.nodes = p.nodes) (n : NodeId) (s : String) :
    ((q.text s).1.append n (q.text s).2).nodes = ((p.text s).1.append n (p.text s).2).nodes := by
  obtain ⟨nodes, id⟩ := nodes_create_congr same (.text s)
  rw [text, text, id]
  exact nodes_append_congr nodes n _

theorem nodes_setText_congr (same : q.nodes = p.nodes) (n : NodeId) (s : String) :
    (q.setText n s).nodes = (p.setText n s).nodes := by
  unfold setText
  rw [content?_congr same]
  split
  · exact nodes_change_congr same n _
  · exact nodes_change_congr same n _
  · exact nodes_appendText_congr (nodes_dropChildren_congr (nodes_change_congr same n _) n) n s
  · exact same

theorem nodes_setMarkup_congr (same : q.nodes = p.nodes) (n : NodeId) (s : String) :
    (q.setMarkup n s).nodes = (p.setMarkup n s).nodes := by
  unfold setMarkup
  rw [content?_congr same]
  split
  · exact nodes_dropChildren_congr (nodes_change_congr same n _) n
  · exact same

theorem nodes_showing_congr (same : q.nodes = p.nodes) (directive : Directive) (n : NodeId)
    (s : String) : (q.showing directive n s).nodes = (p.showing directive n s).nodes := by
  cases directive with
  | model | bind _ => exact nodes_change_congr same n _
  | text => exact nodes_setText_congr same n s
  | html => exact nodes_setMarkup_congr same n s

end DataBinding.Page
