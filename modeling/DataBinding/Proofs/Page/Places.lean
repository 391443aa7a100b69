-- Places of a page. What a directive shows on a node fills one place: an attribute, the value of an input
-- field, or the content of the node, which is shared by texts and raw markup. To show something
-- elsewhere leaves the place filled, unless it is shown on the text that fills it.
import DataBinding.Proofs.Page.Faces
import DataBinding.Template.Directive

namespace DataBinding

/-- A part of a page that one text fills. -/
inductive Place where
  | attribute (n : NodeId) (name : String)
  | value (n : NodeId)
  | content (n : NodeId)
deriving DecidableEq, Repr

/-- The place that a directive fills on a node. -/
def Directive.place (n : NodeId) : Directive → Place
  | .model => .value n
  | .bind name => .attribute n name
  | .text | .html => .content n

namespace Page

variable {ρ : Type} {p p' : Page ρ} {n m : NodeId} {directive : Directive}

/-- A text is shown on a node. -/
def showing (p : Page ρ) (directive : Directive) (n : NodeId) (s : String) : Page ρ :=
  match directive with
  | .model => p.setProperty n "value" s
  | .text => p.setText n s
  | .html => p.setMarkup n s
  | .bind name => p.setAttribute n name s

/-- A text fills the place of a directive. The content of an element is a text if a single child holds
it and there is no raw markup beside. -/
def Shows (p : Page ρ) (n : NodeId) (s : String) : Directive → Prop
  | .model => p.property? n "value" = some s
  | .bind name => p.attribute? n name = some s
  | .html => p.innerMarkup? n = some s ∧ p.children n = []
  | .text => p.content? n = some (.text s) ∨ ∃ tag attributes properties child,
    p.face? n = some (.element tag attributes properties none, [child]) ∧
      p.face? child = some (.text s, [])

/-! ## Changes that keep all nodes -/

/-- The nodes may be different, but none went away, and the listeners are the same. -/
structure Repaints (p p' : Page ρ) : Prop where
  listeners : p'.listeners = p.listeners
  size : p.nodes.size ≤ p'.nodes.size

namespace Repaints

theorem refl (p : Page ρ) : Repaints p p := ⟨rfl, Nat.le_refl _⟩

theorem trans {p₁ p₂ p₃ : Page ρ} (a : Repaints p₁ p₂) (b : Repaints p₂ p₃) : Repaints p₁ p₃ :=
  ⟨b.listeners.trans a.listeners, Nat.le_trans a.size b.size⟩

end Repaints

theorem repaints_change (p : Page ρ) (n : NodeId) (f : Node → Node) : Repaints p (p.change n f) :=
  ⟨rfl, Nat.le_of_eq (size_change p n f).symm⟩

theorem repaints_create (p : Page ρ) (content : Content) : Repaints p (p.create content).1 :=
  ⟨rfl, size_create p content ▸ Nat.le_succ _⟩

theorem repaints_detach (p : Page ρ) (n : NodeId) : Repaints p (p.detach n) := by
  unfold detach
  split
  · exact .refl p
  · exact (repaints_change p n _).trans (repaints_change _ _ _)

theorem repaints_append (p : Page ρ) (parent child : NodeId) :
    Repaints p (p.append parent child) :=
  ((repaints_detach p child).trans (repaints_change _ child _)).trans (repaints_change _ parent _)

theorem repaints_foldl {α : Type} {f : Page ρ → α → Page ρ} (hf : ∀ p a, Repaints p (f p a))
    (as : List α) (p : Page ρ) : Repaints p (as.foldl f p) := by
  induction as generalizing p with
  | nil => exact .refl p
  | cons a rest ih => exact (hf p a).trans (ih _)

theorem repaints_element (p : Page ρ) (tag : String) (attributes : List (String × String))
    (children : List NodeId) : Repaints p (p.element tag attributes children).1 :=
  (repaints_create p _).trans (repaints_foldl (fun p child => repaints_append p _ child) children _)

theorem repaints_dropChildren (p : Page ρ) (n : NodeId) : Repaints p (p.dropChildren n) :=
  (repaints_change p n _).trans
    (repaints_foldl (fun p child => repaints_change p child _) (p.children n) _)

theorem repaints_setText (p : Page ρ) (n : NodeId) (s : String) : Repaints p (p.setText n s) := by
  unfold setText
  split
  · exact repaints_change p n _
  · exact repaints_change p n _
  · exact (((repaints_change p n _).trans (repaints_dropChildren _ n)).trans
      (repaints_create _ (.text s))).trans (repaints_append _ n _)
  · exact .refl p

theorem repaints_setMarkup (p : Page ρ) (n : NodeId) (s : String) :
    Repaints p (p.setMarkup n s) := by
  unfold setMarkup
  split
  · exact (repaints_change p n _).trans (repaints_dropChildren _ n)
  · exact .refl p

theorem repaints_showing (p : Page ρ) (directive : Directive) (n : NodeId) (s : String) :
    Repaints p (p.showing directive n s) := by
  cases directive with
  | model | bind _ => exact repaints_change p n _
  | text => exact repaints_setText p n s
  | html => exact repaints_setMarkup p n s

/-! ## Elements and texts -/

def IsElement (p : Page ρ) (n : NodeId) : Prop := ∃ kids, p.HasBelow n kids

def IsText (p : Page ρ) (n : NodeId) : Prop := ∃ s kids, p.face? n = some (.text s, kids)

/-- A directive can be shown on an element, and a text on a text, too. -/
def Suits (p : Page ρ) (n : NodeId) (directive : Directive) : Prop :=
  p.IsElement n ∨ p.IsText n ∧ directive = .text

theorem index_lt_of_face? {face : Content × List NodeId} (h : p.face? n = some face) :
    n.index < p.nodes.size := by
  obtain ⟨d, hd, _⟩ := Option.map_eq_some_iff.mp h
  exact index_lt_of_node? hd

theorem Suits.lt (suits : p.Suits n directive) : n.index < p.nodes.size := by
  rcases suits with ⟨_, _, _, _, _, hf⟩ | ⟨⟨_, _, hf⟩, _⟩ <;> exact index_lt_of_face? hf

theorem IsElement.not_isText (element : p.IsElement n) : ¬p.IsText n := by
  rintro ⟨s, kids, hf⟩
  obtain ⟨_, _, _, _, _, hf'⟩ := element
  rw [hf] at hf'
  cases hf'

/-- The face of an element on which something is shown. -/
theorem face?_showing_element {tag : String} {attributes properties : List (String × String)}
    {markup : Option String} {kids : List NodeId}
    (h : p.face? n = some (.element tag attributes properties markup, kids))
    (directive : Directive) (s : String) : (p.showing directive n s).face? n = match directive with
      | .model => some (.element tag attributes (putEntry "value" s properties) markup, kids)
      | .bind name => some (.element tag (putEntry name s attributes) properties markup, kids)
      | .html => some (.element tag attributes properties (some s), [])
      | .text => some (.element tag attributes properties none, [⟨p.nodes.size⟩]) := by
  obtain ⟨d, hd, face⟩ := Option.map_eq_some_iff.mp h
  simp only [Node.face, Prod.mk.injEq] at face
  cases directive with
  | model =>
    refine (face?_change_self p n _).trans ?_
    simp only [hd, Option.map_some, Node.face, face.1, face.2]
  | bind name =>
    refine (face?_change_self p n _).trans ?_
    simp only [hd, Option.map_some, Node.face, face.1, face.2]
  | html => exact face?_setMarkup_self h s
  | text => exact (setText_effect_of_element h s).2.1

/-- A text shows texts only. -/
theorem face?_showing_text {old : String} {kids : List NodeId}
    (h : p.face? n = some (.text old, kids)) (directive : Directive) (s : String) :
    (p.showing directive n s).face? n = match directive with
      | .text => some (.text s, kids)
      | _ => some (.text old, kids) := by
  obtain ⟨d, hd, face⟩ := Option.map_eq_some_iff.mp h
  simp only [Node.face, Prod.mk.injEq] at face
  cases directive with
  | model | bind _ =>
    refine (face?_change_self p n _).trans ?_
    simp only [hd, Option.map_some, Node.face, face.1, face.2]
  | html =>
    simp only [showing, setMarkup, content?_of_face h]
    exact h
  | text => exact (setText_effect_of_text h s).2.1

/-- Only elements have a value. -/
theorem face?_showing_model (other : ¬p.IsElement n) (s : String) (m : NodeId) :
    (p.showing .model n s).face? m = p.face? m := by
  by_cases hm : m = n
  · subst hm
    refine (face?_change_self p m _).trans ?_
    rcases hd : p.node? m with _ | ⟨content, parent, kids⟩
    · simp [face?, hd]
    · rcases content with _ | _ | _
      · exact absurd ⟨_, _, _, _, _, face?_of_node? hd⟩ other
      · simp [face?, hd]
      · simp [face?, hd]
  · exact face?_change_of_ne _ hm

/-- A text without children is all the text of its node. -/
theorem textOf_of_leaf {s : String} (h : p.face? n = some (.text s, [])) : p.textOf n = s := by
  have lt := index_lt_of_face? h
  obtain ⟨fuel, hs⟩ := Nat.exists_eq_succ_of_ne_zero (Nat.ne_of_gt (Nat.zero_lt_of_lt lt))
  have kids : p.children n = [] := by
    rw [children_eq, h]
    rfl
  rw [textOf, hs, textIn, ownText, content?_of_face h, kids]
  exact String.append_empty

/-- Nothing but the node and new nodes look different. -/
theorem spares_showing (p : Page ρ) (directive : Directive) (n : NodeId) (s : String) :
    Spares p (p.showing directive n s) n := by
  cases directive with
  | model | bind _ => exact spares_change p n _
  | html =>
    simp only [showing, setMarkup]
    split
    · exact (spares_change p n _).trans (spares_dropChildren _ n)
    · exact .refl p n
  | text =>
    rcases hc : p.content? n with _ | _ | _ | _
    · simp only [showing, setText, hc]
      exact .refl p n
    · exact (setText_effect_of_element (face?_of_content? hc) s).1
    · exact (setText_effect_of_text (face?_of_content? hc) s).1
    · simp only [showing, setText, hc]
      exact spares_change p n _

theorem isElement_showing (element : p.IsElement m) (directive : Directive) (n : NodeId)
    (s : String) : (p.showing directive n s).IsElement m := by
  obtain ⟨kids, tag, attributes, properties, markup, hf⟩ := element
  by_cases hm : m = n
  · subst hm
    have face := face?_showing_element hf directive s
    cases directive <;> exact ⟨_, _, _, _, _, face⟩
  · rw [← (p.spares_showing directive n s).others m hm (index_lt_of_face? hf)] at hf
    exact ⟨kids, tag, attributes, properties, markup, hf⟩

theorem isText_showing (text : p.IsText m) (directive : Directive) (n : NodeId) (s : String) :
    (p.showing directive n s).IsText m := by
  obtain ⟨old, kids, hf⟩ := text
  by_cases hm : m = n
  · subst hm
    have face := face?_showing_text hf directive s
    cases directive <;> exact ⟨_, _, face⟩
  · rw [← (p.spares_showing directive n s).others m hm (index_lt_of_face? hf)] at hf
    exact ⟨old, kids, hf⟩

theorem Suits.showing {other : Directive} (suits : p.Suits m other) (directive : Directive)
    (n : NodeId) (s : String) : (p.showing directive n s).Suits m other :=
  suits.imp (fun element => isElement_showing element directive n s)
    fun text => ⟨isText_showing text.1 directive n s, text.2⟩

/-- A child of an element afterwards was a child of it before or is new. -/
theorem mem_children_showing {child : NodeId} {directive : Directive} {s : String}
    (element : p.IsElement m) (hc : child ∈ (p.showing directive n s).children m) :
    child ∈ p.children m ∨ child.index = p.nodes.size := by
  obtain ⟨kids, tag, attributes, properties, markup, hf⟩ := element
  rw [children_eq] at hc ⊢
  by_cases hm : m = n
  · subst hm
    rw [face?_showing_element hf directive s] at hc
    rw [hf]
    cases directive <;> simp_all
  · rw [(p.spares_showing directive n s).others m hm (index_lt_of_face? hf)] at hc
    exact .inl hc

/-! ## Places that are filled -/

/-- What fills a place can be read off the faces of the node and of its children. -/
theorem Shows.congr {s : String} (shows : p.Shows n s directive) (same : p'.face? n = p.face? n)
    (below : directive = .text → p.IsElement n → ∀ child ∈ p.children n,
      p'.face? child = p.face? child) : p'.Shows n s directive := by
  have content : p'.content? n = p.content? n := by rw [content?_eq, content?_eq, same]
  cases directive with
  | model => simpa only [Shows, property?, properties, content] using shows
  | bind name => simpa only [Shows, attribute?, attributes, content] using shows
  | html => simpa only [Shows, innerMarkup?, content, children_eq, same] using shows
  | text =>
    rcases shows with shows | ⟨tag, attributes, properties, child, hf, hc⟩
    · exact .inl (content ▸ shows)
    · have kids : p.children n = [child] := by
        rw [children_eq, hf]
        rfl
      refine .inr ⟨tag, attributes, properties, child, same ▸ hf, ?_⟩
      rw [below rfl ⟨_, _, _, _, _, hf⟩ child (by simp [kids])]
      exact hc

/-- A directive fills its place with what it shows. -/
theorem shows_showing (suits : p.Suits n directive) (s : String) :
    (p.showing directive n s).Shows n s directive := by
  rcases suits with ⟨kids, tag, attributes, properties, markup, hf⟩ | ⟨⟨old, kids, hf⟩, rfl⟩
  · have face := face?_showing_element hf directive s
    cases directive with
    | model =>
      simp only [Shows, property?, Page.properties, content?_of_face face, lookup_putEntry_self]
    | bind name =>
      simp only [Shows, attribute?, Page.attributes, content?_of_face face, lookup_putEntry_self]
    | html =>
      refine ⟨by simp only [innerMarkup?, content?_of_face face], ?_⟩
      rw [children_eq, face]
      rfl
    | text =>
      exact .inr ⟨tag, attributes, properties, _, face, (setText_effect_of_element hf s).2.2.1⟩
  · exact .inl (content?_of_face (face?_showing_text hf .text s))

/-- The text that fills the content of an element is a node of the page. -/
theorem Shows.child {s : String} (shows : p.Shows n s .text) (element : p.IsElement n)
    {child : NodeId} (hc : child ∈ p.children n) : p.face? child = some (.text s, []) := by
  rcases shows with content | ⟨tag, attributes, properties, only, hf, hs⟩
  · obtain ⟨kids, tag, attributes, properties, markup, hf⟩ := element
    rw [content?_of_face hf] at content
    cases content
  · rw [children_eq, hf] at hc
    obtain rfl := List.mem_singleton.mp hc
    exact hs

/-- All nodes that were there look the same. -/
def Retains (p p' : Page ρ) : Prop := ∀ m, m.index < p.nodes.size → p'.face? m = p.face? m

theorem Retains.shows {s : String} (retains : p.Retains p') (suits : p.Suits n directive)
    (shows : p.Shows n s directive) : p'.Shows n s directive := by
  refine shows.congr (retains n suits.lt) fun text element child hc => ?_
  subst text
  exact retains child (index_lt_of_face? (shows.child element hc))

theorem Retains.suits (retains : p.Retains p') (suits : p.Suits n directive) :
    p'.Suits n directive := by
  simpa only [Suits, IsElement, IsText, HasBelow, retains n suits.lt] using suits

/-- Of an element, each directive fills its own part. -/
theorem Shows.showing_self {s : String} {other : Directive} (shows : p.Shows n s other)
    (element : p.IsElement n) (directive : Directive) (t : String)
    (elsewhere : directive.place n ≠ other.place n)
    (apart : other = .text → n ∉ p.children n) : (p.showing directive n t).Shows n s other := by
  obtain ⟨kids, tag, attributes, properties, markup, hf⟩ := element
  have face := face?_showing_element hf directive t
  cases other with
  | model =>
    simp only [Shows, property?, Page.properties, content?_of_face hf] at shows ⊢
    cases directive with
    | model => exact absurd rfl elsewhere
    | bind _ | html | text => simpa only [content?_of_face face] using shows
  | bind name =>
    simp only [Shows, attribute?, Page.attributes, content?_of_face hf] at shows ⊢
    cases directive with
    | bind name' =>
      have ne : name ≠ name' := fun e => elsewhere (e ▸ rfl)
      simpa only [content?_of_face face, lookup_putEntry_of_ne t attributes ne] using shows
    | model | html | text => simpa only [content?_of_face face] using shows
  | html =>
    simp only [Shows, innerMarkup?, content?_of_face hf, children_eq, hf] at shows ⊢
    cases directive with
    | model | bind _ =>
      simp only [content?_of_face face, face]
      exact shows
    | html | text => exact absurd rfl elsewhere
  | text =>
    have spares := p.spares_showing directive n t
    have below (child : NodeId) (hc : child ∈ p.children n) :
        (p.showing directive n t).face? child = some (.text s, []) := by
      have there := shows.child ⟨_, _, _, _, _, hf⟩ hc
      rw [spares.others child (fun e => apart rfl (e ▸ hc)) (index_lt_of_face? there), there]
    rcases shows with content | ⟨_, _, _, child, hf', _⟩
    · rw [content?_of_face hf] at content
      cases content
    · rw [hf] at hf'
      cases hf'
      have hc : child ∈ p.children n := by
        rw [children_eq, hf]
        exact List.mem_singleton_self child
      cases directive with
      | model | bind _ => exact .inr ⟨_, _, _, child, face, below child hc⟩
      | html | text => exact absurd rfl elsewhere

/-- What is shown elsewhere leaves a place filled, unless it is shown on the text that fills the place. -/
theorem Shows.showing {s : String} {other : Directive} (shows : p.Shows m s other)
    (suits : p.Suits m other) (directive : Directive) (t : String)
    (elsewhere : directive.place n ≠ other.place m)
    (apart : other = .text → p.IsElement m → n ∉ p.children m) :
    (p.showing directive n t).Shows m s other := by
  by_cases hm : m = n
  · subst hm
    rcases suits with element | ⟨⟨old, kids, hf⟩, rfl⟩
    · exact shows.showing_self element directive t elsewhere fun text => apart text element
    · have face := face?_showing_text hf directive t
      cases directive with
      | model | bind _ =>
        refine shows.congr (face.trans hf.symm) fun _ element => ?_
        exact absurd ⟨old, kids, hf⟩ element.not_isText
      | html | text => exact absurd rfl elsewhere
  · have spares := p.spares_showing directive n t
    refine shows.congr (spares.others m hm suits.lt) fun text element child hc => ?_
    subst text
    have ne : child ≠ n := fun e => apart rfl element (e ▸ hc)
    exact spares.others child ne (index_lt_of_face? (shows.child element hc))

end Page

end DataBinding
