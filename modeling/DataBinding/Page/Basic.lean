-- The page: a forest of nodes that a view is shown on, and the listeners on its nodes. Nodes are never
-- removed. A node has at most one parent and stands once among its children; a node that is
-- appended leaves its old place first, and nodes that lose their parent become roots.
import DataBinding.Named

namespace DataBinding

structure NodeId where
  index : Nat
deriving DecidableEq, Repr, Hashable

/-- What a node is. An element may hold raw markup beside its children. -/
inductive Content where
  | element (tag : String) (attributes properties : List (String × String)) (markup : Option String)
  | text (s : String)
  | comment (s : String)
deriving DecidableEq, Repr

structure Node where
  content : Content
  parent : Option NodeId
  children : List NodeId
deriving DecidableEq, Repr

/-- A listener on a node for events of one name; `ρ` is the type of what listeners do. -/
structure Listener (ρ : Type) where
  node : NodeId
  event : String
  response : ρ

structure Page (ρ : Type) where
  nodes : Array Node
  listeners : List (Listener ρ)

namespace Page

variable {ρ : Type}

def empty : Page ρ := ⟨#[], []⟩

/-! ## Nodes -/

def node? (p : Page ρ) (n : NodeId) : Option Node := p.nodes[n.index]?

def content? (p : Page ρ) (n : NodeId) : Option Content := (p.node? n).map (·.content)

def parent? (p : Page ρ) (n : NodeId) : Option NodeId := (p.node? n).bind (·.parent)

def children (p : Page ρ) (n : NodeId) : List NodeId := ((p.node? n).map (·.children)).getD []

/-- Changes one node. -/
def change (p : Page ρ) (n : NodeId) (f : Node → Node) : Page ρ :=
  { p with nodes := p.nodes.modify n.index f }

theorem node?_change_self (p : Page ρ) (n : NodeId) (f : Node → Node) :
    (p.change n f).node? n = (p.node? n).map f := by
  simp [node?, change, Array.getElem?_modify]

theorem node?_change_of_ne {p : Page ρ} {n other : NodeId} (f : Node → Node) (ne : other ≠ n) :
    (p.change n f).node? other = p.node? other := by
  have : n.index ≠ other.index := fun e => ne (by cases n; cases other; simp_all)
  simp [node?, change, Array.getElem?_modify, this]

/-- A new node without parent and children. -/
def create (p : Page ρ) (content : Content) : Page ρ × NodeId :=
  ({ p with nodes := p.nodes.push ⟨content, none, []⟩ }, ⟨p.nodes.size⟩)

theorem node?_create_self (p : Page ρ) (content : Content) :
    (p.create content).1.node? (p.create content).2 = some ⟨content, none, []⟩ := by
  simp [node?, create]

/-! ## Places -/

/-- Takes a node from its parent. -/
def detach (p : Page ρ) (n : NodeId) : Page ρ :=
  match p.parent? n with
  | none => p
  | some old =>
    (p.change n fun d => { d with parent := none }).change old fun d =>
      { d with children := d.children.filter (· ≠ n) }

/-- Moves a node to the end of the children of another one. -/
def append (p : Page ρ) (parent child : NodeId) : Page ρ :=
  ((p.detach child).change child fun d => { d with parent := some parent }).change parent fun d =>
    { d with children := d.children ++ [child] }

/-- Makes all children of a node roots. -/
def dropChildren (p : Page ρ) (n : NodeId) : Page ρ :=
  let cleared := p.change n fun d => { d with children := [] }
  (p.children n).foldl (fun p child => p.change child fun d => { d with parent := none }) cleared

/-! ## New nodes -/

def text (p : Page ρ) (s : String) : Page ρ × NodeId := p.create (.text s)

def comment (p : Page ρ) (s : String) : Page ρ × NodeId := p.create (.comment s)

/-- A new element that takes the given nodes as its children, one after the other. -/
def element (p : Page ρ) (tag : String) (attributes : List (String × String))
    (children : List NodeId) : Page ρ × NodeId :=
  let (p, n) := p.create (.element tag attributes [] none)
  (children.foldl (fun p child => p.append n child) p, n)

/-! ## Attributes and properties -/

def attributes (p : Page ρ) (n : NodeId) : List (String × String) :=
  match p.content? n with
  | some (.element _ attributes _ _) => attributes
  | _ => []

def properties (p : Page ρ) (n : NodeId) : List (String × String) :=
  match p.content? n with
  | some (.element _ _ properties _) => properties
  | _ => []

def tag? (p : Page ρ) (n : NodeId) : Option String :=
  match p.content? n with
  | some (.element tag _ _ _) => some tag
  | _ => none

def innerMarkup? (p : Page ρ) (n : NodeId) : Option String :=
  match p.content? n with
  | some (.element _ _ _ markup) => markup
  | _ => none

/-- The first value of an attribute. -/
def attribute? (p : Page ρ) (n : NodeId) (name : String) : Option String :=
  (p.attributes n).lookup name

def property? (p : Page ρ) (n : NodeId) (name : String) : Option String :=
  (p.properties n).lookup name

/-- Sets an attribute of an element; other nodes have none. -/
def setAttribute (p : Page ρ) (n : NodeId) (name value : String) : Page ρ :=
  p.change n fun d => match d.content with
    | .element tag attributes properties markup =>
      { d with content := .element tag (putEntry name value attributes) properties markup }
    | _ => d

def setProperty (p : Page ρ) (n : NodeId) (name value : String) : Page ρ :=
  p.change n fun d => match d.content with
    | .element tag attributes properties markup =>
      { d with content := .element tag attributes (putEntry name value properties) markup }
    | _ => d

/-! ## Content -/

/-- Replaces the text of a text or a comment; an element gets one new text node in place of its
children and its markup. -/
def setText (p : Page ρ) (n : NodeId) (s : String) : Page ρ :=
  match p.content? n with
  | some (.text _) => p.change n fun d => { d with content := .text s }
  | some (.comment _) => p.change n fun d => { d with content := .comment s }
  | some (.element tag attributes properties _) =>
    let p := p.change n fun d => { d with content := .element tag attributes properties none }
    let (p, child) := (p.dropChildren n).text s
    p.append n child
  | none => p

/-- Replaces the children of an element by raw markup. -/
def setMarkup (p : Page ρ) (n : NodeId) (s : String) : Page ρ :=
  match p.content? n with
  | some (.element tag attributes properties _) =>
    (p.change n fun d => { d with content := .element tag attributes properties (some s) })
      |>.dropChildren n
  | _ => p

/-! ## Listeners -/

def listen (p : Page ρ) (n : NodeId) (event : String) (response : ρ) : Page ρ :=
  { p with listeners := p.listeners ++ [⟨n, event, response⟩] }

/-- What the listeners of a node for an event do, in the order they were added. -/
def responses (p : Page ρ) (n : NodeId) (event : String) : List ρ :=
  (p.listeners.filter fun l => l.node = n && l.event = event).map (·.response)

end Page

end DataBinding
