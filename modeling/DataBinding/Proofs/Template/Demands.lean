-- What a template asks for. A page is read once, as it stands before anything is shown on it: each marked
-- attribute and text is a demand, in document order. Where an element will hold a text that is put there,
-- the reading says so, and names the node of that text; what such an echo asks for is left open.
import DataBinding.Proofs.Page.Trees
import DataBinding.Binding.Wiring

namespace DataBinding

/-! ## Demands -/

/-- A demand for a binding: of the value of an expression, found in some place, or of a method. -/
inductive Demand where
  | value (node : NodeId) (kind : BindingKind) (expression origin : String)
  | event (node : NodeId) (event method : String)
deriving DecidableEq, Repr

/-- What is bound: the node, the kind, and the text of the key path if there is one. -/
structure Bound where
  node : NodeId
  kind : BindingKind
  path : Option String
deriving DecidableEq, Repr

namespace Demand

def node : Demand → NodeId
  | .value n _ _ _ => n
  | .event n _ _ => n

/-- What becomes of a demand where the given methods are defined. -/
def settle (defines : String → Bool) : Demand → Except CompileError Bound
  | .value n kind expression origin =>
    match KeyPath.parse expression with
    | .ok path => .ok ⟨n, kind, some path.text⟩
    | .error cause => .error (.invalidExpression origin cause)
  | .event n name method =>
    if defines method then .ok ⟨n, .event name method, none⟩
    else .error (.missingMethod name method)

/-- Demands are settled one after the other, up to the first fault. -/
def settleAll (defines : String → Bool) (demands : List Demand) : Except CompileError (List Bound) :=
  demands.mapM (settle defines)

variable {defines : String → Bool}

theorem settleAll_cons (d : Demand) (rest : List Demand) :
    settleAll defines (d :: rest) = match d.settle defines with
      | .ok b => (settleAll defines rest).map (b :: ·)
      | .error e => .error e := by
  unfold settleAll
  rw [List.mapM_cons]
  rcases d.settle defines with e | b
  · rfl
  · rcases rest.mapM (settle defines) with e | bounds <;> rfl

theorem settleAll_append (a b : List Demand) :
    settleAll defines (a ++ b) = match settleAll defines a with
      | .ok bounds => (settleAll defines b).map (bounds ++ ·)
      | .error e => .error e := by
  unfold settleAll
  rw [List.mapM_append]
  rcases a.mapM (settle defines) with e | bounds
  · rfl
  · rcases b.mapM (settle defines) with e | more <;> rfl

theorem node_of_settle {d : Demand} {b : Bound} (h : d.settle defines = .ok b) :
    b.node = d.node := by
  cases d with
  | value n kind expression origin =>
    simp only [settle] at h
    split at h
    · cases h
      rfl
    · cases h
  | event n name method =>
    simp only [settle] at h
    split at h
    · cases h
      rfl
    · cases h

/-- Whatever is bound was asked for at its node. -/
theorem node_of_settleAll {demands : List Demand} {bounds : List Bound} {b : Bound}
    (h : settleAll defines demands = .ok bounds) (hb : b ∈ bounds) :
    ∃ d ∈ demands, b.node = d.node := by
  induction demands generalizing bounds with
  | nil =>
    cases h
    cases hb
  | cons d rest ih =>
    rw [settleAll_cons] at h
    rcases hd : d.settle defines with e | first
    · rw [hd] at h
      cases h
    · rcases hr : settleAll defines rest with e | others
      · rw [hd, hr] at h
        cases h
      · rw [hd, hr] at h
        cases h
        rcases List.mem_cons.mp hb with rfl | hb
        · exact ⟨d, List.mem_cons_self .., node_of_settle hd⟩
        · obtain ⟨d', hd', e⟩ := ih hr hb
          exact ⟨d', List.mem_cons_of_mem _ hd', e⟩

end Demand

/-! ## Markers -/

namespace Markers

variable (marks : Markers)

/-- The directive that an attribute name means, if it is a known one. -/
def directive? (name : String) : Option Directive :=
  match marks.classify name with
  | .directive kind argument => Directive.ofParts? kind argument
  | _ => none

/-- What an attribute asks for. -/
def ofAttribute (n : NodeId) (name value : String) : List Demand :=
  match marks.classify name with
  | .plain => []
  | .event event => [.event n event (Text.trim value)]
  | .directive kind argument =>
    match Directive.ofParts? kind argument with
    | none => []
    | some directive => [.value n (.directive directive) value name]

/-- What a text asks for. -/
def ofText (n : NodeId) (text : String) : List Demand :=
  match marks.interpolation text with
  | none => []
  | some expression => [.value n .interpolation expression (Text.trim text)]

/-- What stands below an element once its attributes are bound: its children as they were, nothing, or
one new node with the text of an expression. -/
inductive Fate where
  | kept
  | emptied
  | replaced (expression : String)
deriving DecidableEq, Repr

/-- One more attribute, of the given name and value. -/
def fateAfter (fate : Fate) (named : String × String) : Fate :=
  match marks.directive? named.1 with
  | some .text => .replaced named.2
  | some .html => .emptied
  | _ => fate

def fate (named : List (String × String)) : Fate := named.foldl marks.fateAfter .kept

/-- How many texts the attributes of an element put below it. -/
def puts (named : List (String × String)) : Nat :=
  named.countP fun named => marks.directive? named.1 = some .text

variable {marks}

theorem foldl_fateAfter_replaced {fate : Fate} {named : List (String × String)}
    {expression : String} (h : named.foldl marks.fateAfter fate = .replaced expression) :
    (∃ before, fate = .replaced before) ∨ 0 < marks.puts named := by
  induction named generalizing fate with
  | nil => exact .inl ⟨expression, h⟩
  | cons first rest ih =>
    rw [puts, List.countP_cons]
    by_cases text : marks.directive? first.1 = some .text
    · simp [text]
    · rcases ih h with ⟨before, e⟩ | later
      · refine .inl ⟨before, ?_⟩
        unfold fateAfter at e
        split at e
        · exact absurd ‹_› text
        · cases e
        · exact e
      · rw [puts] at later
        omega

/-- Where a text stands below an element, one was put there. -/
theorem puts_pos {named : List (String × String)} {expression : String}
    (h : marks.fate named = .replaced expression) : 0 < marks.puts named := by
  rcases foldl_fateAfter_replaced h with ⟨_, e⟩ | later
  · cases e
  · exact later

end Markers

/-! ## Items -/

/-- What a page asks for at one place: a demand, or whatever the text of an expression asks for in the
new node that will hold it. -/
inductive Item where
  | demand (d : Demand)
  | echo (node : NodeId) (expression : String)
deriving DecidableEq, Repr

namespace Item

def node : Item → NodeId
  | .demand d => d.node
  | .echo n _ => n

/-- The demands of an item where the texts of expressions are known. -/
def demands (marks : Markers) (shown : String → String) : Item → List Demand
  | .demand d => [d]
  | .echo n expression => marks.ofText n (shown expression)

end Item

namespace Tree

/-- The attributes of an element; other nodes have none. -/
def attributesOf : Option Content → List (String × String)
  | some (.element _ named _ _) => named
  | _ => []

variable (marks : Markers)

/-- What a node itself asks for; the text of a text node is that of its whole tree. -/
def own : Tree → List Demand
  | .node n (some (.element _ named _ _)) _ =>
    named.flatMap fun (name, value) => marks.ofAttribute n name value
  | .node n (some (.text s)) below => marks.ofText n (s ++ textOfAll below)
  | .node _ _ _ => []

mutual

/-- How many texts are put in a tree. -/
def puts : Tree → Nat
  | .node _ content below => marks.puts (attributesOf content) +
    match marks.fate (attributesOf content) with
    | .kept => putsOfAll below
    | _ => 0

def putsOfAll : List Tree → Nat
  | [] => 0
  | t :: rest => puts t + putsOfAll rest

end

mutual

/-- What a tree asks for, on a page of so many nodes. The last text that is put below an element
stands in the newest node. -/
def items (size : Nat) : Tree → List Item
  | .node n content below => ((Tree.node n content below).own marks).map .demand ++
    match marks.fate (attributesOf content) with
    | .kept => itemsOfAll (size + marks.puts (attributesOf content)) below
    | .emptied => []
    | .replaced expression =>
      [.echo ⟨size + marks.puts (attributesOf content) - 1⟩ expression]

def itemsOfAll (size : Nat) : List Tree → List Item
  | [] => []
  | t :: rest => items size t ++ itemsOfAll (size + puts marks t) rest

end

end Tree

/-- What the part of a page below a node asks for. -/
def Page.items {ρ : Type} (p : Page ρ) (marks : Markers) (root : NodeId) : List Item :=
  Tree.itemsOfAll marks p.nodes.size (p.below root)

end DataBinding
