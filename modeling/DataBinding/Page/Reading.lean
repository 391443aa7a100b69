-- Reading a page: the text and the markup below a node, and the search by a selector. All three
-- visit a node, then its children in order; no path down has more nodes than the page, so
-- that many levels suffice on every forest.
import DataBinding.Page.Basic

namespace DataBinding.Page

variable {ρ : Type}

/-! ## Text -/

/-- What a node itself adds to the text: its text, or the raw markup of an element. -/
def ownText (p : Page ρ) (n : NodeId) : String :=
  match p.content? n with
  | some (.text s) => s
  | some (.element _ _ _ (some markup)) => markup
  | _ => ""

def textIn (p : Page ρ) : Nat → NodeId → String
  | 0, _ => ""
  | fuel + 1, n => p.ownText n ++ String.join ((p.children n).map (p.textIn fuel))

/-- The text of a node and all below it. -/
def textOf (p : Page ρ) (n : NodeId) : String := p.textIn p.nodes.size n

/-! ## Markup -/

def attributeText (named : String × String) : String :=
  " " ++ named.1 ++ "=\"" ++ named.2 ++ "\""

def startTag (tag : String) (attributes : List (String × String)) : String :=
  "<" ++ tag ++ String.join (attributes.map attributeText) ++ ">"

def endTag (tag : String) : String := "</" ++ tag ++ ">"

def markupIn (p : Page ρ) : Nat → NodeId → String
  | 0, _ => ""
  | fuel + 1, n =>
    match p.content? n with
    | none => ""
    | some (.text s) => s
    | some (.comment s) => "<!--" ++ s ++ "-->"
    | some (.element tag attributes _ markup) =>
      startTag tag attributes ++ markup.getD "" ++
        String.join ((p.children n).map (p.markupIn fuel)) ++ endTag tag

/-- The markup of a node and all below it; nothing is escaped. -/
def markupOf (p : Page ρ) (n : NodeId) : String := p.markupIn p.nodes.size n

/-! ## Search -/

/-- Whether a node fits a selector: `#` and an id, or the tag of an element. -/
def fits (p : Page ρ) (selector : String) (n : NodeId) : Bool :=
  match selector.toList with
  | '#' :: id => p.attribute? n "id" = some (String.ofList id)
  | _ => p.tag? n = some selector

def findIn (p : Page ρ) (selector : String) : Nat → NodeId → Option NodeId
  | 0, _ => none
  | fuel + 1, n =>
    if p.fits selector n then some n else (p.children n).findSome? (p.findIn selector fuel)

/-- The nodes without a parent, in the order of their creation. -/
def roots (p : Page ρ) : List NodeId :=
  ((List.range p.nodes.size).map NodeId.mk).filter fun n => (p.parent? n).isNone

/-- The first node that fits a selector: the roots are searched in the order of their creation,
and each is followed by all below it. -/
def query (p : Page ρ) (selector : String) : Option NodeId :=
  p.roots.findSome? (p.findIn selector p.nodes.size)

end DataBinding.Page
