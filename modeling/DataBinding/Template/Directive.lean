-- Directives: how the value of an expression is shown on a node.

namespace DataBinding

inductive Directive where
  | model
  | text
  | html
  | bind (name : String)
deriving DecidableEq, Repr

namespace Directive

/-- The directive of a name and an argument. Only `bind` takes an argument, and needs one. -/
def ofParts? : String → Option String → Option Directive
  | "model", none => some .model
  | "text", none => some .text
  | "html", none => some .html
  | "bind", some name => if name.isEmpty then none else some (.bind name)
  | _, _ => none

end Directive

end DataBinding
