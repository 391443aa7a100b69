-- The marks by which a template is read: two attribute marks, one for directives and one for events,
-- and two marks around an expression in a text. An empty mark is never found.
import DataBinding.Text.Blank
import DataBinding.Text.Search

namespace DataBinding

structure Markers where
  directive : String
  event : String
  opening : String
  closing : String
deriving DecidableEq, Repr

/-- What the name of an attribute means. -/
inductive AttributeKind where
  | directive (name : String) (argument : Option String)
  | event (name : String)
  | plain
deriving DecidableEq, Repr

namespace Markers

def standard : Markers :=
  { directive := "v-", event := "@", opening := "\x7b\x7b", closing := "\x7d\x7d" }

/-! ## Attributes -/

/-- What follows a mark at the start of a name; both have to be nonempty. -/
def after? (mark : String) (name : List Char) : Option (List Char) :=
  if mark.isEmpty then none
  else (Text.strip? mark.toList name).filter fun rest => !rest.isEmpty

/-- A directive without its mark: a name, and an argument after the first colon. The name `on` with
a nonempty argument is an event. -/
def directiveKind (rest : List Char) : AttributeKind :=
  match Text.cutAt [':'] rest with
  | none => .directive (String.ofList rest) none
  | some (name, argument) =>
    if name = ['o', 'n'] && !argument.isEmpty then .event (String.ofList argument)
    else .directive (String.ofList name) (some (String.ofList argument))

/-- The meaning of an attribute name; the directive mark is tried first. -/
def classify (marks : Markers) (name : String) : AttributeKind :=
  match after? marks.directive name.toList with
  | some rest => directiveKind rest
  | none =>
    match after? marks.event name.toList with
    | some event => .event (String.ofList event)
    | none => .plain

/-! ## Texts -/

/-- The expression of the first marker of a text: what stands between the first opening mark and
the first closing mark after it, trimmed, unless it is blank. -/
def interpolation (marks : Markers) (text : String) : Option String := do
  if marks.opening.isEmpty || marks.closing.isEmpty then none
  else
    let (_, rest) ← Text.cutAt marks.opening.toList text.toList
    let (inner, _) ← Text.cutAt marks.closing.toList rest
    let expression := Text.trimChars inner
    if expression.isEmpty then none else some (String.ofList expression)

end Markers

end DataBinding
