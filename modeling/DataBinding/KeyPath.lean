-- Key paths: dotted names such as `user.name` or `items.0`. `KeyPath.parse` trims the whole text
-- and each segment, and accepts it if no segment is blank. A path has at least one segment, so its
-- head and its last segment always exist.
import DataBinding.Text.Blank
import DataBinding.Text.Search

namespace DataBinding

/-- Why a text is no key path, or why a path leads to no place that can be written. -/
inductive PathError where
  | empty
  | emptySegment (path : String)
  | unresolved (path : String)
deriving DecidableEq, Repr

def PathError.message : PathError → String
  | .empty => "empty binding expression"
  | .emptySegment path => "empty segment in key path '" ++ path ++ "'"
  | .unresolved path => "key path '" ++ path ++ "' does not resolve to a slot"

/-- A dotted key path: the trimmed text it was read from, its first segment and the others. -/
structure KeyPath where
  text : String
  head : String
  rest : List String
deriving DecidableEq, Repr

namespace KeyPath

/-! ## Reading -/

/-- The trimmed text of one piece. -/
def segmentOf (piece : List Char) : String := String.ofList (Text.trimChars piece)

/-- Reads a key path. A blank text is `empty`, and a blank piece between dots is an
`emptySegment`. -/
def parse (s : String) : Except PathError KeyPath :=
  let text := Text.trim s
  if text.isEmpty then .error .empty
  else
    let (first, others) := Text.pieces '.' text.toList
    let head := segmentOf first
    let rest := others.map segmentOf
    if (head :: rest).any String.isEmpty then .error (.emptySegment text)
    else .ok { text, head, rest }

/-! ## Parts of a path -/

def segments (p : KeyPath) : List String := p.head :: p.rest

/-- The segments before the last one. -/
def parents (p : KeyPath) : List String := p.segments.dropLast

def last (p : KeyPath) : String := p.segments.getLast (List.cons_ne_nil _ _)

theorem segments_eq (p : KeyPath) : p.segments = p.parents ++ [p.last] :=
  (List.dropLast_concat_getLast _).symm

/-- A path of one segment. -/
def isSimple (p : KeyPath) : Bool := p.rest.isEmpty

end KeyPath

end DataBinding
