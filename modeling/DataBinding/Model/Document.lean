-- Documents: values without identity, as JSON writes them. A value becomes a document by dropping
-- its registries and sorting the entries of its maps by key; numbers below 2 ^ 53 without a fraction
-- become integers, and numbers that are not finite become null. Loading a document gives fresh
-- containers that nobody observes.
import DataBinding.Model.Snapshot
import DataBinding.Number.Rounding
import DataBinding.Number.Text

namespace DataBinding

inductive Document where
  | null
  | bool (b : Bool)
  | int (i : Int)
  | number (n : Number)
  | text (s : String)
  | array (items : List Document)
  | object (entries : List (String × Document))

namespace Document

/-! ## Of a value -/

/-- A number as a document shows it. -/
def ofNumber (n : Number) : Document :=
  if !n.isFinite then .null
  else match n.toInt? with
    | some i => if i.natAbs < 1 <<< 53 then .int i else .number n
    | none => .number n

/-- The entries of an object in the order of their keys. -/
def sortEntries (entries : List (String × Document)) : List (String × Document) :=
  entries.mergeSort fun a b => decide (a.1 ≤ b.1)

mutual

/-- The document of a snapshot. A loop has no document; it shows as null. -/
def ofSnapshot : Snapshot → Document
  | .null => .null
  | .bool b => .bool b
  | .number n => ofNumber n
  | .text s => .text s
  | .map entries _ => .object (sortEntries (ofEntries entries))
  | .list items _ _ => .array (ofItems items)
  | .loop _ => .null

def ofEntries : List (String × Option (List WatcherId) × Snapshot) → List (String × Document)
  | [] => []
  | (key, _, s) :: rest => (key, ofSnapshot s) :: ofEntries rest

def ofItems : List Snapshot → List Document
  | [] => []
  | s :: rest => ofSnapshot s :: ofItems rest

end

/-! ## Compact and pretty text -/

def hexDigit (n : Nat) : Char := (Nat.toDigits 16 n).headD '0'

/-- A character inside quotes: quotes, backslashes and the controls below 0x20 are escaped. -/
def quotedChar (c : Char) : List Char :=
  if c = '"' then ['\\', '"']
  else if c = '\\' then ['\\', '\\']
  else if c = '\x08' then ['\\', 'b']
  else if c = '\x0c' then ['\\', 'f']
  else if c = '\n' then ['\\', 'n']
  else if c = '\r' then ['\\', 'r']
  else if c = '\t' then ['\\', 't']
  else if c.toNat < 0x20 then
    ['\\', 'u', '0', '0', hexDigit (c.toNat / 16), hexDigit (c.toNat % 16)]
  else [c]

def quoted (s : String) : String := String.ofList ('"' :: s.toList.flatMap quotedChar ++ ['"'])

mutual

/-- The text of a document without any white space. -/
def compact : Document → String
  | .null => "null"
  | .bool b => if b then "true" else "false"
  | .int i => Number.intText i
  | .number n => n.documentText
  | .text s => quoted s
  | .array items => "[" ++ String.intercalate "," (compactItems items) ++ "]"
  | .object entries => "\x7b" ++ String.intercalate "," (compactEntries entries) ++ "\x7d"

def compactItems : List Document → List String
  | [] => []
  | d :: rest => compact d :: compactItems rest

def compactEntries : List (String × Document) → List String
  | [] => []
  | (key, d) :: rest => (quoted key ++ ":" ++ compact d) :: compactEntries rest

end

/-- A bracketed block with one line for each part, indented two blanks more than its brackets. -/
def block (opening closing : String) (level : Nat) (parts : List String) : String :=
  if parts.isEmpty then opening ++ closing
  else
    let indent (n : Nat) : String := "\n" ++ String.ofList (List.replicate (2 * n) ' ')
    opening ++ indent (level + 1) ++ String.intercalate ("," ++ indent (level + 1)) parts ++
      indent level ++ closing

mutual

/-- The text of a document over several lines, inside brackets of the given level. -/
def prettyIn (level : Nat) : Document → String
  | .array items => block "[" "]" level (prettyItems (level + 1) items)
  | .object entries => block "\x7b" "\x7d" level (prettyEntries (level + 1) entries)
  | .null => "null"
  | .bool b => if b then "true" else "false"
  | .int i => Number.intText i
  | .number n => n.documentText
  | .text s => quoted s

def prettyItems (level : Nat) : List Document → List String
  | [] => []
  | d :: rest => prettyIn level d :: prettyItems level rest

def prettyEntries (level : Nat) : List (String × Document) → List String
  | [] => []
  | (key, d) :: rest => (quoted key ++ ": " ++ prettyIn level d) :: prettyEntries level rest

end

def pretty (d : Document) : String := prettyIn 0 d

end Document

/-! ## Values and documents -/

namespace Heap

mutual

/-- The value of a document, in fresh containers. -/
def load (h : Heap) : Document → Heap × Value
  | .null => (h, .null)
  | .bool b => (h, .bool b)
  | .int i => (h, .number (.ofInt i))
  | .number n => (h, .number n)
  | .text s => (h, .text s)
  | .array items =>
    let (h, values) := loadItems h items
    let (h, l) := h.newList values
    (h, .list l)
  | .object entries =>
    let (h, values) := loadEntries h entries
    let (h, m) := h.newMap values
    (h, .map m)

def loadItems (h : Heap) : List Document → Heap × List Value
  | [] => (h, [])
  | d :: rest =>
    let (h, v) := load h d
    let (h, values) := loadItems h rest
    (h, v :: values)

def loadEntries (h : Heap) : List (String × Document) → Heap × List (String × Value)
  | [] => (h, [])
  | (key, d) :: rest =>
    let (h, v) := load h d
    let (h, values) := loadEntries h rest
    (h, (key, v) :: values)

end

def document (h : Heap) (v : Value) : Document := .ofSnapshot (h.snapshot v)

/-- The text that shows a value: null is empty, a number is in plain text, and a container is a
document over several lines. -/
def render (h : Heap) : Value → String
  | .null => ""
  | .bool b => if b then "true" else "false"
  | .number n => n.plainText
  | .text s => s
  | v => (h.document v).pretty

end Heap

end DataBinding
