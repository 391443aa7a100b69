-- Marker files: settings that replace some of the standard marks. A file has one `key = string` on a
-- line, with comments and empty lines between; a string is written in one of the four TOML forms. Only
-- the four marks may be set, each at most once, so every other TOML document is refused.
import DataBinding.Template.Markers

namespace DataBinding.MarkerFile

/-! ## Characters -/

/-- The characters that may stand in a comment or a string as they are. -/
def isAllowed (c : Char) : Bool :=
  c = '\t' || (' ' ≤ c && c ≤ '~') || c.toNat ≥ 0x80

def isGap (c : Char) : Bool := c = ' ' || c = '\t'

def skipGap (cs : List Char) : List Char := cs.dropWhile isGap

def hexValue? (c : Char) : Option Nat :=
  if c.isDigit then some (c.toNat - '0'.toNat)
  else if 'a' ≤ c && c ≤ 'f' then some (c.toNat - 'a'.toNat + 10)
  else if 'A' ≤ c && c ≤ 'F' then some (c.toNat - 'A'.toNat + 10)
  else none

/-- The character with a code point in hexadecimal digits. -/
def codePoint? (digits : List Char) : Option Char := do
  let n ← digits.foldlM (fun n c => (hexValue? c).map (16 * n + ·)) 0
  if n.isValidChar then some (Char.ofNat n) else none

/-- The characters that a backslash and one letter stand for. -/
def escaped? : Char → Option Char
  | 'b' => some '\x08'
  | 't' => some '\t'
  | 'n' => some '\n'
  | 'f' => some '\x0c'
  | 'r' => some '\r'
  | '"' => some '"'
  | '\\' => some '\\'
  | _ => none

/-! ## Strings -/

/-- Adds a character in front of what was read. -/
def consTo (c : Char) (read : Option (List Char × List Char)) : Option (List Char × List Char) :=
  read.map fun (content, rest) => (c :: content, rest)

/-- The content of a string up to its quote, with escapes, and what follows the quote. -/
def basic : List Char → Option (List Char × List Char)
  | [] => none
  | '"' :: rest => some ([], rest)
  | '\\' :: 'u' :: a :: b :: c :: d :: rest =>
    (codePoint? [a, b, c, d]).bind (consTo · (basic rest))
  | '\\' :: 'U' :: a :: b :: c :: d :: e :: f :: g :: h :: rest =>
    (codePoint? [a, b, c, d, e, f, g, h]).bind (consTo · (basic rest))
  | '\\' :: c :: rest => (escaped? c).bind (consTo · (basic rest))
  | c :: rest => if isAllowed c && c ≠ '\\' then consTo c (basic rest) else none

/-- The content of a string up to its apostrophe; nothing is escaped. -/
def literal (cs : List Char) : Option (List Char × List Char) :=
  let content := cs.takeWhile fun c => isAllowed c && c ≠ '\''
  match cs.drop content.length with
  | '\'' :: rest => some (content, rest)
  | _ => none

/-- Whether nothing but a gap stands before the end of the line. -/
def endsLine (cs : List Char) : Bool :=
  match skipGap cs with
  | '\n' :: _ => true
  | '\r' :: '\n' :: _ => true
  | _ => false

/-- The content of a string over several lines, with escapes. A backslash at the end of a line
joins it with the next text: `joining` says that gaps and line ends are passed over. -/
def multiBasic (joining : Bool) : List Char → Option (List Char × List Char)
  | '"' :: '"' :: '"' :: '"' :: '"' :: rest => some (['"', '"'], rest)
  | '"' :: '"' :: '"' :: '"' :: rest => some (['"'], rest)
  | '"' :: '"' :: '"' :: rest => some ([], rest)
  | '\\' :: 'u' :: a :: b :: c :: d :: rest =>
    (codePoint? [a, b, c, d]).bind (consTo · (multiBasic false rest))
  | '\\' :: 'U' :: a :: b :: c :: d :: e :: f :: g :: h :: rest =>
    (codePoint? [a, b, c, d, e, f, g, h]).bind (consTo · (multiBasic false rest))
  | '\\' :: c :: rest =>
    if endsLine (c :: rest) then multiBasic true (c :: rest)
    else (escaped? c).bind (consTo · (multiBasic false rest))
  | '\r' :: '\n' :: rest =>
    if joining then multiBasic true rest else consTo '\n' (multiBasic false rest)
  | c :: rest =>
    if joining && (isGap c || c = '\n') then multiBasic true rest
    else if (isAllowed c || c = '\n') && c ≠ '\\' then consTo c (multiBasic false rest)
    else none
  | [] => none

/-- The content of a string over several lines; nothing is escaped. -/
def multiLiteral : List Char → Option (List Char × List Char)
  | '\'' :: '\'' :: '\'' :: '\'' :: '\'' :: rest => some (['\'', '\''], rest)
  | '\'' :: '\'' :: '\'' :: '\'' :: rest => some (['\''], rest)
  | '\'' :: '\'' :: '\'' :: rest => some ([], rest)
  | '\r' :: '\n' :: rest => consTo '\n' (multiLiteral rest)
  | c :: rest => if isAllowed c || c = '\n' then consTo c (multiLiteral rest) else none
  | [] => none

/-- Passes over a line end at the start of a string over several lines. -/
def skipFirstLine : List Char → List Char
  | '\n' :: rest => rest
  | '\r' :: '\n' :: rest => rest
  | cs => cs

/-- A string in one of its four forms. -/
def string : List Char → Option (List Char × List Char)
  | '"' :: '"' :: '"' :: rest => multiBasic false (skipFirstLine rest)
  | '\'' :: '\'' :: '\'' :: rest => multiLiteral (skipFirstLine rest)
  | '"' :: rest => basic rest
  | '\'' :: rest => literal rest
  | _ => none

/-! ## Lines -/

def isKeyChar (c : Char) : Bool := c.isAlphanum || c = '_' || c = '-'

/-- A key, bare or in quotes. -/
def key : List Char → Option (List Char × List Char)
  | '"' :: rest => basic rest
  | '\'' :: rest => literal rest
  | cs => some (cs.takeWhile isKeyChar, cs.dropWhile isKeyChar)

/-- What follows the end of a line, which may hold a comment. -/
def lineEnd (cs : List Char) : Option (List Char) :=
  let rest := match skipGap cs with
    | '#' :: rest => rest.dropWhile isAllowed
    | rest => rest
  match rest with
  | [] => some []
  | '\n' :: rest => some rest
  | '\r' :: '\n' :: rest => some rest
  | _ => none

/-- A setting and what follows its line. -/
def setting (cs : List Char) : Option ((List Char × List Char) × List Char) := do
  let (name, rest) ← key cs
  match skipGap rest with
  | '=' :: rest =>
    let (value, rest) ← string (skipGap rest)
    let rest ← lineEnd rest
    return ((name, value), rest)
  | _ => none

/-- All settings in the order of their lines; every line has at least one character. -/
def settings : Nat → List Char → Option (List (List Char × List Char))
  | _, [] => some []
  | 0, _ => none
  | fuel + 1, cs =>
    match lineEnd cs with
    | some rest => settings fuel rest
    | none => do
      let (entry, rest) ← setting (skipGap cs)
      return entry :: (← settings fuel rest)

/-! ## Files -/

/-- Sets one mark; another name is refused. -/
def apply (marks : Markers) (name value : String) : Option Markers :=
  match name with
  | "directive_prefix" => some { marks with directive := value }
  | "event_prefix" => some { marks with event := value }
  | "open_delimiter" => some { marks with opening := value }
  | "close_delimiter" => some { marks with closing := value }
  | _ => none

/-- A byte order mark at the start of a file is passed over. -/
def skipMark : List Char → List Char
  | '\uFEFF' :: rest => rest
  | cs => cs

/-- The marks that a file sets, over the standard ones. -/
def read? (source : String) : Option Markers := do
  let cs := skipMark source.toList
  let entries ← settings (cs.length + 1) cs
  if (entries.map (·.1)).eraseDups.length ≠ entries.length then none
  else entries.foldlM (fun marks (name, value) =>
    apply marks (String.ofList name) (String.ofList value)) .standard

end DataBinding.MarkerFile
