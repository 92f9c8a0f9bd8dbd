import Mathlib
import AptosCore.Rust.BTreeMap

/-!
# TOML values and a reader for manifests

`toml::Value` and the maps it is made of. The `toml` crate is not part of the repository: the
manifest parser takes its reader `toml::from_str` as a parameter, and `Toml.fromStr` is a reader
for the part of TOML that `Move.toml` files are written in, so that a manifest can be run
through the parser.

The crate builds its tables as `BTreeMap`s, so keys are kept sorted and are unique; the move
package does the same with the maps it builds (`BTreeMap.insert`).
-/

namespace AptosCore.Package

open AptosCore.Rust

/-- `toml::Value`. Floats and datetimes are not read by any manifest field and are left out. -/
inductive TomlValue where
  | string (s : List Char)
  | integer (n : Int)
  | boolean (b : Bool)
  | array (items : List TomlValue)
  | table (entries : List (List Char × TomlValue))
  deriving Repr

namespace TomlValue

def typeStr : TomlValue → String
  | .string _ => "string"
  | .integer _ => "integer"
  | .boolean _ => "boolean"
  | .array _ => "array"
  | .table _ => "table"

def asStr : TomlValue → Option (List Char)
  | .string s => some s
  | _ => none

@[simp] theorem asStr_string (s : List Char) : (TomlValue.string s).asStr = some s := rfl

/-- A string as TOML writes it, between double quotes, with quotes and backslashes escaped. -/
def quote (s : List Char) : List Char :=
  '"' :: s.flatMap (fun c ↦ if c = '"' ∨ c = '\\' then ['\\', c] else [c]) ++ ['"']

mutual

/-- `to_string`: the value as TOML writes it inline. -/
def render : TomlValue → List Char
  | .string s => quote s
  | .integer n => (toString n).toList
  | .boolean b => (toString b).toList
  | .array items => '[' :: ", ".toList.intercalate (renderItems items) ++ [']']
  | .table entries =>
    "\x7b ".toList ++ ", ".toList.intercalate (renderEntries entries) ++ " \x7d".toList

/-- The items of an array, each rendered. -/
def renderItems : List TomlValue → List (List Char)
  | [] => []
  | item :: items => render item :: renderItems items

/-- The entries of an inline table, each as `key = value`. -/
def renderEntries : List (List Char × TomlValue) → List (List Char)
  | [] => []
  | (key, value) :: entries => (key ++ " = ".toList ++ render value) :: renderEntries entries

end

end TomlValue

/-! ## Reading the text -/

namespace Toml

/-- The characters of a bare key. -/
def isBareKeyChar (c : Char) : Bool := c.isAlphanum || c == '_' || c == '-'

/-- Spaces and tabs. -/
def isBlank (c : Char) : Bool := c == ' ' || c == '\t'

/-- Skips spaces and tabs. -/
def skipBlank (cs : List Char) : List Char := cs.dropWhile isBlank

/-- A basic string after its opening quote, with the escapes `\"`, `\\`, `\n`, `\t`, `\r`;
the characters read so far are kept reversed in `acc`. -/
def readBasicString : List Char → List Char → Except String (List Char × List Char)
  | acc, '"' :: rest => .ok (acc.reverse, rest)
  | acc, '\\' :: c :: rest =>
    match c with
    | '"' => readBasicString ('"' :: acc) rest
    | '\\' => readBasicString ('\\' :: acc) rest
    | 'n' => readBasicString ('\n' :: acc) rest
    | 't' => readBasicString ('\t' :: acc) rest
    | 'r' => readBasicString ('\r' :: acc) rest
    | _ => .error "invalid escape sequence"
  | _, '\n' :: _ => .error "newline in string"
  | acc, c :: rest => readBasicString (c :: acc) rest
  | _, [] => .error "unterminated string"

/-- A literal string after its opening quote: no escapes. -/
def readLiteralString (cs : List Char) : Except String (List Char × List Char) :=
  match cs.span (· ≠ '\'') with
  | (s, '\'' :: rest) => .ok (s, rest)
  | _ => .error "unterminated string"

/-- A key: bare, or a basic string. -/
def readKey : List Char → Except String (List Char × List Char)
  | '"' :: rest => readBasicString [] rest
  | cs =>
    match cs.span isBareKeyChar with
    | ([], _) => .error "expected a key"
    | (key, rest) => .ok (key, rest)

/-- A decimal integer with an optional sign; underscores between digits are skipped. -/
def readInteger (cs : List Char) : Except String (TomlValue × List Char) :=
  let (sign, cs) : Int × List Char :=
    match cs with
    | '-' :: rest => (-1, rest)
    | '+' :: rest => (1, rest)
    | _ => (1, cs)
  match cs.span fun c ↦ c.isDigit || c == '_' with
  | ([], _) => .error "invalid value"
  | (digits, rest) =>
    .ok (.integer (sign * ((digits.filter Char.isDigit).foldl
      (fun n c ↦ 10 * n + (c.toNat - '0'.toNat)) 0 : Nat)), rest)

/-- A key, blanks, `=` and blanks. -/
def readKeyEq (cs : List Char) : Except String (List Char × List Char) := do
  let (key, rest) ← readKey cs
  match skipBlank rest with
  | '=' :: rest => .ok (key, skipBlank rest)
  | _ => .error "expected an equals"

/-- Inserts a key that is not there yet. -/
def insertNew (key : List Char) (value : TomlValue) (entries : List (List Char × TomlValue)) :
    Except String (List (List Char × TomlValue)) :=
  match BTreeMap.get key entries with
  | some _ => .error "duplicate key"
  | none => .ok (BTreeMap.insert key value entries)

mutual

/-- A value; `fuel` bounds how deep arrays and inline tables nest. -/
def readValue : Nat → List Char → Except String (TomlValue × List Char)
  | 0, _ => .error "nesting too deep"
  | _ + 1, '"' :: rest => (fun (s, rest) ↦ (.string s, rest)) <$> readBasicString [] rest
  | _ + 1, '\'' :: rest => (fun (s, rest) ↦ (.string s, rest)) <$> readLiteralString rest
  | _ + 1, 't' :: 'r' :: 'u' :: 'e' :: rest => .ok (.boolean true, rest)
  | _ + 1, 'f' :: 'a' :: 'l' :: 's' :: 'e' :: rest => .ok (.boolean false, rest)
  | fuel + 1, '[' :: rest => readArray fuel [] (skipBlank rest)
  | fuel + 1, '{' :: rest => readInlineTable fuel [] (skipBlank rest)
  | _ + 1, cs => readInteger cs

/-- The items of an array after `[`, one line long; a trailing comma is allowed. -/
def readArray : Nat → List TomlValue → List Char → Except String (TomlValue × List Char)
  | 0, _, _ => .error "nesting too deep"
  | _ + 1, items, ']' :: rest => .ok (.array items.reverse, rest)
  | fuel + 1, items, cs => do
    let (value, rest) ← readValue fuel cs
    match skipBlank rest with
    | ',' :: rest => readArray fuel (value :: items) (skipBlank rest)
    | ']' :: rest => .ok (.array (value :: items).reverse, rest)
    | _ => .error "expected a comma or a closing bracket"

/-- The entries of an inline table after `{`: no trailing comma. -/
def readInlineTable : Nat → List (List Char × TomlValue) → List Char →
    Except String (TomlValue × List Char)
  | 0, _, _ => .error "nesting too deep"
  | _ + 1, [], '}' :: rest => .ok (.table [], rest)
  | fuel + 1, entries, cs => do
    let (key, rest) ← readKeyEq cs
    let (value, rest) ← readValue fuel rest
    let entries ← insertNew key value entries
    match skipBlank rest with
    | ',' :: rest => readInlineTable fuel entries (skipBlank rest)
    | '}' :: rest => .ok (.table entries, rest)
    | _ => .error "expected a comma or a closing brace"

end

/-- What may follow a value or a header on its line: blanks, then a comment or nothing. -/
def endOfLine (cs : List Char) : Except String Unit :=
  match skipBlank cs with
  | [] => .ok ()
  | '#' :: _ => .ok ()
  | _ => .error "expected a newline"

/-- The document read so far: the top-level entries, each section a table, and the section
that the lines now being read belong to. -/
structure Document where
  root : List (List Char × TomlValue)
  current : Option (List Char)

/-- Adds an entry to the table of the current section. -/
def Document.add (doc : Document) (key : List Char) (value : TomlValue) : Except String Document :=
  match doc.current with
  | none => (⟨·, none⟩) <$> insertNew key value doc.root
  | some name =>
    match BTreeMap.get name doc.root with
    | some (.table entries) => do
      let entries ← insertNew key value entries
      .ok ⟨BTreeMap.insert name (.table entries) doc.root, some name⟩
    | _ => .error "duplicate key"

/-- One line: blank, a comment, a `[section]` header, or `key = value`. -/
def readLine (doc : Document) (line : List Char) : Except String Document :=
  match skipBlank line with
  | [] => .ok doc
  | '#' :: _ => .ok doc
  | '[' :: rest => do
    let (name, rest) ← readKey (skipBlank rest)
    match skipBlank rest with
    | ']' :: rest => do
      endOfLine rest
      let root ← insertNew name (.table []) doc.root
      .ok ⟨root, some name⟩
    | _ => .error "expected a closing bracket"
  | cs => do
    let (key, rest) ← readKeyEq cs
    let (value, rest) ← readValue (rest.length + 1) rest
    endOfLine rest
    doc.add key value

/-- `toml::from_str` on the part of TOML manifests are written in: the lines of the text, a line
feed ending each and a carriage return before it dropped. -/
def fromStr (text : List Char) : Except String TomlValue := do
  let lines := (text.splitOn '\n').map fun line ↦ if line.getLast? = some '\r' then line.dropLast
    else line
  let doc ← lines.foldlM readLine ⟨[], none⟩
  .ok (.table doc.root)

end Toml

end AptosCore.Package
