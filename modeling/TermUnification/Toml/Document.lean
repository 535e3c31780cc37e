import TermUnification.Toml.DateTime
import TermUnification.Toml.Table

/-! Documents: assignments, and tables under headers. -/
namespace TermUnification.Toml

open Reader

/-- Splits the last part off a key. -/
def splitKey : List String → Option (List String × String)
  | [] => none
  | [key] => some ([], key)
  | part :: parts => (splitKey parts).map fun p => (part :: p.1, p.2)

def isBareKeyChar (c : Char) : Bool := c.isAlphanum || c == '_' || c == '-'

/-- One part of a key: bare, or quoted on one line. -/
def keyPart : Reader String := do
  match ← peek? with
  | some '\x22' => return String.ofList (← basicText)
  | some '\x27' => return String.ofList (← literalText)
  | _ => do
    let c ← one isBareKeyChar
    return String.ofList (c :: (← span isBareKeyChar))

/-- A key with dots between its parts, and blanks around them. -/
def dottedKey : Reader (List String × String) := do
  let parts ← separated
    (do
      blanks
      let part ← keyPart
      blanks
      return part)
    (char '.')
  if keyLimit < parts.length then failure
  splitKey parts

/-- A key, an equals sign and a value. -/
def assignment (value : Reader Value) : Reader Entries.Assignment := do
  let (path, key) ← dottedKey
  char '='
  blanks
  return ⟨path, key, ← value⟩

/-- Values in brackets, over any number of lines. A comma may follow the last one. -/
def array (value : Reader Value) : Reader Value := do
  char '['
  let items ← maybe <| separated
    (do
      gap
      let v ← value
      gap
      return v)
    (char ',')
  if items.isSome then
    let _ ← maybe (char ',')
  gap
  char ']'
  return .array (items.getD [])

/-- Assignments in braces, on one line. -/
def inlineTable (value : Reader Value) : Reader Value := do
  char '\x7b'
  let assignments ← maybe <| separated
    (do
      let a ← assignment value
      blanks
      return a)
    (char ',')
  blanks
  char '\x7d'
  let es ← Entries.assignAll [] (assignments.getD [])
  return .table (Node.entriesToValue es)

def boolean : Reader Value :=
  (do exactly ['t', 'r', 'u', 'e']; return .boolean true)
    <|> (do exactly ['f', 'a', 'l', 's', 'e']; return .boolean false)

/-- A value without values inside. A point in time begins like a number, and a floating point number
like an integer, so the longer forms are tried first. -/
def simpleValue : Reader Value :=
  (do return .text (← quotedText)) <|> boolean <|> dateTime <|> float <|> integer

/-- A value in which arrays and tables lie within each other at most `n` deep. -/
def value : Nat → Reader Value
  | 0 => simpleValue
  | n + 1 => array (value n) <|> inlineTable (value n) <|> simpleValue

/-- A header: of a table, or of one more element in an array of tables. -/
structure Header where
  path : List String
  key : String
  isElement : Bool

/-- A header in brackets, or in double brackets for an element. -/
def header : Reader Header :=
  (do
    exactly ['[', '[']
    let (path, key) ← dottedKey
    exactly [']', ']']
    return ⟨path, key, true⟩)
    <|> do
      char '['
      let (path, key) ← dottedKey
      char ']'
      return ⟨path, key, false⟩

/-- A line that says nothing. -/
def emptyLine : Reader Unit := do
  blanks
  (do comment; lineEnd) <|> newline

/-- A line with an assignment. -/
def assignmentLine : Reader Entries.Assignment := do
  blanks
  let a ← assignment (value nestingLimit)
  trailing
  return a

/-- A line with a header. -/
def headerLine : Reader Header := do
  blanks
  let h ← header
  trailing
  return h

/-- The assignments up to the next header. -/
def body : Reader (List Entries.Assignment) := do
  let as ← many ((do emptyLine; return none) <|> (do return some (← assignmentLine)))
  return as.filterMap id

/-- A header with its assignments. -/
structure Section where
  header : Header
  assignments : List Entries.Assignment

def sectionLines : Reader Section := do
  let h ← headerLine
  return ⟨h, ← body⟩

/-- A document: assignments before any header, and the sections. -/
structure Document where
  assignments : List Entries.Assignment
  sections : List Section

/-- A whole text, after a byte order mark if there is one. -/
def document : Reader Document := do
  let _ ← maybe (char '\ufeff')
  let assignments ← body
  let sections ← many sectionLines
  blanks
  return ⟨assignments, sections⟩

/-- Adds a section to what stands before it. -/
def Section.addTo (root : Entries) (s : Section) : Option Entries :=
  if s.header.isElement then
    Entries.addElement s.header.path s.header.key s.assignments root
  else Entries.addTable s.header.path s.header.key s.assignments root

/-- The finished entries, if no two parts of the document contradict each other. -/
def Document.entries? (d : Document) : Option (List (String × Value)) := do
  let root ← Entries.assignAll [] d.assignments
  return Node.entriesToValue (← d.sections.foldlM Section.addTo root)

/-- The entries of a text, if it is a document. -/
def parse? (text : String) : Option (List (String × Value)) := do
  (← document.run? text.toList).entries?

end TermUnification.Toml
