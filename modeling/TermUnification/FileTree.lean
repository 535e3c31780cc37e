import TermUnification.Files

/-! A file system as a value: files and directories by their places below the root. Paths are followed
from a working directory. -/
namespace TermUnification

/-- The names that lead from the root to an entry. -/
abbrev Path := List String

/-- Files with their bytes, and directories. A directory is also there when something lies in it. -/
structure FileTree where
  files : List (Path × ByteArray)
  dirs : List Path

namespace FileTree

/-- The parts of a path between slashes, empty ones included. -/
def splitPath : List Char → List (List Char)
  | [] => [[]]
  | c :: cs =>
    match splitPath cs with
    | [] => [[c]]
    | part :: parts => if c = '/' then [] :: part :: parts else (c :: part) :: parts

def components (path : String) : List String := (splitPath path.toList).map String.ofList

/-- What a path leads to. Of a missing entry only the directory around it is there. -/
inductive Target where
  | file (path : Path)
  | directory (path : Path)
  | missing (path : Path)
  deriving DecidableEq

def bytes? (tree : FileTree) (path : Path) : Option ByteArray :=
  (tree.files.find? fun f => f.1 == path).map (·.2)

def hasDirectory (tree : FileTree) (path : Path) : Bool :=
  tree.dirs.any path.isPrefixOf || tree.files.any fun f => f.1 != path && path.isPrefixOf f.1

/-- The entry at a place. -/
def entry (tree : FileTree) (path : Path) : Target :=
  if (tree.bytes? path).isSome then .file path
  else if path.isEmpty || tree.hasDirectory path then .directory path
  else .missing path

/-- Goes on by one component. Only directories can be gone through, and what is above the root is the
root. -/
def enter (tree : FileTree) : Target → String → Except FileError Target
  | .file _, _ => .error .notADirectory
  | .missing _, _ => .error .notFound
  | .directory path, name =>
    if name = "" ∨ name = "." then .ok (.directory path)
    else if name = ".." then .ok (.directory path.dropLast)
    else .ok (tree.entry (path ++ [name]))

/-- Follows the components of a path, from the root if it begins with a slash and else from the working
directory. The empty path leads nowhere. -/
def resolve (tree : FileTree) (cwd : Path) : List String → Except FileError Target
  | [] | [""] => .error .notFound
  | "" :: names => names.foldlM tree.enter (.directory [])
  | names => names.foldlM tree.enter (.directory cwd)

/-- The text of a file. -/
def readText (tree : FileTree) (cwd : Path) (path : String) : Except FileError String := do
  match ← tree.resolve cwd (components path) with
  | .file p =>
    match (tree.bytes? p).bind String.fromUTF8? with
    | some text => return text
    | none => throw .notUtf8
  | .directory _ => throw .isADirectory
  | .missing _ => throw .notFound

/-- Puts bytes into a file, which is made if need be. -/
def put (tree : FileTree) (path : Path) (bytes : ByteArray) : FileTree :=
  if (tree.bytes? path).isSome then
    { tree with files := tree.files.map fun f => if f.1 = path then (path, bytes) else f }
  else { tree with files := tree.files ++ [(path, bytes)] }

/-- The path without slashes at its end, if it has any. -/
def withoutEnd (names : List String) : Option (List String) :=
  if names.getLast? = some "" then
    some (names.reverse.dropWhile (· = "")).reverse
  else none

/-- The place that a path names for writing. A path that ends in a slash names a directory, whether
there is one or not. -/
def placeFor (tree : FileTree) (cwd : Path) (path : String) : Except FileError Path := do
  let names := components path
  if names = [""] then throw .notFound
  match withoutEnd names with
  | some [] => throw .isADirectory
  | some shorter =>
    match ← tree.resolve cwd (shorter.dropLast ++ ["."]) with
    | .file _ => throw .notADirectory
    | .missing _ => throw .notFound
    | .directory _ => throw .isADirectory
  | none =>
    match ← tree.resolve cwd names with
    | .file p | .missing p => return p
    | .directory _ => throw .isADirectory

/-- Writes a text to a file. -/
def writeText (tree : FileTree) (cwd : Path) (path text : String) : Except FileError FileTree := do
  return tree.put (← tree.placeFor cwd path) text.toUTF8

/-- Access to a file system from a working directory. -/
instance : FileAccess (ReaderT Path (StateM FileTree)) where
  readText path := do return (← get).readText (← read) path
  writeText path text := do
    match (← get).writeText (← read) path text with
    | .ok tree =>
      set tree
      return .ok ()
    | .error cause => return .error cause

@[simp] theorem resolve_empty (tree : FileTree) (cwd : Path) :
    tree.resolve cwd [""] = .error .notFound := rfl

example : components "/a/" = ["", "a", ""] := by decide
example : (FileTree.mk [(["a"], "x".toUTF8)] [["d"]]).readText ["d"] "../a" = .ok "x" := by rfl
example : (FileTree.mk [(["a"], "x".toUTF8)] [["d"]]).readText [] "a/b" = .error .notADirectory := by
  rfl
example : (FileTree.mk [] [["d"]]).placeFor ["d"] "new" = .ok ["d", "new"] := by rfl
example : (FileTree.mk [] []).placeFor [] "new/" = .error .isADirectory := by rfl

end FileTree

end TermUnification
