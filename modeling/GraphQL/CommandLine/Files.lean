/-!
# Files

The program reads texts and looks for files below a directory. What it sees of the file system is a record of these
two actions; a tree of files in memory is one such record.
-/

namespace GraphQL.CommandLine

/-- Why a file cannot be read. -/
inductive FileError where
  | notFound
  | notDirectory
  | isDirectory
  | other (text : String)

def FileError.message : FileError → String
  | notFound => "No such file or directory (os error 2)"
  | notDirectory => "Not a directory (os error 20)"
  | isDirectory => "Is a directory (os error 21)"
  | other text => text

/-- A file or directory found below a path, by its full path. -/
structure Found where
  path : String
  isFile : Bool

/-- The part of a file system that the program uses. -/
structure FileAccess (m : Type → Type) where
  read : String → m (Except FileError String)
  /-- What there is at a path and below it, each directory before its content. -/
  walk : String → m (Except FileError (List Found))

/-- The extension of a file: what follows the last dot of its name, unless the name begins with that dot. -/
def extension? (path : String) : Option String :=
  let name := path.toList.reverse.takeWhile (· ≠ '/')
  match name.dropWhile (· ≠ '.') with
  | [] | ['.'] => none
  | _ => some (String.ofList (name.takeWhile (· ≠ '.')).reverse)

/-- Texts by the names that lead to them from a directory, the full path of which is `root`. -/
structure FileTree where
  root : String
  files : List (List String × String)

namespace FileTree

/-- A tree from texts by their paths. -/
def ofList (root : String) (files : List (String × String)) : FileTree :=
  ⟨root, files.map fun (path, text) => ((path.splitOn "/").filter (· ∉ ["", "."]), text)⟩

def isDirectory (t : FileTree) (place : List String) : Bool :=
  place.isEmpty || t.files.any fun (names, _) => place.isPrefixOf names && place ≠ names

/-- The place that the names of a path lead to from a place. -/
def resolve (t : FileTree) (place : List String) : List String → Except FileError (List String)
  | [] => .ok place
  | name :: names =>
    if !t.isDirectory place then .error .notDirectory
    else if name = "" || name = "." then t.resolve place names
    else if name = ".." then if place.isEmpty then .error .notFound else t.resolve place.dropLast names
    else
      let next := place ++ [name]
      if t.isDirectory next || (t.files.lookup next).isSome then t.resolve next names else .error .notFound

/-- The place of a path: a full path within the tree, or a path from the tree's directory. -/
def place (t : FileTree) (path : String) : Except FileError (List String) :=
  let root := t.root.splitOn "/"
  let names := path.splitOn "/"
  if root.isPrefixOf names then t.resolve [] (names.drop root.length)
  else if path.isEmpty || path.startsWith "/" then .error .notFound
  else t.resolve [] names

def read (t : FileTree) (path : String) : Except FileError String := do
  match t.files.lookup (← t.place path) with
  | some text => return text
  | none => throw .isDirectory

/-- The places of all directories and files, each directory before its content and otherwise by name. -/
def places (t : FileTree) : List (List String) :=
  let prefixes := t.files.flatMap fun (names, _) => (List.range (names.length + 1)).map names.take
  ([] :: prefixes).eraseDups.mergeSort fun p q => !List.lex q p

/-- What there is at a path and below it. -/
def walk (t : FileTree) (path : String) : Except FileError (List Found) := do
  let start ← t.place path
  return (t.places.filter start.isPrefixOf).map fun place =>
    ⟨"/".intercalate (t.root :: place), !t.isDirectory place⟩

/-- The file system that has nothing but the tree. -/
def access (t : FileTree) : FileAccess Id := ⟨t.read, t.walk⟩

end FileTree

end GraphQL.CommandLine
