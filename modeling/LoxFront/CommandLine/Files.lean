/-!
# Files

A small file tree: files known by the parts of their paths, and the directories they lie in.  Paths
are followed part by part, as from the directory at the root of the tree.
-/

namespace LoxFront.CommandLine

/-- Files with the parts of their paths, and their contents. -/
structure FileTree where
  files : List (List String × List UInt8) := []

/-- What a path leads to. -/
inductive FileEntry where
  | file (content : List UInt8)
  | directory

namespace FileTree

/-- The parts of a path, empty ones included. -/
def parts (path : String) : List String := path.splitOn "/"

/-- A tree of files with the given paths. -/
def ofList (files : List (String × List UInt8)) : FileTree :=
  ⟨files.map fun (path, content) => ((parts path).filter (· ≠ ""), content)⟩

/-- What is at a place in the tree. -/
def entry? (t : FileTree) (place : List String) : Option FileEntry :=
  match t.files.find? fun (parts, _) => parts == place with
  | some (_, content) => some (.file content)
  | none =>
    if place = [] ∨ t.files.any fun (parts, _) => place.isPrefixOf parts then some .directory
    else none

/-- Whether a place in the tree is a directory. -/
def isDirectory (t : FileTree) (place : List String) : Bool :=
  match t.entry? place with
  | some .directory => true
  | _ => false

/-- Follows the parts of a path from a place.  Only directories can be gone through. -/
def follow (t : FileTree) (place : List String) : List String → Option (List String)
  | [] => some place
  | part :: rest =>
    if !t.isDirectory place then none
    else if part = "" ∨ part = "." then t.follow place rest
    else if part = ".." then (if place = [] then none else t.follow place.dropLast rest)
    else t.follow (place ++ [part]) rest

/-- What a path leads to.  Nothing is known of the files outside the tree. -/
def lookup (t : FileTree) (path : String) : Option FileEntry :=
  if path = "" ∨ path.startsWith "/" then none
  else (t.follow [] (parts path)).bind t.entry?

end FileTree

end LoxFront.CommandLine
