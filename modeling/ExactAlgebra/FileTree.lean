/-!
# File trees

A tree of directories and files below a root, each known by the names on the way to it.

* `FileTree.normalize?`: a path without its dots.
* `FileTree.locate`: the first of some directories that holds a name.
-/

namespace ExactAlgebra

/-- Paths of directories and of files, as lists of names from the root on. -/
structure FileTree where
  directories : List (List String)
  files : List (List String)

namespace FileTree

/-- The names of a path, empty names and single dots left out. -/
def components (path : String) : List String :=
  (path.splitOn "/").filter fun name => name != "" && name != "."

/-- A path that begins with a slash does not lie below the root. -/
def isAbsolute (path : String) : Bool := path.toList.head? == some '/'

/-- The directory is the root, or is listed, or holds something that is listed. -/
def hasDirectory (t : FileTree) (path : List String) : Bool :=
  path.isEmpty || t.directories.any path.isPrefixOf ||
    t.files.any fun file => path.isPrefixOf file && path != file

def hasFile (t : FileTree) (path : List String) : Bool := t.files.contains path

/-- Follows names from a directory given by its names, the last one first.  A double dot leads one
level up; above the root there is nothing. -/
def normalizeFrom (up : List String) : List String → Option (List String)
  | [] => some up.reverse
  | ".." :: names =>
    match up with
    | [] => none
    | _ :: up => normalizeFrom up names
  | name :: names => normalizeFrom (name :: up) names

/-- The names of a path below the root without double dots, whether or not it exists. -/
def normalize? (path : String) : Option (List String) :=
  if isAbsolute path then none else normalizeFrom [] (components path)

/-- Following the names from a directory given by its names, the last one first, leads to something:
all names but the last must be directories.  Above the root nothing is known but that there are
directories. -/
def leadsSomewhere (t : FileTree) (up : List String) : List String → Bool
  | [] => true
  | ".." :: names =>
    match up with
    | [] => names.all (· == "..")
    | _ :: up => leadsSomewhere t up names
  | name :: names =>
    let here := (name :: up).reverse
    if t.hasDirectory here then leadsSomewhere t (name :: up) names
    else t.hasFile here && names.isEmpty

/-- The path of a name in the first of some directories that holds it.  A directory that is not
given or does not exist is passed over. -/
def locate (t : FileTree) (name : String) : List (Option String) → Option String
  | [] => none
  | none :: paths => locate t name paths
  | some path :: paths =>
    match normalize? path with
    | some directory =>
      if !isAbsolute name && t.hasDirectory directory &&
          t.leadsSomewhere directory.reverse (components name) then
        let found := directory ++ components name
        some (if found.isEmpty then "." else String.intercalate "/" found)
      else locate t name paths
    | none => locate t name paths

end FileTree

end ExactAlgebra
