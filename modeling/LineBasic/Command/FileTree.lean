/-!
# File trees

A file tree holds files and directories by their paths from one root, and a working directory,
from which a path starts unless its first character is a slash.  Reading and writing fail in the
ways a file system reports.

Main definitions:

- `FileError`: why a file cannot be read or written.
- `FileTree.under`: the tree of a working directory and what it holds.
- `FileTree.walk`, `FileTree.locate` and `FileTree.entry`: where a path leads, and what is there.
- `FileTree.read` and `FileTree.write`: the content of a file, and the tree with a new content.
-/

namespace LineBasic.Command

/-- Why a file cannot be read or written. -/
inductive FileError where
  | notFound
  | notDirectory
  | isDirectory
  | nameTooLong
  | invalidText
  /-- A reason in the words of the system. -/
  | other (reason : String)
deriving DecidableEq, Repr

/-- The wording of each reason. -/
def FileError.message : FileError → String
  | notFound => "No such file or directory (os error 2)"
  | notDirectory => "Not a directory (os error 20)"
  | isDirectory => "Is a directory (os error 21)"
  | nameTooLong => "File name too long (os error 36)"
  | invalidText => "stream did not contain valid UTF-8"
  | other reason => reason

/-- A path from one directory on, its names from the outermost one on. -/
abbrev Path := List String

/-- The part of a path before a slash joins the names behind it. -/
def consPathChar (c : Char) : List (List Char) → List (List Char)
  | [] => if c = '/' then [[], []] else [[c]]
  | name :: rest => if c = '/' then [] :: name :: rest else (c :: name) :: rest

/-- The names between slashes. -/
def splitPath (path : String) : List String :=
  (path.toList.foldr consPathChar []).map String.ofList

/-- The names in a path; slashes side by side count as one. -/
def pathNames (path : String) : List String :=
  (splitPath path).filter fun x => x != ""

/-- The most bytes that a name can have. -/
def nameLimit : Nat := 255

/-- The most bytes that a path can have. -/
def pathLimit : Nat := 4095

/-- Files with their content, and directories, by their paths from the root. -/
structure FileTree where
  files : List (Path × List UInt8) := []
  directories : List Path := []
  /-- The directory in which relative paths start; it is there even if it holds nothing. -/
  workingDirectory : Path := []
deriving DecidableEq, Repr

/-- What can be at a path. -/
inductive Entry where
  | file (content : List UInt8)
  | directory
  | nothing
deriving DecidableEq, Repr

namespace FileTree

/-- The tree whose working directory holds these files and directories, their paths taken from
there, and in which there is nothing else. -/
def under (workingDirectory : Path) (files : List (Path × List UInt8)) (directories : List Path) :
    FileTree where
  files := files.map fun (path, content) => (workingDirectory ++ path, content)
  directories := directories.map (workingDirectory ++ ·)
  workingDirectory

/-- Whether a path is a directory: the working directory, one that is listed, or one around those
or around a file.  The root, which is around everything, is one. -/
def isDirectory (tree : FileTree) (path : Path) : Bool :=
  path.isPrefixOf tree.workingDirectory || tree.directories.any path.isPrefixOf ||
    tree.files.any fun f => path.isPrefixOf f.1 && path != f.1

/-- What is at a path whose directories exist. -/
def entry (tree : FileTree) (path : Path) : Entry :=
  match tree.files.lookup path with
  | some content => .file content
  | none => if tree.isDirectory path then .directory else .nothing

/-- The path from the root that names lead to from a directory.  One dot stays where it is and two
dots lead to the directory around it; from the root they lead to the root.  Each name is looked up
in a directory, which comes to light before the name's length does. -/
def follow (tree : FileTree) (here : Path) : List String → Except FileError Path
  | [] => .ok here
  | name :: rest =>
    match tree.entry here with
    | .file _ => .error .notDirectory
    | .nothing => .error .notFound
    | .directory =>
      if name = "." then
        tree.follow here rest
      else if name = ".." then
        tree.follow here.dropLast rest
      else if name.utf8ByteSize > nameLimit then
        .error .nameTooLong
      else
        tree.follow (here ++ [name]) rest

/-- Whether a path asks for a directory by its last character. -/
def asksDirectory (path : String) : Bool :=
  path.toList.getLast? == some '/'

/-- The path from the root that names lead to from where a path starts: the root if its first
character is a slash, else the working directory.  Nothing is looked up for too long a path. -/
def walk (tree : FileTree) (path : String) (names : List String) : Except FileError Path :=
  if path.utf8ByteSize > pathLimit then
    .error .nameTooLong
  else
    tree.follow (if path.toList.head? = some '/' then [] else tree.workingDirectory) names

/-- Where a path leads, from the root on. -/
def locate (tree : FileTree) (path : String) : Except FileError Path :=
  tree.walk path (pathNames path)

/-- The directory in which the last name of a path is looked up. -/
def locateLast (tree : FileTree) (path : String) : Except FileError Path :=
  tree.walk path ((pathNames path).dropLast ++ ["."])

/-- The content of a file. -/
def read (tree : FileTree) (path : String) : Except FileError (List UInt8) := do
  match tree.entry (← tree.locate path) with
  | .file content => if asksDirectory path then .error .notDirectory else .ok content
  | .directory => .error .isDirectory
  | .nothing => .error .notFound

/-- Let a path hold a content, in the place of the file that is there. -/
def putFile (path : Path) (content : List UInt8) :
    List (Path × List UInt8) → List (Path × List UInt8)
  | [] => [(path, content)]
  | f :: rest => if f.1 = path then (path, content) :: rest else f :: putFile path content rest

/-- The tree in which a file has a new content; the file is made if there is none.  A path that asks
for a directory is refused before its last name is looked up. -/
def write (tree : FileTree) (path : String) (content : List UInt8) :
    Except FileError FileTree := do
  if asksDirectory path then
    let _ ← tree.locateLast path
    .error .isDirectory
  else
    let place ← tree.locate path
    if tree.entry place = .directory then
      .error .isDirectory
    else
      .ok { tree with files := putFile place content tree.files }

end FileTree

end LineBasic.Command
