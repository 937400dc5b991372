import StubClosure.Path
import StubClosure.Text.Lines
import StubClosure.Text.Quoted

/-!
# Files

What can be seen of the files around a run: for each path, whether it leads to a file, to a directory, or nowhere. A `Disk` tells also what can be put where. A `FileTree` is a disk that is given as a whole.
-/

namespace StubClosure

/-- What a path leads to. It is blocked if it goes on beyond a file, and too long if a name in it, or the whole, has more bytes than there can be. The bytes of a file may be no text at all. -/
inductive Entry where
  | missing
  | blocked
  | tooLong
  | file (text : String)
  | garbled (complaint : String)
  | directory (names : List String)
  deriving DecidableEq, Repr

/-- The files as they are seen. -/
abbrev Files := Path → Entry

namespace Entry

/-- The text of a file, its line ends made plain. -/
def text? : Entry → Option String
  | .file text => some (String.ofList (Text.plainNewlines text.toList))
  | .missing | .blocked | .tooLong | .garbled _ | .directory _ => none

/-- There is nothing at the end of the path. A path that is too long is no path to nothing. -/
def isAbsent : Entry → Bool
  | .missing | .blocked => true
  | .tooLong | .file _ | .garbled _ | .directory _ => false

/-- The names in a directory; none in what is no directory. -/
def names : Entry → List String
  | .directory names => names
  | .missing | .blocked | .tooLong | .file _ | .garbled _ => []

end Entry

/-! ## Errors -/

/-- Why the system does not open a path, or put something there. -/
inductive Refusal where
  | missing
  | taken
  | blocked
  | directory
  | tooLong
  deriving DecidableEq, Repr

namespace Refusal

/-- The number of the error. -/
def number : Refusal → Nat
  | missing => 2
  | taken => 17
  | blocked => 20
  | directory => 21
  | tooLong => 36

def text : Refusal → String
  | missing => "No such file or directory"
  | taken => "File exists"
  | blocked => "Not a directory"
  | directory => "Is a directory"
  | tooLong => "File name too long"

end Refusal

/-- A path that is not opened, or a file that is no text. -/
inductive FileError where
  | refused (refusal : Refusal) (path : Path)
  | garbled (complaint : String)
  deriving DecidableEq, Repr

def FileError.message : FileError → String
  | .refused refusal path => s!"[Errno {refusal.number}] {refusal.text}: {Text.quoted path.toString}"
  | .garbled complaint => complaint

/-- The text of the file that a path leads to. -/
def Files.read (files : Files) (path : Path) : Except FileError String :=
  match files path with
  | .file text => .ok (String.ofList (Text.plainNewlines text.toList))
  | .garbled complaint => .error (.garbled complaint)
  | .missing => .error (.refused .missing path)
  | .blocked => .error (.refused .blocked path)
  | .tooLong => .error (.refused .tooLong path)
  | .directory _ => .error (.refused .directory path)

theorem Files.read_eq_ok_iff {files : Files} {path : Path} {text : String} :
    files.read path = .ok text ↔ (files path).text? = some text := by
  unfold read Entry.text?
  cases files path <;> simp

/-- Files that can be seen, and what becomes of attempts to put something among them: to have a directory at a path, with those on the way to it, and to write a text to a path, perhaps after a directory has been made. -/
structure Disk where
  files : Files
  makes : Path → Except FileError Unit
  writes : Option Path → Path → Except FileError Unit

/-! ## Trees -/

/-- The files and directories below the working directory. A directory that holds anything need not be listed. -/
structure FileTree where
  files : List (List String × String) := []
  directories : List (List String) := []
  deriving DecidableEq, Repr, Inhabited

namespace FileTree

/-- The first name below a place on the way to another. -/
def stepBelow (place other : List String) : Option String :=
  if place.isPrefixOf other then (other.drop place.length).head? else none

/-- The names directly below a place. -/
def namesBelow (tree : FileTree) (place : List String) : List String :=
  ((tree.files.map (·.1) ++ tree.directories).filterMap (stepBelow place)).eraseDups

/-- What is at a place. -/
def entry (tree : FileTree) (place : List String) : Entry :=
  match tree.files.lookup place with
  | some text => .file text
  | none =>
    let names := tree.namesBelow place
    if place = [] ∨ names ≠ [] ∨ place ∈ tree.directories then .directory names else .missing

/-- What names lead to from a place outside the working directory: directories further up are there, all else is out of sight. -/
def outside (names : List String) : Entry :=
  match names.find? (· ≠ "..") with
  | none => .directory []
  | some name => if Path.isLongName name then .tooLong else .missing

/-- Follows names from a directory. -/
def follow (tree : FileTree) (place : List String) : List String → Entry ⊕ List String
  | [] => .inr place
  | name :: rest =>
    match tree.entry place with
    | .missing => .inl .missing
    | .tooLong => .inl .tooLong
    | .blocked | .file _ | .garbled _ => .inl .blocked
    | .directory _ =>
      if Path.isLongName name then .inl .tooLong
      else if name = ".." then
        if place = [] then .inl (outside rest) else tree.follow place.dropLast rest
      else tree.follow (place ++ [name]) rest

/-- The tree as it is seen. A path with a null character leads nowhere. -/
def view (tree : FileTree) : Files := fun path =>
  if path.hasNull then .missing
  else if path.isLong then .tooLong
  else if path.root ≠ "" then outside path.names
  else
    match tree.follow [] path.names with
    | .inl entry => entry
    | .inr place => tree.entry place

/-! ### Changing a tree -/

/-- The place below the working directory that names lead to once all directories on the way are there. -/
def place? : List String → List String → Option (List String)
  | place, [] => some place
  | place, name :: rest =>
    if name = ".." then if place = [] then none else place? place.dropLast rest
    else place? (place ++ [name]) rest

/-- The place of a path in the tree. What is outside has none. -/
def placeOf? (path : Path) : Option (List String) := if path.root = "" then place? [] path.names else none

/-- The tree with a text at the end of a path. -/
def write (tree : FileTree) (path : Path) (text : String) : FileTree :=
  match placeOf? path with
  | none => tree
  | some place => { tree with files := tree.files.filter (·.1 ≠ place) ++ [(place, text)] }

/-- The tree with a directory at the end of a path, which is to lead out of a directory. -/
def makeDirectory (tree : FileTree) (path : Path) : Except FileError FileTree :=
  match tree.view path with
  | .directory _ => .ok tree
  | .missing => .ok { tree with directories := tree.directories ++ (placeOf? path).toList }
  | .file _ | .garbled _ => .error (.refused .taken path)
  | .blocked => .error (.refused .blocked path)
  | .tooLong => .error (.refused .tooLong path)

/-- The tree with a directory at the end of the first names of a path. Where there is nothing yet, the directories on the way are made before. -/
def makeDirectories (tree : FileTree) (path : Path) : Nat → Except FileError FileTree
  | 0 => .ok tree
  | count + 1 => do
    let start := { path with names := path.names.take (count + 1) }
    let tree ← if tree.view start = .missing then tree.makeDirectories path count else pure tree
    tree.makeDirectory start

/-- A text can be written to a path: to a file, or to a new one in a directory. -/
def accepts (tree : FileTree) (path : Path) : Except FileError Unit :=
  match tree.view path, tree.view path.parent with
  | .file _, _ | .garbled _, _ | .missing, .directory _ => .ok ()
  | .missing, _ => .error (.refused .missing path)
  | .directory _, _ => .error (.refused .directory path)
  | .blocked, _ => .error (.refused .blocked path)
  | .tooLong, _ => .error (.refused .tooLong path)

/-- The tree as a disk. -/
def disk (tree : FileTree) : Disk where
  files := tree.view
  makes directory := (tree.makeDirectories directory directory.names.length).map fun _ => ()
  writes made path :=
    match made with
    | none => tree.accepts path
    | some directory => tree.makeDirectories directory directory.names.length >>= fun tree => tree.accepts path

end FileTree

end StubClosure
