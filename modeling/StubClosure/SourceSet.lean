import StubClosure.Files
import StubClosure.Order
import StubClosure.Table
import StubClosure.Text.Blank

/-!
# Source sets

Which types are to be replaced. A patch directory holds an allow-list with one name a line, and patches. Every type has a file of its own, named by its full name, so the headers of a patch tell which types it changes; files that a patch creates are new source and belong to no type of the program.
-/

namespace StubClosure

namespace SourceSet

/-- The allow-list of a patch directory. -/
def allowListName : String := "imports.txt"

/-- What the names of patches end in. -/
def patchSuffix : String := ".patch"

/-- What the header of a changed file begins with. -/
def headerStart : List Char := "diff --git a/".toList

/-- The file name that stands for no file. -/
def noFile : List Char := "null".toList

/-- What the names of source files end in. -/
def sourceSuffix : List Char := ".cs".toList

inductive HeaderFault where
  | noSpace
  | notSource
  deriving DecidableEq, Repr

/-- A header that names no source file, with the patch and line where it stands. -/
structure PatchError where
  fault : HeaderFault
  header : String
  patch : Path
  line : Nat
  deriving DecidableEq, Repr

def PatchError.message (e : PatchError) : String :=
  "Error when parsing patch line " ++ e.header ++ ": " ++
    match e.fault with
    | .noSpace => "Could not find the space"
    | .notSource => "not a " ++ String.ofList sourceSuffix ++ " file"

/-- Why there is no source set. -/
inductive SourceSetError where
  | file (error : FileError)
  | patch (error : PatchError)
  deriving DecidableEq, Repr

/-! ## The allow-list -/

/-- The name on a line of an allow-list. Blank lines and comments have none. -/
def allowedName? (line : List Char) : Option String :=
  let line := Text.trim line
  if line = [] ∨ line.head? = some '#' then none else some (String.ofList line)

/-- The names in the text of an allow-list. -/
def allowedNames (text : String) : List String := (Text.lines text.toList).filterMap allowedName?

/-- The names of an allow-list. A missing list is empty. -/
def readAllowList (files : Files) (path : Path) : Except FileError (List String) :=
  if (files path).isAbsent then .ok [] else (files.read path).map allowedNames

/-! ## Patches -/

/-- The line is the header of a file that was there before. -/
def isHeader (line : List Char) : Bool :=
  headerStart.isPrefixOf line && !(headerStart ++ noFile).isPrefixOf line

/-- The name of the type whose file a header names: what stands before the first space, without the suffix. -/
def headerName (line : List Char) : Except HeaderFault String :=
  let rest := line.drop headerStart.length
  if ' ' ∉ rest then .error .noSpace
  else
    let file := rest.takeWhile (· ≠ ' ')
    if sourceSuffix.isSuffixOf file ∧ sourceSuffix.length < file.length then
      .ok (String.ofList (file.take (file.length - sourceSuffix.length)))
    else .error .notSource

/-- The names that the lines of a patch tell, counted from a line on. -/
def namesFrom (patch : Path) : Nat → List (List Char) → Except PatchError (List String)
  | _, [] => .ok []
  | number, line :: rest =>
    if isHeader line then
      match headerName line with
      | .error fault => .error { fault, header := String.ofList line, patch, line := number }
      | .ok name => (namesFrom patch (number + 1) rest).map (name :: ·)
    else namesFrom patch (number + 1) rest

/-- The names that the text of a patch tells. -/
def patchNames (patch : Path) (text : String) : Except PatchError (List String) :=
  namesFrom patch 1 (Text.lines text.toList)

/-- The names that a patch tells. -/
def readPatch (files : Files) (patch : Path) : Except SourceSetError (List String) := do
  let text ← (files.read patch).mapError .file
  (patchNames patch text).mapError .patch

/-- The patches of a directory, by name. -/
def patchFiles (files : Files) (directory : Path) : List Path :=
  let names := (files directory).names.filter fun name => patchSuffix.toList.isSuffixOf name.toList
  (sortOn id names).map directory.child

/-- The names of the types that the patches of a directory change, in the order of the patches. -/
def patchedNames (files : Files) (directory : Path) : Except SourceSetError (List String) :=
  if files directory = .tooLong then .error (.file (.refused .tooLong directory))
  else ((patchFiles files directory).mapM (readPatch files)).map List.flatten

/-- The names from the allow-list of a directory and from its patches, each once. -/
def gather (files : Files) (directory : Path) : Except SourceSetError (List String) := do
  let allowed ← (readAllowList files (directory.child allowListName)).mapError .file
  let patched ← patchedNames files directory
  return (Table.firstBy id (allowed ++ patched)).keys

end SourceSet

end StubClosure
