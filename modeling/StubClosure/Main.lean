import StubClosure.CommandLine.Run

/-!
# Command line

Looks at the files that the command line names, carries the command out on what was seen, and prints and writes the outcome. Whether something can be written shows only then.
-/

namespace StubClosure.CommandLine

/-- Some path on the way to a path leads to a file. -/
def isBlocked (path : Path) : IO Bool := do
  for length in List.range path.names.length do
    try
      let place ← IO.FS.realPath { path with names := path.names.take length }.toString
      unless ← place.isDir do return true
    catch _ => pure ()
  return false

/-- What a path leads to. -/
def look (path : Path) : IO Entry := do
  try
    let place ← IO.FS.realPath path.toString
    if ← place.isDir then
      return .directory ((← place.readDir).toList.map fun entry => entry.fileName)
    match String.fromUTF8? (← IO.FS.readBinFile place) with
    | some text => return .file text
    | none => return .garbled s!"{path.toString} is no UTF-8 text"
  catch _ =>
    if ← isBlocked path then return .blocked
    return if path.isLong || path.names.any Path.isLongName then .tooLong else .missing

/-- What a path leads to, with the entries that matter if it is a directory of patches. -/
def lookInto (path : Path) : IO (List (Path × Entry)) := do
  let entry ← look path
  let names := entry.names.filter fun name =>
    name = SourceSet.allowListName || SourceSet.patchSuffix.toList.isSuffixOf name.toList
  let inside ← names.mapM fun name => do return (path.child name, ← look (path.child name))
  return (path, entry) :: inside

/-- The files that a command line names. -/
def lookAround (arguments : Arguments) : IO Disk := do
  let listings := arguments.listings.map Path.ofString
  let shared := (arguments.sourceSet.bind OptionValue.text?).toList.map Path.ofString
  let patches := (arguments.patches.bind OptionValue.text?).toList.flatMap fun root =>
    listings.map fun listing => (Path.ofString root).child listing.stem
  let seen ← (listings ++ shared ++ patches).mapM lookInto
  return { files := fun path => (seen.flatten.lookup path).getD .missing, makes := fun _ => .ok (), writes := fun _ _ => .ok () }

/-- Prints and writes an outcome. -/
def settle (outcome : Outcome) : IO UInt32 := do
  for logged in outcome.log do
    IO.eprintln s!"{logged.logger}: {logged.line.level.name}: {logged.line.message}"
  for directory in outcome.directories do
    IO.FS.createDirAll directory.toString
  for (path, text) in outcome.written do
    IO.FS.writeFile path.toString text
  IO.print outcome.stdout
  for error in outcome.errors do
    IO.eprintln error
  return outcome.exitCode.toUInt32

/-- Carries out a command line. -/
def execute (words : List String) : IO UInt32 := do
  match Arguments.parse words with
  | .error usage =>
    IO.eprintln "usage: papier [options] listing [listing ...]"
    return usage.exitCode.toUInt32
  | .ok arguments =>
    match run (← lookAround arguments) arguments with
    | .ok outcome => settle outcome
    | .error failure =>
      IO.eprintln failure.message
      return 1

end StubClosure.CommandLine

/-- The command. -/
def main (words : List String) : IO UInt32 := StubClosure.CommandLine.execute words
