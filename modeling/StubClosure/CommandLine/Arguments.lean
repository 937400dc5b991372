import StubClosure.Text.Numeral

/-!
# Arguments

The words of a command line, sorted into options and listings. A long option may be cut short as long as no other begins alike, and takes its value from the next word or from behind an equals sign. A short option takes its value from the next word too, or from the rest of its own word, and options without value may share one dash. Behind a lone double dash all words are listings. The listings have to stand together. A double dash in place of a value leaves the option without one.
-/

namespace StubClosure.CommandLine

/-- The options of the command. -/
inductive Switch where
  | help | sourceSet | patches | repassOnNewMembers | generateAllStubs | output | jobs | json | verbose
  deriving DecidableEq, Repr

/-- The value of an option, which is missing if a double dash stands in its place. -/
inductive OptionValue where
  | missing
  | text (text : String)
  deriving DecidableEq, Repr

/-- The text of a value. -/
def OptionValue.text? : OptionValue → Option String
  | .missing => none
  | .text value => some value

/-- What is asked for. -/
structure Arguments where
  listings : List String := []
  sourceSet : Option OptionValue := none
  patches : Option OptionValue := none
  repassOnNewMembers : Bool := false
  generateAllStubs : Bool := false
  output : Option OptionValue := none
  jobs : Option Int := none
  json : Bool := false
  verbose : Bool := false
  deriving DecidableEq, Repr, Inhabited

/-- Why a command line is not carried out. -/
inductive Usage where
  | help
  | wrong
  deriving DecidableEq, Repr

/-- The status that the command then ends with. -/
def Usage.exitCode : Usage → Nat
  | .help => 0
  | .wrong => 2

namespace Switch

/-- The option needs a value. -/
def takesValue : Switch → Bool
  | sourceSet | patches | output | jobs => true
  | help | repassOnNewMembers | generateAllStubs | json | verbose => false

/-- The names of the options. -/
def names : List (String × Switch) :=
  [("-h", help), ("--help", help), ("--source-set", sourceSet), ("--patches", patches),
   ("--repass-on-new-members", repassOnNewMembers), ("--generate-all-stubs", generateAllStubs), ("-o", output),
   ("--output", output), ("-j", jobs), ("--jobs", jobs), ("--json", json), ("-v", verbose), ("--verbose", verbose)]

def named? (name : List Char) : Option Switch := names.lookup (String.ofList name)

/-- The options whose names begin with the given text. -/
def startingWith (start : List Char) : List Switch :=
  (names.filter fun entry => start.isPrefixOf entry.1.toList).map (·.2)

end Switch

/-! ## Words -/

/-- A word of the command line. The word of an option may hold more: what stands behind an equals sign, or right behind a short name. -/
inductive Word where
  | option (name : Switch) (isShort : Bool) (attached : Option (List Char))
  | unknown
  | value (text : String)
  | separator
  deriving DecidableEq, Repr

/-- Cuts a word at its first equals sign. -/
def cutEquals (cs : List Char) : List Char × Option (List Char) :=
  match cs.dropWhile (· ≠ '=') with
  | [] => (cs, none)
  | _ :: value => (cs.takeWhile (· ≠ '='), some value)

/-- A negative number, which is no option. -/
def isNegativeNumber : List Char → Bool
  | '-' :: rest =>
    let whole := rest.takeWhile Text.isDecimal
    match rest.drop whole.length with
    | [] | ['\n'] => !whole.isEmpty
    | '.' :: fraction =>
      let digits := fraction.takeWhile Text.isDecimal
      !digits.isEmpty && (fraction.drop digits.length = [] || fraction.drop digits.length = ['\n'])
    | _ => false
  | _ => false

/-- A word that begins like an option but is the name of none: a negative number, a text with spaces, or a mistake. -/
def otherWord (cs : List Char) : Word :=
  if isNegativeNumber cs || cs.contains ' ' then .value (String.ofList cs) else .unknown

/-- What a word before the double dash is. It is wrong if it could be short for several options. -/
def classify (word : String) : Except Usage Word :=
  match word.toList with
  | '-' :: second :: rest =>
    let cs := '-' :: second :: rest
    let isShort := second ≠ '-'
    match Switch.named? cs with
    | some name => .ok (.option name isShort none)
    | none =>
      let (start, attached) := cutEquals cs
      match Switch.named? start with
      | some name => .ok (.option name isShort attached)
      | none =>
        if isShort then
          match Switch.named? ['-', second] with
          | some name => .ok (.option name isShort (some rest))
          | none => .ok (otherWord cs)
        else
          match Switch.startingWith start with
          | [] => .ok (otherWord cs)
          | [name] => .ok (.option name isShort attached)
          | _ => .error .wrong
  | _ => .ok (.value word)

/-- What the words are. -/
def classifyAll : List String → Except Usage (List Word)
  | [] => .ok []
  | word :: rest =>
    if word = "--" then .ok (.separator :: rest.map .value)
    else do
      let first ← classify word
      return first :: (← classifyAll rest)

/-! ## Taking the words in order -/

/-- What has been taken so far. A word that has no place makes the whole line wrong, but only in the end. -/
structure Progress where
  arguments : Arguments := {}
  hasListings : Bool := false
  isWrong : Bool := false
  deriving DecidableEq, Repr, Inhabited

namespace Progress

/-- Takes an option without value. -/
def takeFlag (p : Progress) : Switch → Except Usage Progress
  | .help => .error .help
  | .repassOnNewMembers => .ok { p with arguments := { p.arguments with repassOnNewMembers := true } }
  | .generateAllStubs => .ok { p with arguments := { p.arguments with generateAllStubs := true } }
  | .json => .ok { p with arguments := { p.arguments with json := true } }
  | .verbose => .ok { p with arguments := { p.arguments with verbose := true } }
  | .sourceSet | .patches | .output | .jobs => .error .wrong

/-- The value that a word stands for. -/
def valueOf (word : String) : OptionValue := if word = "--" then .missing else .text word

/-- The number that a value stands for; none if the value is missing. -/
def numberOf : OptionValue → Except Usage (Option Int)
  | .missing => .ok none
  | .text text =>
    match Text.readInteger? text.toList with
    | some n => .ok (some n)
    | none => .error .wrong

/-- Takes an option with its value. A source set and patches exclude each other. -/
def takeValue (p : Progress) (value : OptionValue) : Switch → Except Usage Progress
  | .sourceSet =>
    if p.arguments.patches.isSome then .error .wrong
    else .ok { p with arguments := { p.arguments with sourceSet := some value } }
  | .patches =>
    if p.arguments.sourceSet.isSome then .error .wrong
    else .ok { p with arguments := { p.arguments with patches := some value } }
  | .output => .ok { p with arguments := { p.arguments with output := some value } }
  | .jobs => do return { p with arguments := { p.arguments with jobs := ← numberOf value } }
  | .help | .repassOnNewMembers | .generateAllStubs | .json | .verbose => .error .wrong

/-- What is attached to a short option without value: further short options, at least one. Gives the options without value, and the one with value that ends the word, if there is one, with the rest of the word as its value. -/
def cluster (flags : List Switch) : List Char → Except Usage (List Switch × Option (Switch × List Char))
  | [] => .error .wrong
  | c :: rest =>
    match Switch.named? ['-', c] with
    | none => .error .wrong
    | some name =>
      if name.takesValue then .ok (flags, some (name, rest))
      else if rest = [] then .ok (flags ++ [name], none)
      else cluster (flags ++ [name]) rest

/-- Takes flags one after the other. -/
def takeFlags (p : Progress) (flags : List Switch) : Except Usage Progress := flags.foldlM takeFlag p

/-- Takes a run of words that are no options. The first run that holds a value makes up the listings. -/
def takeListings (p : Progress) (run : List Word) : Progress :=
  let values := run.filterMap fun
    | .value text => some text
    | .option .. | .unknown | .separator => none
  if p.hasListings ∨ values = [] then { p with isWrong := true }
  else { p with arguments := { p.arguments with listings := values }, hasListings := true }

end Progress

/-- The word is no option. -/
def Word.isPlain : Word → Bool
  | .value _ | .separator => true
  | .option .. | .unknown => false

/-- Takes flags, and then an option whose value is attached to it, or else is the next word. The flags are taken only if there is such a word. -/
def takeLast (p : Progress) (flags : List Switch) (name : Switch) (attached : List Char) (rest : List Word) :
    Except Usage (Progress × List Word) :=
  match attached, rest with
  | [], .value text :: rest => do return (← (← p.takeFlags flags).takeValue (Progress.valueOf text) name, rest)
  | [], _ => .error .wrong
  | value, rest => do
    return (← (← p.takeFlags flags).takeValue (Progress.valueOf (String.ofList value)) name, rest)

/-- Takes an option, its value perhaps from the words after it. -/
def takeOption (p : Progress) (name : Switch) (isShort : Bool) (attached : Option (List Char)) (rest : List Word) :
    Except Usage (Progress × List Word) :=
  match attached with
  | none => if name.takesValue then takeLast p [] name [] rest else do return (← p.takeFlag name, rest)
  | some text =>
    if name.takesValue then do return (← p.takeValue (Progress.valueOf (String.ofList text)) name, rest)
    else if isShort then do
      match ← Progress.cluster [name] text with
      | (flags, none) => return (← p.takeFlags flags, rest)
      | (flags, some (last, text)) => takeLast p flags last text rest
    else .error .wrong

/-- Takes all words; there are never more steps than words. -/
def takeAll : Nat → Progress → List Word → Except Usage Progress
  | 0, p, _ => .ok p
  | _, p, [] => .ok p
  | more + 1, p, word :: rest =>
    match word with
    | .option name isShort attached => do
      let (p, rest) ← takeOption p name isShort attached rest
      takeAll more p rest
    | .unknown => takeAll more { p with isWrong := true } rest
    | .value _ | .separator =>
      takeAll more (p.takeListings ((word :: rest).takeWhile Word.isPlain)) ((word :: rest).dropWhile Word.isPlain)

/-- What a command line asks for. -/
def Arguments.parse (words : List String) : Except Usage Arguments := do
  let words ← classifyAll words
  let p ← takeAll words.length {} words
  if p.isWrong || !p.hasListings then throw .wrong
  return p.arguments

end StubClosure.CommandLine
