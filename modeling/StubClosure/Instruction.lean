import StubClosure.Member

/-!
# Instructions

Nothing here runs an instruction. What matters of one is whether it refers to a member, whether it loads an argument or a local, and whether it leaves a value on the evaluation stack. `Instruction.make` reads this off the mnemonic and refuses an operand that the mnemonic cannot take.
-/

namespace StubClosure

/-- The kinds of instruction that are told apart. -/
inductive OpCategory where
  | call | virtualCall | construct
  | fieldLoad | fieldStore | staticFieldLoad | staticFieldStore
  | loadArg | loadLocal | storeLocal
  | other
  deriving DecidableEq, Repr

namespace OpCategory

/-- Transfers control to a method. -/
def isCall (c : OpCategory) : Bool := c ∈ [call, virtualCall, construct]

def isFieldAccess (c : OpCategory) : Bool := c ∈ [fieldLoad, fieldStore, staticFieldLoad, staticFieldStore]

/-- Names an argument or local by its slot. -/
def isSlot (c : OpCategory) : Bool := c ∈ [loadArg, loadLocal, storeLocal]

end OpCategory

inductive Operand where
  | member (m : Member)
  | type (t : TypeId)
  | number (n : Int)
  | text (s : String)
  deriving DecidableEq, Repr

namespace Operand

def member? : Operand → Option Member
  | .member m => some m
  | _ => none

/-- What sort of thing the operand is. -/
def kind : Operand → String
  | .member _ => "MemberRef"
  | .type _ => "TypeId"
  | .number _ => "int"
  | .text _ => "str"

/-- The operand as it stands in a listing. A number may be too long to be written. -/
def render : Operand → Except Text.NumeralError String
  | .member m => .ok m.text
  | .type t => .ok t.fullName
  | .number n => Text.writeDecimal n
  | .text s => .ok ("\"" ++ s ++ "\"")

/-- The operand written out part by part. -/
def describe : Operand → Except Text.NumeralError String
  | .member m => .ok m.describe
  | .type t => .ok t.describe
  | .number n => Text.writeDecimal n
  | .text s => .ok (Text.quoted s)

end Operand

/-- An instruction at an offset, its mnemonic in lowercase. It `pushes` if it leaves a value on the evaluation stack. -/
structure Instruction where
  offset : Int
  category : OpCategory
  mnemonic : String
  operand : Option Operand := none
  pushes : Bool := true
  deriving DecidableEq, Repr

/-- An operand that its mnemonic cannot take. -/
inductive InstructionError where
  | memberNeeded (mnemonic : String) (offset : Int) (operand : Option Operand)
  | slotNeeded (mnemonic : String) (offset : Int) (operand : Option Operand)
  deriving DecidableEq, Repr

namespace InstructionError

/-- What was given as an operand, in words. -/
def given : Option Operand → Except Text.NumeralError String
  | none => .ok "None"
  | some operand => operand.describe

/-- The complaint about an operand. A number that cannot be written is complained about as such. -/
def complaint (mnemonic : String) (offset : Int) (needed : String) (operand : Option Operand) : String :=
  match given operand with
  | .ok given => s!"'{mnemonic}' at IL_{Text.hexFour offset} needs a {needed}, got {given}"
  | .error error => error.message

def message : InstructionError → String
  | .memberNeeded mnemonic offset operand => complaint mnemonic offset "member operand" operand
  | .slotNeeded mnemonic offset operand => complaint mnemonic offset "slot index" operand

end InstructionError

namespace Mnemonic

/-- The mnemonic in small letters. Mnemonics are written in English letters, and no others are changed. -/
def lower (mnemonic : String) : String := String.ofList (mnemonic.toList.map Char.toLower)

/-- The short forms of a slot instruction, which name one of the first four slots themselves. -/
def shortForms (base : String) (category : OpCategory) : List (String × OpCategory × Option Int) :=
  [(base ++ ".0", category, some 0), (base ++ ".1", category, some 1),
   (base ++ ".2", category, some 2), (base ++ ".3", category, some 3)]

/-- The mnemonics of all categories but the last, with the slot that they imply. -/
def table : List (String × OpCategory × Option Int) :=
  [("call", .call, none), ("callvirt", .virtualCall, none), ("newobj", .construct, none),
   ("ldfld", .fieldLoad, none), ("stfld", .fieldStore, none),
   ("ldsfld", .staticFieldLoad, none), ("stsfld", .staticFieldStore, none),
   ("ldarg", .loadArg, none), ("ldarg.s", .loadArg, none),
   ("ldloc", .loadLocal, none), ("ldloc.s", .loadLocal, none),
   ("stloc", .storeLocal, none), ("stloc.s", .storeLocal, none)]
    ++ shortForms "ldarg" .loadArg ++ shortForms "ldloc" .loadLocal ++ shortForms "stloc" .storeLocal

/-- The category of a mnemonic in small letters, and the slot that it implies. -/
def classify (mnemonic : String) : OpCategory × Option Int := (table.lookup mnemonic).getD (.other, none)

/-- Mnemonics of the last category that leave nothing on the stack. -/
def silent : List String :=
  ["nop", "pop", "ret", "throw", "rethrow", "leave", "leave.s", "endfinally", "endfilter", "switch", "break",
   "initobj", "stobj", "cpobj", "cpblk", "initblk", "starg", "starg.s"]

/-- Beginnings of mnemonics of the last category that leave nothing on the stack: branches and stores. -/
def silentStarts : List String := ["br", "beq", "bge", "bgt", "ble", "blt", "bne", "stelem", "stind"]

/-- A mnemonic of the last category leaves a value on the stack. -/
def otherPushes (mnemonic : String) : Bool :=
  !(silent.contains mnemonic || silentStarts.any fun start => start.toList.isPrefixOf mnemonic.toList)

end Mnemonic

namespace OpCategory

/-- The category of a mnemonic in letters of either case. -/
def ofMnemonic (mnemonic : String) : OpCategory := (Mnemonic.classify (Mnemonic.lower mnemonic)).1

/-- An instruction of the category takes the operand: calls and field accesses take a member, slot instructions a number, all others anything. -/
def accepts (c : OpCategory) (operand : Option Operand) : Bool :=
  if c.isCall || c.isFieldAccess then (operand.bind Operand.member?).isSome
  else if c.isSlot then
    match operand with
    | some (.number _) => true
    | _ => false
  else true

/-- Whether an instruction leaves a value on the stack. A call does if it returns one. -/
def pushes (c : OpCategory) (mnemonic : String) (operand : Option Operand) : Bool :=
  match c with
  | .call | .virtualCall =>
    match operand with
    | some (.member m) => m.valueType ≠ .void
    | _ => true
  | .fieldStore | .staticFieldStore | .storeLocal => false
  | .other => Mnemonic.otherPushes mnemonic
  | .construct | .fieldLoad | .staticFieldLoad | .loadArg | .loadLocal => true

end OpCategory

namespace Instruction

/-- The instruction of a mnemonic. A slot that the mnemonic implies takes the place of the operand. -/
def make (offset : Int) (mnemonic : String) (operand : Option Operand) : Except InstructionError Instruction :=
  let mnemonic := Mnemonic.lower mnemonic
  let (category, implied) := Mnemonic.classify mnemonic
  let operand := (implied.map Operand.number).or operand
  if category.accepts operand then
    .ok { offset, category, mnemonic, operand, pushes := category.pushes mnemonic operand }
  else if category.isSlot then .error (.slotNeeded mnemonic offset operand)
  else .error (.memberNeeded mnemonic offset operand)

/-- The member that the instruction refers to. -/
def member? (ins : Instruction) : Option Member := ins.operand.bind Operand.member?

def isCall (ins : Instruction) : Bool := ins.category.isCall

def isFieldAccess (ins : Instruction) : Bool := ins.category.isFieldAccess

def withOperand (ins : Instruction) (operand : Operand) : Instruction := { ins with operand := some operand }

/-- The mnemonic itself names the slot. -/
def impliesSlot (ins : Instruction) : Bool :=
  ins.category.isSlot && ins.mnemonic.toList.getLast?.any Text.isDigit

/-- The instruction as a line of a listing. -/
def render (ins : Instruction) : Except Text.NumeralError String :=
  let text := "IL_" ++ Text.hexFour ins.offset ++ ": " ++ ins.mnemonic
  match ins.operand with
  | some operand => if ins.impliesSlot then .ok text else operand.render.map fun operand => text ++ " " ++ operand
  | none => .ok text

/-- The mnemonic by which a slot is loaded or stored: the first four slots have short forms. -/
def slotMnemonic (base : String) (slot : Int) : String :=
  if slot < 4 then base ++ "." ++ toString slot else base ++ ".s"

/-- An instruction on a slot. -/
def onSlot (base : String) (slot offset : Int) : Except InstructionError Instruction :=
  make offset (slotMnemonic base slot) (some (.number slot))

end Instruction

end StubClosure
