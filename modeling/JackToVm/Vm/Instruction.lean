import JackToVm.Scope
import JackToVm.Token

/-!
Instructions of the stack machine and their text, one line for each.
-/

namespace JackToVm.Vm

/-- A memory segment. -/
inductive Segment where
  | constant
  | argument
  | local_
  | static
  /-- The fields of the current object, from the address in `pointer 0` on. -/
  | this
  /-- The array element at the address in `pointer 1`. -/
  | that
  | pointer
  | temp
deriving DecidableEq, Repr, Inhabited

namespace Segment

def text : Segment → String
  | constant => "constant"
  | argument => "argument"
  | local_ => "local"
  | static => "static"
  | this => "this"
  | that => "that"
  | pointer => "pointer"
  | temp => "temp"

def ofText? : String → Option Segment
  | "constant" => some constant
  | "argument" => some argument
  | "local" => some local_
  | "static" => some static
  | "this" => some this
  | "that" => some that
  | "pointer" => some pointer
  | "temp" => some temp
  | _ => none

/-- The segment that holds the variables of a kind. -/
def ofKind : Kind → Segment
  | .static => static
  | .field => this
  | .argument => argument
  | .local_ => local_

@[simp] theorem ofText?_text (s : Segment) : ofText? s.text = some s := by
  cases s <;> rfl

end Segment

/-- A command that works on the top of the stack. -/
inductive Command where
  | add | sub | neg | eq | gt | lt | and | or | not
deriving DecidableEq, Repr, Inhabited

namespace Command

def text : Command → String
  | add => "add"
  | sub => "sub"
  | neg => "neg"
  | eq => "eq"
  | gt => "gt"
  | lt => "lt"
  | and => "and"
  | or => "or"
  | not => "not"

def ofText? : String → Option Command
  | "add" => some add
  | "sub" => some sub
  | "neg" => some neg
  | "eq" => some eq
  | "gt" => some gt
  | "lt" => some lt
  | "and" => some and
  | "or" => some or
  | "not" => some not
  | _ => none

@[simp] theorem ofText?_text (c : Command) : ofText? c.text = some c := by
  cases c <;> rfl

end Command

/-- An instruction of the stack machine. -/
inductive Instruction where
  | push (segment : Segment) (index : Nat)
  | pop (segment : Segment) (index : Nat)
  | compute (command : Command)
  | label (name : String)
  | goto (target : String)
  | ifGoto (target : String)
  | call (name : String) (arguments : Nat)
  | function (name : String) (locals : Nat)
  | return_
deriving DecidableEq, Repr, Inhabited

namespace Instruction

def text : Instruction → String
  | push segment index => s!"push {segment.text} {index}"
  | pop segment index => s!"pop {segment.text} {index}"
  | compute command => command.text
  | label name => s!"label {name}"
  | goto target => s!"goto {target}"
  | ifGoto target => s!"if-goto {target}"
  | call name arguments => s!"call {name} {arguments}"
  | function name locals => s!"function {name} {locals}"
  | return_ => "return"

def line (i : Instruction) : String :=
  i.text ++ "\n"

def pushConstant (value : Nat) : Instruction :=
  push .constant value

def pushVariable (v : Variable) : Instruction :=
  push (.ofKind v.kind) v.index

def popVariable (v : Variable) : Instruction :=
  pop (.ofKind v.kind) v.index

/-- Applies an infix operator to the two values on top. Multiplication and division are library
routines. -/
def ofBinaryOp : BinaryOp → Instruction
  | .add => compute .add
  | .sub => compute .sub
  | .mul => call "Math.multiply" 2
  | .div => call "Math.divide" 2
  | .and => compute .and
  | .or => compute .or
  | .lt => compute .lt
  | .gt => compute .gt
  | .eq => compute .eq

def ofUnaryOp : UnaryOp → Instruction
  | .neg => compute .neg
  | .not => compute .not

/-- Builds a string object, one character after the other. -/
def ofString (text : String) : List Instruction :=
  pushConstant text.length :: call "String.new" 1 ::
    text.toList.flatMap fun c => [pushConstant c.toNat, call "String.appendChar" 2]

end Instruction

end JackToVm.Vm
