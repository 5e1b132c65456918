import Mathlib.Logic.Function.Basic
import Mathlib.Logic.Relation
import JackToVm.Vm.Instruction

/-!
The stack machine that runs the code of one subroutine. What is left of the code stands in the
configuration; a jump takes it back to the place of its label in the code of the subroutine. A call of
another subroutine is one step: a `Library` says what it returns and what it does to the memory.
-/

namespace JackToVm.Vm

abbrev Word := BitVec 16

/-- The word of a truth value: all bits are set, or none is. -/
def truth (b : Bool) : Word :=
  if b then -1 else 0

/-! ### Machines -/

/-- What all subroutines share. -/
structure Memory where
  heap : Word → Word
  statics : Nat → Word

namespace Memory

def setHeap (μ : Memory) (address w : Word) : Memory :=
  { μ with heap := Function.update μ.heap address w }

def setStatic (μ : Memory) (i : Nat) (w : Word) : Memory :=
  { μ with statics := Function.update μ.statics i w }

end Memory

/-- A machine inside a subroutine. The two words of the segment `pointer` are `this` and `that`. -/
structure Machine where
  stack : List Word
  memory : Memory
  arguments : Nat → Word
  locals : Nat → Word
  temps : Nat → Word
  this : Word
  that : Word

/-- What the subroutines do that are called: the word that one returns, the memory that it leaves, and what
it leaves in the segment `temp` of its caller. -/
structure Library where
  call : String → List Word → Memory → Word × Memory
  temps : String → List Word → Machine → Nat → Word

namespace Machine

def load? (m : Machine) : Segment → Nat → Option Word
  | .constant, i => some (.ofNat 16 i)
  | .argument, i => some (m.arguments i)
  | .local_, i => some (m.locals i)
  | .static, i => some (m.memory.statics i)
  | .this, i => some (m.memory.heap (m.this + .ofNat 16 i))
  | .that, i => some (m.memory.heap (m.that + .ofNat 16 i))
  | .pointer, 0 => some m.this
  | .pointer, 1 => some m.that
  | .pointer, _ => none
  | .temp, i => some (m.temps i)

/-- Puts a word into a place of a segment. -/
def store? (m : Machine) (w : Word) : Segment → Nat → Option Machine
  | .constant, _ => none
  | .argument, i => some { m with arguments := Function.update m.arguments i w }
  | .local_, i => some { m with locals := Function.update m.locals i w }
  | .static, i => some { m with memory := m.memory.setStatic i w }
  | .this, i => some { m with memory := m.memory.setHeap (m.this + .ofNat 16 i) w }
  | .that, i => some { m with memory := m.memory.setHeap (m.that + .ofNat 16 i) w }
  | .pointer, 0 => some { m with this := w }
  | .pointer, 1 => some { m with that := w }
  | .pointer, _ => none
  | .temp, i => some { m with temps := Function.update m.temps i w }

/-- The machine after a call whose arguments were on top of `stack`. -/
def called (m : Machine) (lib : Library) (name : String) (arguments stack : List Word) : Machine :=
  { m with
    stack := (lib.call name arguments m.memory).1 :: stack
    memory := (lib.call name arguments m.memory).2
    temps := lib.temps name arguments m }

end Machine

def Command.run? : Command → List Word → Option (List Word)
  | .add, y :: x :: stack => some ((x + y) :: stack)
  | .sub, y :: x :: stack => some ((x - y) :: stack)
  | .neg, x :: stack => some ((-x) :: stack)
  | .eq, y :: x :: stack => some (truth (x == y) :: stack)
  | .gt, y :: x :: stack => some (truth (y.slt x) :: stack)
  | .lt, y :: x :: stack => some (truth (x.slt y) :: stack)
  | .and, y :: x :: stack => some ((x &&& y) :: stack)
  | .or, y :: x :: stack => some ((x ||| y) :: stack)
  | .not, x :: stack => some ((~~~x) :: stack)
  | _, _ => none

/-! ### Steps -/

/-- A machine, and the code that it has still to run. -/
structure Config where
  next : List Instruction
  machine : Machine

/-- The code from a label on. -/
def seek? (target : String) : List Instruction → Option (List Instruction)
  | [] => none
  | i :: rest => if i = .label target then some (i :: rest) else seek? target rest

/-- One step in a subroutine whose code is `code`. There is none behind the last instruction, none that
leaves the subroutine, and none from a machine that lacks an operand. -/
def step (lib : Library) (code : List Instruction) : Config → Option Config
  | ⟨.push segment i :: rest, m⟩ =>
    (m.load? segment i).map fun w => ⟨rest, { m with stack := w :: m.stack }⟩
  | ⟨.pop segment i :: rest, m⟩ =>
    match m.stack with
    | w :: stack => ({ m with stack }.store? w segment i).map fun m' => ⟨rest, m'⟩
    | [] => none
  | ⟨.compute command :: rest, m⟩ =>
    (command.run? m.stack).map fun stack => ⟨rest, { m with stack }⟩
  | ⟨.label _ :: rest, m⟩ => some ⟨rest, m⟩
  | ⟨.goto target :: _, m⟩ => (seek? target code).map fun next => ⟨next, m⟩
  | ⟨.ifGoto target :: rest, m⟩ =>
    match m.stack with
    | w :: stack =>
      if w = 0 then some ⟨rest, { m with stack }⟩
      else (seek? target code).map fun next => ⟨next, { m with stack }⟩
    | [] => none
  | ⟨.call name n :: rest, m⟩ =>
    if n ≤ m.stack.length then
      some ⟨rest, m.called lib name (m.stack.take n).reverse (m.stack.drop n)⟩
    else none
  | ⟨.function _ _ :: _, _⟩ => none
  | ⟨.return_ :: _, _⟩ => none
  | ⟨[], _⟩ => none

def Steps (lib : Library) (code : List Instruction) : Config → Config → Prop :=
  Relation.ReflTransGen fun a b => step lib code a = some b

namespace Steps
variable {lib : Library} {code : List Instruction} {a b c : Config}

theorem refl (a : Config) : Steps lib code a a :=
  Relation.ReflTransGen.refl

theorem one (h : step lib code a = some b) : Steps lib code a b :=
  .single h

theorem trans (h : Steps lib code a b) (h' : Steps lib code b c) : Steps lib code a c :=
  Relation.ReflTransGen.trans h h'

theorem cons (h : step lib code a = some b) (h' : Steps lib code b c) : Steps lib code a c :=
  .head h h'

theorem eq_of_stuck (h : Steps lib code a b) (ha : step lib code a = none) : b = a := by
  rcases h.cases_head with rfl | ⟨next, hnext, -⟩
  · rfl
  · cases ha.symm.trans hnext

/-- A run comes to one end. -/
theorem unique (hb : Steps lib code a b) (hc : Steps lib code a c) (hbEnd : step lib code b = none)
    (hcEnd : step lib code c = none) : b = c := by
  have hstep : Relator.RightUnique fun a b => step lib code a = some b := fun _ _ _ h h' =>
    Option.some.inj (h.symm.trans h')
  rcases Relation.ReflTransGen.total_of_right_unique hstep hb hc with h | h
  · exact (eq_of_stuck h hbEnd).symm
  · exact eq_of_stuck h hcEnd

end Steps

/-! ### Labels of code -/

def Instruction.label? : Instruction → Option String
  | .label name => some name
  | _ => none

def labelsOf (code : List Instruction) : List String :=
  code.filterMap Instruction.label?

@[simp] theorem labelsOf_nil : labelsOf [] = [] := rfl

@[simp] theorem labelsOf_append (a b : List Instruction) : labelsOf (a ++ b) = labelsOf a ++ labelsOf b :=
  List.filterMap_append ..

theorem labelsOf_cons (i : Instruction) (rest : List Instruction) :
    labelsOf (i :: rest) = i.label?.toList ++ labelsOf rest := by
  cases h : i.label? <;> simp [labelsOf, h]

/-- A jump arrives where its label stands, when no other label of the code has the same name. -/
theorem seek?_of_nodup {before after : List Instruction} {target : String}
    (h : (labelsOf (before ++ .label target :: after)).Nodup) :
    seek? target (before ++ .label target :: after) = some (.label target :: after) := by
  induction before with
  | nil => simp [seek?]
  | cons i before ih =>
    rw [List.cons_append, labelsOf_cons] at h
    have hi : i ≠ .label target := by
      rintro rfl
      simp [Instruction.label?, labelsOf_cons] at h
    rw [List.cons_append, seek?, if_neg hi]
    exact ih (List.nodup_append.mp h).2.1

end JackToVm.Vm
