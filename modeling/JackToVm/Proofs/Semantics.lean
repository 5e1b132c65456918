import JackToVm.Proofs.Codegen
import JackToVm.Proofs.Machine

/-!
What the statements of a subroutine mean, without any code. Variables of the subroutine have names here and
no slots. A field is a word of the heap at its number behind the receiver, and an array element is a word of
the heap at its index behind the array. A subroutine that is called does what a library says.
-/

namespace JackToVm.Syntax
open Vm (Word Memory Library truth)

/-! ### States -/

/-- What does not change while a subroutine runs: its names, what it calls and its receiver. -/
structure Frame where
  environment : Environment
  library : Library
  this : Word

/-- The variables of a subroutine, and what all subroutines share. -/
structure Store where
  values : String → Word
  memory : Memory

namespace Frame

def value? (f : Frame) (σ : Store) (x : String) : Option Word :=
  (f.environment.lookup? x).map fun v =>
    match v.kind with
    | .static => σ.memory.statics v.index
    | .field => σ.memory.heap (f.this + .ofNat 16 v.index)
    | .argument | .local_ => σ.values x

/-- The store with a new value of a variable. -/
def assign? (f : Frame) (σ : Store) (x : String) (w : Word) : Option Store :=
  (f.environment.lookup? x).map fun v =>
    match v.kind with
    | .static => { σ with memory := σ.memory.setStatic v.index w }
    | .field => { σ with memory := σ.memory.setHeap (f.this + .ofNat 16 v.index) w }
    | .argument | .local_ => { σ with values := Function.update σ.values x w }

/-- A call. It does not touch the variables of its caller. -/
def call (f : Frame) (name : String) (arguments : List Word) (σ : Store) : Word × Store :=
  let (w, memory) := f.library.call name arguments σ.memory
  (w, { σ with memory })

/-- A string object. The routine that adds a character gives the object back. -/
def string (f : Frame) (text : String) (σ : Store) : Word × Store :=
  text.toList.foldl (fun (s, σ) c => f.call "String.appendChar" [s, .ofNat 16 c.toNat] σ)
    (f.call "String.new" [.ofNat 16 text.length] σ)

def binary (f : Frame) (op : BinaryOp) (x y : Word) (σ : Store) : Word × Store :=
  match op with
  | .add => (x + y, σ)
  | .sub => (x - y, σ)
  | .mul => f.call "Math.multiply" [x, y] σ
  | .div => f.call "Math.divide" [x, y] σ
  | .and => (x &&& y, σ)
  | .or => (x ||| y, σ)
  | .lt => (truth (x.slt y), σ)
  | .gt => (truth (y.slt x), σ)
  | .eq => (truth (x == y), σ)

def unary (op : UnaryOp) (x : Word) : Word :=
  match op with
  | .neg => -x
  | .not => ~~~x

def constant (f : Frame) : Constant → Word
  | .true_ => -1
  | .false_ => 0
  | .null => 0
  | .this => f.this

end Frame

/-! ### Expressions -/

mutual

/-- The value of a term, and the store behind it. A name that is no variable has none. -/
def Term.eval (f : Frame) : Term → Store → Option (Word × Store)
  | .integer value, σ => some (.ofNat 16 value, σ)
  | .string text, σ => some (f.string text σ)
  | .constant value, σ => some (f.constant value, σ)
  | .read x, σ => do
    let w ← f.value? σ x
    some (w, σ)
  | .element x index, σ => do
    let base ← f.value? σ x
    let (i, σ) ← index.eval f σ
    some (σ.memory.heap (base + i), σ)
  | .call g arguments, σ => do
    let (ws, σ) ← arguments.eval f σ
    some (f.call s!"{f.environment.className}.{g}" (f.this :: ws) σ)
  | .callOn owner g arguments, σ =>
    match f.environment.lookup? owner with
    | some v => do
      let receiver ← f.value? σ owner
      let (ws, σ) ← arguments.eval f σ
      some (f.call s!"{v.type}.{g}" (receiver :: ws) σ)
    | none => do
      let (ws, σ) ← arguments.eval f σ
      some (f.call s!"{owner}.{g}" ws σ)
  | .group inside, σ => inside.eval f σ
  | .unary op operand, σ => do
    let (w, σ) ← operand.eval f σ
    some (Frame.unary op w, σ)

def Expression.eval (f : Frame) : Expression → Store → Option (Word × Store)
  | .of first rest, σ => do
    let (w, σ) ← first.eval f σ
    rest.eval f w σ

/-- Operators from left to right, the first one with `x` in front of it. -/
def Operations.eval (f : Frame) : Operations → Word → Store → Option (Word × Store)
  | .none, x, σ => some (x, σ)
  | .more op operand rest, x, σ => do
    let (y, σ) ← operand.eval f σ
    let (w, σ) := f.binary op x y σ
    rest.eval f w σ

def Arguments.eval (f : Frame) : Arguments → Store → Option (List Word × Store)
  | .none, σ => some ([], σ)
  | .more first rest, σ => do
    let (w, σ) ← first.eval f σ
    let (ws, σ) ← rest.eval f σ
    some (w :: ws, σ)

end

/-! ### Statements -/

/-- How statements end: behind the last one, or in a `return`. -/
inductive Outcome where
  | normal
  | returned (w : Word)
deriving DecidableEq, Repr

mutual

/-- A run of a statement. A condition holds when its value is -1, and only then. -/
inductive Statement.Runs (f : Frame) : Statement → Store → Outcome → Store → Prop
  | assign {x value w σ σ₁ σ₂} : value.eval f σ = some (w, σ₁) → f.assign? σ₁ x w = some σ₂ →
      Statement.Runs f (.assign x value) σ .normal σ₂
  | assignElement {x index value base i w σ σ₁ σ₂} : f.value? σ x = some base →
      index.eval f σ = some (i, σ₁) → value.eval f σ₁ = some (w, σ₂) →
      Statement.Runs f (.assignElement x index value) σ .normal
        { σ₂ with memory := σ₂.memory.setHeap (base + i) w }
  | ifTrue {condition body σ σ₁ o σ₂} : condition.eval f σ = some (-1, σ₁) → Block.Runs f body σ₁ o σ₂ →
      Statement.Runs f (.if_ condition body) σ o σ₂
  | ifFalse {condition body w σ σ₁} : condition.eval f σ = some (w, σ₁) → w ≠ -1 →
      Statement.Runs f (.if_ condition body) σ .normal σ₁
  | ifElseTrue {condition body alternative σ σ₁ o σ₂} : condition.eval f σ = some (-1, σ₁) →
      Block.Runs f body σ₁ o σ₂ → Statement.Runs f (.ifElse condition body alternative) σ o σ₂
  | ifElseFalse {condition body alternative w σ σ₁ o σ₂} : condition.eval f σ = some (w, σ₁) → w ≠ -1 →
      Block.Runs f alternative σ₁ o σ₂ → Statement.Runs f (.ifElse condition body alternative) σ o σ₂
  | whileDone {condition body w σ σ₁} : condition.eval f σ = some (w, σ₁) → w ≠ -1 →
      Statement.Runs f (.while_ condition body) σ .normal σ₁
  | whileReturned {condition body w σ σ₁ σ₂} : condition.eval f σ = some (-1, σ₁) →
      Block.Runs f body σ₁ (.returned w) σ₂ →
      Statement.Runs f (.while_ condition body) σ (.returned w) σ₂
  | whileAgain {condition body σ σ₁ σ₂ o σ₃} : condition.eval f σ = some (-1, σ₁) →
      Block.Runs f body σ₁ .normal σ₂ → Statement.Runs f (.while_ condition body) σ₂ o σ₃ →
      Statement.Runs f (.while_ condition body) σ o σ₃
  | do_ {term w σ σ₁} : term.eval f σ = some (w, σ₁) → Statement.Runs f (.do_ term) σ .normal σ₁
  | return_ {σ} : Statement.Runs f .return_ σ (.returned 0) σ
  | returnValue {value w σ σ₁} : value.eval f σ = some (w, σ₁) →
      Statement.Runs f (.returnValue value) σ (.returned w) σ₁

inductive Block.Runs (f : Frame) : Block → Store → Outcome → Store → Prop
  | nil {σ} : Block.Runs f .nil σ .normal σ
  | next {first rest σ σ₁ o σ₂} : Statement.Runs f first σ .normal σ₁ → Block.Runs f rest σ₁ o σ₂ →
      Block.Runs f (.cons first rest) σ o σ₂
  | returned {first rest w σ σ₁} : Statement.Runs f first σ (.returned w) σ₁ →
      Block.Runs f (.cons first rest) σ (.returned w) σ₁

end

/-- A subroutine that runs for a receiver, over a library. -/
def Placed.frame (u : Placed) (library : Library) (this : Word) : Frame :=
  { environment := u.environment, library, this }

/-- A run of the body of a subroutine to its end. One without a result may come to its last brace, and then
returns 0. -/
inductive Routine.Returns (r : Routine) (f : Frame) (σ : Store) : Word → Store → Prop
  | value {w σ'} : r.body.Runs f σ (.returned w) σ' → r.Returns f σ w σ'
  | void {σ'} : r.result? = none → r.body.Runs f σ .normal σ' → r.Returns f σ 0 σ'

theorem Statement.Runs.isReturn_eq_false {f : Frame} {s : Statement} {σ σ' : Store}
    (h : s.Runs f σ .normal σ') : s.isReturn = false := by
  cases h <;> rfl

/-- Statements that end in a `return` do not come to their end. -/
theorem Block.Runs.endsInReturn_eq_false {f : Frame} {σ' : Store} : ∀ {b : Block} {σ : Store},
    b.Runs f σ .normal σ' → b.endsInReturn false = false
  | .nil, _, _ => rfl
  | .cons first rest, _, .next hf hr => by
    rw [Block.endsInReturn, hf.isReturn_eq_false]
    exact hr.endsInReturn_eq_false

end JackToVm.Syntax
