import JackToVm.Pass.Event
import JackToVm.Proofs.Syntax

/-!
Code of a class by recursion over its tree. A subroutine is compiled in an environment that is complete
before any of its code is known: its receiver, its parameters and all its local variables, over the class
variables declared in front of it. Labels are numbered in the order of the source, and a branch or a loop
takes its two numbers before the statements in it. A name that is not a variable has no code here; a class
that compiles has no such name in the place of a variable. Variables and arguments are counted exactly, or
in counters of 16 bits that start again at 0.
-/

namespace JackToVm

/-! ### Environments -/

/-- What a name is declared as. -/
structure Binding where
  name : String
  type : String
  kind : Kind
deriving DecidableEq, Repr

/-- How variables and arguments are counted: in counters of 16 bits or exactly. -/
inductive Counting where
  | wrapped
  | exact
deriving DecidableEq, Repr

namespace Counting

/-- What a counter shows behind so many. -/
def fit : Counting → Nat → Nat
  | wrapped, n => n % 65536
  | exact, n => n

theorem fit_of_lt (k : Counting) {n : Nat} (h : n < 65536) : k.fit n = n := by
  cases k with
  | wrapped => exact Nat.mod_eq_of_lt h
  | exact => rfl

theorem fit_le (k : Counting) (n : Nat) : k.fit n ≤ n := by
  cases k with
  | wrapped => exact Nat.mod_le n 65536
  | exact => exact Nat.le_refl n

/-- A counter that has wrapped goes on as one that has not. -/
@[simp] theorem fit_add_mod (m n : Nat) : wrapped.fit (m + n % 65536) = wrapped.fit (m + n) := by
  simp only [fit]
  omega

@[simp] theorem fit_toNat (count : UInt16) : wrapped.fit count.toNat = count.toNat :=
  Nat.mod_eq_of_lt count.toNat_lt

end Counting

namespace Scope

/-- Declares a variable under the next number of its kind. -/
def enter (k : Counting) (s : Scope) (b : Binding) : Scope :=
  s.record { name := b.name, type := b.type, kind := b.kind, index := s.count b.kind } (k.fit (s.count b.kind + 1))

theorem enter_wrapped (s : Scope) (b : Binding) : s.enter .wrapped b = s.define b.name b.type b.kind := rfl

/-- Declares the variables of a list, one after the other. -/
def defineAll (k : Counting) (s : Scope) (bindings : List Binding) : Scope :=
  bindings.foldl (enter k) s

section
variable {k : Counting}

@[simp] theorem defineAll_nil (s : Scope) : s.defineAll k [] = s := rfl

@[simp] theorem defineAll_cons (s : Scope) (b : Binding) (bs : List Binding) :
    s.defineAll k (b :: bs) = (s.enter k b).defineAll k bs := rfl

@[simp] theorem defineAll_append (s : Scope) (as bs : List Binding) :
    s.defineAll k (as ++ bs) = (s.defineAll k as).defineAll k bs := by
  simp [defineAll]

end

end Scope

/-- The name of the class, its variables and those of a subroutine. -/
structure Environment where
  className : String
  classScope : Scope
  routineScope : Scope
deriving DecidableEq, Repr

namespace Environment

/-- The variable of a name. Those of the subroutine hide those of the class. -/
def lookup? (env : Environment) (x : String) : Option Variable :=
  env.routineScope.get? x <|> env.classScope.get? x

def read (env : Environment) (x : String) : List Vm.Instruction :=
  (env.lookup? x).toList.map .pushVariable

def write (env : Environment) (x : String) : List Vm.Instruction :=
  (env.lookup? x).toList.map .popVariable

theorem read_of_lookup? {env : Environment} {x : String} {v : Variable} (h : env.lookup? x = some v) :
    env.read x = [.pushVariable v] := by
  simp [read, h]

theorem write_of_lookup? {env : Environment} {x : String} {v : Variable} (h : env.lookup? x = some v) :
    env.write x = [.popVariable v] := by
  simp [write, h]

end Environment

namespace Syntax
open Vm (Instruction)
open Vm.Labels (ifName whileName)

/-! ### Expressions -/

def Constant.code : Constant → List Instruction
  | .true_ => [.pushConstant 1, .compute .neg]
  | .false_ => [.pushConstant 0]
  | .null => [.pushConstant 0]
  | .this => [.push .pointer 0]

mutual

def Term.code (k : Counting) (env : Environment) : Term → List Instruction
  | .integer value => [.pushConstant value]
  | .string text => Instruction.ofString text
  | .constant value => value.code
  | .read x => env.read x
  | .element x index => env.read x ++ index.code k env ++ [.compute .add, .pop .pointer 1, .push .that 0]
  | .call f arguments =>
    .push .pointer 0 :: arguments.code k env ++ [.call s!"{env.className}.{f}" (k.fit (arguments.count + 1))]
  | .callOn owner f arguments =>
    match env.lookup? owner with
    | some v => .pushVariable v :: arguments.code k env ++ [.call s!"{v.type}.{f}" (k.fit (arguments.count + 1))]
    | none => arguments.code k env ++ [.call s!"{owner}.{f}" (k.fit arguments.count)]
  | .group inside => inside.code k env
  | .unary op operand => operand.code k env ++ [.ofUnaryOp op]

def Expression.code (k : Counting) (env : Environment) : Expression → List Instruction
  | .of first rest => first.code k env ++ rest.code k env

/-- Operators are applied from left to right, each as soon as its second operand is there. -/
def Operations.code (k : Counting) (env : Environment) : Operations → List Instruction
  | .none => []
  | .more op operand rest => operand.code k env ++ .ofBinaryOp op :: rest.code k env

def Arguments.code (k : Counting) (env : Environment) : Arguments → List Instruction
  | .none => []
  | .more first rest => first.code k env ++ rest.code k env

end

/-! ### Statements -/

mutual

/-- How many label numbers a statement takes. -/
def Statement.draws : Statement → Nat
  | .if_ _ body => body.draws + 2
  | .ifElse _ body alternative => body.draws + alternative.draws + 2
  | .while_ _ body => body.draws + 2
  | _ => 0

def Block.draws : Block → Nat
  | .nil => 0
  | .cons first rest => first.draws + rest.draws

end

/-- A jump that is taken when a condition does not hold. -/
def Expression.jumpUnless (k : Counting) (env : Environment) (condition : Expression) (target : String) :
    List Instruction :=
  condition.code k env ++ [.compute .not, .ifGoto target]

mutual

/-- The code of a statement whose first label number is `n`. -/
def Statement.code (k : Counting) (env : Environment) : Statement → Nat → List Instruction
  | .assign x value, _ => value.code k env ++ env.write x
  | .assignElement x index value, _ =>
    env.read x ++ index.code k env ++ .compute .add :: value.code k env ++
      [.pop .temp 0, .pop .pointer 1, .push .temp 0, .pop .that 0]
  | .if_ condition body, n =>
    condition.jumpUnless k env (ifName n) ++ body.code k env (n + 2) ++
      [.goto (ifName (n + 1)), .label (ifName n), .label (ifName (n + 1))]
  | .ifElse condition body alternative, n =>
    condition.jumpUnless k env (ifName n) ++ body.code k env (n + 2) ++
      [.goto (ifName (n + 1)), .label (ifName n)] ++ alternative.code k env (n + 2 + body.draws) ++
      [.label (ifName (n + 1))]
  | .while_ condition body, n =>
    .label (whileName n) :: condition.jumpUnless k env (whileName (n + 1)) ++ body.code k env (n + 2) ++
      [.goto (whileName n), .label (whileName (n + 1))]
  | .do_ term, _ => term.code k env ++ [.pop .temp 0]
  | .return_, _ => [.pushConstant 0, .return_]
  | .returnValue value, _ => value.code k env ++ [.return_]

def Block.code (k : Counting) (env : Environment) : Block → Nat → List Instruction
  | .nil, _ => []
  | .cons first rest, n => first.code k env n ++ rest.code k env (n + first.draws)

end

def Statement.isReturn : Statement → Bool
  | .return_ | .returnValue _ => true
  | _ => false

/-- Tells whether the last of the statements so far is a `return`; `returned` tells it of those in front
of the block. -/
def Block.endsInReturn : Block → Bool → Bool
  | .nil, returned => returned
  | .cons first rest, _ => rest.endsInReturn first.isReturn

/-! ### Subroutines -/

/-- The bindings of names that are declared with one type. -/
def bindingsOf (type : String) (kind : Kind) (names : List String) : List Binding :=
  names.map fun x => { name := x, type, kind }

def Declaration.bindings (kind : Kind) (d : Declaration) : List Binding :=
  bindingsOf d.type.text kind (d.first :: d.more)

def Parameter.binding (p : Parameter) : Binding :=
  { name := p.name, type := p.type.text, kind := .argument }

namespace Routine

/-- The slot of the receiver: the first argument of a method, the first local variable of a constructor. -/
def receiver (className : String) : RoutineKind → List Binding
  | .method => [{ name := "this", type := className, kind := .argument }]
  | .constructor_ => [{ name := "this", type := className, kind := .local_ }]
  | .function => []

/-- All bindings of a subroutine, in the order in which they are numbered. -/
def bindings (className : String) (r : Routine) : List Binding :=
  receiver className r.kind ++ r.parameters.map Parameter.binding ++
    r.locals.flatMap (Declaration.bindings .local_)

def environment (k : Counting) (className : String) (classScope : Scope) (r : Routine) : Environment :=
  { className, classScope, routineScope := ({} : Scope).defineAll k (r.bindings className) }

end Routine

/-- A subroutine with what is known in its place: its environment and its first label number. -/
structure Placed where
  routine : Routine
  environment : Environment
  start : Nat
deriving DecidableEq, Repr

namespace Placed

/-- The header, and what makes `pointer 0` the receiver. -/
def prologue (u : Placed) : List Instruction :=
  .function s!"{u.environment.className}.{u.routine.name}" (u.environment.routineScope.count .local_) ::
    match u.routine.kind with
    | .constructor_ =>
      [.pushConstant (u.environment.classScope.count .field), .call "Memory.alloc" 1, .pop .pointer 0]
    | .method => [.push .argument 0, .pop .pointer 0]
    | .function => []

/-- What follows the statements: a subroutine that returns nothing and does not end in a `return` gets
one. -/
def epilogue (void returned : Bool) : List Instruction :=
  if void && !returned then [.pushConstant 0, .return_] else []

def bodyCode (u : Placed) (k : Counting) : List Instruction :=
  u.routine.body.code k u.environment u.start ++
    epilogue u.routine.result?.isNone (u.routine.body.endsInReturn false)

def code (u : Placed) (k : Counting) : List Instruction :=
  u.prologue ++ u.bodyCode k

end Placed

/-! ### Classes -/

namespace Member

def bindings : Member → List Binding
  | .statics d => d.bindings .static
  | .fields d => d.bindings .field
  | .routine _ => []

/-- The subroutines among members, each in its place. -/
def place (k : Counting) (className : String) : List Member → Scope → Nat → List Placed
  | [], _, _ => []
  | .routine r :: ms, scope, n =>
    { routine := r, environment := r.environment k className scope, start := n } ::
      place k className ms scope (n + r.body.draws)
  | m :: ms, scope, n => place k className ms (scope.defineAll k m.bindings) n

end Member

namespace Class

/-- The subroutines of a class, each in its place, when the label numbers start at `start`. -/
def placed (c : Class) (k : Counting) (start : Nat) : List Placed :=
  Member.place k c.name c.members {} start

def code (c : Class) (k : Counting) (start : Nat) : List Instruction :=
  (c.placed k start).flatMap (Placed.code · k)

end Class

end Syntax

end JackToVm
