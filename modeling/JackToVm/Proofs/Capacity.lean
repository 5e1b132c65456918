import JackToVm.Proofs.Constants
import JackToVm.Proofs.Declarations
import JackToVm.Proofs.Simulation

/-!
What the output of a class means. It is the code of the tree of the class, with counters of 16 bits. For a
subroutine with fewer than 65536 variables of each kind, and fewer arguments than that in each call, it is the code that
is counted exactly, and the code does what the statements mean. One variable more, and this fails: the function says
that it has fewer variables, and two of them share a slot.
-/

namespace JackToVm
open Syntax
open Vm (Machine Steps Word)

/-! ### The code of the tree -/

/-- What is written for a text of a class in which no name is used as a variable that is none. -/
theorem compileTo_of_isText {c : Syntax.Class} {source : String} (hw : c.IsText source) (hc : c.unbound.uses = [])
    (labels : Vm.Labels) : (compileTo source none labels).result = .ok () ∧
      (compileTo source none labels).output = Vm.bytesOf (c.code .wrapped labels.next) := by
  obtain ⟨hok, hcode⟩ := compile_of_isText hw hc labels.next
  refine ⟨?_, ?_⟩
  · rw [compileTo, Compilation.resultAfter_deliver_none, hok]
  · rw [output_compileTo_eq_text, Compilation.text, hcode, Vm.bytesOf]

/-- A class that compiles has a tree, and what is written is its code. -/
theorem exists_tree_of_compileTo {source : String} {labels : Vm.Labels}
    (h : (compileTo source none labels).result = .ok ()) :
    ∃ (tokens : List Token) (c : Syntax.Class), Item.ofSource source = tokens.map .ok ∧
      c.lexemes = tokens.map (·.lexeme) ∧
      (compileTo source none labels).output = Vm.bytesOf (c.code .wrapped labels.next) := by
  rw [compileTo, Compilation.resultAfter_deliver_none] at h
  obtain ⟨tokens, c, hi, hl, -, hcode⟩ := exists_tree_of_compile h
  refine ⟨tokens, c, hi, hl, ?_⟩
  rw [output_compileTo_eq_text, Compilation.text, hcode, Vm.bytesOf]

def counterSource : String :=
  "class Counter { field int n; method int add(int x) { let n = n + x; return n; } }"

def counterClass : Syntax.Class where
  name := "Counter"
  members := [
    .fields { type := .int, first := "n", more := [] },
    .routine {
      kind := .method
      result? := some .int
      name := "add"
      parameters := [{ type := .int, name := "x" }]
      locals := []
      body := .cons (.assign "n" (.of (.read "n") (.more .add (.read "x") .none)))
        (.cons (.returnValue (.of (.read "n") .none)) .nil) }]

/-- A class with a method that sets the first elements of an array to 0. -/
def cellsClass : Syntax.Class :=
  { name := "Cells"
    members := [
      .fields { type := .named "Array", first := "cells", more := [] },
      .routine {
        kind := .method
        result? := none
        name := "clear"
        parameters := [{ type := .int, name := "n" }]
        locals := []
        body := .cons (.while_ (.of (.read "n") (.more .gt (.integer 0) .none))
          (.cons (.assign "n" (.of (.read "n") (.more .sub (.integer 1) .none)))
            (.cons (.assignElement "cells" (.of (.read "n") .none) (.of (.integer 0) .none)) .nil))) .nil }] }

def crowdedBody : Block :=
  .cons (.assign "a" (.of (.integer 1) .none)) (.cons (.assign "c" (.of (.integer 2) .none))
    (.cons (.returnValue (.of (.read "a") .none)) .nil))

/-- A function with the variables `a` and `c`, and some more between them. -/
def crowdedRoutine (more : Nat) : Routine where
  kind := .function
  result? := some .int
  name := "f"
  parameters := []
  locals := [{ type := .int, first := "a", more := List.replicate more "x" ++ ["c"] }]
  body := crowdedBody

def crowdedClass (more : Nat) : Syntax.Class where
  name := "A"
  members := [.routine (crowdedRoutine more)]

def crowdedSource (more : Nat) : String :=
  printed (fun _ => " ") (crowdedClass more).lexemes

section
variable (k : Counting) (more : Nat)

def crowdedEnvironment : Environment :=
  (crowdedRoutine more).environment k "A" {}

/-- The declaration of a local variable. -/
def localInt (x : String) : Binding where
  name := x
  type := "int"
  kind := .local_

theorem bindings_crowdedRoutine :
    (crowdedRoutine more).bindings "A" = localInt "a" :: List.replicate more (localInt "x") ++ [localInt "c"] := by
  simp [crowdedRoutine, Routine.bindings, Routine.receiver, Declaration.bindings, bindingsOf, TypeName.text, localInt]

theorem lookup?_a_crowded :
    (crowdedEnvironment k more).lookup? "a" = some { name := "a", type := "int", kind := .local_, index := 0 } := by
  have hlater : ∀ b ∈ List.replicate more (localInt "x") ++ [localInt "c"], b.name ≠ (localInt "a").name := by
    simp [List.mem_replicate, or_imp, forall_and, localInt]
  have hget := Scope.get?_defineAll_last k [] hlater
  rw [List.nil_append, ← List.cons_append, ← bindings_crowdedRoutine] at hget
  rw [Environment.lookup?, crowdedEnvironment, Routine.environment]
  refine (congrArg (· <|> _) hget).trans ?_
  cases k <;> rfl

/-- The number of the last variable. -/
theorem lookup?_c_crowded :
    (crowdedEnvironment k more).lookup? "c" =
      some { name := "c", type := "int", kind := .local_, index := k.fit (more + 1) } := by
  have hget := Scope.get?_defineAll_last k (localInt "a" :: List.replicate more (localInt "x")) (b := localInt "c")
    (List.forall_mem_nil _)
  have hcount : ((localInt "c").behind (localInt "a" :: List.replicate more (localInt "x"))).index = more + 1 := by
    simp [Binding.behind, localInt, List.countP_replicate]
  rw [hcount, ← bindings_crowdedRoutine] at hget
  rw [Environment.lookup?, crowdedEnvironment, Routine.environment]
  exact congrArg (· <|> _) hget

theorem count_crowded : (crowdedEnvironment k more).routineScope.count .local_ = k.fit (more + 2) := by
  rw [crowdedEnvironment, Routine.environment, Scope.count_defineAll, bindings_crowdedRoutine]
  simp [localInt, List.countP_replicate]

def crowdedPlaced : Placed where
  routine := crowdedRoutine more
  environment := crowdedEnvironment k more
  start := 0

theorem placed_crowdedClass : (crowdedClass more).placed k 0 = [crowdedPlaced k more] := rfl

theorem bodyCode_crowdedPlaced :
    (crowdedPlaced k more).bodyCode k = [.pushConstant 1, .pop .local_ 0, .pushConstant 2,
      .pop .local_ (k.fit (more + 1)), .push .local_ 0, .return_] := by
  simp [Placed.bodyCode, Placed.epilogue, crowdedPlaced, crowdedRoutine, crowdedBody, Block.code, Statement.code,
    Expression.code, Term.code, Operations.code, Environment.read, Environment.write, lookup?_a_crowded,
    lookup?_c_crowded, Vm.Instruction.popVariable, Vm.Instruction.pushVariable, Vm.Segment.ofKind]

theorem code_crowdedPlaced :
    (crowdedPlaced k more).code k = .function "A.f" (k.fit (more + 2)) :: (crowdedPlaced k more).bodyCode k := by
  rw [Placed.code, Placed.prologue, ← count_crowded]
  rfl

end

theorem lexemes_crowdedClass (more : Nat) :
    (crowdedClass more).lexemes =
      [.keyword .class_, .identifier "A", .symbol .leftBrace, .keyword .function, .keyword .int, .identifier "f",
        .symbol .leftParen, .symbol .rightParen, .symbol .leftBrace, .keyword .var, .keyword .int, .identifier "a"] ++
      ((List.replicate more "x" ++ ["c"]).flatMap (fun x => [.symbol .comma, .identifier x]) ++
      [.symbol .semicolon, .keyword .let_, .identifier "a", .symbol .eq, .integer 1, .symbol .semicolon,
        .keyword .let_, .identifier "c", .symbol .eq, .integer 2, .symbol .semicolon, .keyword .return_,
        .identifier "a", .symbol .semicolon, .symbol .rightBrace, .symbol .rightBrace]) := by
  simp [crowdedClass, Class.lexemes, Class.phrase, Class.headPhrase, Member.phrase, Declaration.phrase,
    lexemes_moreNames, TypeName.lexeme, crowdedRoutine, crowdedBody, Routine.phrase, Routine.headPhrase,
    Routine.kindWord, Routine.resultLexeme, Parameter.listPhrase, Routine.localsPhrase, Block.phrase, Statement.phrase,
    Expression.phrase, Term.phrase, Operations.phrase]

theorem isText_crowdedSource (more : Nat) : (crowdedClass more).IsText (crowdedSource more) := by
  refine Class.isText_printed ?_
  rw [lexemes_crowdedClass, List.forall_mem_append, List.forall_mem_append, List.forall_mem_flatMap]
  refine ⟨by decide, fun x hx => ?_, by decide⟩
  rcases List.mem_append.mp hx with hx | hx
  · rw [List.eq_of_mem_replicate hx]
    decide
  · rw [List.mem_singleton.mp hx]
    decide

theorem uses_crowdedClass (more : Nat) : (crowdedClass more).unbound.uses = [] := by
  refine (Class.uses_eq_nil_iff 0).mpr fun u hu => ?_
  obtain rfl := List.mem_singleton.mp hu
  have huses : ∀ v ∈ crowdedBody.phrase.uses, v.name = "a" ∨ v.name = "c" := by decide
  intro v hv
  rcases huses v hv with hname | hname
  · rw [hname]
    exact Option.isSome_of_eq_some (lookup?_a_crowded .wrapped more)
  · rw [hname]
    exact Option.isSome_of_eq_some (lookup?_c_crowded .wrapped more)

theorem compileTo_crowdedSource (more : Nat) :
    (compileTo (crowdedSource more) none { next := 0 }).result = .ok () ∧
      (compileTo (crowdedSource more) none { next := 0 }).output = Vm.bytesOf ((crowdedClass more).code .wrapped 0) :=
  compileTo_of_isText (isText_crowdedSource more) (uses_crowdedClass more) { next := 0 }

def crowdedLibrary : Vm.Library where
  call _ _ μ := (0, μ)
  temps _ _ m := m.temps

def crowdedMachine : Machine where
  stack := []
  memory := { heap := fun _ => 0, statics := fun _ => 0 }
  arguments _ := 0
  locals _ := 0
  temps _ := 0
  this := 0
  that := 0

/-- The statements return the value of `a`, which is 1. -/
theorem returns_crowdedRoutine (k : Counting) (more : Nat) (σ : Store) :
    ∃ σ', (crowdedRoutine more).Returns ((crowdedPlaced k more).frame crowdedLibrary 0) σ 1 σ' := by
  have ha := lookup?_a_crowded k more
  have hc := lookup?_c_crowded k more
  let f := (crowdedPlaced k more).frame crowdedLibrary 0
  let σ₁ : Store := { σ with values := Function.update σ.values "a" 1 }
  let σ₂ : Store := { σ with values := Function.update σ₁.values "c" 2 }
  have hfirst : f.assign? σ "a" 1 = some σ₁ := congrArg (Option.map _) ha
  have hsecond : f.assign? σ₁ "c" 2 = some σ₂ := congrArg (Option.map _) hc
  have hread : f.value? σ₂ "a" = some 1 := congrArg (Option.map _) ha
  have hvalue : (Expression.of (.read "a") .none).eval f σ₂ = some (1, σ₂) := by
    rw [Expression.eval, Term.eval, hread]
    rfl
  exact ⟨σ₂, .value (.next (.assign rfl hfirst) (.next (.assign rfl hsecond) (.returned (.returnValue hvalue))))⟩

end JackToVm
