import JackToVm.Proofs.Codegen

/-!
Which instructions the code of a tree is made of. The code of an expression works on the stack and goes on
behind itself. Statements add stores, labels, jumps and the `return`. Both reach a variable only in its own
slot, and neither has a header in it.
-/

namespace JackToVm

namespace Vm.Instruction

/-- An instruction that the code of an expression may have. -/
inductive OfExpression (env : Environment) : Instruction → Prop
  | constant (value : Nat) : OfExpression env (.pushConstant value)
  | read {x : String} {v : Variable} : env.lookup? x = some v → OfExpression env (.pushVariable v)
  | this : OfExpression env (.push .pointer 0)
  | select : OfExpression env (.pop .pointer 1)
  | element : OfExpression env (.push .that 0)
  | compute (command : Command) : OfExpression env (.compute command)
  | call (name : String) (arguments : Nat) : OfExpression env (.call name arguments)

/-- An instruction that the code of a statement may have. -/
inductive OfStatement (env : Environment) : Instruction → Prop
  | expression {i : Instruction} : OfExpression env i → OfStatement env i
  | write {x : String} {v : Variable} : env.lookup? x = some v → OfStatement env (.popVariable v)
  | park : OfStatement env (.pop .temp 0)
  | unpark : OfStatement env (.push .temp 0)
  | setElement : OfStatement env (.pop .that 0)
  | label (name : String) : OfStatement env (.label name)
  | goto (target : String) : OfStatement env (.goto target)
  | ifGoto (target : String) : OfStatement env (.ifGoto target)
  | return_ : OfStatement env .return_

variable (env : Environment)

theorem ofExpression_ofBinaryOp (op : BinaryOp) : (ofBinaryOp op).OfExpression env := by
  cases op with
  | mul => exact .call _ _
  | div => exact .call _ _
  | _ => exact .compute _

theorem ofExpression_ofUnaryOp (op : UnaryOp) : (ofUnaryOp op).OfExpression env := by
  cases op <;> exact .compute _

theorem ofExpression_ofString (text : String) : ∀ i ∈ ofString text, i.OfExpression env := by
  intro i hi
  simp only [ofString, List.mem_cons, List.mem_flatMap, List.not_mem_nil, or_false] at hi
  rcases hi with rfl | rfl | ⟨c, -, rfl | rfl⟩
  · exact .constant _
  · exact .call _ _
  · exact .constant _
  · exact .call _ _

end Vm.Instruction

namespace Syntax
open Vm (Instruction)

variable {k : Counting} (env : Environment)

theorem ofExpression_read (x : String) : ∀ i ∈ env.read x, i.OfExpression env := by
  intro i hi
  obtain ⟨v, hv, rfl⟩ := List.mem_map.mp hi
  exact .read (Option.mem_toList.mp hv)

theorem ofStatement_write (x : String) : ∀ i ∈ env.write x, i.OfStatement env := by
  intro i hi
  obtain ⟨v, hv, rfl⟩ := List.mem_map.mp hi
  exact .write (Option.mem_toList.mp hv)

theorem Constant.ofExpression_code (c : Constant) : ∀ i ∈ c.code, i.OfExpression env := by
  cases c with
  | true_ => simpa [Constant.code] using ⟨.constant 1, .compute .neg⟩
  | false_ => simpa [Constant.code] using .constant 0
  | null => simpa [Constant.code] using .constant 0
  | this => simpa [Constant.code] using .this

mutual

theorem Term.ofExpression_code : ∀ t : Term, ∀ i ∈ t.code k env, i.OfExpression env
  | .integer value => by
    simpa [Term.code] using .constant value
  | .string text => Instruction.ofExpression_ofString env text
  | .constant value => value.ofExpression_code env
  | .read x => ofExpression_read env x
  | .element x index => by
    have hx := ofExpression_read env x
    have hi := index.ofExpression_code
    have hs : ∀ i ∈ [Instruction.compute .add, .pop .pointer 1, .push .that 0], i.OfExpression env := by
      simpa using ⟨.compute .add, .select, .element⟩
    rw [Term.code, List.forall_mem_append, List.forall_mem_append]
    exact ⟨⟨hx, hi⟩, hs⟩
  | .call f arguments => by
    have ha := arguments.ofExpression_code
    rw [Term.code, List.cons_append, List.forall_mem_cons, List.forall_mem_append, List.forall_mem_singleton]
    exact ⟨.this, ha, .call _ _⟩
  | .callOn owner f arguments => by
    have ha := arguments.ofExpression_code
    rw [Term.code]
    cases hv : env.lookup? owner with
    | some v =>
      simp only [List.cons_append, List.forall_mem_cons, List.forall_mem_append]
      exact ⟨.read hv, ha, .call _ _, List.forall_mem_nil _⟩
    | none =>
      simp only [List.forall_mem_append, List.forall_mem_singleton]
      exact ⟨ha, .call _ _⟩
  | .group inside => inside.ofExpression_code
  | .unary op operand => by
    have ho := operand.ofExpression_code
    rw [Term.code, List.forall_mem_append, List.forall_mem_singleton]
    exact ⟨ho, Instruction.ofExpression_ofUnaryOp env op⟩

theorem Expression.ofExpression_code : ∀ e : Expression, ∀ i ∈ e.code k env, i.OfExpression env
  | .of first rest => by
    rw [Expression.code, List.forall_mem_append]
    exact ⟨first.ofExpression_code, rest.ofExpression_code⟩

theorem Operations.ofExpression_code : ∀ o : Operations, ∀ i ∈ o.code k env, i.OfExpression env
  | .none => by simp [Operations.code]
  | .more op operand rest => by
    rw [Operations.code, List.forall_mem_append, List.forall_mem_cons]
    exact ⟨operand.ofExpression_code, Instruction.ofExpression_ofBinaryOp env op, rest.ofExpression_code⟩

theorem Arguments.ofExpression_code : ∀ a : Arguments, ∀ i ∈ a.code k env, i.OfExpression env
  | .none => by simp [Arguments.code]
  | .more first rest => by
    rw [Arguments.code, List.forall_mem_append]
    exact ⟨first.ofExpression_code, rest.ofExpression_code⟩

end

theorem Expression.ofStatement_code (e : Expression) : ∀ i ∈ e.code k env, i.OfStatement env :=
  fun i hi => .expression (e.ofExpression_code env i hi)

theorem Expression.ofStatement_jumpUnless (e : Expression) (target : String) :
    ∀ i ∈ e.jumpUnless k env target, i.OfStatement env := by
  rw [jumpUnless, List.forall_mem_append, List.forall_mem_cons, List.forall_mem_singleton]
  exact ⟨e.ofStatement_code env, .expression (.compute .not), .ifGoto target⟩

mutual

theorem Statement.ofStatement_code : ∀ (s : Statement) (n : Nat), ∀ i ∈ s.code k env n, i.OfStatement env
  | .assign x value, n => by
    rw [Statement.code, List.forall_mem_append]
    exact ⟨value.ofStatement_code env, ofStatement_write env x⟩
  | .assignElement x index value, n => by
    have hx : ∀ i ∈ env.read x, i.OfStatement env := fun i hi => .expression (ofExpression_read env x i hi)
    have hs : ∀ i ∈ [Instruction.pop .temp 0, .pop .pointer 1, .push .temp 0, .pop .that 0],
        i.OfStatement env := by
      simpa using ⟨.park, .expression .select, .unpark, .setElement⟩
    rw [Statement.code, List.forall_mem_append, List.forall_mem_append, List.forall_mem_append,
      List.forall_mem_cons]
    exact ⟨⟨⟨hx, index.ofStatement_code env⟩, .expression (.compute .add), value.ofStatement_code env⟩, hs⟩
  | .if_ condition body, n => by
    simp only [Statement.code, List.forall_mem_append, List.forall_mem_cons]
    exact ⟨⟨condition.ofStatement_jumpUnless env _, body.ofStatement_code (n + 2)⟩, .goto _, .label _, .label _,
      List.forall_mem_nil _⟩
  | .ifElse condition body alternative, n => by
    simp only [Statement.code, List.forall_mem_append, List.forall_mem_cons]
    exact ⟨⟨⟨⟨condition.ofStatement_jumpUnless env _, body.ofStatement_code (n + 2)⟩,
      .goto _, .label _, List.forall_mem_nil _⟩, alternative.ofStatement_code (n + 2 + body.draws)⟩,
      .label _, List.forall_mem_nil _⟩
  | .while_ condition body, n => by
    simp only [Statement.code, List.cons_append, List.forall_mem_append, List.forall_mem_cons]
    exact ⟨.label _, ⟨condition.ofStatement_jumpUnless env _, body.ofStatement_code (n + 2)⟩,
      .goto _, .label _, List.forall_mem_nil _⟩
  | .do_ term, n => by
    rw [Statement.code, List.forall_mem_append, List.forall_mem_singleton]
    exact ⟨fun i hi => .expression (term.ofExpression_code env i hi), .park⟩
  | .return_, n => by
    simpa [Statement.code] using ⟨.expression (.constant 0), .return_⟩
  | .returnValue value, n => by
    rw [Statement.code, List.forall_mem_append, List.forall_mem_singleton]
    exact ⟨value.ofStatement_code env, .return_⟩

theorem Block.ofStatement_code : ∀ (b : Block) (n : Nat), ∀ i ∈ b.code k env n, i.OfStatement env
  | .nil, n => by simp [Block.code]
  | .cons first rest, n => by
    rw [Block.code, List.forall_mem_append]
    exact ⟨first.ofStatement_code n, rest.ofStatement_code (n + first.draws)⟩

end

/-- Behind its first line and what sets the receiver up, a subroutine has code of statements only. -/
theorem Placed.ofStatement_bodyCode (u : Placed) : ∀ i ∈ u.bodyCode k, i.OfStatement u.environment := by
  have he : ∀ i ∈ epilogue u.routine.result?.isNone (u.routine.body.endsInReturn false),
      i.OfStatement u.environment := by
    rw [epilogue]
    split
    · simpa using ⟨.expression (.constant 0), .return_⟩
    · simp
  rw [bodyCode, List.forall_mem_append]
  exact ⟨u.routine.body.ofStatement_code u.environment u.start, he⟩

end Syntax

end JackToVm
