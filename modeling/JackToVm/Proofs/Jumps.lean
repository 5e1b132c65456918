import Mathlib.Data.List.Nodup
import JackToVm.Proofs.Blocks

/-!
Where the jumps of a class lead. Every jump has its label in its own block, once, and no label stands twice
in the output. A jump goes on in the code, except for the one at the end of a loop, which goes back to the
label of the loop.
-/

namespace JackToVm

namespace Vm

/-! ### Places of code -/

/-- A property of every place of code: of what is in front of an instruction, of the instruction, and of what
is behind it. -/
def Everywhere (P : List Instruction → Instruction → List Instruction → Prop) (code : List Instruction) : Prop :=
  ∀ front i back, code = front ++ i :: back → P front i back

section
variable {P : List Instruction → Instruction → List Instruction → Prop} {a b : List Instruction}

theorem everywhere_append : Everywhere P (a ++ b) ↔
    Everywhere (fun front i back => P front i (back ++ b)) a ∧
      Everywhere (fun front i back => P (a ++ front) i back) b := by
  constructor
  · intro h
    constructor
    · rintro front i back rfl
      exact h front i (back ++ b) (by simp)
    · rintro front i back rfl
      exact h (a ++ front) i back (by simp)
  · rintro ⟨ha, hb⟩ front i back h
    -- The place is in `b`, or in `a`.
    rcases List.append_eq_append_iff.mp h with ⟨middle, rfl, hmiddle⟩ | ⟨middle, rfl, hmiddle⟩
    · exact hb middle i back hmiddle
    · rcases List.cons_eq_append_iff.mp hmiddle with ⟨rfl, rfl⟩ | ⟨rest, rfl, rfl⟩
      · rw [List.append_nil] at hb
        simpa using hb [] i back rfl
      · exact ha front i rest rfl

theorem everywhere_singleton {i : Instruction} : Everywhere P [i] ↔ P [] i [] := by
  constructor
  · intro h
    exact h [] i [] rfl
  · intro h front j back hj
    rcases List.cons_eq_append_iff.mp hj with ⟨rfl, hj⟩ | ⟨rest, rfl, hj⟩
    · obtain ⟨rfl, rfl⟩ := List.cons.inj hj
      exact h
    · simp at hj

theorem everywhere_of_forall_mem {code : List Instruction} (h : ∀ i ∈ code, ∀ front back, P front i back) :
    Everywhere P code := by
  rintro front i back rfl
  exact h i (by simp) front back

end

/-! ### Targets -/

def Instruction.target? : Instruction → Option String
  | .goto target => some target
  | .ifGoto target => some target
  | _ => none

/-- Where a jump leads: to one of the labels behind it, or from the end of a loop to one in front of it. -/
def Instruction.Leads (inFront behind : List String) (i : Instruction) : Prop :=
  ∀ target, i.target? = some target →
    target ∈ behind ∨ target ∈ inFront ∧ i = .goto target ∧ ∃ n, target = Labels.whileName n

/-- The jumps of code lead to labels of the code, or to those that are in front of it and behind it. -/
def Closed (inFront behind : List String) (code : List Instruction) : Prop :=
  Everywhere (fun front i back => i.Leads (inFront ++ labelsOf front) (labelsOf back ++ behind)) code

section
variable {inFront behind : List String} {a b : List Instruction}

theorem closed_append : Closed inFront behind (a ++ b) ↔
    Closed inFront (labelsOf b ++ behind) a ∧ Closed (inFront ++ labelsOf a) behind b := by
  simp only [Closed, everywhere_append, labelsOf_append, List.append_assoc]

theorem closed_cons {i : Instruction} : Closed inFront behind (i :: a) ↔
    i.Leads inFront (labelsOf a ++ behind) ∧ Closed (inFront ++ labelsOf [i]) behind a := by
  rw [← List.singleton_append, closed_append, Closed, everywhere_singleton, labelsOf_nil, List.append_nil,
    List.nil_append]

theorem closed_of_target? (h : ∀ i ∈ a, i.target? = none) : Closed inFront behind a := by
  refine everywhere_of_forall_mem fun i hi front back target ht => ?_
  rw [h i hi] at ht
  cases ht

theorem leads_of_target? {i : Instruction} (h : i.target? = none) : i.Leads inFront behind := by
  intro target ht
  rw [h] at ht
  cases ht

theorem leads_goto {target : String} (h : target ∈ behind) : (Instruction.goto target).Leads inFront behind := by
  rintro _ ⟨⟩
  exact Or.inl h

theorem leads_ifGoto {target : String} (h : target ∈ behind) :
    (Instruction.ifGoto target).Leads inFront behind := by
  rintro _ ⟨⟩
  exact Or.inl h

theorem leads_loop {n : Nat} (h : Labels.whileName n ∈ inFront) :
    (Instruction.goto (Labels.whileName n)).Leads inFront behind := by
  rintro _ ⟨⟩
  exact Or.inr ⟨h, rfl, n, rfl⟩

end

end Vm

namespace Syntax
open Vm (Closed Instruction labelsOf_cons closed_append closed_cons closed_of_target? leads_of_target?)
open Vm.Labels (ifName whileName)

/-! ### Jumps of statements -/

section
variable {k : Counting} {env : Environment} {inFront behind : List String}

theorem target?_of_ofExpression {i : Instruction} (h : i.OfExpression env) : i.target? = none := by
  cases h <;> rfl

theorem closed_of_ofExpression {code : List Instruction} (h : ∀ i ∈ code, i.OfExpression env) :
    Closed inFront behind code :=
  closed_of_target? fun i hi => target?_of_ofExpression (h i hi)

theorem Expression.closed_jumpUnless (e : Expression) {target : String} (h : target ∈ behind) :
    Closed inFront behind (e.jumpUnless k env target) := by
  rw [jumpUnless, closed_append]
  refine ⟨closed_of_ofExpression (e.ofExpression_code env), ?_⟩
  simp only [closed_cons]
  exact ⟨leads_of_target? rfl, Vm.leads_ifGoto h, closed_of_target? (by simp)⟩

end

theorem target?_of_mem_write {env : Environment} {x : String} : ∀ i ∈ env.write x, i.target? = none := by
  intro i hi
  obtain ⟨v, -, rfl⟩ := List.mem_map.mp hi
  rfl

mutual

/-- Whatever labels are around a statement, its own jumps lead to its own labels. -/
theorem Statement.closed_code (k : Counting) (env : Environment) :
    ∀ (s : Statement) (n : Nat) (inFront behind : List String), Closed inFront behind (s.code k env n)
  | .assign x value, n, inFront, behind => by
    rw [Statement.code, closed_append]
    exact ⟨closed_of_ofExpression (value.ofExpression_code env), closed_of_target? target?_of_mem_write⟩
  | .assignElement x index value, n, inFront, behind => by
    rw [Statement.code, closed_append, closed_append, closed_append, closed_cons]
    refine ⟨⟨⟨?_, ?_⟩, leads_of_target? rfl, ?_⟩, closed_of_target? ?_⟩
    · exact closed_of_ofExpression (ofExpression_read env x)
    · exact closed_of_ofExpression (index.ofExpression_code env)
    · exact closed_of_ofExpression (value.ofExpression_code env)
    · simp [Instruction.target?]
  | .if_ condition body, n, inFront, behind => by
    rw [Statement.code, closed_append, closed_append]
    refine ⟨⟨condition.closed_jumpUnless ?_, body.closed_code k env (n + 2) _ _⟩, ?_⟩
    · simp [labelsOf_cons, Instruction.label?]
    · simp only [closed_cons]
      refine ⟨Vm.leads_goto ?_, leads_of_target? rfl, leads_of_target? rfl, closed_of_target? (by simp)⟩
      simp [labelsOf_cons, Instruction.label?]
  | .ifElse condition body alternative, n, inFront, behind => by
    rw [Statement.code, closed_append, closed_append, closed_append, closed_append]
    refine ⟨⟨⟨⟨condition.closed_jumpUnless ?_, body.closed_code k env (n + 2) _ _⟩, ?_⟩,
      alternative.closed_code k env (n + 2 + body.draws) _ _⟩, closed_of_target? ?_⟩
    · simp [labelsOf_cons, Instruction.label?]
    · simp only [closed_cons]
      refine ⟨Vm.leads_goto ?_, leads_of_target? rfl, closed_of_target? (by simp)⟩
      simp [labelsOf_cons, Instruction.label?]
    · simp [Instruction.target?]
  | .while_ condition body, n, inFront, behind => by
    rw [Statement.code, closed_append, closed_append, closed_cons]
    refine ⟨⟨⟨leads_of_target? rfl, condition.closed_jumpUnless ?_⟩, body.closed_code k env (n + 2) _ _⟩, ?_⟩
    · simp [labelsOf_cons, Instruction.label?]
    · -- The end of the loop is behind its first label, which is in front of the condition.
      simp only [closed_cons]
      refine ⟨Vm.leads_loop ?_, leads_of_target? rfl, closed_of_target? (by simp)⟩
      simp [labelsOf_cons, Instruction.label?]
  | .do_ term, n, inFront, behind => by
    rw [Statement.code, closed_append]
    exact ⟨closed_of_ofExpression (term.ofExpression_code env), closed_of_target? (by simp [Instruction.target?])⟩
  | .return_, n, inFront, behind => by
    refine closed_of_target? ?_
    simp [Statement.code, Instruction.target?, Instruction.pushConstant]
  | .returnValue value, n, inFront, behind => by
    rw [Statement.code, closed_append]
    exact ⟨closed_of_ofExpression (value.ofExpression_code env), closed_of_target? (by simp [Instruction.target?])⟩

theorem Block.closed_code (k : Counting) (env : Environment) : ∀ (b : Block) (n : Nat) (inFront behind : List String),
    Closed inFront behind (b.code k env n)
  | .nil, n, inFront, behind => closed_of_target? (by simp [Block.code])
  | .cons first rest, n, inFront, behind => by
    rw [Block.code, closed_append]
    exact ⟨first.closed_code k env n _ _, rest.closed_code k env (n + first.draws) _ _⟩

end

theorem Placed.closed_code (u : Placed) (k : Counting) : Closed [] [] (u.code k) := by
  have hp : ∀ i ∈ u.prologue, i.target? = none := by
    cases hk : u.routine.kind <;> simp [prologue, hk, Instruction.target?, Instruction.pushConstant]
  have he : ∀ void returned, ∀ i ∈ epilogue void returned, i.target? = none := by
    intro void returned
    cases void <;> cases returned <;> simp [epilogue, Instruction.target?, Instruction.pushConstant]
  rw [code, bodyCode, closed_append, closed_append]
  exact ⟨closed_of_target? hp, u.routine.body.closed_code k u.environment u.start _ _, closed_of_target? (he _ _)⟩

end Syntax

/-! ### Jumps of a class -/

section
open Vm

/-- A jump of closed code has its label in the code once when no label stands twice. Where it leads back, it
is the jump of a loop, and where it has a condition, it leads on. -/
theorem Vm.Closed.leads {code front back : List Instruction} {i : Instruction} {target : String}
    (hc : Closed [] [] code) (hn : (labelsOf code).Nodup) (h : code = front ++ i :: back)
    (ht : i.target? = some target) :
    (labelsOf code).count target = 1 ∧
      (target ∈ labelsOf front → i = .goto target ∧ ∃ n, target = Labels.whileName n) ∧
      (i = .ifGoto target → target ∈ labelsOf back) := by
  have hi : labelsOf [i] = [] := by
    cases i <;> first | rfl | cases ht
  have hlabels : labelsOf code = labelsOf front ++ labelsOf back := by
    rw [h, ← List.singleton_append, labelsOf_append, labelsOf_append, hi, List.nil_append]
  have hleads := hc front i back h target ht
  rw [List.nil_append, List.append_nil] at hleads
  refine ⟨?_, ?_, ?_⟩
  · refine List.count_eq_one_of_mem hn ?_
    rw [hlabels, List.mem_append]
    rcases hleads with hb | ⟨hf, -⟩
    · exact Or.inr hb
    · exact Or.inl hf
  · intro hf
    rcases hleads with hb | ⟨-, hback⟩
    · rw [hlabels] at hn
      exact absurd rfl ((List.nodup_append.mp hn).2.2 target hf target hb)
    · exact hback
  · rintro rfl
    rcases hleads with hb | ⟨-, hgoto, -⟩
    · exact hb
    · cases hgoto

end

open Syntax
open Vm (blocksOf labelsOf)

/-- Jumps stay in their function: when a class compiles, no label stands twice in the output, and each jump
of a block has its label in the block, once. A jump back is a `goto` to the label of a loop, and an `if-goto`
leads on. -/
theorem jumps_of_compile (source : String) (labels : Vm.Labels)
    (h : (compile source labels.next).resultAfter ((compile source labels.next).deliver none labels) = .ok ()) :
    ((compile source labels.next).deliver none labels).sink.bytes = (compile source labels.next).text.toUTF8 ∧
    (labelsOf (compile source labels.next).code).Nodup ∧
    ∀ block ∈ blocksOf (compile source labels.next).code, Vm.IsBlock block ∧
      ∀ front i back target, block = front ++ i :: back → i.target? = some target →
        (labelsOf block).count target = 1 ∧
        (target ∈ labelsOf front → i = .goto target ∧ ∃ n, target = Vm.Labels.whileName n) ∧
        (i = .ifGoto target → target ∈ labelsOf back) := by
  rw [Compilation.resultAfter_deliver_none] at h
  obtain ⟨-, c, -, -, hc, hb, -⟩ := exists_placed_of_compile h
  refine ⟨Compilation.bytes_deliver_none .., ?_, ?_⟩
  · rw [hc]
    exact c.nodup_labelsOf_code .wrapped labels.next
  · rw [hb, List.forall_mem_map]
    intro u _
    refine ⟨u.isBlock_code .wrapped, ?_⟩
    intro front i back target hsplit ht
    exact (u.closed_code .wrapped).leads u.nodup_labelsOf_code hsplit ht

/-- A branch in a loop. -/
def loopSource : String :=
  "class A { function void f() { while (true) { if (false) { } } } }"

def loopBlock : List Vm.Instruction :=
  [.function "A.f" 0, .label "WHILELABEL5", .push .constant 1, .compute .neg, .compute .not,
    .ifGoto "WHILELABEL6", .push .constant 0, .compute .not, .ifGoto "IFLABEL7", .goto "IFLABEL8",
    .label "IFLABEL7", .label "IFLABEL8", .goto "WHILELABEL5", .label "WHILELABEL6", .push .constant 0, .return_]

/-- The jump back of the loop, and the jump over the branch. -/
theorem jumps_of_compile_loop :
    loopBlock ∈ blocksOf (compile loopSource 5).code ∧
      (labelsOf loopBlock).count "WHILELABEL5" = 1 ∧ (∃ n, "WHILELABEL5" = Vm.Labels.whileName n) ∧
      (labelsOf loopBlock).count "IFLABEL7" = 1 ∧ "IFLABEL7" ∈ labelsOf (loopBlock.drop 9) := by
  have hrun : (compile loopSource 5).result.isOk = true ∧ loopBlock ∈ blocksOf (compile loopSource 5).code := by
    decide +kernel
  obtain ⟨hok, hmem⟩ := hrun
  obtain ⟨-, -, hjumps⟩ := jumps_of_compile loopSource { next := 5 } (resultAfter_of_isOk hok)
  obtain ⟨-, hblock⟩ := hjumps loopBlock hmem
  obtain ⟨hone, hloop, -⟩ :=
    hblock (loopBlock.take 12) (.goto "WHILELABEL5") (loopBlock.drop 13) "WHILELABEL5" rfl rfl
  obtain ⟨hbranch, -, hon⟩ :=
    hblock (loopBlock.take 8) (.ifGoto "IFLABEL7") (loopBlock.drop 9) "IFLABEL7" rfl rfl
  exact ⟨hmem, hone, (hloop (by decide)).2, hbranch, hon rfl⟩

end JackToVm
