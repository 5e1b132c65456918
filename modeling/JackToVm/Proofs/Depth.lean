import JackToVm.Proofs.Jumps
import JackToVm.Proofs.Wrapping

/-!
How deep the stack is in a function. The depth is counted from line to line. As long as a call says how many
arguments it has, the code of an expression adds one value and that of a statement none. So labels and jumps
stand where the stack is empty, and counting along a path with jumps comes to the same as counting from line to
line.
-/

namespace JackToVm

namespace Vm

/-! ### Depth -/

def Command.operands : Command → Nat
  | .neg | .not => 1
  | _ => 2

namespace Instruction

def takes : Instruction → Nat
  | .pop .. | .ifGoto _ | .return_ => 1
  | .compute command => command.operands
  | .call _ arguments => arguments
  | .push .. | .label _ | .goto _ | .function .. => 0

def gives : Instruction → Nat
  | .push .. | .compute _ | .call .. => 1
  | .pop .. | .label _ | .goto _ | .ifGoto _ | .function .. | .return_ => 0

/-- The depth behind an instruction. There is none when the stack lacks what the instruction takes. A function
starts with an empty stack, and a `return` wants its value alone on it. -/
def depthAfter? (i : Instruction) (d : Nat) : Option Nat :=
  match i with
  | .function .. => some 0
  | .return_ => if d = 1 then some 0 else none
  | _ => if i.takes ≤ d then some (d - i.takes + i.gives) else none

/-- What is asked of the depth in front of an instruction, so that the stack is empty at labels and where a
jump leads. -/
def Rests (i : Instruction) (d : Nat) : Prop :=
  match i with
  | .label _ | .goto _ => d = 0
  | .ifGoto _ => d = 1
  | _ => True

/-- Tells whether control can go on behind an instruction. -/
def passes : Instruction → Bool
  | .goto _ | .return_ => false
  | _ => true

end Instruction

/-- The depth behind code, counted from line to line. -/
def depth? (d : Nat) (code : List Instruction) : Option Nat :=
  code.foldlM (fun d i => i.depthAfter? d) d

@[simp] theorem depth?_singleton (d : Nat) (i : Instruction) : depth? d [i] = i.depthAfter? d := by
  simp [depth?]

theorem depth?_append (d : Nat) (a b : List Instruction) :
    depth? d (a ++ b) = (depth? d a).bind fun e => depth? e b := by
  simp [depth?, List.foldlM_append, Option.bind_eq_bind]

/-- Code that takes the depth from `d` to `e`, and that has its labels and jumps where the stack is empty. -/
structure Levels (d : Nat) (code : List Instruction) (e : Nat) : Prop where
  depth : depth? d code = some e
  rests : Everywhere (fun front i _ => ∃ k, depth? d front = some k ∧ i.Rests k) code

namespace Levels
variable {d e k : Nat} {a b : List Instruction} {i : Instruction}

theorem nil (d : Nat) : Levels d [] d :=
  ⟨rfl, everywhere_of_forall_mem (by simp)⟩

theorem one (h : i.depthAfter? d = some e) (hr : i.Rests d) : Levels d [i] e := by
  constructor
  · rw [depth?_singleton, h]
  · exact everywhere_singleton.mpr ⟨d, rfl, hr⟩

theorem append (ha : Levels d a e) (hb : Levels e b k) : Levels d (a ++ b) k := by
  constructor
  · rw [depth?_append, ha.depth, Option.bind_some, hb.depth]
  · refine everywhere_append.mpr ⟨ha.rests, ?_⟩
    intro front i back hsplit
    rw [depth?_append, ha.depth, Option.bind_some]
    exact hb.rests front i back hsplit

theorem cons (hi : Levels d [i] e) (hb : Levels e b k) : Levels d (i :: b) k :=
  hi.append hb

theorem exists_depthAfter? (h : Levels d a e) {front back : List Instruction} (hsplit : a = front ++ i :: back) :
    ∃ k l, depth? d front = some k ∧ i.depthAfter? k = some l ∧ i.Rests k := by
  obtain ⟨k, hk, hr⟩ := h.rests front i back hsplit
  have hdepth := h.depth
  rw [hsplit, depth?_append, hk, Option.bind_some, ← List.singleton_append, depth?_append,
    depth?_singleton] at hdepth
  obtain ⟨l, hl, -⟩ := Option.bind_eq_some_iff.mp hdepth
  exact ⟨k, l, hk, hl, hr⟩

end Levels

section
variable (d : Nat)

theorem levels_push (segment : Segment) (index : Nat) : Levels d [.push segment index] (d + 1) :=
  .one (by simp [Instruction.depthAfter?, Instruction.takes, Instruction.gives]) trivial

theorem levels_pop (segment : Segment) (index : Nat) : Levels (d + 1) [.pop segment index] d :=
  .one (by simp [Instruction.depthAfter?, Instruction.takes, Instruction.gives]) trivial

theorem levels_compute (command : Command) : Levels (d + command.operands) [.compute command] (d + 1) :=
  .one (by simp [Instruction.depthAfter?, Instruction.takes, Instruction.gives]) trivial

theorem levels_call (name : String) (arguments : Nat) : Levels (d + arguments) [.call name arguments] (d + 1) :=
  .one (by simp [Instruction.depthAfter?, Instruction.takes, Instruction.gives]) trivial

theorem levels_function (name : String) (locals : Nat) : Levels d [.function name locals] 0 :=
  .one rfl trivial

theorem levels_label (name : String) : Levels 0 [.label name] 0 :=
  .one rfl rfl

theorem levels_goto (target : String) : Levels 0 [.goto target] 0 :=
  .one rfl rfl

theorem levels_ifGoto (target : String) : Levels 1 [.ifGoto target] 0 :=
  .one rfl rfl

theorem levels_return : Levels 1 [.return_] 0 :=
  .one rfl trivial

theorem levels_ofBinaryOp (op : BinaryOp) : Levels (d + 2) [.ofBinaryOp op] (d + 1) := by
  cases op with
  | add => exact levels_compute d .add
  | sub => exact levels_compute d .sub
  | mul => exact levels_call d _ 2
  | div => exact levels_call d _ 2
  | and => exact levels_compute d .and
  | or => exact levels_compute d .or
  | lt => exact levels_compute d .lt
  | gt => exact levels_compute d .gt
  | eq => exact levels_compute d .eq

theorem levels_ofUnaryOp (op : UnaryOp) : Levels (d + 1) [.ofUnaryOp op] (d + 1) := by
  cases op with
  | neg => exact levels_compute d .neg
  | not => exact levels_compute d .not

/-- The object is on the stack before and behind each character. -/
theorem levels_characters (cs : List Char) :
    Levels (d + 1) (cs.flatMap fun c => [.pushConstant c.toNat, .call "String.appendChar" 2]) (d + 1) := by
  induction cs with
  | nil => exact .nil _
  | cons c cs ih =>
    rw [List.flatMap_cons]
    exact ((levels_push (d + 1) _ _).cons (levels_call d _ 2)).append ih

theorem levels_ofString (text : String) : Levels d (Instruction.ofString text) (d + 1) :=
  (levels_push d _ _).cons ((levels_call d _ 1).cons (levels_characters d text.toList))

end

end Vm

namespace Syntax
open Vm

/-! ### Depth of expressions -/

section
variable {env : Environment}

theorem levels_read {x : String} (h : (Phrase.use x).Bound env) (d : Nat) : Levels d (env.read x) (d + 1) := by
  obtain ⟨v, hv⟩ := h.lookup?
  rw [Environment.read_of_lookup? hv]
  exact levels_push d _ _

theorem levels_write {x : String} (h : (Phrase.use x).Bound env) (d : Nat) : Levels (d + 1) (env.write x) d := by
  obtain ⟨v, hv⟩ := h.lookup?
  rw [Environment.write_of_lookup? hv]
  exact levels_pop d _ _

theorem Constant.levels_code (c : Constant) (d : Nat) : Levels d c.code (d + 1) := by
  cases c with
  | true_ => exact (levels_push d _ _).cons (levels_compute d .neg)
  | false_ => exact levels_push d _ _
  | null => exact levels_push d _ _
  | this => exact levels_push d _ _

theorem Arguments.bound_of_tail {a : Arguments} (h : a.tailPhrase.Bound env) : a.phrase.Bound env := by
  cases a with
  | none => exact h
  | more first rest =>
    rw [Arguments.tailPhrase, Phrase.append_assoc, Phrase.bound_append] at h
    exact h.2

mutual

theorem Term.levels_code : ∀ (t : Term) (d : Nat), t.phrase.Bound env → Levels d (t.code .exact env) (d + 1)
  | .integer value, d => fun _ => levels_push d _ _
  | .string text, d => fun _ => levels_ofString d text
  | .constant value, d => fun _ => value.levels_code d
  | .read x, d => by
    intro h
    rw [Term.phrase, Phrase.bound_append] at h
    exact levels_read h.2 d
  | .element x index, d => by
    intro h
    simp only [Term.phrase, Phrase.bound_append] at h
    have hx := levels_read h.1.1.1.2 d
    have hi := index.levels_code (d + 1) h.1.2
    have hs : Levels (d + 2) [.compute .add, .pop .pointer 1, .push .that 0] (d + 1) :=
      (levels_compute d .add).cons ((levels_pop d _ _).cons (levels_push d _ _))
    exact (hx.append hi).append hs
  | .call f arguments, d => by
    intro h
    simp only [Term.phrase, Phrase.bound_append] at h
    have ha := arguments.levels_code (d + 1) h.1.2
    rw [Nat.add_assoc, Nat.add_comm 1] at ha
    exact ((levels_push d _ _).cons ha).append (levels_call d _ _)
  | .callOn owner f arguments, d => by
    intro h
    simp only [Term.phrase, Phrase.bound_append] at h
    rw [Term.code]
    cases env.lookup? owner with
    | some v =>
      have ha := arguments.levels_code (d + 1) h.1.2
      rw [Nat.add_assoc, Nat.add_comm 1] at ha
      exact ((levels_push d _ _).cons ha).append (levels_call d _ _)
    | none => exact (arguments.levels_code d h.1.2).append (levels_call d _ _)
  | .group inside, d => by
    intro h
    simp only [Term.phrase, Phrase.bound_append] at h
    exact inside.levels_code d h.1.2
  | .unary op operand, d => by
    intro h
    rw [Term.phrase, Phrase.bound_append] at h
    exact (operand.levels_code d h.2).append (levels_ofUnaryOp d op)

theorem Expression.levels_code : ∀ (e : Expression) (d : Nat), e.phrase.Bound env →
    Levels d (e.code .exact env) (d + 1)
  | .of first rest, d => by
    intro h
    rw [Expression.phrase, Phrase.bound_append] at h
    exact (first.levels_code d h.1).append (rest.levels_code d h.2)

theorem Operations.levels_code : ∀ (o : Operations) (d : Nat), o.phrase.Bound env →
    Levels (d + 1) (o.code .exact env) (d + 1)
  | .none, d => fun _ => .nil _
  | .more op operand rest, d => by
    intro h
    simp only [Operations.phrase, Phrase.bound_append] at h
    have ho := operand.levels_code (d + 1) h.1.2
    exact ho.append ((levels_ofBinaryOp d op).cons (rest.levels_code d h.2))

theorem Arguments.levels_code : ∀ (a : Arguments) (d : Nat), a.phrase.Bound env →
    Levels d (a.code .exact env) (d + a.count)
  | .none, d => fun _ => .nil _
  | .more first rest, d => by
    intro h
    rw [Arguments.phrase, Phrase.bound_append] at h
    have hf := first.levels_code d h.1
    have hr := rest.levels_code (d + 1) (Arguments.bound_of_tail h.2)
    rw [Nat.add_assoc, Nat.add_comm 1] at hr
    exact hf.append hr

end

/-! ### Depth of statements -/

theorem Expression.levels_jumpUnless {e : Expression} (h : e.conditionPhrase.Bound env) (target : String) :
    Levels 0 (e.jumpUnless .exact env target) 0 := by
  simp only [Expression.conditionPhrase, Phrase.bound_append] at h
  exact (e.levels_code 0 h.1.2).append ((levels_compute 0 .not).cons (levels_ifGoto target))

mutual

/-- Statements leave the stack as they find it, which is empty. -/
theorem Statement.levels_code : ∀ (s : Statement) (n : Nat), s.phrase.Bound env → Levels 0 (s.code .exact env n) 0
  | .assign x value, n => by
    intro h
    simp only [Statement.phrase, Phrase.bound_append] at h
    rw [Statement.code]
    exact (value.levels_code 0 h.1.2).append (levels_write h.1.1.1.2 0)
  | .assignElement x index value, n => by
    intro h
    simp only [Statement.phrase, Phrase.bound_append] at h
    obtain ⟨⟨⟨⟨⟨⟨⟨-, hx⟩, -⟩, hindex⟩, -⟩, -⟩, hvalue⟩, -⟩ := h
    have ha := (levels_read hx 0).append (index.levels_code 1 hindex)
    have hv := (levels_compute 0 .add).cons (value.levels_code 1 hvalue)
    have hs : Levels 2 [.pop .temp 0, .pop .pointer 1, .push .temp 0, .pop .that 0] 0 :=
      (levels_pop 1 _ _).cons ((levels_pop 0 _ _).cons ((levels_push 0 _ _).cons (levels_pop 0 _ _)))
    rw [Statement.code]
    exact (ha.append hv).append hs
  | .if_ condition body, n => by
    intro h
    simp only [Statement.phrase, Phrase.bound_append] at h
    have hc := Expression.levels_jumpUnless h.1.1.1.2 (Labels.ifName n)
    have hb := body.levels_code (n + 2) h.1.2
    have he := (levels_goto (Labels.ifName (n + 1))).cons
      ((levels_label (Labels.ifName n)).cons (levels_label (Labels.ifName (n + 1))))
    rw [Statement.code]
    exact (hc.append hb).append he
  | .ifElse condition body alternative, n => by
    intro h
    simp only [Statement.phrase, Phrase.bound_append] at h
    obtain ⟨⟨⟨⟨⟨⟨⟨⟨-, hcondition⟩, -⟩, hbody⟩, -⟩, -⟩, -⟩, halternative⟩, -⟩ := h
    have hc := Expression.levels_jumpUnless hcondition (Labels.ifName n)
    have hb := body.levels_code (n + 2) hbody
    have hj := (levels_goto (Labels.ifName (n + 1))).cons (levels_label (Labels.ifName n))
    have ha := alternative.levels_code (n + 2 + body.draws) halternative
    rw [Statement.code]
    exact (((hc.append hb).append hj).append ha).append (levels_label (Labels.ifName (n + 1)))
  | .while_ condition body, n => by
    intro h
    simp only [Statement.phrase, Phrase.bound_append] at h
    have hc := Expression.levels_jumpUnless h.1.1.1.2 (Labels.whileName (n + 1))
    have hb := body.levels_code (n + 2) h.1.2
    have he := (levels_goto (Labels.whileName n)).cons (levels_label (Labels.whileName (n + 1)))
    rw [Statement.code]
    exact (((levels_label (Labels.whileName n)).cons hc).append hb).append he
  | .do_ term, n => by
    intro h
    simp only [Statement.phrase, Phrase.bound_append] at h
    rw [Statement.code]
    exact (term.levels_code 0 h.1.2).append (levels_pop 0 _ _)
  | .return_, n => fun _ => (levels_push 0 _ _).cons levels_return
  | .returnValue value, n => by
    intro h
    simp only [Statement.phrase, Phrase.bound_append] at h
    rw [Statement.code]
    exact (value.levels_code 0 h.1.2).append levels_return

theorem Block.levels_code : ∀ (b : Block) (n : Nat), b.phrase.Bound env → Levels 0 (b.code .exact env n) 0
  | .nil, n => fun _ => .nil 0
  | .cons first rest, n => by
    intro h
    rw [Block.phrase, Phrase.bound_append] at h
    exact (first.levels_code n h.1).append (rest.levels_code (n + first.draws) h.2)

end

end

theorem Placed.levels_code {u : Placed} (h : u.routine.body.phrase.Bound u.environment) :
    Levels 0 (u.code .exact) 0 := by
  have hp : Levels 0 u.prologue 0 := by
    rw [prologue]
    cases u.routine.kind with
    | constructor_ =>
      exact (levels_function 0 _ _).cons ((levels_push 0 _ _).cons ((levels_call 0 _ 1).cons (levels_pop 0 _ _)))
    | function => exact levels_function 0 _ _
    | method => exact (levels_function 0 _ _).cons ((levels_push 0 _ _).cons (levels_pop 0 _ _))
  have he : ∀ void returned, Levels 0 (epilogue void returned) 0 := by
    intro void returned
    rw [epilogue]
    split
    · exact (levels_push 0 _ _).cons levels_return
    · exact .nil 0
  exact hp.append ((u.routine.body.levels_code u.start h).append (he _ _))

end Syntax

/-! ### Paths -/

namespace Vm

/-- Control can come from the start of a block to the code `next`, with this depth. -/
inductive Flows (block : List Instruction) : List Instruction → Nat → Prop
  | start : Flows block block 0
  | next {i : Instruction} {rest : List Instruction} {d e : Nat} : Flows block (i :: rest) d →
      i.passes = true → i.depthAfter? d = some e → Flows block rest e
  | jump {i : Instruction} {rest there : List Instruction} {target : String} {d e : Nat} :
      Flows block (i :: rest) d → i.target? = some target → i.depthAfter? d = some e →
      seek? target block = some there → Flows block there e

theorem exists_of_seek? {target : String} {code there : List Instruction} (h : seek? target code = some there) :
    ∃ front after, there = .label target :: after ∧ code = front ++ .label target :: after := by
  induction code with
  | nil => cases h
  | cons i rest ih =>
    rw [seek?] at h
    by_cases hi : i = .label target
    · rw [if_pos hi] at h
      exact ⟨[], rest, by rw [← Option.some.inj h, hi], by rw [hi, List.nil_append]⟩
    · rw [if_neg hi] at h
      obtain ⟨front, after, hthere, hrest⟩ := ih h
      exact ⟨i :: front, after, hthere, by rw [hrest, List.cons_append]⟩

/-- Behind a jump that stands where it should, the stack is empty. -/
theorem depthAfter?_of_rests {i : Instruction} {target : String} {d e : Nat} (hr : i.Rests d)
    (ht : i.target? = some target) (he : i.depthAfter? d = some e) : e = 0 := by
  cases i with
  | goto _ =>
    obtain rfl : d = 0 := hr
    exact (Option.some.inj he).symm
  | ifGoto _ =>
    obtain rfl : d = 1 := hr
    exact (Option.some.inj he).symm
  | _ => cases ht

/-- Along every path, the depth is the one that is counted from line to line. -/
theorem Levels.exists_of_flows {block next : List Instruction} {d e : Nat} (h : Levels 0 block e)
    (hf : Flows block next d) : ∃ front, block = front ++ next ∧ depth? 0 front = some d := by
  induction hf with
  | start => exact ⟨[], rfl, rfl⟩
  | @next i rest d e _ _ he ih =>
    obtain ⟨front, hblock, hd⟩ := ih
    refine ⟨front ++ [i], by rw [hblock, List.append_assoc, List.singleton_append], ?_⟩
    rw [depth?_append, hd, Option.bind_some, depth?_singleton, he]
  | @jump i rest there target d e _ ht he hs ih =>
    -- The stack is empty in front of the jump, but for its condition, and at the label.
    obtain ⟨front, hblock, hd⟩ := ih
    obtain ⟨k, hk, hrests⟩ := h.rests front i rest hblock
    obtain rfl : k = d := Option.some.inj (hk.symm.trans hd)
    obtain rfl := depthAfter?_of_rests hrests ht he
    obtain ⟨before, after, rfl, hlabel⟩ := exists_of_seek? hs
    obtain ⟨k, hk, hzero⟩ := h.rests before _ after hlabel
    obtain rfl : k = 0 := hzero
    exact ⟨before, hlabel, hk⟩

end Vm

/-! ### Depth in a class -/

open Syntax
open Vm (blocksOf depth?)

/-- Stack discipline: when a class compiles, the output has one block for each subroutine. In that of a subroutine
whose calls have fewer than 65536 arguments each, counting from the first line, the stack always has what the next
instruction takes. It is empty at each label, at each `goto`, behind each `if-goto` and at the end of the block, and
along every path through the block it is as deep as it is counted from line to line. -/
theorem depth_of_compile (source : String) (labels : Vm.Labels)
    (h : (compile source labels.next).resultAfter ((compile source labels.next).deliver none labels) = .ok ()) :
    ((compile source labels.next).deliver none labels).sink.bytes = (compile source labels.next).text.toUTF8 ∧
    ∃ (tokens : List Token) (c : Syntax.Class), Item.ofSource source = tokens.map .ok ∧
      c.lexemes = tokens.map (·.lexeme) ∧
      List.Forall₂ (fun block u => CallsFit (u.code .exact) → Vm.IsBlock block ∧ depth? 0 block = some 0 ∧
          (∀ front i back, block = front ++ i :: back →
            ∃ d e, depth? 0 front = some d ∧ i.depthAfter? d = some e ∧
              (∀ name, i = .label name ∨ i = .goto name → d = 0) ∧ (∀ target, i = .ifGoto target → e = 0)) ∧
          ∀ front next d, block = front ++ next → Vm.Flows block next d → depth? 0 front = some d)
        (blocksOf (compile source labels.next).code) (c.placed .wrapped labels.next) := by
  rw [Compilation.resultAfter_deliver_none] at h
  obtain ⟨tokens, c, hi, hl, -, hb, hu⟩ := exists_placed_of_compile h
  refine ⟨Compilation.bytes_deliver_none .., tokens, c, hi, hl, ?_⟩
  rw [hb, List.forall₂_map_left_iff, List.forall₂_same]
  intro u hm hcalls
  have hlevels := Placed.levels_code (hu u hm)
  rw [← Placed.code_wrapped hcalls] at hlevels
  refine ⟨u.isBlock_code .wrapped, hlevels.depth, ?_, ?_⟩
  · intro front i back hsplit
    obtain ⟨d, e, hd, he, hr⟩ := hlevels.exists_depthAfter? hsplit
    refine ⟨d, e, hd, he, ?_, ?_⟩
    · rintro name (rfl | rfl)
      · exact hr
      · exact hr
    · rintro target rfl
      exact Vm.depthAfter?_of_rests hr rfl he
  · intro front next d hsplit hf
    obtain ⟨front', hsplit', hd⟩ := hlevels.exists_of_flows hf
    obtain rfl : front = front' := List.append_cancel_right (hsplit.symm.trans hsplit')
    exact hd

/-- A function that calls another with two arguments, from inside a loop. -/
def callsSource : String :=
  "class A { function int f(int x) { while (x) { let x = 1 + B.g(x, 2); } return x; } }"

def callsClass : Syntax.Class where
  name := "A"
  members := [
    .routine {
      kind := .function, result? := some .int, name := "f", parameters := [{ type := .int, name := "x" }], locals := []
      body :=
        .cons (.while_ (.of (.read "x") .none) (.cons (.assign "x" (.of (.integer 1) (.more .add
          (.callOn "B" "g" (.more (.of (.read "x") .none) (.more (.of (.integer 2) .none) .none))) .none))) .nil))
        (.cons (.returnValue (.of (.read "x") .none)) .nil) }]

def callsBlock : List Vm.Instruction :=
  [.function "A.f" 0, .label "WHILELABEL0", .push .argument 0, .compute .not, .ifGoto "WHILELABEL1",
    .push .constant 1, .push .argument 0, .push .constant 2, .call "B.g" 2, .compute .add, .pop .argument 0,
    .goto "WHILELABEL0", .label "WHILELABEL1", .push .argument 0, .return_]

/-- In front of the call there are three values, and at the first label there is none, however often the loop
was run. -/
theorem depth_of_compile_calls :
    blocksOf (compile callsSource 0).code = [callsBlock] ∧ depth? 0 callsBlock = some 0 ∧
      (∃ e, depth? 0 (callsBlock.take 8) = some 3 ∧ (Vm.Instruction.call "B.g" 2).depthAfter? 3 = some e) ∧
      ∀ d, Vm.Flows callsBlock (callsBlock.drop 1) d → d = 0 := by
  have hrun : (compile callsSource 0).result.isOk = true ∧ blocksOf (compile callsSource 0).code = [callsBlock] ∧
      (Item.ofSource callsSource).filterMap (fun item => item.toOption.map (·.lexeme)) = callsClass.lexemes ∧
      (callsClass.placed .wrapped 0).map (Placed.code · .exact) = [callsBlock] := by
    decide +kernel
  obtain ⟨hok, hblock, hlexemes, hexact⟩ := hrun
  obtain ⟨-, tokens, c, hi, hl, hblocks⟩ := depth_of_compile callsSource { next := 0 } (resultAfter_of_isOk hok)
  obtain rfl : c = callsClass := Class.eq_of_lexemes (by rw [hl, map_lexeme_of_ok hi, hlexemes])
  obtain ⟨u, hu, hcode⟩ := List.map_eq_singleton_iff.mp hexact
  have hcalls : CallsFit (u.code .exact) := by
    rw [hcode]
    decide
  rw [hblock, hu] at hblocks
  obtain ⟨hone, -⟩ := List.forall₂_cons.mp hblocks
  obtain ⟨-, hend, hplaces, hpaths⟩ := hone hcalls
  obtain ⟨d, e, hd, he, -, -⟩ := hplaces (callsBlock.take 8) (.call "B.g" 2) (callsBlock.drop 9) rfl
  have hthree : depth? 0 (callsBlock.take 8) = some 3 := by decide
  obtain rfl : d = 3 := Option.some.inj (hd.symm.trans hthree)
  refine ⟨hblock, hend, ⟨e, hthree, he⟩, fun d hf => ?_⟩
  exact Option.some.inj ((hpaths (callsBlock.take 1) (callsBlock.drop 1) d rfl hf).symm.trans (by decide))

end JackToVm
