import Mathlib.Data.List.Forall2
import Mathlib.Data.List.SplitBy
import JackToVm.Proofs.Acceptance
import JackToVm.Proofs.Distinct

/-!
The output of a class, cut at its `function` lines. There is one block for each subroutine, in their order
(`Class.blocksOf_code`). A block ends in a `return` exactly when its subroutine returns nothing or has a
`return` as its last statement; control falls out of every other block.
-/

namespace JackToVm

namespace Vm

def Instruction.isFunction : Instruction → Bool
  | .function .. => true
  | _ => false

/-- The blocks of code: each goes from a `function` line up to the next one. -/
def blocksOf (code : List Instruction) : List (List Instruction) :=
  code.splitBy fun _ next => !next.isFunction

/-- A header, and code behind it that has no other. -/
def IsBlock (block : List Instruction) : Prop :=
  ∃ name locals body, block = .function name locals :: body ∧ ∀ i ∈ body, i.isFunction = false

theorem IsBlock.blocksOf_append {block code : List Instruction} (hb : IsBlock block)
    (hc : ∀ i ∈ code.head?, i.isFunction = true) : blocksOf (block ++ code) = block :: blocksOf code := by
  obtain ⟨name, locals, body, rfl, hbody⟩ := hb
  have hchain : (Instruction.function name locals :: body).IsChain fun _ next => (!next.isFunction) = true := by
    refine List.Pairwise.isChain (List.pairwise_cons.mpr ⟨?_, List.pairwise_of_forall_mem_list ?_⟩)
    · intro i hi
      rw [hbody i hi, Bool.not_false]
    · intro _ _ i hi
      rw [hbody i hi, Bool.not_false]
  have hone := List.splitBy_of_isChain (List.cons_ne_nil _ _) hchain
  rw [blocksOf, List.splitBy_append, hone, List.singleton_append, blocksOf]
  intro _ _ i hi
  rw [hc i hi, Bool.not_true]

theorem blocksOf_flatMap {α : Type} {f : α → List Instruction} (hf : ∀ a, IsBlock (f a)) (as : List α) :
    blocksOf (as.flatMap f) = as.map f := by
  induction as with
  | nil => rfl
  | cons a as ih =>
    rw [List.flatMap_cons, (hf a).blocksOf_append, ih, List.map_cons]
    intro i hi
    cases as with
    | nil => cases hi
    | cons a' as =>
      obtain ⟨name, locals, body, hbody, -⟩ := hf a'
      rw [List.flatMap_cons, hbody, List.cons_append, List.head?_cons, Option.mem_some_iff] at hi
      rw [← hi, Instruction.isFunction]

end Vm

namespace Syntax
open Vm (Instruction IsBlock blocksOf)

/-! ### Blocks and subroutines -/

theorem isFunction_of_ofStatement {env : Environment} {i : Instruction} (h : i.OfStatement env) :
    i.isFunction = false := by
  cases h with
  | expression h => cases h <;> rfl
  | _ => rfl

theorem Placed.isBlock_code (k : Counting) (u : Placed) : IsBlock (u.code k) := by
  refine ⟨_, _, u.prologue.tail ++ u.bodyCode k, rfl, ?_⟩
  rw [List.forall_mem_append]
  constructor
  · intro i hi
    cases hk : u.routine.kind <;> simp [prologue, hk] at hi
    · rcases hi with rfl | rfl | rfl <;> rfl
    · rcases hi with rfl | rfl <;> rfl
  · intro i hi
    exact isFunction_of_ofStatement (u.ofStatement_bodyCode i hi)

theorem Class.blocksOf_code (c : Class) (k : Counting) (n : Nat) :
    blocksOf (c.code k n) = (c.placed k n).map (Placed.code · k) :=
  Vm.blocksOf_flatMap (Placed.isBlock_code k) _

def Member.routine? : Member → Option Routine
  | .routine r => some r
  | _ => none

def Class.routines (c : Class) : List Routine :=
  c.members.filterMap Member.routine?

theorem Member.map_routine_place (k : Counting) (className : String) (ms : List Member) (scope : Scope) (n : Nat) :
    (place k className ms scope n).map (·.routine) = ms.filterMap routine? := by
  fun_induction place k className ms scope n with
  | case1 => rfl
  | case2 r ms scope n ih =>
    have hr : (Member.routine r).routine? = some r := rfl
    rw [List.map_cons, ih, List.filterMap_cons_some hr]
  | case3 m ms scope n hm ih =>
    have hr : m.routine? = none := by
      cases m with
      | routine r => exact absurd rfl (hm r)
      | _ => rfl
    rw [ih, List.filterMap_cons_none hr]

theorem Class.map_routine_placed (c : Class) (k : Counting) (n : Nat) :
    (c.placed k n).map (·.routine) = c.routines :=
  Member.map_routine_place k c.name c.members {} n

theorem Member.place_append (k : Counting) (className : String) (front back : List Member) (scope : Scope) (n : Nat) :
    place k className (front ++ back) scope n = place k className front scope n ++
      place k className back (scope.defineAll k (front.flatMap bindings)) (n + (front.map draws).sum) := by
  induction front generalizing scope n with
  | nil => rfl
  | cons m front ih =>
    cases m with
    | routine r =>
      rw [List.cons_append, place, ih, place, List.cons_append]
      simp [bindings, draws, Nat.add_assoc]
    | _ =>
      rw [List.cons_append, place, ih, place]
      · simp [draws]
      all_goals
        intro r hr
        cases hr

/-- A subroutine in its place behind some members. -/
def Routine.behind (r : Routine) (k : Counting) (className : String) (front : List Member) (scope : Scope) (n : Nat) :
    Placed where
  routine := r
  environment := r.environment k className (scope.defineAll k (front.flatMap Member.bindings))
  start := n + (front.map Member.draws).sum

theorem Member.exists_of_mem_place {k : Counting} {className : String} {ms : List Member} {scope : Scope} {n : Nat}
    {u : Placed} (h : u ∈ place k className ms scope n) :
    ∃ front r back, ms = front ++ .routine r :: back ∧ u = r.behind k className front scope n := by
  fun_induction place k className ms scope n with
  | case1 => cases h
  | case2 r ms scope n ih =>
    rcases List.mem_cons.mp h with rfl | h
    · exact ⟨[], r, ms, rfl, rfl⟩
    · obtain ⟨front, r', back, rfl, rfl⟩ := ih h
      exact ⟨.routine r :: front, r', back, rfl, by simp [Routine.behind, bindings, draws, Nat.add_assoc]⟩
  | case3 m ms scope n hm ih =>
    obtain ⟨front, r', back, rfl, rfl⟩ := ih h
    exact ⟨m :: front, r', back, rfl, by simp [Routine.behind, draws_eq_zero hm]⟩

/-- The block of a subroutine is found by counting the subroutines in front of it. -/
theorem Class.getElem?_placed {c : Class} {front back : List Member} {r : Routine}
    (h : c.members = front ++ .routine r :: back) (k : Counting) (n : Nat) :
    (c.placed k n)[(front.filterMap Member.routine?).length]? = some (r.behind k c.name front {} n) := by
  have hlength : (front.filterMap Member.routine?).length = (Member.place k c.name front {} n).length := by
    rw [← Member.map_routine_place k c.name front {} n, List.length_map]
  rw [placed, h, Member.place_append, Member.place, hlength, List.getElem?_append_right (Nat.le_refl _),
    Nat.sub_self, List.getElem?_cons_zero]
  rfl

theorem Class.mem_placed_behind {c : Class} {front back : List Member} {r : Routine}
    (h : c.members = front ++ .routine r :: back) (k : Counting) (n : Nat) :
    r.behind k c.name front {} n ∈ c.placed k n :=
  List.mem_of_getElem? (getElem?_placed h k n)

end Syntax

/-! ### Names that are variables -/

/-- Every name that the phrase uses as a variable is one in the environment. -/
def Phrase.Bound (env : Environment) (p : Phrase) : Prop :=
  ∀ u ∈ p.uses, (env.lookup? u.name).isSome = true

theorem Phrase.bound_append {env : Environment} {p q : Phrase} :
    (p ++ q).Bound env ↔ p.Bound env ∧ q.Bound env := by
  simp only [Bound, uses_append, List.forall_mem_append, List.forall_mem_map, Use.name_before]

theorem Phrase.Bound.lookup? {env : Environment} {x : String} (h : (use x).Bound env) :
    ∃ v, env.lookup? x = some v :=
  Option.isSome_iff_exists.mp (h { name := x, rest := [] } (List.mem_singleton.mpr rfl))

namespace Syntax
open Vm (Instruction)
open Vm.Labels (ifName whileName)

/-- In a class without a name that is no variable, the variables of a subroutine are all in its
environment. -/
theorem Class.bound_of_mem_placed {c : Class} {n : Nat} {u : Placed} (hc : c.unbound.uses = [])
    (h : u ∈ c.placed .wrapped n) : u.routine.body.phrase.Bound u.environment := by
  obtain ⟨front, r, back, hms, rfl⟩ := Member.exists_of_mem_place h
  intro v hv
  by_contra hn
  have hmem := Class.mem_uses_unbound.mpr
    ⟨front, r, back, v, hms, hv, Option.not_isSome_iff_eq_none.mp hn, rfl⟩
  rw [hc] at hmem
  cases hmem

/-! ### The end of a block -/

/-- The code of a statement ends in a `return` when the statement is one, and only then. -/
theorem Statement.getLast?_code {k : Counting} {env : Environment} {s : Statement} (hs : s.phrase.Bound env) (n : Nat) :
    ∃ i, (s.code k env n).getLast? = some i ∧ (i = .return_ ↔ s.isReturn = true) := by
  cases s with
  | assign x value =>
    have hx : (Phrase.use x).Bound env := by
      simp only [Statement.phrase, Phrase.bound_append] at hs
      exact hs.1.1.1.2
    obtain ⟨v, hv⟩ := hx.lookup?
    refine ⟨.popVariable v, ?_, by simp [Instruction.popVariable, isReturn]⟩
    rw [Statement.code, Environment.write_of_lookup? hv, List.getLast?_concat]
  | assignElement x index value =>
    exact ⟨.pop .that 0, by rw [Statement.code, List.getLast?_append]; rfl, by simp [isReturn]⟩
  | if_ condition body =>
    exact ⟨.label (ifName (n + 1)), by rw [Statement.code, List.getLast?_append]; rfl, by simp [isReturn]⟩
  | ifElse condition body alternative =>
    exact ⟨.label (ifName (n + 1)), by rw [Statement.code, List.getLast?_concat], by simp [isReturn]⟩
  | while_ condition body =>
    exact ⟨.label (whileName (n + 1)), by rw [Statement.code, List.getLast?_append]; rfl, by simp [isReturn]⟩
  | do_ term => exact ⟨.pop .temp 0, by rw [Statement.code, List.getLast?_concat], by simp [isReturn]⟩
  | return_ => exact ⟨.return_, rfl, by simp [isReturn]⟩
  | returnValue value => exact ⟨.return_, by rw [Statement.code, List.getLast?_concat], by simp [isReturn]⟩

/-- Code in front of a block, and whether it ends in a `return`, are taken along to the end of the block. -/
theorem Block.getLast?_code {k : Counting} {env : Environment} {n : Nat} {before : List Instruction} {returned : Bool} :
    ∀ {b : Block}, b.phrase.Bound env → (before.getLast? = some .return_ ↔ returned = true) →
      ((before ++ b.code k env n).getLast? = some .return_ ↔ b.endsInReturn returned = true)
  | .nil, _, h => by simpa [Block.code, endsInReturn] using h
  | .cons first rest, hb, _ => by
    rw [Block.phrase, Phrase.bound_append] at hb
    obtain ⟨i, hi, hr⟩ := first.getLast?_code hb.1 n
    rw [Block.code, ← List.append_assoc, endsInReturn]
    refine Block.getLast?_code hb.2 ?_
    rw [List.getLast?_append, hi, Option.some_or, Option.some.injEq, hr]

/-- The block of a subroutine ends in a `return` when the subroutine returns nothing, which adds one, or when
its last statement is one. -/
theorem Placed.getLast?_code {k : Counting} {u : Placed} (hu : u.routine.body.phrase.Bound u.environment) :
    (u.code k).getLast? = some .return_ ↔
      u.routine.result? = none ∨ u.routine.body.endsInReturn false = true := by
  have hp : u.prologue.getLast? = some .return_ ↔ false = true := by
    cases hk : u.routine.kind <;> simp [prologue, hk]
  have hb := Block.getLast?_code (k := k) (n := u.start) hu hp
  rw [code, bodyCode, ← List.append_assoc]
  cases hv : u.routine.result? with
  | none =>
    cases hr : u.routine.body.endsInReturn false with
    | false => simp [epilogue]
    | true => simpa [epilogue, hr] using hb
  | some type => simpa [epilogue] using hb

end Syntax

/-! ### Subroutines of a source -/

open Syntax
open Vm (blocksOf)

theorem resultAfter_of_isOk {source : String} {labels : Vm.Labels}
    (h : (compile source labels.next).result.isOk = true) :
    (compile source labels.next).resultAfter ((compile source labels.next).deliver none labels) = .ok () := by
  rw [Compilation.resultAfter_deliver_none]
  exact eq_ok_of_isOk h

/-- A class that compiles has a tree. Its output has one block for each subroutine of the tree, and what a
subroutine uses as a variable is one. -/
theorem exists_placed_of_compile {source : String} {n : Nat} (h : (compile source n).result = .ok ()) :
    ∃ (tokens : List Token) (c : Syntax.Class), Item.ofSource source = tokens.map .ok ∧
      c.lexemes = tokens.map (·.lexeme) ∧ (compile source n).code = c.code .wrapped n ∧
      blocksOf (compile source n).code = (c.placed .wrapped n).map (Placed.code · .wrapped) ∧
      ∀ u ∈ c.placed .wrapped n, u.routine.body.phrase.Bound u.environment := by
  obtain ⟨tokens, c, hi, hl, hu, hc⟩ := exists_tree_of_compile h
  refine ⟨tokens, c, hi, hl, hc, ?_, fun u hm => Class.bound_of_mem_placed hu hm⟩
  rw [hc, Class.blocksOf_code]

/-- Where control may fall out of a function: when a class compiles, its output has one block for each of its
subroutines, and a block ends in a `return` exactly when its subroutine returns nothing or has a `return` as
its last statement. -/
theorem getLast?_block_eq_return_iff (source : String) (labels : Vm.Labels)
    (h : (compile source labels.next).resultAfter ((compile source labels.next).deliver none labels) = .ok ()) :
    ((compile source labels.next).deliver none labels).sink.bytes = (compile source labels.next).text.toUTF8 ∧
    ∃ (tokens : List Token) (c : Syntax.Class), Item.ofSource source = tokens.map .ok ∧
      c.lexemes = tokens.map (·.lexeme) ∧
      List.Forall₂ (fun block r => block.getLast? = some .return_ ↔
          r.result? = none ∨ r.body.endsInReturn false = true)
        (blocksOf (compile source labels.next).code) c.routines := by
  rw [Compilation.resultAfter_deliver_none] at h
  obtain ⟨tokens, c, hi, hl, -, hb, hu⟩ := exists_placed_of_compile h
  refine ⟨Compilation.bytes_deliver_none .., tokens, c, hi, hl, ?_⟩
  rw [hb, ← c.map_routine_placed .wrapped labels.next, List.forall₂_map_left_iff, List.forall₂_map_right_iff,
    List.forall₂_same]
  intro u hm
  exact Placed.getLast?_code (hu u hm)

/-- A class with a `return` added, a `return` written, and a branch with nothing behind its last label. -/
def endingsSource : String :=
  "class A { method void f() { } function int g() { return 1; } function int h() { if (g()) { return 1; } } }"

theorem getLast?_block_eq_return_iff_endings :
    ∃ c : Syntax.Class,
      List.Forall₂ (fun block r => block.getLast? = some .return_ ↔
          r.result? = none ∨ r.body.endsInReturn false = true)
        (blocksOf (compile endingsSource 0).code) c.routines ∧
      (blocksOf (compile endingsSource 0).code).map (·.getLast?) =
        [some .return_, some .return_, some (.label "IFLABEL1")] := by
  have hrun : (compile endingsSource 0).result.isOk = true ∧
      (blocksOf (compile endingsSource 0).code).map (·.getLast?) =
        [some .return_, some .return_, some (.label "IFLABEL1")] := by
    decide +kernel
  obtain ⟨hok, hlasts⟩ := hrun
  obtain ⟨-, -, c, -, -, hc⟩ := getLast?_block_eq_return_iff endingsSource { next := 0 } (resultAfter_of_isOk hok)
  exact ⟨c, hc, hlasts⟩

/-- Not every block ends in a `return`: a function with a result and no statement is its header alone. -/
theorem not_forall_block_getLast?_eq_return :
    ¬ ∀ (source : String) (labels : Vm.Labels),
      (compile source labels.next).resultAfter ((compile source labels.next).deliver none labels) = .ok () →
      ∀ block ∈ blocksOf (compile source labels.next).code, block.getLast? = some .return_ := by
  intro h
  have hrun : (compile "class A { function int f() { } }" 0).result.isOk = true ∧
      [.function "A.f" 0] ∈ blocksOf (compile "class A { function int f() { } }" 0).code := by
    decide +kernel
  obtain ⟨hok, hmem⟩ := hrun
  have hlast := h "class A { function int f() { } }" { next := 0 } (resultAfter_of_isOk hok) _ hmem
  exact absurd hlast (by decide)

end JackToVm
