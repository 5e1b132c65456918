import JackToVm.Proofs.Delivery
import JackToVm.Proofs.Distinct
import JackToVm.Proofs.Parallel

/-!
Which label numbers a class takes. Whatever becomes of the class, a label that is set or jumped to has a number
that was drawn in front of it (`has_of_mention`). When the class compiles, two numbers were drawn for each
branch and each loop, and each number is that of one label.
-/

namespace JackToVm
open Event (drawsOf drawsOf_append)
open Vm.Labels (Has)

/-! ### Numbers of a run -/

theorem Vm.Instruction.Twins.has_of_mention {a b m : Nat} {i j : Vm.Instruction} {x : String} (h : i.Twins a b m j)
    (hx : i.mention? = some x) : ∃ k < m, Has x (a + k) := by
  have hlabel {y z : String} (hyz : Vm.Labels.Twins a b m y z) : ∃ k < m, Has y (a + k) := by
    obtain ⟨k, hk, ⟨rfl, -⟩ | ⟨rfl, -⟩⟩ := hyz
    · exact ⟨k, hk, Or.inl rfl⟩
    · exact ⟨k, hk, Or.inr rfl⟩
  cases h with
  | same h =>
    rw [h] at hx
    cases hx
  | label h => cases hx; exact hlabel h
  | goto h => cases hx; exact hlabel h
  | ifGoto h => cases hx; exact hlabel h

namespace Event.Twins
variable {a b m n : Nat} {events events' : List Event}

/-- Both runs draw the numbers that are counted. -/
theorem eq_add_drawsOf (h : Event.Twins a b m events events' n) :
    n = m + drawsOf events ∧ n = m + drawsOf events' := by
  induction h with
  | nil => exact ⟨rfl, rfl⟩
  | @drew m n events events' _ ih =>
    have hcons (k : Nat) (es : List Event) : m + drawsOf (.drew k :: es) = m + 1 + drawsOf es := by
      rw [← List.singleton_append, drawsOf_append, ← Nat.add_assoc]
      rfl
    rw [hcons, hcons]
    exact ih
  | _ => assumption

/-- A label has a number that is drawn in front of it. -/
theorem has_of_mention (h : Event.Twins a b m events events' n) {front back : List Event} {i : Vm.Instruction}
    {x : String} (hs : events = front ++ .wrote i :: back) (hx : i.mention? = some x) :
    ∃ k < m + drawsOf front, Has x (a + k) := by
  induction h generalizing front with
  | nil => simp at hs
  | wrote hij _ ih =>
    rcases List.cons_eq_append_iff.mp hs with ⟨rfl, heq⟩ | ⟨front, rfl, heq⟩
    · cases heq
      exact hij.has_of_mention hx
    · exact (ih heq :)
  | @drew m _ _ _ _ ih =>
    rcases List.cons_eq_append_iff.mp hs with ⟨rfl, heq⟩ | ⟨front, rfl, heq⟩
    · cases heq
    · obtain ⟨k, hk, hhas⟩ := ih heq
      refine ⟨k, ?_, hhas⟩
      rwa [← List.singleton_append, drawsOf_append, ← Nat.add_assoc]
  | enteredClass name _ ih =>
    rcases List.cons_eq_append_iff.mp hs with ⟨rfl, heq⟩ | ⟨front, rfl, heq⟩
    · cases heq
    · exact (ih heq :)
  | enteredRoutine kind className name _ ih =>
    rcases List.cons_eq_append_iff.mp hs with ⟨rfl, heq⟩ | ⟨front, rfl, heq⟩
    · cases heq
    · exact (ih heq :)

end Event.Twins

/-- What is set or jumped to in the first events of a class has a number that is drawn in these events. -/
theorem has_of_mention {source : String} {start : Nat} {front : List Event} {i : Vm.Instruction} {x : String}
    (hf : front <+: (compile source start).trace) (hi : .wrote i ∈ front) (hx : i.mention? = some x) :
    ∃ k, Has x k ∧ start ≤ k ∧ k < start + drawsOf front := by
  obtain ⟨⟨n, hn⟩, -⟩ := compile_twins source start start
  obtain ⟨back, hback⟩ := hf
  obtain ⟨before, behind, rfl⟩ := List.append_of_mem hi
  rw [← hback, List.append_assoc, List.cons_append] at hn
  obtain ⟨k, hk, hhas⟩ := hn.has_of_mention rfl hx
  refine ⟨start + k, hhas, Nat.le_add_right start k, ?_⟩
  rw [drawsOf_append]
  omega

/-! ### Numbers of a tree -/

/-- Tells whether a lexeme starts a branch or a loop. -/
def Lexeme.isIfOrWhile : Lexeme → Bool
  | .keyword .if_ | .keyword .while_ => true
  | _ => false

/-- How many branches and loops start in a phrase. -/
def Phrase.jumps (p : Phrase) : Nat :=
  p.lexemes.countP Lexeme.isIfOrWhile

namespace Phrase

@[simp] theorem jumps_nil : ({} : Phrase).jumps = 0 := rfl

@[simp] theorem jumps_append (p q : Phrase) : (p ++ q).jumps = p.jumps + q.jumps :=
  List.countP_append

@[simp] theorem jumps_token (l : Lexeme) : (token l).jumps = if l.isIfOrWhile then 1 else 0 := by
  simp [jumps]

@[simp] theorem jumps_keyword (word : Keyword) :
    (keyword word).jumps = if (Lexeme.keyword word).isIfOrWhile then 1 else 0 :=
  jumps_token _

@[simp] theorem jumps_symbol (x : Symbol) : (symbol x).jumps = 0 := rfl

@[simp] theorem jumps_name (x : String) : (name x).jumps = 0 := rfl

@[simp] theorem jumps_use (x : String) : (use x).jumps = 0 := rfl

theorem jumps_join {α : Type} {f : α → Phrase} (h : ∀ a, (f a).jumps = 0) (as : List α) :
    (join f as).jumps = 0 := by
  induction as with
  | nil => rfl
  | cons a as ih => rw [join_cons, jumps_append, h, ih]

end Phrase

namespace Syntax

mutual

theorem Term.jumps_phrase : ∀ t : Term, t.phrase.jumps = 0
  | .integer _ => rfl
  | .string _ => rfl
  | .constant value => by cases value <;> rfl
  | .read _ => rfl
  | .element _ index => by simp [Term.phrase, index.jumps_phrase]
  | .call _ arguments => by simp [Term.phrase, arguments.jumps_phrase]
  | .callOn _ _ arguments => by simp [Term.phrase, arguments.jumps_phrase]
  | .group inside => by simp [Term.phrase, inside.jumps_phrase]
  | .unary _ operand => by simp [Term.phrase, operand.jumps_phrase]

theorem Expression.jumps_phrase : ∀ e : Expression, e.phrase.jumps = 0
  | .of first rest => by simp [Expression.phrase, first.jumps_phrase, rest.jumps_phrase]

theorem Operations.jumps_phrase : ∀ o : Operations, o.phrase.jumps = 0
  | .none => rfl
  | .more _ operand rest => by simp [Operations.phrase, operand.jumps_phrase, rest.jumps_phrase]

theorem Arguments.jumps_phrase : ∀ a : Arguments, a.phrase.jumps = 0
  | .none => rfl
  | .more first rest => by simp [Arguments.phrase, first.jumps_phrase, rest.jumps_tailPhrase]

theorem Arguments.jumps_tailPhrase : ∀ a : Arguments, a.tailPhrase.jumps = 0
  | .none => rfl
  | .more first rest => by simp [Arguments.tailPhrase, first.jumps_phrase, rest.jumps_tailPhrase]

end

mutual

/-- A statement takes two numbers for each branch and each loop in it. -/
theorem Statement.draws_eq : ∀ s : Statement, s.draws = 2 * s.phrase.jumps
  | .assign _ value => by
    simp [Statement.phrase, Statement.draws, Lexeme.isIfOrWhile, value.jumps_phrase]
  | .assignElement _ index value => by
    simp [Statement.phrase, Statement.draws, Lexeme.isIfOrWhile, index.jumps_phrase, value.jumps_phrase]
  | .if_ condition body => by
    have hb := body.draws_eq
    simp [Statement.phrase, Statement.draws, Expression.conditionPhrase, Lexeme.isIfOrWhile, condition.jumps_phrase]
    omega
  | .ifElse condition body alternative => by
    have hb := body.draws_eq
    have ha := alternative.draws_eq
    simp [Statement.phrase, Statement.draws, Expression.conditionPhrase, Lexeme.isIfOrWhile, condition.jumps_phrase]
    omega
  | .while_ condition body => by
    have hb := body.draws_eq
    simp [Statement.phrase, Statement.draws, Expression.conditionPhrase, Lexeme.isIfOrWhile, condition.jumps_phrase]
    omega
  | .do_ term => by simp [Statement.phrase, Statement.draws, Lexeme.isIfOrWhile, term.jumps_phrase]
  | .return_ => rfl
  | .returnValue value => by simp [Statement.phrase, Statement.draws, Lexeme.isIfOrWhile, value.jumps_phrase]

theorem Block.draws_eq : ∀ b : Block, b.draws = 2 * b.phrase.jumps
  | .nil => rfl
  | .cons first rest => by
    rw [Block.draws, Block.phrase, Phrase.jumps_append, first.draws_eq, rest.draws_eq, Nat.mul_add]

end

@[simp] theorem TypeName.isIfOrWhile_lexeme (type : TypeName) : type.lexeme.isIfOrWhile = false := by
  cases type <;> rfl

theorem Declaration.jumps_phrase (d : Declaration) : d.phrase.jumps = 0 := by
  simp [phrase, moreNames, Phrase.jumps_join]

theorem Parameter.jumps_phrase (p : Parameter) : p.phrase.jumps = 0 := by
  simp [phrase]

theorem Parameter.jumps_listPhrase (ps : List Parameter) : (listPhrase ps).jumps = 0 := by
  cases ps <;> simp [listPhrase, tailPhrase, Phrase.jumps_join, jumps_phrase]

theorem Routine.jumps_headPhrase (r : Routine) : r.headPhrase.jumps = 0 := by
  have hkind : (Lexeme.keyword (kindWord r.kind)).isIfOrWhile = false := by cases r.kind <;> rfl
  have hresult : (resultLexeme r.result?).isIfOrWhile = false := by
    cases r.result? with
    | none => rfl
    | some type => exact type.isIfOrWhile_lexeme
  have hlocals : (localsPhrase r.locals).jumps = 0 :=
    Phrase.jumps_join (fun d => by simp [Lexeme.isIfOrWhile, d.jumps_phrase]) r.locals
  simp [headPhrase, hkind, hresult, hlocals, Parameter.jumps_listPhrase]

theorem Member.draws_eq (m : Member) : m.draws = 2 * m.phrase.jumps := by
  cases m with
  | statics d => simp [draws, phrase, Lexeme.isIfOrWhile, d.jumps_phrase]
  | fields d => simp [draws, phrase, Lexeme.isIfOrWhile, d.jumps_phrase]
  | routine r => simp [draws, phrase, Routine.phrase, r.jumps_headPhrase, r.body.draws_eq]

/-- A class takes two numbers for each branch and each loop in it. -/
theorem Class.draws_eq (c : Class) : c.draws = 2 * c.lexemes.countP Lexeme.isIfOrWhile := by
  have hmembers : ∀ ms : List Member, (ms.map Member.draws).sum = 2 * (Phrase.join Member.phrase ms).jumps := by
    intro ms
    induction ms with
    | nil => rfl
    | cons m ms ih =>
      rw [List.map_cons, List.sum_cons, ih, m.draws_eq, Phrase.join_cons, Phrase.jumps_append, Nat.mul_add]
  have hphrase : c.phrase.jumps = (Phrase.join Member.phrase c.members).jumps := by
    simp [phrase, headPhrase, Lexeme.isIfOrWhile]
  rw [draws, hmembers, ← hphrase]
  rfl

/-- The label counter behind members. -/
theorem Member.next_leave (ms : List Member) (s : State) :
    (leave ms s).labels.next = s.labels.next + (ms.map draws).sum := by
  fun_induction leave ms s with
  | case1 => rfl
  | case2 s r ms ih =>
    rw [ih, State.next_drawn, Routine.next_entered, List.map_cons, List.sum_cons, ← Nat.add_assoc]
    rfl
  | case3 s m ms hm ih => rw [ih, List.map_cons, List.sum_cons, draws_eq_zero hm, Nat.zero_add]

end Syntax

/-! ### Numbers of a class that compiles -/

/-- A class that compiles has a tree, and the numbers drawn are those that the tree takes. -/
theorem exists_numbered_of_compile {source : String} {n : Nat} (h : (compile source n).result = .ok ()) :
    ∃ (tokens : List Token) (c : Syntax.Class), Item.ofSource source = tokens.map .ok ∧
      c.lexemes = tokens.map (·.lexeme) ∧ (compile source n).code = c.code .wrapped n ∧
      (compile source n).draws = c.draws := by
  obtain ⟨tokens, c, hi, hl, -, hc, hr⟩ := exists_run_of_compile h
  refine ⟨tokens, c, hi, hl, hc, ?_⟩
  have htokens : List.Forall₂ (Token.Twins Eq) tokens tokens := List.forall₂_same.mpr fun _ _ => ⟨rfl, rfl⟩
  obtain ⟨k, _, _, s, -, he, -, hs⟩ := hr.twins htokens (.of_plain (by simp [Goal.ofClass, Goal.isPlain]))
    (State.Twins.mk "" {} {} : State.Twins n n 0 _ _)
  have hk : k = (compile source n).draws := by
    rw [he.eq_add_drawsOf.1, Nat.zero_add]
    rfl
  have hnext := hs.next.1
  rw [Syntax.Member.next_leave] at hnext
  change n + c.draws = n + k at hnext
  omega

end JackToVm
