import JackToVm.Proofs.Complete
import JackToVm.Proofs.Lexing
import JackToVm.Proofs.Refinement

/-!
Which sources compile: those without a lexical error whose tokens are the lexemes of a class in which every
name that is used as a variable is declared for the subroutine that uses it (`Class.Scoped`).
-/

namespace JackToVm

/-! ### Scoping -/

theorem Scope.get?_defineAll_eq_none (k : Counting) (s : Scope) (bindings : List Binding) (x : String) :
    (s.defineAll k bindings).get? x = none ↔ x ∉ bindings.map (·.name) ∧ s.get? x = none := by
  induction bindings generalizing s with
  | nil => simp
  | cons b bindings ih =>
    rw [defineAll_cons, ih, enter, get?_record]
    by_cases hb : b.name = x
    · simp [hb]
    · simp [hb, Ne.symm hb]

namespace Syntax

def Declaration.names (d : Declaration) : List String :=
  d.first :: d.more

/-- The parameters and local variables of a subroutine. -/
def Routine.declares (r : Routine) : List String :=
  r.parameters.map (·.name) ++ r.locals.flatMap Declaration.names

def Member.declares : Member → List String
  | .statics d | .fields d => d.names
  | .routine _ => []

/-- Every name that a subroutine uses as a variable is a parameter or a local variable of it, or a class
variable declared in front of it. -/
def Class.Scoped (c : Class) : Prop :=
  ∀ front r back, c.members = front ++ .routine r :: back →
    ∀ u ∈ r.body.phrase.uses, u.name ∈ r.declares ∨ u.name ∈ front.flatMap Member.declares

theorem map_name_bindings (kind : Kind) (d : Declaration) : (d.bindings kind).map (·.name) = d.names := by
  simp [Declaration.bindings, bindingsOf, Declaration.names, Function.comp_def]

theorem Member.map_name_bindings (ms : List Member) :
    (ms.flatMap bindings).map (·.name) = ms.flatMap declares := by
  induction ms with
  | nil => rfl
  | cons m ms ih => cases m <;> simp [bindings, declares, Syntax.map_name_bindings, ih]

theorem Routine.map_name_bindings (className : String) (r : Routine) :
    (r.bindings className).map (·.name) = (receiver className r.kind).map (·.name) ++ r.declares := by
  simp [bindings, declares, Parameter.binding, Function.comp_def, List.map_flatMap, Syntax.map_name_bindings]

/-- A name is no variable of a subroutine when it is declared neither in it nor in front of it. A receiver is
a variable called `this`. -/
theorem Routine.lookup?_eq_none {className : String} {r : Routine} {front : List Member} {x : String} :
    (r.environment .wrapped className
        (({} : Scope).defineAll .wrapped (front.flatMap Member.bindings))).lookup? x = none ↔
      x ∉ (receiver className r.kind).map (·.name) ∧ x ∉ r.declares ∧ x ∉ front.flatMap Member.declares := by
  have hor : ∀ {a b : Option Variable}, (a <|> b) = none ↔ a = none ∧ b = none := by simp
  simp only [Environment.lookup?, environment, hor, Scope.get?_defineAll_eq_none, Scope.get?_empty, and_true,
    map_name_bindings, Member.map_name_bindings, List.mem_append, not_or, and_assoc]

theorem Routine.mem_uses_unbound {r : Routine} {env : Environment} {rest : List Lexeme} {u : Use} :
    u ∈ (r.phrase.unbound env).uses.map (·.before rest) ↔
      ∃ v ∈ r.body.phrase.uses, env.lookup? v.name = none ∧ u = v.before (.symbol .rightBrace :: rest) := by
  simp only [Phrase.unbound, phrase, Phrase.uses_append, uses_headPhrase, Phrase.uses_symbol, List.map_nil,
    List.nil_append, List.append_nil, List.mem_map, List.mem_filter, Option.isNone_iff_eq_none]
  constructor
  · rintro ⟨_, ⟨⟨v, hv, rfl⟩, hn⟩, rfl⟩
    exact ⟨v, hv, hn, by simp⟩
  · rintro ⟨v, hv, hn, rfl⟩
    exact ⟨_, ⟨⟨v, hv, rfl⟩, hn⟩, by simp⟩

/-- A use that is left in the phrase of members stands in a subroutine for which its name is no variable. -/
theorem Member.mem_uses_unbound {className : String} {ms : List Member} {scope : Scope} {u : Use} :
    u ∈ (unbound className ms scope).uses ↔
      ∃ front r back v, ms = front ++ .routine r :: back ∧ v ∈ r.body.phrase.uses ∧
        (r.environment .wrapped className (scope.defineAll .wrapped (front.flatMap bindings))).lookup? v.name = none ∧
        u = v.before (.symbol .rightBrace :: (Phrase.join phrase back).lexemes) := by
  induction ms generalizing scope with
  | nil => simp [unbound]
  | cons m ms ih =>
    -- The use stands in the first member, if that is a subroutine, or in the others.
    have split : u ∈ (unbound className (m :: ms) scope).uses ↔
        (∃ r v, m = .routine r ∧ v ∈ r.body.phrase.uses ∧
          (r.environment .wrapped className scope).lookup? v.name = none ∧
          u = v.before (.symbol .rightBrace :: (Phrase.join phrase ms).lexemes)) ∨
        u ∈ (unbound className ms (scope.defineAll .wrapped m.bindings)).uses := by
      cases m with
      | routine r =>
        rw [unbound, Phrase.uses_append, List.mem_append, Routine.mem_uses_unbound, lexemes_unbound]
        simp [bindings]
      | _ => simp [unbound, phrase]
    rw [split, ih]
    constructor
    · rintro (⟨r, v, rfl, hv, hn, rfl⟩ | ⟨front, r, back, v, rfl, hv, hn, rfl⟩)
      · exact ⟨[], r, ms, v, rfl, hv, hn, rfl⟩
      · exact ⟨m :: front, r, back, v, rfl, hv, by simpa using hn, rfl⟩
    · rintro ⟨front, r, back, v, hms, hv, hn, rfl⟩
      cases front with
      | nil =>
        obtain ⟨rfl, rfl⟩ := List.cons.inj hms
        exact Or.inl ⟨r, v, rfl, hv, hn, rfl⟩
      | cons m' front =>
        obtain ⟨rfl, rfl⟩ := List.cons.inj hms
        exact Or.inr ⟨front, r, back, v, rfl, hv, by simpa using hn, rfl⟩

theorem Class.mem_uses_unbound {c : Class} {u : Use} :
    u ∈ c.unbound.uses ↔
      ∃ front r back v, c.members = front ++ .routine r :: back ∧ v ∈ r.body.phrase.uses ∧
        (r.environment .wrapped c.name
          (({} : Scope).defineAll .wrapped (front.flatMap Member.bindings))).lookup? v.name = none ∧
        u = v.before (.symbol .rightBrace :: (Phrase.join Member.phrase back).lexemes ++ [.symbol .rightBrace]) := by
  have hu : c.unbound.uses = (Member.unbound c.name c.members {}).uses.map (·.before [.symbol .rightBrace]) := by
    simp [unbound, headPhrase]
  rw [hu, List.mem_map]
  constructor
  · rintro ⟨w, hw, rfl⟩
    obtain ⟨front, r, back, v, hms, hv, hn, rfl⟩ := Member.mem_uses_unbound.mp hw
    exact ⟨front, r, back, v, hms, hv, hn, by simp⟩
  · rintro ⟨front, r, back, v, hms, hv, hn, rfl⟩
    exact ⟨_, Member.mem_uses_unbound.mpr ⟨front, r, back, v, hms, hv, hn, rfl⟩, by simp⟩

/-! ### Names of uses -/

end Syntax

/-- Each use stands in the phrase where it says: its name, with its rest behind it. -/
def Phrase.Named (p : Phrase) : Prop :=
  ∀ u ∈ p.uses, ∃ front, p.lexemes = front ++ .identifier u.name :: u.rest

theorem Phrase.Named.append {p q : Phrase} (hp : p.Named) (hq : q.Named) : (p ++ q).Named := by
  intro u hu
  rw [uses_append, List.mem_append, List.mem_map] at hu
  rcases hu with ⟨v, hv, rfl⟩ | hu
  · obtain ⟨front, hf⟩ := hp v hv
    exact ⟨front, by simp [hf]⟩
  · obtain ⟨front, hf⟩ := hq u hu
    exact ⟨p.lexemes ++ front, by simp [hf]⟩

theorem Phrase.named_token (l : Lexeme) : (token l).Named := by
  intro u hu
  cases hu

/-- A token changes nothing for the uses in front of it. -/
theorem Phrase.Named.token {p : Phrase} (hp : p.Named) (l : Lexeme) : (p ++ .token l).Named :=
  hp.append (named_token l)

theorem Phrase.named_use (x : String) : (Phrase.name x ++ .use x).Named := by
  intro u hu
  simp only [uses_append, uses_name, List.map_nil, List.nil_append, uses_use, List.mem_singleton] at hu
  subst hu
  exact ⟨[], rfl⟩

namespace Syntax

mutual

theorem Term.named : (t : Term) → t.phrase.Named
  | .integer _ | .string _ | .constant _ => Phrase.named_token _
  | .read x => Phrase.named_use x
  | .element x index => (((Phrase.named_use x).token _).append index.named).token _
  | .call _ arguments => (((Phrase.named_token _).token _).append arguments.named).token _
  | .callOn _ _ arguments =>
    (((((Phrase.named_token _).token _).token _).token _).append arguments.named).token _
  | .group inside => ((Phrase.named_token _).append inside.named).token _
  | .unary _ operand => (Phrase.named_token _).append operand.named

theorem Expression.named : (e : Expression) → e.phrase.Named
  | .of first rest => first.named.append rest.named

theorem Operations.named : (ops : Operations) → ops.phrase.Named
  | .none => by
    intro u hu
    cases hu
  | .more _ operand rest => ((Phrase.named_token _).append operand.named).append rest.named

theorem Arguments.named : (as : Arguments) → as.phrase.Named
  | .none => by
    intro u hu
    cases hu
  | .more first rest => first.named.append rest.tail_named

theorem Arguments.tail_named : (as : Arguments) → as.tailPhrase.Named
  | .none => by
    intro u hu
    cases hu
  | .more first rest => ((Phrase.named_token _).append first.named).append rest.tail_named

end

theorem Expression.condition_named (e : Expression) : e.conditionPhrase.Named :=
  ((Phrase.named_token _).append e.named).token _

mutual

theorem Statement.named : (s : Statement) → s.phrase.Named
  | .assign x value => by
    have h := ((Phrase.named_token (.keyword .let_)).append (Phrase.named_use x)).token (.symbol .eq)
    rw [← Phrase.append_assoc] at h
    exact (h.append value.named).token _
  | .assignElement x index value => by
    have h := ((Phrase.named_token (.keyword .let_)).append (Phrase.named_use x)).token (.symbol .leftBracket)
    rw [← Phrase.append_assoc] at h
    exact ((((h.append index.named).token _).token _).append value.named).token _
  | .if_ condition body =>
    ((((Phrase.named_token _).append condition.condition_named).token _).append body.named).token _
  | .ifElse condition body alternative =>
    (((((((Phrase.named_token _).append condition.condition_named).token _).append body.named).token _).token _).token
      _ |>.append alternative.named).token _
  | .while_ condition body =>
    ((((Phrase.named_token _).append condition.condition_named).token _).append body.named).token _
  | .do_ term => ((Phrase.named_token _).append term.named).token _
  | .return_ => (Phrase.named_token _).token _
  | .returnValue value => ((Phrase.named_token _).append value.named).token _

theorem Block.named : (b : Block) → b.phrase.Named
  | .nil => by
    intro u hu
    cases hu
  | .cons first rest => first.named.append rest.named

end

/-- What a class uses as a variable stands as an identifier in its text. -/
theorem Class.identifier_mem_lexemes {c : Class} {front back : List Member} {r : Routine} {u : Use}
    (hc : c.members = front ++ .routine r :: back) (hu : u ∈ r.body.phrase.uses) :
    .identifier u.name ∈ c.lexemes := by
  obtain ⟨before, hb⟩ := r.body.named u hu
  simp [lexemes, phrase, hc, Member.phrase, Routine.phrase, hb]

/-- A class whose text has no identifier `this` is scoped when no use of a name is left that is no variable. -/
theorem Class.scoped_iff {c : Class} (hthis : .identifier "this" ∉ c.lexemes) :
    c.Scoped ↔ c.unbound.uses = [] := by
  rw [List.eq_nil_iff_forall_not_mem]
  constructor
  · intro hs u hu
    obtain ⟨front, r, back, v, hms, hv, hn, -⟩ := Class.mem_uses_unbound.mp hu
    obtain ⟨-, hr, hf⟩ := Routine.lookup?_eq_none.mp hn
    rcases hs front r back hms v hv with h | h
    · exact hr h
    · exact hf h
  · intro hall front r back hms v hv
    by_cases hr : v.name ∈ r.declares
    · exact Or.inl hr
    by_cases hf : v.name ∈ front.flatMap Member.declares
    · exact Or.inr hf
    have hreceiver : v.name ∉ (Routine.receiver c.name r.kind).map (·.name) := by
      intro hmem
      have hname : v.name = "this" := by
        cases hk : r.kind with
        | function => simp [Routine.receiver, hk] at hmem
        | _ => simpa [Routine.receiver, hk] using hmem
      exact hthis (hname ▸ Class.identifier_mem_lexemes hms hv)
    have hn := Routine.lookup?_eq_none.mpr ⟨hreceiver, hr, hf⟩
    exact absurd (Class.mem_uses_unbound.mpr ⟨front, r, back, v, hms, hv, hn, rfl⟩) (hall _)

end Syntax

/-! ### Acceptance -/

open Syntax

/-- No identifier of a source is called `this`. -/
theorem this_not_mem_of_ofSource {source : String} {tokens : List Token}
    (h : Item.ofSource source = tokens.map .ok) : .identifier "this" ∉ tokens.map (·.lexeme) := by
  intro hmem
  obtain ⟨t, ht, hx⟩ := List.mem_map.mp hmem
  have hin : .ok t ∈ Item.ofSource source := by
    rw [h]
    exact List.mem_map_of_mem ht
  obtain ⟨-, hk⟩ := Item.identifier_of_mem_ofSource hin hx
  cases hk

/-- A source compiles exactly when it has no lexical error and its tokens are those of a class whose
variables are declared where they are used. -/
theorem compile_eq_ok_iff (source : String) (labels : Vm.Labels) :
    (compile source labels.next).resultAfter ((compile source labels.next).deliver none labels) = .ok () ↔
      ∃ (tokens : List Token) (c : Syntax.Class), Item.ofSource source = tokens.map .ok ∧
        c.lexemes = tokens.map (·.lexeme) ∧ c.Scoped := by
  rw [Compilation.resultAfter_deliver_none]
  constructor
  · intro h
    obtain ⟨tokens, c, hi, hl, hu, -⟩ := exists_tree_of_compile h
    have hthis := this_not_mem_of_ofSource hi
    rw [← hl] at hthis
    exact ⟨tokens, c, hi, hl, (Class.scoped_iff hthis).mpr hu⟩
  · rintro ⟨tokens, c, hi, hl, hs⟩
    have hthis := this_not_mem_of_ofSource hi
    rw [← hl] at hthis
    have hm : Goal.MeetsAll Goal.ofClass { labels := { next := labels.next } } _ _ :=
      Goal.meetsAll_ofClass.mpr ⟨c, rfl, rfl⟩
    rw [compile, hi]
    exact Goal.run_of_meetsAll _ Goal.separated_ofClass hm (by simpa using hl) ((Class.scoped_iff hthis).mp hs)

end JackToVm
