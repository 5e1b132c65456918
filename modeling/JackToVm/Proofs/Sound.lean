import JackToVm.Compile
import JackToVm.Proofs.Yield

/-!
The pass builds no tree, but what it takes and writes is that of one. A goal that takes a token and is
replaced by other goals is met when these are (`Goal.meets_of_take`), and a goal that is done without the
token is met by nothing (`Goal.meets_of_done`). Over a run this gives: when a class compiles, its lexemes
are those of a tree without names that are no variables, and the code is the code of that tree.
-/

namespace JackToVm
namespace Goal
open Syntax
open Vm.Labels (ifName whileName)

section
variable {t : Token} {s s₁ s' : State} {events : List Event} {goals : List Goal} {z : Yield}

/-! ### Wanted tokens -/

theorem wantType_of_lexeme {type : TypeName} (h : t.lexeme = type.lexeme) (k : String → Step) :
    wantType t k = k type.text := by
  cases type <;> simp_all [wantType, TypeName.lexeme, TypeName.text]

theorem wantVariable_some {x : String} {v : Variable} (h : s.environment.lookup? x = some v) (span : Span)
    (k : Variable → Step) : wantVariable s x span k = k v := by
  simp [wantVariable, State.lookup?_eq, h]

theorem wantVariable_none {x : String} (h : s.environment.lookup? x = none) (span : Span)
    (k : Variable → Step) : wantVariable s x span k = .fail (.undefined x span) := by
  simp [wantVariable, State.lookup?_eq, h]

theorem lexeme_of_symbol? {x : Symbol} (h : t.symbol? = some x) : t.lexeme = .symbol x := by
  obtain ⟨lexeme, span⟩ := t
  cases lexeme <;> simp_all [Token.symbol?]

theorem wantName_take {k : String → Step} (h : wantName t k = .take events goals s₁) :
    ∃ x, t.lexeme = .identifier x ∧ k x = .take events goals s₁ := by
  obtain ⟨lexeme, span⟩ := t
  cases lexeme with
  | identifier x => exact ⟨x, rfl, h⟩
  | _ => cases h

theorem wantType_take {k : String → Step} (h : wantType t k = .take events goals s₁) :
    ∃ type : TypeName, t.lexeme = type.lexeme ∧ k type.text = .take events goals s₁ := by
  unfold wantType at h
  split at h <;> rename_i hl
  · exact ⟨.int, hl, h⟩
  · exact ⟨.char, hl, h⟩
  · exact ⟨.boolean, hl, h⟩
  · exact ⟨.named _, hl, h⟩
  · cases h

theorem wantVariable_take {x : String} {span : Span} {k : Variable → Step}
    (h : wantVariable s x span k = .take events goals s₁) :
    ∃ v, s.environment.lookup? x = some v ∧ k v = .take events goals s₁ := by
  cases hv : s.environment.lookup? x with
  | some v => exact ⟨v, rfl, by rwa [wantVariable_some hv] at h⟩
  | none =>
    rw [wantVariable_none hv] at h
    cases h

/-! ### Declarations -/

/-- A declaration of class variables in front of members. -/
theorem members_of_variables {kind : Kind} {word : Keyword} {m : Declaration → Member}
    (hp : ∀ d, (m d).phrase = .keyword word ++ d.phrase) (hb : ∀ d, (m d).bindings = d.bindings kind)
    (hr : ∀ d r, m d ≠ .routine r) (hk : kind = .static ∨ kind = .field)
    (hm : MeetsAll [variableType kind, members] s z s') :
    members.Meets s ({ phrase := .keyword word } ++ z) s' := by
  obtain ⟨_, _, z, ⟨d, rfl, rfl⟩, hm, rfl⟩ := hm
  have hd : s.declareAll (d.bindings kind) =
      { s with classScope := s.classScope.defineAll .wrapped (m d).bindings } := by
    rw [hb, d.declareAll_class hk]
  rw [hd] at hm
  obtain ⟨ms, rfl, rfl⟩ := meetsAll_singleton.mp hm
  have hp := hp d
  have hr := hr d
  generalize m d = m at hp hr ⊢
  refine ⟨m :: ms, ?_, ?_⟩
  · cases m with
    | routine r => exact absurd rfl (hr r)
    | _ => ext1 <;> simp [Member.unbound, Member.place, hp]
  · cases m with
    | routine r => exact absurd rfl (hr r)
    | _ => rfl

/-- A subroutine in front of members. -/
theorem members_of_routine (kind : RoutineKind)
    (hm : MeetsAll [returnType kind, members] { s with routineScope := {} } z s') :
    members.Meets s ({ phrase := .keyword (Routine.kindWord kind) } ++ z) s' := by
  obtain ⟨_, _, _, ⟨r, rfl, rfl, rfl⟩, hm, rfl⟩ := hm
  obtain ⟨ms, rfl, rfl⟩ := meetsAll_singleton.mp hm
  refine ⟨.routine r :: ms, ?_, rfl⟩
  ext1 <;> simp [Member.unbound, Member.place, Routine.phrase, Routine.headPhrase, Routine.placedIn,
    Routine.entered_eq, Routine.environment, State.environment, State.drawn]

theorem members_take (h : memberStep t s = .take events goals s₁) (hm : MeetsAll goals s₁ z s') :
    members.Meets s (.taken t.lexeme events ++ z) s' := by
  unfold memberStep at h
  split at h <;> rename_i hl <;> cases h <;> rw [hl]
  · obtain ⟨rfl, rfl⟩ := hm
    exact ⟨[], by ext1 <;> simp [Phrase.symbol, Member.unbound, Member.place], rfl⟩
  · exact members_of_variables (m := .statics) (fun _ => rfl) (fun _ => rfl) (by simp) (Or.inl rfl) hm
  · exact members_of_variables (m := .fields) (fun _ => rfl) (fun _ => rfl) (by simp) (Or.inr rfl) hm
  · exact members_of_routine .constructor_ hm
  · exact members_of_routine .function hm
  · exact members_of_routine .method hm

/-- The declarations inside a subroutine head add up to its environment. -/
theorem entered_of_parts {r : Routine} {kind : RoutineKind} (hk : r.kind = kind) :
    r.entered s = ((s.declareReceiver kind).declareAll (r.parameters.map Parameter.binding)).declareAll
      (r.locals.flatMap (Declaration.bindings .local_)) := by
  subst hk
  cases hk : r.kind <;>
    simp [Routine.entered, Routine.bindings, Routine.receiver, State.declareReceiver, hk]

theorem routineName_of_parts {kind : RoutineKind} {void : Bool} {name : String}
    (hm : MeetsAll [emit (.enteredRoutine kind s.className name), symbol .leftParen, parameters,
      symbol .leftBrace, locals kind name, statements void false] (s.declareReceiver kind) z s') :
    (routineName kind void).Meets s ({ phrase := .name name } ++ z) s' := by
  simp only [meetsAll_emit, meetsAll_symbol] at hm
  obtain ⟨_, ⟨_, ⟨_, _, _, ⟨ps, rfl, rfl⟩, hm₁, rfl⟩, rfl⟩, rfl⟩ := hm
  obtain ⟨_, ⟨_, _, _, ⟨ds, rfl, rfl⟩, hm₂, rfl⟩, rfl⟩ := meetsAll_symbol.mp hm₁
  obtain ⟨b, rfl, rfl⟩ := meetsAll_singleton.mp hm₂
  let r : Routine :=
    { kind, result? := if void then none else some .int, name, parameters := ps, locals := ds, body := b }
  have he := entered_of_parts (s := s) (r := r) rfl
  have hn : ((s.declareReceiver kind).declareAll (ps.map Parameter.binding)).declareAll
      (ds.flatMap (Declaration.bindings .local_)) = r.entered s := he.symm
  rw [hn]
  refine ⟨r, rfl, by cases void <;> rfl, ?_, rfl⟩
  have hv : r.result?.isNone = void := by cases void <;> rfl
  ext1
  · simp [r]
  · simp [Routine.code_placedIn, hv, r]

/-! ### Expressions -/

/-- A term of one token. -/
theorem term_of_token {a : Term} (hp : a.phrase = .token t.lexeme)
    (hc : a.code .wrapped s.environment = events.filterMap Event.instruction?) (hm : MeetsAll [] s z s') :
    term.Meets s (.taken t.lexeme events ++ z) s' := by
  obtain ⟨rfl, rfl⟩ := hm
  exact ⟨a, by ext1 <;> simp [hp, hc], rfl⟩

theorem term_take (h : termStep [] t s = .take events goals s₁) (hm : MeetsAll goals s₁ z s') :
    term.Meets s (.taken t.lexeme events ++ z) s' := by
  unfold termStep at h
  split at h <;> rename_i hl
  · rename_i value
    cases h
    exact term_of_token (a := .integer value) (by rw [hl]; rfl) rfl hm
  · rename_i text
    cases h
    have hw : ∀ code : List Vm.Instruction, (code.map Event.wrote).filterMap Event.instruction? = code := by
      intro code
      simp [List.filterMap_map, Function.comp_def]
    exact term_of_token (a := .string text) (by rw [hl]; rfl) (hw _).symm hm
  · cases h
    exact term_of_token (a := .constant .true_) (by rw [hl]; rfl) rfl hm
  · cases h
    exact term_of_token (a := .constant .false_) (by rw [hl]; rfl) rfl hm
  · cases h
    exact term_of_token (a := .constant .null) (by rw [hl]; rfl) rfl hm
  · cases h
    exact term_of_token (a := .constant .this) (by rw [hl]; rfl) rfl hm
  · rename_i x
    cases h
    obtain ⟨a, p, hp, rfl, rfl⟩ := meetsAll_singleton.mp hm
    exact ⟨a, by ext1 <;> simp [hl, hp, Phrase.name], rfl⟩
  · cases h
    obtain ⟨e, _, hm₁, rfl⟩ := meetsAll_expression.mp hm
    obtain ⟨_, ⟨rfl, rfl⟩, rfl⟩ := meetsAll_symbol.mp hm₁
    exact ⟨.group e, by ext1 <;> simp [hl, Term.phrase, Term.code, Phrase.symbol], rfl⟩
  · rename_i x _
    cases ho : x.unaryOp? with
    | none => simp [ho] at h
    | some op =>
      simp only [ho] at h
      cases h
      obtain ⟨a, _, hm₁, rfl⟩ := meetsAll_term.mp hm
      obtain ⟨_, ⟨rfl, rfl⟩, rfl⟩ := meetsAll_emit.mp hm₁
      obtain rfl := unaryOp?_eq_some_iff.mp ho
      exact ⟨.unary op a, by ext1 <;> simp [hl, Term.phrase, Term.code, Phrase.symbol],
        rfl⟩
  · cases h

/-- The goals behind a term stay behind what the term is replaced by. -/
theorem termStep_eq (next : List Goal) (t : Token) (s : State) :
    termStep next t s = match termStep [] t s with
      | .take events goals s => .take events (goals ++ next) s
      | .done events s => .done events s
      | .fail e => .fail e := by
  obtain ⟨lexeme, span⟩ := t
  cases lexeme with
  | keyword word => cases word <;> rfl
  | symbol x => cases x <;> rfl
  | identifier x => rfl
  | integer value => rfl
  | string text => rfl

theorem termStep_append (next : List Goal) (h : termStep next t s = .take events goals s₁) :
    ∃ front, termStep [] t s = .take events front s₁ ∧ goals = front ++ next := by
  rw [termStep_eq] at h
  cases hstep : termStep [] t s with
  | fail e => simp [hstep] at h
  | done events s => simp [hstep] at h
  | take events front s =>
    rw [hstep] at h
    cases h
    exact ⟨front, rfl, rfl⟩

theorem term_take_append {next : List Goal} (h : termStep next t s = .take events goals s₁)
    (hm : MeetsAll goals s₁ z s') : MeetsAll (term :: next) s (.taken t.lexeme events ++ z) s' := by
  obtain ⟨front, hf, rfl⟩ := termStep_append next h
  obtain ⟨y₁, s₂, y₂, hm₁, hm₂, rfl⟩ := meetsAll_append.mp hm
  exact ⟨_, s₂, y₂, term_take hf hm₁, hm₂, by simp⟩

theorem afterName_take {x : String} {span : Span} (h : nameStep x span t s = .take events goals s₁)
    (hm : MeetsAll goals s₁ z s') : (afterName x span).Meets s (.taken t.lexeme events ++ z) s' := by
  unfold nameStep at h
  split at h <;> rename_i hl
  · cases h
    obtain ⟨f, arguments, rfl, rfl⟩ := meetsAll_singleton.mp hm
    exact ⟨.callOn x f arguments, _, by simp only [Term.phrase, Phrase.append_assoc]; rfl,
      by ext1 <;> simp [hl, Phrase.symbol], rfl⟩
  · obtain ⟨v, hv, hk⟩ := wantVariable_take h
    cases hk
    obtain ⟨e, _, hm₁, rfl⟩ := meetsAll_element.mp hm
    simp only [write, meetsAll_emit] at hm₁
    obtain ⟨_, ⟨_, ⟨rfl, rfl⟩, rfl⟩, rfl⟩ := hm₁
    refine ⟨.element x e, _, by simp only [Term.phrase, Phrase.append_assoc]; rfl, ?_, rfl⟩
    ext1 <;> simp [hl, Phrase.symbol, Phrase.unbound_use_some hv, Term.code, Environment.read_of_lookup? hv]
  · cases h
    obtain ⟨arguments, rfl, rfl⟩ := meetsAll_singleton.mp hm
    exact ⟨.call x arguments, _, by simp only [Term.phrase, Phrase.append_assoc]; rfl,
      by ext1 <;> simp [hl, Phrase.symbol, Term.code, Event.instruction?, State.environment], rfl⟩
  · obtain ⟨v, -, hk⟩ := wantVariable_take h
    cases hk

theorem callee_take {owner : String} (h : calleeStep owner t s = .take events goals s₁)
    (hm : MeetsAll goals s₁ z s') : (callee owner).Meets s (.taken t.lexeme events ++ z) s' := by
  obtain ⟨f, hl, hk⟩ := wantName_take h
  rw [State.lookup?_eq] at hk
  cases hv : s.environment.lookup? owner with
  | some v =>
    simp only [hv] at hk
    cases hk
    obtain ⟨_, hm₁, rfl⟩ := meetsAll_emit.mp hm
    obtain ⟨arguments, rfl, rfl⟩ := meetsAll_singleton.mp hm₁
    exact ⟨f, arguments, by ext1 <;> simp [hl, Phrase.name, Term.code, hv], rfl⟩
  | none =>
    simp only [hv] at hk
    cases hk
    obtain ⟨arguments, rfl, rfl⟩ := meetsAll_singleton.mp hm
    exact ⟨f, arguments, by ext1 <;> simp [hl, Phrase.name, Term.code, hv], rfl⟩

/-- The first argument of a call. -/
theorem arguments_of_expression {f : String} {count : UInt16}
    (hm : MeetsAll (expression ++ [moreArguments f (count + 1)]) s z s') :
    (arguments f count).Meets s z s' := by
  obtain ⟨e, _, hm₁, rfl⟩ := meetsAll_expression.mp hm
  obtain ⟨as, rfl, rfl⟩ := meetsAll_singleton.mp hm₁
  refine ⟨.more e as, ?_, rfl⟩
  ext1
  · simp [Arguments.phrase]
  · simp [Arguments.code, Arguments.count, Nat.add_comm count.toNat 1, Nat.add_assoc]

/-- One more argument, behind its comma. -/
theorem moreArguments_of_expression {f : String} {count : UInt16}
    (hm : MeetsAll (expression ++ [moreArguments f (count + 1)]) s z s') :
    (moreArguments f count).Meets s ({ phrase := .symbol .comma } ++ z) s' := by
  obtain ⟨e, _, hm₁, rfl⟩ := meetsAll_expression.mp hm
  obtain ⟨as, rfl, rfl⟩ := meetsAll_singleton.mp hm₁
  refine ⟨.more e as, ?_, rfl⟩
  ext1
  · simp [Arguments.tailPhrase]
  · simp [Arguments.code, Arguments.count, Nat.add_comm count.toNat 1, Nat.add_assoc]

/-! ### Statements -/

theorem letStatement {st : Statement} {p : Phrase} (h : st.phrase = .keyword .let_ ++ p) :
    st.draws = 0 ∧ st.isReturn = false := by
  have hl := congrArg Phrase.lexemes h
  cases st <;> simp [Statement.phrase] at hl <;> exact ⟨rfl, rfl⟩

theorem returnStatement {st : Statement} {p : Phrase} (h : st.phrase = .keyword .return_ ++ p) :
    st.draws = 0 ∧ st.isReturn = true := by
  have hl := congrArg Phrase.lexemes h
  cases st <;> simp [Statement.phrase] at hl <;> exact ⟨rfl, rfl⟩

/-- A statement in front of statements. -/
theorem statements_of_statement {void returned : Bool} {y : Yield} (st : Statement)
    (hy : y = yieldIn s st.phrase (st.code .wrapped s.environment s.labels.next) ++ z)
    (hm : MeetsAll [statements void st.isReturn] (s.drawn st.draws) z s') :
    (statements void returned).Meets s y s' := by
  obtain ⟨b, rfl, rfl⟩ := meetsAll_singleton.mp hm
  refine ⟨.cons st b, ?_, by simp [Block.draws]⟩
  rw [hy]
  ext1
  · simp [Block.phrase]
  · simp [Block.code, Block.endsInReturn]

/-- A branch in front of statements. Its two label numbers are drawn already. -/
theorem statements_of_branch {void returned : Bool} (hm : MeetsAll
      (condition ++ [write (.ifGoto (ifName s.labels.next))] ++ block ++
        [write (.goto (ifName (s.labels.next + 1))), write (.label (ifName s.labels.next)),
          otherwise (ifName (s.labels.next + 1)), statements void false]) (s.drawn 2) z s') :
    (statements void returned).Meets s ({ phrase := .keyword .if_ } ++ z) s' := by
  simp only [List.append_assoc, List.cons_append, List.nil_append, write, meetsAll_condition, meetsAll_emit,
    meetsAll_block] at hm
  obtain ⟨e, _, ⟨_, ⟨b, _, ⟨_, ⟨_, ⟨_, _, z, ho, hm₁, rfl⟩, rfl⟩, rfl⟩, rfl⟩, rfl⟩, rfl⟩ := hm
  rcases ho with ⟨rfl, rfl⟩ | ⟨c, rfl, rfl⟩
  · refine statements_of_statement (.if_ e b) (z := z) ?_ ?_
    · ext1 <;> simp [Statement.phrase, Statement.code, Expression.jumpUnless]
    · simpa [Statement.isReturn, Statement.draws, Nat.add_comm 2] using hm₁
  · refine statements_of_statement (.ifElse e b c) (z := z) ?_ ?_
    · ext1 <;> simp [Statement.phrase, Statement.code, Expression.jumpUnless, Nat.add_assoc]
    · simpa [Statement.isReturn, Statement.draws, Nat.add_comm 2, Nat.add_assoc] using hm₁

/-- A loop in front of statements. Its two label numbers are drawn already, and its first label is written. -/
theorem statements_of_loop {void returned : Bool} (hm : MeetsAll
      (condition ++ [write (.ifGoto (whileName (s.labels.next + 1)))] ++ block ++
        [write (.goto (whileName s.labels.next)), write (.label (whileName (s.labels.next + 1))),
          statements void false]) (s.drawn 2) z s') :
    (statements void returned).Meets s
      ({ phrase := .keyword .while_, code := [.label (whileName s.labels.next)] } ++ z) s' := by
  simp only [List.append_assoc, List.cons_append, List.nil_append, write, meetsAll_condition, meetsAll_emit,
    meetsAll_block] at hm
  obtain ⟨e, _, ⟨_, ⟨b, _, ⟨_, ⟨z, hm₁, rfl⟩, rfl⟩, rfl⟩, rfl⟩, rfl⟩ := hm
  refine statements_of_statement (.while_ e b) (z := z) ?_ ?_
  · ext1 <;> simp [Statement.phrase, Statement.code, Expression.jumpUnless]
  · simpa [Statement.isReturn, Statement.draws, Nat.add_comm 2] using hm₁

theorem statements_take {void returned : Bool} (h : statementStep void returned t s = .take events goals s₁)
    (hm : MeetsAll goals s₁ z s') : (statements void returned).Meets s (.taken t.lexeme events ++ z) s' := by
  unfold statementStep at h
  split at h <;> rename_i hl
  · split at h <;> rename_i hr <;> cases h <;> obtain ⟨rfl, rfl⟩ := hm
    · exact ⟨.nil, by ext1 <;> simp [hl, Phrase.symbol, Block.phrase, Block.code, Block.endsInReturn,
        Placed.epilogue, hr], rfl⟩
    · exact ⟨.nil, by ext1 <;> simp [hl, Phrase.symbol, Block.phrase, Block.code, Block.endsInReturn,
        Placed.epilogue, hr], rfl⟩
  · cases h
    obtain ⟨_, _, z, ⟨st, p, hp, rfl, rfl⟩, hm₁, rfl⟩ := hm
    obtain ⟨hd, hr⟩ := letStatement hp
    exact statements_of_statement st (z := z) (by ext1 <;> simp [hl, hp, Phrase.keyword])
      (by simpa [hd, hr] using hm₁)
  · cases h
    rw [hl]
    exact statements_of_branch hm
  · cases h
    rw [hl]
    exact statements_of_loop hm
  · cases h
    obtain ⟨a, _, hm₁, rfl⟩ := meetsAll_term.mp hm
    obtain ⟨_, hm₂, rfl⟩ := meetsAll_symbol.mp hm₁
    obtain ⟨z, hm₃, rfl⟩ := meetsAll_emit.mp hm₂
    exact statements_of_statement (.do_ a) (z := z)
      (by ext1 <;> simp [hl, Phrase.keyword, Statement.phrase, Statement.code])
      hm₃
  · cases h
    obtain ⟨_, _, z, ⟨st, p, hp, rfl, rfl⟩, hm₁, rfl⟩ := hm
    obtain ⟨hd, hr⟩ := returnStatement hp
    exact statements_of_statement st (z := z) (by ext1 <;> simp [hl, hp, Phrase.keyword])
      (by simpa [hd, hr] using hm₁)
  · cases h

theorem letRest_take {x : String} {span : Span} (h : letStep x span t s = .take events goals s₁)
    (hm : MeetsAll goals s₁ z s') : (letRest x span).Meets s (.taken t.lexeme events ++ z) s' := by
  obtain ⟨v, hv, hk⟩ := wantVariable_take h
  split at hk <;> rename_i hl
  · cases hk
    simp only [List.append_assoc, List.cons_append, List.nil_append, write, meetsAll_element, meetsAll_symbol,
      meetsAll_expression, meetsAll_emit] at hm
    obtain ⟨i, _, ⟨_, ⟨e, _, ⟨_, ⟨_, ⟨_, ⟨_, ⟨_, ⟨rfl, rfl⟩, rfl⟩, rfl⟩, rfl⟩, rfl⟩, rfl⟩, rfl⟩, rfl⟩, rfl⟩ := hm
    refine ⟨.assignElement x i e, _, by simp only [Statement.phrase, Phrase.append_assoc]; rfl, ?_, rfl⟩
    ext1 <;> simp [hl, Phrase.symbol, Phrase.unbound_use_some hv, Statement.code,
      Environment.read_of_lookup? hv]
  · cases hk
    obtain ⟨e, _, hm₁, rfl⟩ := meetsAll_expression.mp hm
    obtain ⟨_, hm₂, rfl⟩ := meetsAll_emit.mp hm₁
    obtain ⟨_, ⟨rfl, rfl⟩, rfl⟩ := meetsAll_symbol.mp hm₂
    refine ⟨.assign x e, _, by simp only [Statement.phrase, Phrase.append_assoc]; rfl, ?_, rfl⟩
    ext1 <;> simp [hl, Phrase.symbol, Phrase.unbound_use_some hv, Statement.code,
      Environment.write_of_lookup? hv]
  · cases hk

theorem otherwise_of_block {done : String} (hm : MeetsAll (block ++ [write (.label done)]) s z s') :
    (otherwise done).Meets s ({ phrase := .keyword .else_ } ++ z) s' := by
  obtain ⟨b, _, hm₁, rfl⟩ := meetsAll_block.mp hm
  obtain ⟨_, ⟨rfl, rfl⟩, rfl⟩ := meetsAll_emit.mp hm₁
  exact Or.inr ⟨b, by ext1 <;> simp, rfl⟩

theorem returnValue_of_expression
    (hm : MeetsAll (expression ++ [write .return_, symbol .semicolon]) s z s') :
    returnValue.Meets s z s' := by
  obtain ⟨e, _, hm₁, rfl⟩ := meetsAll_expression.mp hm
  obtain ⟨_, hm₂, rfl⟩ := meetsAll_emit.mp hm₁
  obtain ⟨_, ⟨rfl, rfl⟩, rfl⟩ := meetsAll_symbol.mp hm₂
  refine ⟨.returnValue e, _, by simp only [Statement.phrase, Phrase.append_assoc]; rfl, ?_, rfl⟩
  ext1 <;> simp [Statement.code]

theorem operators_of_operation {op : BinaryOp}
    (hm : MeetsAll [term, write (.ofBinaryOp op), operators] s z s') :
    operators.Meets s ({ phrase := .symbol op.symbol } ++ z) s' := by
  obtain ⟨a, _, hm₁, rfl⟩ := meetsAll_term.mp hm
  obtain ⟨_, hm₂, rfl⟩ := meetsAll_emit.mp hm₁
  obtain ⟨ops, _, ⟨rfl, rfl⟩, rfl⟩ := meetsAll_operators.mp hm₂
  refine ⟨.more op a ops, ?_, rfl⟩
  ext1 <;> simp [Operations.phrase, Operations.code]

/-! ### One token -/

/-- A goal that takes a token is met when the goals in its place are. -/
theorem meets_of_take {g : Goal} (h : g.step t s = .take events goals s₁) (hm : MeetsAll goals s₁ z s') :
    g.Meets s (.taken t.lexeme events ++ z) s' := by
  cases g with
  | keyword word =>
    simp only [step] at h
    split at h <;> rename_i hl <;> cases h
    obtain ⟨rfl, rfl⟩ := hm
    exact ⟨by ext1 <;> simp [hl, Phrase.keyword], rfl⟩
  | symbol x =>
    simp only [step] at h
    split at h <;> rename_i hl <;> cases h
    obtain ⟨rfl, rfl⟩ := hm
    exact ⟨by ext1 <;> simp [hl, Phrase.symbol], rfl⟩
  | emit event => cases h
  | className =>
    obtain ⟨name, hl, hk⟩ := wantName_take h
    cases hk
    simp only [meetsAll_emit, meetsAll_symbol, meetsAll_singleton] at hm
    obtain ⟨_, ⟨_, ⟨ms, rfl, rfl⟩, rfl⟩, rfl⟩ := hm
    exact ⟨name, ms, by ext1 <;> simp [hl, Phrase.name], rfl⟩
  | members => exact members_take h hm
  | variableType kind =>
    simp only [step] at h
    obtain ⟨type, hl, hk⟩ := wantType_take h
    cases hk
    obtain ⟨x, xs, rfl, rfl⟩ := meetsAll_singleton.mp hm
    exact ⟨⟨type, x, xs⟩, by ext1 <;> simp [hl, Declaration.phrase], rfl⟩
  | variableName kind type =>
    obtain ⟨x, hl, hk⟩ := wantName_take h
    cases hk
    obtain ⟨xs, rfl, rfl⟩ := meetsAll_singleton.mp hm
    exact ⟨x, xs, by ext1 <;> simp [hl, Phrase.name], rfl⟩
  | moreVariables kind type =>
    simp only [step] at h
    split at h <;> rename_i hl <;> cases h
    · obtain ⟨x, xs, rfl, rfl⟩ := meetsAll_singleton.mp hm
      exact ⟨x :: xs, by ext1 <;> simp [hl, moreNames, Phrase.symbol], rfl⟩
    · obtain ⟨rfl, rfl⟩ := hm
      exact ⟨[], by ext1 <;> simp [hl, moreNames, Phrase.symbol], rfl⟩
  | returnType kind =>
    simp only [step] at h
    split at h <;> rename_i hl
    · cases h
      obtain ⟨r, hk, hv, rfl, rfl⟩ := meetsAll_singleton.mp hm
      have hr : r.result? = none := Option.isNone_iff_eq_none.mp hv
      exact ⟨r, hk, by ext1 <;> simp [hl, hr, Routine.resultLexeme], rfl⟩
    · obtain ⟨type, hl, hk⟩ := wantType_take h
      cases hk
      -- The goals behind the type only know that it is not `void`.
      obtain ⟨r, hk, hv, rfl, rfl⟩ := meetsAll_singleton.mp hm
      refine ⟨{ r with result? := some type }, hk, ?_, rfl⟩
      have hc : (r.placedIn s).code .wrapped = ({ r with result? := some type }.placedIn s).code .wrapped := by
        simp only [Routine.code_placedIn, hv]
        rfl
      ext1
      · simp only [hl, Routine.resultLexeme, Yield.phrase_append, Yield.phrase_taken, phrase_yieldIn,
          Phrase.append_assoc, Phrase.unbound_append, Phrase.unbound_token]
        rfl
      · simp [hc]
  | routineName kind void =>
    obtain ⟨name, hl, hk⟩ := wantName_take h
    cases hk
    rw [hl]
    exact routineName_of_parts hm
  | parameters =>
    simp only [step] at h
    split at h <;> rename_i hl
    · cases h
      obtain ⟨rfl, rfl⟩ := hm
      exact ⟨[], by ext1 <;> simp [hl, Parameter.listPhrase, Phrase.symbol], rfl⟩
    · obtain ⟨type, hl, hk⟩ := wantType_take h
      cases hk
      obtain ⟨x, ps, rfl, rfl⟩ := meetsAll_singleton.mp hm
      exact ⟨⟨type, x⟩ :: ps, by ext1 <;> simp [hl, Parameter.listPhrase, Parameter.phrase], rfl⟩
  | parameter =>
    simp only [step] at h
    obtain ⟨type, hl, hk⟩ := wantType_take h
    cases hk
    obtain ⟨x, ps, rfl, rfl⟩ := meetsAll_singleton.mp hm
    exact ⟨⟨type, x⟩, ps, by ext1 <;> simp [hl, Parameter.phrase], rfl⟩
  | parameterName type =>
    obtain ⟨x, hl, hk⟩ := wantName_take h
    cases hk
    obtain ⟨ps, rfl, rfl⟩ := meetsAll_singleton.mp hm
    exact ⟨x, ps, by ext1 <;> simp [hl, Phrase.name], rfl⟩
  | moreParameters =>
    simp only [step] at h
    split at h <;> rename_i hl <;> cases h
    · obtain ⟨p, ps, rfl, rfl⟩ := meetsAll_singleton.mp hm
      exact ⟨p :: ps, by ext1 <;> simp [hl, Parameter.tailPhrase, Phrase.symbol], rfl⟩
    · obtain ⟨rfl, rfl⟩ := hm
      exact ⟨[], by ext1 <;> simp [hl, Parameter.tailPhrase, Phrase.symbol], rfl⟩
  | locals kind name =>
    simp only [step] at h
    split at h <;> rename_i hl <;> cases h
    obtain ⟨_, _, _, ⟨d, rfl, rfl⟩, hm₁, rfl⟩ := hm
    obtain ⟨ds, rfl, rfl⟩ := meetsAll_singleton.mp hm₁
    refine ⟨d :: ds, ?_, by simp⟩
    ext1 <;> simp [hl, Routine.localsPhrase, Phrase.keyword]
  | statements void returned => exact statements_take h hm
  | letTarget =>
    obtain ⟨x, hl, hk⟩ := wantName_take h
    cases hk
    obtain ⟨st, p, hp, rfl, rfl⟩ := meetsAll_singleton.mp hm
    exact ⟨st, .name x ++ p, by rw [hp, Phrase.append_assoc], by ext1 <;> simp [hl, Phrase.name], rfl⟩
  | letRest x span => exact letRest_take h hm
  | otherwise done =>
    simp only [step] at h
    split at h <;> rename_i hl <;> cases h
    rw [hl]
    exact otherwise_of_block hm
  | returnValue =>
    simp only [step] at h
    split at h <;> rename_i hl
    · cases h
      obtain ⟨rfl, rfl⟩ := hm
      exact ⟨.return_, .symbol .semicolon, rfl, by ext1 <;> simp [hl, Phrase.symbol, Statement.code], rfl⟩
    · exact returnValue_of_expression (term_take_append h hm)
  | term => exact term_take h hm
  | operators =>
    simp only [step] at h
    split at h <;> rename_i hl
    · split at h <;> rename_i ho <;> cases h
      obtain rfl := binaryOp?_eq_some_iff.mp ho
      rw [lexeme_of_symbol? hl]
      exact operators_of_operation hm
    · cases h
  | afterName x span => exact afterName_take h hm
  | callee owner => exact callee_take h hm
  | openArguments f count =>
    simp only [step] at h
    split at h <;> rename_i hl <;> cases h
    obtain ⟨as, rfl, rfl⟩ := meetsAll_singleton.mp hm
    exact ⟨as, by ext1 <;> simp [hl, Phrase.symbol], rfl⟩
  | arguments f count =>
    simp only [step] at h
    split at h <;> rename_i hl
    · cases h
      obtain ⟨_, ⟨rfl, rfl⟩, rfl⟩ := meetsAll_emit.mp hm
      exact ⟨.none, by ext1 <;> simp [hl, Phrase.symbol, Arguments.phrase, Arguments.code, Arguments.count], rfl⟩
    · exact arguments_of_expression (term_take_append h hm)
  | moreArguments f count =>
    simp only [step] at h
    split at h <;> rename_i hl <;> cases h
    · rw [hl]
      exact moreArguments_of_expression hm
    · obtain ⟨_, ⟨rfl, rfl⟩, rfl⟩ := meetsAll_emit.mp hm
      exact ⟨.none, by
        ext1 <;> simp [hl, Phrase.symbol, Arguments.tailPhrase, Arguments.code, Arguments.count], rfl⟩

theorem wantName_done {k : String → Step} (h : wantName t k = .done events s₁) : ∃ x, k x = .done events s₁ := by
  unfold wantName at h
  split at h
  · exact ⟨_, h⟩
  · cases h

theorem wantType_done {k : String → Step} (h : wantType t k = .done events s₁) : ∃ x, k x = .done events s₁ := by
  unfold wantType at h
  split at h
  iterate 4 exact ⟨_, h⟩
  cases h

theorem wantVariable_done {x : String} {span : Span} {k : Variable → Step}
    (h : wantVariable s x span k = .done events s₁) :
    ∃ v, s.environment.lookup? x = some v ∧ k v = .done events s₁ := by
  cases hv : s.environment.lookup? x with
  | some v => exact ⟨v, rfl, by rwa [wantVariable_some hv] at h⟩
  | none =>
    rw [wantVariable_none hv] at h
    cases h

theorem termStep_ne_done {next : List Goal} : termStep next t s ≠ .done events s₁ := by
  intro h
  unfold termStep at h
  split at h <;> try cases h
  split at h <;> cases h

/-- Only five goals can be done without a token, and none of them changes the state. -/
theorem done_cases {g : Goal} (h : g.step t s = .done events s₁) : s₁ = s ∧
    ((∃ event, g = emit event ∧ events = [event]) ∨
      (∃ kind name, g = locals kind name ∧ events = (s.prologue kind name).map .wrote) ∨
      (∃ done, g = otherwise done ∧ events = [.wrote (.label done)]) ∨
      (g = operators ∧ events = []) ∨
      ∃ x span v, g = afterName x span ∧ s.environment.lookup? x = some v ∧
        events = [.wrote (.pushVariable v)]) := by
  cases g with
  | emit event =>
    cases h
    exact ⟨rfl, Or.inl ⟨event, rfl, rfl⟩⟩
  | locals kind name =>
    simp only [step] at h
    split at h <;> cases h
    exact ⟨rfl, Or.inr (Or.inl ⟨kind, name, rfl, rfl⟩)⟩
  | otherwise done =>
    simp only [step] at h
    split at h <;> cases h
    exact ⟨rfl, Or.inr (Or.inr (Or.inl ⟨done, rfl, rfl⟩))⟩
  | operators =>
    simp only [step] at h
    split at h
    · split at h <;> cases h
      exact ⟨rfl, Or.inr (Or.inr (Or.inr (Or.inl ⟨rfl, rfl⟩)))⟩
    · cases h
  | afterName x span =>
    simp only [step, nameStep] at h
    split at h <;> try cases h
    · obtain ⟨v, -, hk⟩ := wantVariable_done h
      cases hk
    · obtain ⟨v, hv, hk⟩ := wantVariable_done h
      cases hk
      exact ⟨rfl, Or.inr (Or.inr (Or.inr (Or.inr ⟨x, span, v, rfl, hv, rfl⟩)))⟩
  | members =>
    simp only [step, memberStep] at h
    split at h <;> cases h
  | statements void returned =>
    simp only [step, statementStep] at h
    split at h <;> try cases h
    split at h <;> cases h
  | letRest x span =>
    obtain ⟨v, -, hk⟩ := wantVariable_done h
    split at hk <;> cases hk
  | callee owner =>
    obtain ⟨x, hk⟩ := wantName_done h
    split at hk <;> cases hk
  | className | variableName | routineName | parameterName | letTarget =>
    obtain ⟨x, hk⟩ := wantName_done h
    cases hk
  | variableType | parameter =>
    simp only [step] at h
    obtain ⟨x, hk⟩ := wantType_done h
    cases hk
  | returnType | parameters =>
    simp only [step] at h
    split at h
    · cases h
    · obtain ⟨x, hk⟩ := wantType_done h
      cases hk
  | term => exact absurd h termStep_ne_done
  | returnValue | arguments =>
    simp only [step] at h
    split at h
    · cases h
    · exact absurd h termStep_ne_done
  | _ =>
    simp only [step] at h
    split at h <;> cases h

/-- A goal that is done without the token is met by nothing. -/
theorem meets_of_done {g : Goal} (h : g.step t s = .done events s₁) : g.Meets s (.silent events) s₁ := by
  obtain ⟨rfl, ⟨event, rfl, rfl⟩ | ⟨kind, name, rfl, rfl⟩ | ⟨done, rfl, rfl⟩ | ⟨rfl, rfl⟩ |
    ⟨x, span, v, rfl, hv, rfl⟩⟩ := done_cases h
  · exact ⟨rfl, rfl⟩
  · exact ⟨[], by ext1 <;> simp [Routine.localsPhrase, List.filterMap_map, Function.comp_def], rfl⟩
  · exact Or.inl ⟨rfl, rfl⟩
  · exact ⟨.none, by ext1 <;> simp [Operations.phrase, Operations.code], rfl⟩
  · refine ⟨.read x, .use x, rfl, ?_, rfl⟩
    ext1 <;> simp [Phrase.unbound_use_some hv, Term.code, Environment.read_of_lookup? hv]

end

end Goal
end JackToVm
