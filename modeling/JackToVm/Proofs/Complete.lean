import JackToVm.Proofs.Follow
import JackToVm.Proofs.Reach

/-!
The pass takes every text that its goals stand for. When something meets a goal, the goal does what is
needed with the first token of it: it takes the token and is replaced by goals that the rest meets, or it
is done because the token is not its own, or a name is no variable (`Goal.answers`). Over an agenda whose
goals are separated this gives the way of a whole run.
-/

namespace JackToVm
namespace Goal
open Syntax Lexeme
open Vm.Labels (ifName whileName)

/-- What a goal does with a token, when something meets the goal and the token is next. -/
inductive Answers (t : Token) (s : State) (y : Yield) (s' : State) (g : Goal) : Prop where
  | take {events : List Event} {goals : List Goal} {s₁ : State} {z : Yield}
      (h : g.step t s = .take events goals s₁) (hm : MeetsAll goals s₁ z s')
      (hy : y = .taken t.lexeme events ++ z)
  | done {events : List Event} (h : g.step t s = .done events s') (hy : y = .silent events)
  | undefined {x : String} {span : Span} (h : g.step t s = .fail (.undefined x span)) (hu : y.phrase.uses ≠ [])

section
variable {t : Token} {s s' : State} {y : Yield} {rest more : List Lexeme}

/-! ### Expressions -/

/-- The first token of a term. -/
theorem termStep_of_term {a : Term} {next : List Goal} {w : Yield} (hn : MeetsAll next s w s')
    (hl : a.phrase.lexemes ++ rest = t.lexeme :: more) :
    ∃ events goals z, termStep next t s = .take events goals s ∧ MeetsAll goals s z s' ∧
      yieldIn s a.phrase (a.code .wrapped s.environment) ++ w = .taken t.lexeme events ++ z := by
  obtain ⟨lexeme, span⟩ := t
  -- A name is taken whatever follows it.
  have named : ∀ {b : Term} {x : String} {p : Phrase}, b.phrase = .name x ++ p →
      ∃ events goals z, termStep next ⟨.identifier x, span⟩ s = .take events goals s ∧ MeetsAll goals s z s' ∧
        yieldIn s b.phrase (b.code .wrapped s.environment) ++ w = .taken (.identifier x) events ++ z := by
    intro b x p hp
    refine ⟨_, _, _, rfl, ⟨_, s, w, ⟨b, p, hp, rfl, rfl⟩, hn, rfl⟩, ?_⟩
    ext1 <;> simp [hp, Phrase.name]
  cases a with
  | integer value =>
    cases hl
    exact ⟨_, _, w, rfl, hn, by ext1 <;> simp [Term.phrase, Term.code]⟩
  | string text =>
    cases hl
    exact ⟨_, _, w, rfl, hn, by ext1 <;> simp [Term.phrase, Term.code, List.filterMap_map, Function.comp_def]⟩
  | constant value =>
    cases value <;> cases hl
    all_goals exact ⟨_, _, w, rfl, hn, by ext1 <;> simp [Term.phrase, Term.code, Constant.code, Phrase.keyword,
      Constant.word]⟩
  | read x =>
    cases hl
    exact named rfl
  | element x index =>
    cases hl
    exact named (p := .use x ++ (.symbol .leftBracket ++ (index.phrase ++ .symbol .rightBracket)))
      (by simp [Term.phrase])
  | call f arguments =>
    cases hl
    exact named (p := .symbol .leftParen ++ (arguments.phrase ++ .symbol .rightParen)) (by simp [Term.phrase])
  | callOn owner f arguments =>
    cases hl
    exact named (p := .symbol .dot ++ (.name f ++ (.symbol .leftParen ++ (arguments.phrase ++
      .symbol .rightParen)))) (by simp [Term.phrase])
  | group inside =>
    cases hl
    refine ⟨_, _, _, rfl, meetsAll_expression.mpr ⟨inside, _, meetsAll_symbol.mpr ⟨w, hn, rfl⟩, rfl⟩, ?_⟩
    ext1 <;> simp [Term.phrase, Term.code, Phrase.symbol]
  | unary op operand =>
    cases op <;> cases hl
    all_goals
      refine ⟨_, _, _, rfl, meetsAll_term.mpr ⟨operand, _, meetsAll_emit.mpr ⟨w, hn, rfl⟩, rfl⟩, ?_⟩
      ext1 <;> simp [Term.phrase, Term.code, Phrase.symbol, UnaryOp.symbol]

/-- The first token behind a name that a term starts with, or the first one behind the term. -/
theorem answers_afterName {x : String} {span : Span} (hg : (afterName x span).Meets s y s')
    (hf : Starts endsTerm rest) (hl : y.phrase.lexemes ++ rest = t.lexeme :: more) :
    Answers t s y s' (afterName x span) := by
  obtain ⟨lexeme, place⟩ := t
  obtain ⟨a, p, hp, rfl, rfl⟩ := hg
  have hp' := congrArg Phrase.lexemes hp
  cases a with
  | read x' =>
    obtain ⟨hx, rfl⟩ := Phrase.token_append_inj hp
    cases hx
    obtain ⟨l, rest, rfl, he⟩ := hf
    cases hl
    have hstep : (afterName x span).step ⟨lexeme, place⟩ s' =
        wantVariable s' x span fun v => .done [.wrote (.pushVariable v)] s' := by
      cases lexeme with
      | symbol c => cases c <;> first | rfl | cases he
      | _ => cases he
    cases hv : s'.environment.lookup? x with
    | some v =>
      rw [wantVariable_some hv] at hstep
      refine .done hstep ?_
      ext1 <;> simp [Phrase.unbound_use_some hv, Term.code, Environment.read_of_lookup? hv]
    | none =>
      rw [wantVariable_none hv] at hstep
      exact .undefined hstep (by simp [Phrase.unbound_use_none hv])
  | element x' index =>
    simp only [Term.phrase, Phrase.append_assoc] at hp
    obtain ⟨hx, rfl⟩ := Phrase.token_append_inj hp
    cases hx
    cases hl
    cases hv : s'.environment.lookup? x with
    | some v =>
      have hstep : (afterName x span).step ⟨.symbol .leftBracket, place⟩ s' = _ :=
        wantVariable_some hv span _
      refine .take hstep (meetsAll_element.mpr ⟨index, _, meetsAll_emit.mpr ⟨_, meetsAll_emit.mpr
        ⟨_, ⟨rfl, rfl⟩, rfl⟩, rfl⟩, rfl⟩) ?_
      ext1 <;> simp [Phrase.symbol, Phrase.unbound_use_some hv, Term.code, Environment.read_of_lookup? hv]
    | none => exact .undefined (wantVariable_none hv span _) (by simp [Phrase.unbound_use_none hv])
  | call f arguments =>
    simp only [Term.phrase, Phrase.append_assoc] at hp
    obtain ⟨hx, rfl⟩ := Phrase.token_append_inj hp
    cases hx
    cases hl
    refine .take rfl (meetsAll_singleton.mpr ⟨arguments, rfl, rfl⟩) ?_
    ext1 <;> simp [Phrase.symbol, Term.code, State.environment]
  | callOn owner f arguments =>
    simp only [Term.phrase, Phrase.append_assoc] at hp
    obtain ⟨hx, rfl⟩ := Phrase.token_append_inj hp
    cases hx
    cases hl
    refine .take rfl (meetsAll_singleton.mpr ⟨f, arguments, rfl, rfl⟩) ?_
    ext1 <;> simp [Phrase.symbol]
  | _ => simp [Term.phrase] at hp'

theorem answers_callee {owner : String} (hg : (callee owner).Meets s y s')
    (hl : y.phrase.lexemes ++ rest = t.lexeme :: more) : Answers t s y s' (callee owner) := by
  obtain ⟨lexeme, place⟩ := t
  obtain ⟨f, arguments, rfl, rfl⟩ := hg
  cases hl
  cases hv : s'.environment.lookup? owner with
  | some v =>
    have hstep : (callee owner).step ⟨.identifier f, place⟩ s' =
        .take [] [write (.pushVariable v), openArguments s!"{v.type}.{f}" 1] s' := by
      simp [step, calleeStep, wantName, Token.identifier?, State.lookup?_eq, hv]
    refine .take hstep (meetsAll_emit.mpr ⟨_, meetsAll_singleton.mpr ⟨arguments, rfl, rfl⟩, rfl⟩) ?_
    ext1 <;> simp [Phrase.name, Term.code, hv]
  | none =>
    have hstep : (callee owner).step ⟨.identifier f, place⟩ s' =
        .take [] [openArguments s!"{owner}.{f}" 0] s' := by
      simp [step, calleeStep, wantName, Token.identifier?, State.lookup?_eq, hv]
    refine .take hstep (meetsAll_singleton.mpr ⟨arguments, rfl, rfl⟩) ?_
    ext1 <;> simp [Phrase.name, Term.code, hv]

/-- An expression does not start with a token that closes one. -/
theorem not_closes_of_expression {e : Expression} (hl : e.phrase.lexemes ++ rest = t.lexeme :: more) :
    t.lexeme.closes = false := by
  have hs : Starts (fun l => !l.closes) (t.lexeme :: more) := hl ▸ e.starts.append
  simpa [starts_cons] using hs

theorem answers_arguments {f : String} {count : UInt16} (hg : (arguments f count).Meets s y s')
    (hl : y.phrase.lexemes ++ rest = t.lexeme :: more) : Answers t s y s' (arguments f count) := by
  obtain ⟨as, rfl, rfl⟩ := hg
  cases as with
  | none =>
    obtain ⟨lexeme, place⟩ := t
    cases hl
    refine .take rfl (meetsAll_emit.mpr ⟨_, ⟨rfl, rfl⟩, rfl⟩) ?_
    ext1 <;> simp [Phrase.symbol, Arguments.phrase, Arguments.code, Arguments.count]
  | more e as =>
    simp only [phrase_yieldIn, Phrase.lexemes_unbound, Phrase.lexemes_append, Arguments.phrase,
      List.append_assoc] at hl
    have hne : t.lexeme ≠ .symbol .rightParen := by
      intro he
      have := not_closes_of_expression hl
      rw [he] at this
      cases this
    obtain ⟨a, ops⟩ := e
    simp only [Expression.phrase, Phrase.lexemes_append, List.append_assoc] at hl
    have hmore : MeetsAll [moreArguments f (count + 1)] s' _ s' := meetsAll_singleton.mpr ⟨as, rfl, rfl⟩
    obtain ⟨events, goals, z, hstep, hm, hy⟩ := termStep_of_term
      (meetsAll_operators.mpr ⟨ops, _, hmore, rfl⟩) hl
    refine .take (by simpa [step, hne] using hstep) hm ?_
    rw [← hy]
    ext1
    · simp [Arguments.phrase, Expression.phrase]
    · simp [Arguments.code, Expression.code, Arguments.count, Nat.add_comm count.toNat 1, Nat.add_assoc]

theorem answers_moreArguments {f : String} {count : UInt16} (hg : (moreArguments f count).Meets s y s')
    (hl : y.phrase.lexemes ++ rest = t.lexeme :: more) : Answers t s y s' (moreArguments f count) := by
  obtain ⟨lexeme, place⟩ := t
  obtain ⟨as, rfl, rfl⟩ := hg
  cases as with
  | none =>
    cases hl
    refine .take rfl (meetsAll_emit.mpr ⟨_, ⟨rfl, rfl⟩, rfl⟩) ?_
    ext1 <;> simp [Phrase.symbol, Arguments.tailPhrase, Arguments.code, Arguments.count]
  | more e as =>
    cases hl
    have hmore : MeetsAll [moreArguments f (count + 1)] s' _ s' := meetsAll_singleton.mpr ⟨as, rfl, rfl⟩
    refine .take rfl (meetsAll_expression.mpr ⟨e, _, hmore, rfl⟩) ?_
    ext1
    · simp [Phrase.symbol, Arguments.tailPhrase]
    · simp [Arguments.code, Arguments.count, Nat.add_comm count.toNat 1, Nat.add_assoc]

theorem answers_operators (hg : operators.Meets s y s') (hf : Starts closes rest)
    (hl : y.phrase.lexemes ++ rest = t.lexeme :: more) : Answers t s y s' operators := by
  obtain ⟨lexeme, place⟩ := t
  obtain ⟨ops, rfl, rfl⟩ := hg
  cases ops with
  | none =>
    obtain ⟨l, rest, rfl, hc⟩ := hf
    cases hl
    have hstep : operators.step ⟨lexeme, place⟩ s' = .done [] s' := by
      cases lexeme with
      | symbol c => cases c <;> first | rfl | cases hc
      | _ => cases hc
    exact .done hstep (by ext1 <;> simp [Operations.phrase, Operations.code])
  | more op a ops =>
    cases hl
    have hstep : operators.step ⟨.symbol op.symbol, place⟩ s' =
        .take [] [term, write (.ofBinaryOp op), operators] s' := by
      cases op <;> rfl
    refine .take hstep (meetsAll_term.mpr ⟨a, _, meetsAll_emit.mpr ⟨_, meetsAll_operators.mpr
      ⟨ops, _, ⟨rfl, rfl⟩, rfl⟩, rfl⟩, rfl⟩) ?_
    ext1 <;> simp [Phrase.symbol, Operations.phrase, Operations.code]

/-! ### Statements -/

/-- The yield of a block in the place of `statements`. -/
def blockYield (s : State) (void returned : Bool) (b : Block) : Yield :=
  yieldIn s (b.phrase ++ .symbol .rightBrace)
    (b.code .wrapped s.environment s.labels.next ++ Placed.epilogue void (b.endsInReturn returned))

/-- A block is its first statement and the others. -/
theorem blockYield_cons (s : State) (void returned : Bool) (st : Statement) (b : Block) :
    blockYield s void returned (.cons st b) =
      yieldIn s st.phrase (st.code .wrapped s.environment s.labels.next) ++
        blockYield (s.drawn st.draws) void st.isReturn b := by
  ext1 <;> simp [blockYield, Block.phrase, Block.code, Block.endsInReturn]

/-- The goal behind the first statement of a block. -/
theorem meetsAll_rest (s : State) (void : Bool) (st : Statement) (b : Block) :
    MeetsAll [statements void st.isReturn] (s.drawn st.draws) (blockYield (s.drawn st.draws) void st.isReturn b)
      (s.drawn (Block.cons st b).draws) :=
  meetsAll_singleton.mpr ⟨b, rfl, by simp [Block.draws]⟩

section
variable {void returned : Bool} {st : Statement} {b : Block} {place : Span} {p : Phrase}

theorem answers_let (hp : st.phrase = .keyword .let_ ++ p) :
    Answers ⟨.keyword .let_, place⟩ s (blockYield s void returned (.cons st b))
      (s.drawn (Block.cons st b).draws) (statements void returned) := by
  have hrest := meetsAll_rest s void st b
  obtain ⟨hd, hr⟩ := letStatement hp
  rw [hd, hr] at hrest
  refine .take rfl ⟨_, s, _, ⟨st, p, hp, rfl, rfl⟩, hrest, rfl⟩ ?_
  rw [blockYield_cons, hd, hr, hp]
  ext1 <;> simp [Phrase.keyword]

theorem answers_return (hp : st.phrase = .keyword .return_ ++ p) :
    Answers ⟨.keyword .return_, place⟩ s (blockYield s void returned (.cons st b))
      (s.drawn (Block.cons st b).draws) (statements void returned) := by
  have hrest := meetsAll_rest s void st b
  obtain ⟨hd, hr⟩ := returnStatement hp
  rw [hd, hr] at hrest
  refine .take rfl ⟨_, s, _, ⟨st, p, hp, rfl, rfl⟩, hrest, rfl⟩ ?_
  rw [blockYield_cons, hd, hr, hp]
  ext1 <;> simp [Phrase.keyword]

/-- The goals of a branch, up to the choice whether there is an alternative. -/
theorem meetsAll_branch (s : State) (condition : Expression) (body : Block) {done : String} {agenda : List Goal}
    {w : Yield} (h : MeetsAll agenda ((s.drawn 2).drawn body.draws) w s') :
    MeetsAll (Goal.condition ++ [write (.ifGoto (ifName s.labels.next))] ++ block ++
        write (.goto done) :: write (.label (ifName s.labels.next)) :: agenda) (s.drawn 2)
      (yieldIn s (condition.conditionPhrase ++ .symbol .leftBrace ++ body.phrase ++ .symbol .rightBrace)
        (condition.jumpUnless .wrapped s.environment (ifName s.labels.next) ++
          body.code .wrapped s.environment (s.labels.next + 2) ++
          [.goto done, .label (ifName s.labels.next)]) ++ w) s' := by
  simp only [List.append_assoc, List.cons_append, List.nil_append]
  refine meetsAll_condition.mpr ⟨condition, _, meetsAll_emit.mpr ⟨_, meetsAll_block.mpr ⟨body, _,
    meetsAll_emit.mpr ⟨_, meetsAll_emit.mpr ⟨w, h, rfl⟩, rfl⟩, rfl⟩, rfl⟩, ?_⟩
  ext1 <;> simp [Expression.jumpUnless]

/-- The goals of a loop. -/
theorem meetsAll_loop (s : State) (condition : Expression) (body : Block) {top done : String} {agenda : List Goal}
    {w : Yield} (h : MeetsAll agenda ((s.drawn 2).drawn body.draws) w s') :
    MeetsAll (Goal.condition ++ [write (.ifGoto done)] ++ block ++
        write (.goto top) :: write (.label done) :: agenda) (s.drawn 2)
      (yieldIn s (condition.conditionPhrase ++ .symbol .leftBrace ++ body.phrase ++ .symbol .rightBrace)
        (condition.jumpUnless .wrapped s.environment done ++ body.code .wrapped s.environment (s.labels.next + 2) ++
          [.goto top, .label done]) ++ w) s' := by
  simp only [List.append_assoc, List.cons_append, List.nil_append]
  refine meetsAll_condition.mpr ⟨condition, _, meetsAll_emit.mpr ⟨_, meetsAll_block.mpr ⟨body, _,
    meetsAll_emit.mpr ⟨_, meetsAll_emit.mpr ⟨w, h, rfl⟩, rfl⟩, rfl⟩, rfl⟩, ?_⟩
  ext1 <;> simp [Expression.jumpUnless]

/-- The first token of a statement, or the brace behind the last one. -/
theorem answers_statements (hg : (statements void returned).Meets s y s')
    (hl : y.phrase.lexemes ++ rest = t.lexeme :: more) : Answers t s y s' (statements void returned) := by
  obtain ⟨lexeme, place⟩ := t
  obtain ⟨b, rfl, rfl⟩ := hg
  change Answers _ _ (blockYield s void returned b) _ _
  cases b with
  | nil =>
    cases hl
    have hstep : (statements void returned).step ⟨.symbol .rightBrace, place⟩ s =
        .take ((Placed.epilogue void returned).map .wrote) [] s := by
      simp only [step, statementStep, Placed.epilogue]
      cases void && !returned <;> rfl
    refine .take hstep ⟨rfl, rfl⟩ ?_
    ext1 <;> simp [blockYield, Phrase.symbol, Block.phrase, Block.code, Block.endsInReturn, List.filterMap_map,
      Function.comp_def]
  | cons st b =>
    have hrest := meetsAll_rest s void st b
    cases st with
    | assign x value =>
      cases hl
      exact answers_let (p := .name x ++ (.use x ++ (.symbol .eq ++ (value.phrase ++ .symbol .semicolon))))
        (by simp [Statement.phrase])
    | assignElement x index value =>
      cases hl
      exact answers_let (p := .name x ++ (.use x ++ (.symbol .leftBracket ++ (index.phrase ++
        (.symbol .rightBracket ++ (.symbol .eq ++ (value.phrase ++ .symbol .semicolon)))))))
        (by simp [Statement.phrase])
    | if_ condition body =>
      cases hl
      have hd : (Statement.if_ condition body).draws = 2 + body.draws := Nat.add_comm ..
      rw [hd, ← State.drawn_drawn] at hrest
      refine .take rfl (meetsAll_branch s condition body ⟨_, _, _, Or.inl ⟨rfl, rfl⟩, hrest, rfl⟩) ?_
      rw [blockYield_cons, hd]
      ext1 <;> simp [Phrase.keyword, Statement.phrase, Statement.code]
    | ifElse condition body alternative =>
      cases hl
      have hd : (Statement.ifElse condition body alternative).draws = 2 + body.draws + alternative.draws := by
        simp only [Statement.draws]
        omega
      rw [hd, ← State.drawn_drawn, ← State.drawn_drawn] at hrest
      refine .take rfl (meetsAll_branch s condition body ⟨_, _, _, Or.inr ⟨alternative, rfl, rfl⟩, hrest, rfl⟩) ?_
      rw [blockYield_cons, hd]
      ext1 <;> simp [Phrase.keyword, Statement.phrase, Statement.code, Nat.add_assoc]
    | while_ condition body =>
      cases hl
      have hd : (Statement.while_ condition body).draws = 2 + body.draws := Nat.add_comm ..
      rw [hd, ← State.drawn_drawn] at hrest
      refine .take rfl (meetsAll_loop s condition body hrest) ?_
      rw [blockYield_cons, hd]
      ext1 <;> simp [Phrase.keyword, Statement.phrase, Statement.code, List.filterMap_cons]
    | do_ a =>
      cases hl
      refine .take rfl (meetsAll_term.mpr ⟨a, _, meetsAll_symbol.mpr ⟨_, meetsAll_emit.mpr
        ⟨_, hrest, rfl⟩, rfl⟩, rfl⟩) ?_
      rw [blockYield_cons]
      ext1 <;> simp [Phrase.keyword, Statement.phrase, Statement.code]
    | return_ =>
      cases hl
      exact answers_return (p := .symbol .semicolon) rfl
    | returnValue value =>
      cases hl
      exact answers_return (p := value.phrase ++ .symbol .semicolon) (by simp [Statement.phrase])

theorem answers_letTarget (hg : letTarget.Meets s y s') (hl : y.phrase.lexemes ++ rest = t.lexeme :: more) :
    Answers t s y s' letTarget := by
  obtain ⟨lexeme, place⟩ := t
  obtain ⟨st, p, hp, rfl, rfl⟩ := hg
  -- Both assignments have a name behind the reserved word.
  obtain ⟨x, q, rfl⟩ : ∃ x q, p = .name x ++ q := by
    have hp' := congrArg Phrase.lexemes hp
    cases st with
    | assign x value =>
      simp only [Statement.phrase, Phrase.append_assoc] at hp
      exact ⟨x, _, (Phrase.token_append_inj hp).2.symm⟩
    | assignElement x index value =>
      simp only [Statement.phrase, Phrase.append_assoc] at hp
      exact ⟨x, _, (Phrase.token_append_inj hp).2.symm⟩
    | _ => simp [Statement.phrase] at hp'
  cases hl
  refine .take rfl (meetsAll_singleton.mpr ⟨st, q, by rw [hp, Phrase.append_assoc], rfl, rfl⟩) ?_
  ext1 <;> simp [Phrase.name]

theorem answers_letRest {x : String} {span : Span} (hg : (letRest x span).Meets s y s')
    (hl : y.phrase.lexemes ++ rest = t.lexeme :: more) : Answers t s y s' (letRest x span) := by
  obtain ⟨lexeme, place⟩ := t
  obtain ⟨st, p, hp, rfl, rfl⟩ := hg
  have hp' := congrArg Phrase.lexemes hp
  cases st with
  | assign x' value =>
    simp only [Statement.phrase, Phrase.append_assoc] at hp
    obtain ⟨hx, rfl⟩ := Phrase.token_append_inj (Phrase.token_append_inj hp).2
    cases hx
    cases hl
    cases hv : s'.environment.lookup? x with
    | some v =>
      have hstep : (letRest x span).step ⟨.symbol .eq, place⟩ s' = _ := wantVariable_some hv span _
      refine .take hstep (meetsAll_expression.mpr ⟨value, _, meetsAll_emit.mpr ⟨_, meetsAll_symbol.mpr
        ⟨_, ⟨rfl, rfl⟩, rfl⟩, rfl⟩, rfl⟩) ?_
      ext1 <;> simp [Phrase.symbol, Phrase.unbound_use_some hv, Statement.code, Environment.write_of_lookup? hv]
    | none => exact .undefined (wantVariable_none hv span _) (by simp [Phrase.unbound_use_none hv])
  | assignElement x' index value =>
    simp only [Statement.phrase, Phrase.append_assoc] at hp
    obtain ⟨hx, rfl⟩ := Phrase.token_append_inj (Phrase.token_append_inj hp).2
    cases hx
    cases hl
    cases hv : s'.environment.lookup? x with
    | some v =>
      have hstep : (letRest x span).step ⟨.symbol .leftBracket, place⟩ s' = .take []
          (element v ++ (symbol .eq :: (expression ++ [write (.pop .temp 0), write (.pop .pointer 1),
            write (.push .temp 0), write (.pop .that 0), symbol .semicolon]))) s' := by
        simp [step, letStep, wantVariable_some hv]
      have hend : MeetsAll [write (.pop .temp 0), write (.pop .pointer 1), write (.push .temp 0),
          write (.pop .that 0), symbol .semicolon] s'
          { phrase := .symbol .semicolon
            code := [.pop .temp 0, .pop .pointer 1, .push .temp 0, .pop .that 0] } s' := by
        simp only [write, meetsAll_emit, meetsAll_symbol]
        refine ⟨_, ⟨_, ⟨_, ⟨_, ⟨_, ⟨rfl, rfl⟩, rfl⟩, rfl⟩, rfl⟩, rfl⟩, ?_⟩
        ext1 <;> simp
      refine .take hstep (meetsAll_element.mpr ⟨index, _, meetsAll_symbol.mpr ⟨_, meetsAll_expression.mpr
        ⟨value, _, hend, rfl⟩, rfl⟩, rfl⟩) ?_
      ext1 <;> simp [Phrase.symbol, Phrase.unbound_use_some hv, Statement.code, Environment.read_of_lookup? hv]
    | none => exact .undefined (wantVariable_none hv span _) (by simp [Phrase.unbound_use_none hv])
  | _ => simp [Statement.phrase] at hp'

theorem answers_otherwise {done : String} (hg : (otherwise done).Meets s y s') (hf : Starts inBlock rest)
    (hl : y.phrase.lexemes ++ rest = t.lexeme :: more) : Answers t s y s' (otherwise done) := by
  obtain ⟨lexeme, place⟩ := t
  rcases hg with ⟨rfl, rfl⟩ | ⟨b, rfl, rfl⟩
  · obtain ⟨l, rest, rfl, hb⟩ := hf
    cases hl
    have hne : lexeme ≠ .keyword .else_ := by
      rintro rfl
      cases hb
    exact .done (by simp [step, hne]) rfl
  · cases hl
    refine .take rfl (meetsAll_block.mpr ⟨b, _, meetsAll_emit.mpr ⟨_, ⟨rfl, rfl⟩, rfl⟩, rfl⟩) ?_
    ext1 <;> simp [Phrase.keyword]

theorem answers_returnValue (hg : returnValue.Meets s y s')
    (hl : y.phrase.lexemes ++ rest = t.lexeme :: more) : Answers t s y s' returnValue := by
  obtain ⟨st, p, hp, rfl, rfl⟩ := hg
  have hp' := congrArg Phrase.lexemes hp
  cases st with
  | return_ =>
    obtain ⟨lexeme, place⟩ := t
    obtain ⟨-, rfl⟩ := Phrase.token_append_inj hp
    cases hl
    refine .take rfl ⟨rfl, rfl⟩ ?_
    ext1 <;> simp [Phrase.symbol, Statement.code]
  | returnValue value =>
    simp only [Statement.phrase, Phrase.append_assoc] at hp
    obtain ⟨-, rfl⟩ := Phrase.token_append_inj hp
    simp only [phrase_yieldIn, Phrase.lexemes_unbound, Phrase.lexemes_append, List.append_assoc] at hl
    have hne : t.lexeme ≠ .symbol .semicolon := by
      intro he
      have := not_closes_of_expression hl
      rw [he] at this
      cases this
    obtain ⟨a, ops⟩ := value
    simp only [Expression.phrase, Phrase.lexemes_append, List.append_assoc] at hl
    have hend : MeetsAll [write .return_, symbol .semicolon] s' _ s' :=
      meetsAll_emit.mpr ⟨_, meetsAll_symbol.mpr ⟨{}, ⟨rfl, rfl⟩, rfl⟩, rfl⟩
    obtain ⟨events, goals, z, hstep, hm, hy⟩ := termStep_of_term
      (meetsAll_operators.mpr ⟨ops, _, hend, rfl⟩) hl
    refine .take (by simpa [step, hne] using hstep) hm ?_
    rw [← hy]
    ext1 <;> simp [Statement.code, Expression.phrase, Expression.code]
  | _ => simp [Statement.phrase] at hp'

end

/-! ### Declarations -/

theorem answers_members (hg : members.Meets s y s') (hl : y.phrase.lexemes ++ rest = t.lexeme :: more) :
    Answers t s y s' members := by
  obtain ⟨lexeme, place⟩ := t
  obtain ⟨ms, rfl, rfl⟩ := hg
  cases ms with
  | nil =>
    cases hl
    refine .take rfl ⟨rfl, rfl⟩ ?_
    ext1 <;> simp [Phrase.symbol, Member.unbound, Member.place]
  | cons m ms =>
    cases m with
    | statics d =>
      cases hl
      have hd := d.declareAll_class (Or.inl rfl : Kind.static = .static ∨ Kind.static = .field) s
      refine .take rfl ⟨_, _, _, ⟨d, rfl, hd.symm⟩, meetsAll_singleton.mpr ⟨ms, rfl, rfl⟩, rfl⟩ ?_
      ext1 <;> simp [Phrase.keyword, Member.unbound, Member.place, Member.phrase, Member.bindings]
    | fields d =>
      cases hl
      have hd := d.declareAll_class (Or.inr rfl : Kind.field = .static ∨ Kind.field = .field) s
      refine .take rfl ⟨_, _, _, ⟨d, rfl, hd.symm⟩, meetsAll_singleton.mpr ⟨ms, rfl, rfl⟩, rfl⟩ ?_
      ext1 <;> simp [Phrase.keyword, Member.unbound, Member.place, Member.phrase, Member.bindings]
    | routine r =>
      cases hl
      have hstep : members.step ⟨.keyword (Routine.kindWord r.kind), place⟩ s =
          .take [] [returnType r.kind, members] { s with routineScope := {} } := by
        cases r.kind <;> rfl
      refine .take hstep ⟨_, _, _, ⟨r, rfl, rfl, rfl⟩, meetsAll_singleton.mpr ⟨ms, rfl, rfl⟩, rfl⟩ ?_
      ext1 <;> simp [Phrase.keyword, Member.unbound, Member.place, Routine.phrase, Routine.headPhrase,
        Routine.placedIn, Routine.entered_eq, Routine.environment, State.environment, State.drawn]

theorem answers_routineName {kind : RoutineKind} {void : Bool} (hg : (routineName kind void).Meets s y s')
    (hl : y.phrase.lexemes ++ rest = t.lexeme :: more) : Answers t s y s' (routineName kind void) := by
  obtain ⟨lexeme, place⟩ := t
  obtain ⟨r, hk, hv, rfl, rfl⟩ := hg
  cases hl
  have he := entered_of_parts (s := s) hk
  have hbody : (statements void false).Meets (r.entered s) _ ((r.entered s).drawn r.body.draws) :=
    ⟨r.body, rfl, rfl⟩
  have hlocals : (locals kind r.name).Meets
      ((s.declareReceiver kind).declareAll (r.parameters.map Parameter.binding)) _ (r.entered s) :=
    ⟨r.locals, rfl, he⟩
  refine .take rfl (meetsAll_emit.mpr ⟨_, meetsAll_symbol.mpr ⟨_, ⟨_, _, _, ⟨r.parameters, rfl, rfl⟩,
    meetsAll_symbol.mpr ⟨_, ⟨_, _, _, hlocals, meetsAll_singleton.mpr hbody, rfl⟩, rfl⟩, rfl⟩, rfl⟩, rfl⟩) ?_
  ext1
  · simp [Phrase.name]
  · simp [Routine.code_placedIn, hk, hv]

theorem answers_returnType {kind : RoutineKind} (hg : (returnType kind).Meets s y s')
    (hl : y.phrase.lexemes ++ rest = t.lexeme :: more) : Answers t s y s' (returnType kind) := by
  obtain ⟨r, hk, rfl, rfl⟩ := hg
  have hfirst : Routine.resultLexeme r.result? = t.lexeme := by
    simp only [phrase_yieldIn, Phrase.lexemes_unbound, Phrase.lexemes_append, Phrase.lexemes_token,
      List.cons_append, List.nil_append, List.cons.injEq] at hl
    exact hl.1
  have hstep : (returnType kind).step t s = .take [] [routineName kind r.result?.isNone] s := by
    cases hr : r.result? with
    | none =>
      rw [hr] at hfirst
      simp [step, ← hfirst, Routine.resultLexeme]
    | some type =>
      rw [hr] at hfirst
      have hne : t.lexeme ≠ .keyword .void := by
        intro he
        cases type <;> simp [he, Routine.resultLexeme, TypeName.lexeme] at hfirst
      simp [step, hne, wantType_of_lexeme hfirst.symm]
  refine .take hstep (meetsAll_singleton.mpr ⟨r, hk, rfl, rfl, rfl⟩) ?_
  ext1 <;> simp [hfirst]

/-! ### One token -/

/-- A goal that something meets does what is needed with the next token, provided that what stands behind the
goal may stand there. -/
theorem answers {g : Goal} (hg : g.Meets s y s') (hf : ∀ p, g.follow? = some p → Starts p rest)
    (hl : y.phrase.lexemes ++ rest = t.lexeme :: more) : Answers t s y s' g := by
  obtain ⟨lexeme, place⟩ := t
  cases g with
  | keyword word =>
    obtain ⟨rfl, rfl⟩ := hg
    cases hl
    have hstep : (keyword word).step ⟨.keyword word, place⟩ s' = .take [] [] s' := if_pos rfl
    refine .take hstep ⟨rfl, rfl⟩ ?_
    ext1 <;> simp [Phrase.keyword]
  | symbol x =>
    obtain ⟨rfl, rfl⟩ := hg
    cases hl
    have hstep : (symbol x).step ⟨.symbol x, place⟩ s' = .take [] [] s' := if_pos rfl
    refine .take hstep ⟨rfl, rfl⟩ ?_
    ext1 <;> simp [Phrase.symbol]
  | emit event =>
    obtain ⟨rfl, rfl⟩ := hg
    exact .done rfl rfl
  | className =>
    obtain ⟨name, ms, rfl, rfl⟩ := hg
    cases hl
    have hms : members.Meets { s with className := name } _ (Member.leave ms { s with className := name }) :=
      ⟨ms, rfl, rfl⟩
    refine .take rfl (meetsAll_emit.mpr ⟨_, meetsAll_symbol.mpr ⟨_, meetsAll_singleton.mpr hms, rfl⟩, rfl⟩) ?_
    ext1 <;> simp [Phrase.name]
  | members => exact answers_members hg hl
  | variableType kind =>
    obtain ⟨⟨type, x, xs⟩, rfl, rfl⟩ := hg
    obtain rfl : type.lexeme = lexeme := (List.cons.inj hl).1
    have hstep : (variableType kind).step ⟨type.lexeme, place⟩ s =
        .take [] [variableName kind type.text] s := by
      simp [step, wantType_of_lexeme (t := ⟨type.lexeme, place⟩) rfl]
    refine .take hstep (meetsAll_singleton.mpr ⟨x, xs, rfl, rfl⟩) ?_
    ext1 <;> simp [Declaration.phrase]
  | variableName kind type =>
    obtain ⟨x, xs, rfl, rfl⟩ := hg
    cases hl
    refine .take rfl (meetsAll_singleton.mpr ⟨xs, rfl, rfl⟩) ?_
    ext1 <;> simp [Phrase.name]
  | moreVariables kind type =>
    obtain ⟨xs, rfl, rfl⟩ := hg
    cases xs with
    | nil =>
      cases hl
      refine .take rfl ⟨rfl, rfl⟩ ?_
      ext1 <;> simp [Phrase.symbol, moreNames]
    | cons x xs =>
      cases hl
      refine .take rfl (meetsAll_singleton.mpr ⟨x, xs, rfl, rfl⟩) ?_
      ext1 <;> simp [Phrase.symbol, moreNames]
  | returnType kind => exact answers_returnType hg hl
  | routineName kind void => exact answers_routineName hg hl
  | parameters =>
    obtain ⟨ps, rfl, rfl⟩ := hg
    cases ps with
    | nil =>
      cases hl
      refine .take rfl ⟨rfl, rfl⟩ ?_
      ext1 <;> simp [Phrase.symbol, Parameter.listPhrase]
    | cons p ps =>
      obtain ⟨type, x⟩ := p
      obtain rfl : type.lexeme = lexeme := (List.cons.inj hl).1
      have hne : type.lexeme ≠ .symbol .rightParen := by cases type <;> simp [TypeName.lexeme]
      have hstep : parameters.step ⟨type.lexeme, place⟩ s = .take [] [parameterName type.text] s := by
        simp [step, hne, wantType_of_lexeme (t := ⟨type.lexeme, place⟩) rfl]
      refine .take hstep (meetsAll_singleton.mpr ⟨x, ps, rfl, rfl⟩) ?_
      ext1 <;> simp [Parameter.listPhrase, Parameter.phrase]
  | parameter =>
    obtain ⟨⟨type, x⟩, ps, rfl, rfl⟩ := hg
    obtain rfl : type.lexeme = lexeme := (List.cons.inj hl).1
    have hstep : parameter.step ⟨type.lexeme, place⟩ s = .take [] [parameterName type.text] s := by
      simp [step, wantType_of_lexeme (t := ⟨type.lexeme, place⟩) rfl]
    refine .take hstep (meetsAll_singleton.mpr ⟨x, ps, rfl, rfl⟩) ?_
    ext1 <;> simp [Parameter.phrase]
  | parameterName type =>
    obtain ⟨x, ps, rfl, rfl⟩ := hg
    cases hl
    refine .take rfl (meetsAll_singleton.mpr ⟨ps, rfl, rfl⟩) ?_
    ext1 <;> simp [Phrase.name]
  | moreParameters =>
    obtain ⟨ps, rfl, rfl⟩ := hg
    cases ps with
    | nil =>
      cases hl
      refine .take rfl ⟨rfl, rfl⟩ ?_
      ext1 <;> simp [Phrase.symbol, Parameter.tailPhrase]
    | cons p ps =>
      cases hl
      refine .take rfl (meetsAll_singleton.mpr ⟨p, ps, rfl, rfl⟩) ?_
      ext1 <;> simp [Phrase.symbol, Parameter.tailPhrase]
  | locals kind name =>
    obtain ⟨ds, rfl, rfl⟩ := hg
    cases ds with
    | nil =>
      obtain ⟨l, rest, rfl, hb⟩ := hf _ rfl
      cases hl
      have hne : lexeme ≠ .keyword .var := by
        rintro rfl
        cases hb
      exact .done (by simp [step, hne]; rfl) (by ext1 <;> simp [Routine.localsPhrase, List.filterMap_map,
        Function.comp_def])
    | cons d ds =>
      cases hl
      refine .take rfl ⟨_, _, _, ⟨d, rfl, rfl⟩, meetsAll_singleton.mpr ⟨ds, rfl, by simp⟩, rfl⟩ ?_
      ext1 <;> simp [Phrase.keyword, Routine.localsPhrase]
  | statements void returned => exact answers_statements hg hl
  | letTarget =>
    exact answers_letTarget hg hl
  | letRest x span => exact answers_letRest hg hl
  | otherwise done => exact answers_otherwise hg (hf _ rfl) hl
  | returnValue => exact answers_returnValue hg hl
  | term =>
    obtain ⟨a, rfl, rfl⟩ := hg
    have hnil : MeetsAll [] s' {} s' := ⟨rfl, rfl⟩
    obtain ⟨events, goals, z, hstep, hm, hy⟩ := termStep_of_term hnil hl
    exact .take hstep hm (by simpa using hy)
  | operators => exact answers_operators hg (hf _ rfl) hl
  | afterName x span => exact answers_afterName hg (hf _ rfl) hl
  | callee owner => exact answers_callee hg hl
  | openArguments f count =>
    obtain ⟨as, rfl, rfl⟩ := hg
    cases hl
    refine .take rfl (meetsAll_singleton.mpr ⟨as, rfl, rfl⟩) ?_
    ext1 <;> simp [Phrase.symbol]
  | arguments f count => exact answers_arguments hg hl
  | moreArguments f count => exact answers_moreArguments hg hl

/-! ### Whole runs -/

theorem Separated.settle {agenda agenda₁ : List Goal} {s₁ : State} {events : Array Event} (hs : Separated agenda)
    (h : Goal.settle t #[] agenda s = (.ok (agenda₁, s₁), events)) : Separated agenda₁ := by
  induction agenda generalizing s events with
  | nil => cases h
  | cons g agenda ih =>
    rw [settle_cons] at h
    cases hg : g.step t s with
    | fail e => simp [hg] at h
    | done events₀ s₀ =>
      simp only [hg, Prod.mk.injEq] at h
      exact ih hs.tail (Prod.ext h.1 rfl)
    | take events₀ goals s₀ =>
      simp only [hg, Prod.mk.injEq, Except.ok.injEq] at h
      rw [← h.1.1]
      exact hs.take hg

theorem Reaches.separated {agenda agenda₁ : List Goal} {s₁ : State} {ts : List Token} {events : List Event}
    (h : Reaches agenda s ts events agenda₁ s₁) (hs : Separated agenda) : Separated agenda₁ := by
  induction h with
  | refl => exact hs
  | step h _ ih => exact ih (hs.settle h)

/-- Settling a token, when something meets the agenda and the token is its first lexeme. -/
theorem settle_of_meetsAll {agenda : List Goal} (hs : Separated agenda) (hm : MeetsAll agenda s y s')
    (hl : y.phrase.lexemes = t.lexeme :: more) :
    (∃ agenda₁ s₁ events z, settle t #[] agenda s = (.ok (agenda₁, s₁), events) ∧ MeetsAll agenda₁ s₁ z s' ∧
        y = .taken t.lexeme events.toList ++ z) ∨
      ∃ x span events, settle t #[] agenda s = (.error (.undefined x span), events) ∧ y.phrase.uses ≠ [] := by
  induction agenda generalizing s y with
  | nil =>
    obtain ⟨rfl, rfl⟩ := hm
    cases hl
  | cons g agenda ih =>
    obtain ⟨y₁, s₁, y₂, hg, hm₁, rfl⟩ := hm
    have ha := answers hg (fun p hp => hs.1 p hp hm₁) hl
    rw [settle_cons]
    cases ha with
    | @take events goals s₂ z h hz hy =>
      refine Or.inl ⟨goals ++ agenda, s₂, events.toArray, z ++ y₂, by simp [h],
        meetsAll_append.mpr ⟨z, s₁, y₂, hz, hm₁, rfl⟩, ?_⟩
      rw [hy, Yield.append_assoc]
    | @done events h hy =>
      subst hy
      rcases ih hs.tail hm₁ (by simpa using hl) with ⟨agenda₁, s₂, events₁, z, h₁, hz, rfl⟩ |
        ⟨x, span, events₁, h₁, hu⟩
      · refine Or.inl ⟨agenda₁, s₂, events.toArray ++ events₁, z, by simp [h, h₁], hz, ?_⟩
        ext1 <;> simp
      · exact Or.inr ⟨x, span, events.toArray ++ events₁, by simp [h, h₁], by simpa using hu⟩
    | @undefined x span h hu =>
      refine Or.inr ⟨x, span, #[], by simp [h], ?_⟩
      simp [hu]

/-- The pass takes a whole text in which no name is used as a variable that is none. -/
theorem run_of_meetsAll {agenda : List Goal} {ts : List Token} (finish : Span) (hs : Separated agenda)
    (hm : MeetsAll agenda s y s') (hl : y.phrase.lexemes = ts.map (·.lexeme)) (hu : y.phrase.uses = []) :
    (run finish #[] (ts.map .ok) agenda s).result = .ok () := by
  induction ts generalizing agenda s y with
  | nil =>
    cases agenda with
    | nil => rfl
    | cons g agenda => exact absurd hl (hs.ne_nil (by simp) hm)
  | cons t ts ih =>
    rcases settle_of_meetsAll hs hm hl with ⟨agenda₁, s₁, events, z, h, hz, rfl⟩ | ⟨x, span, events, -, hne⟩
    · simp only [List.map_cons, run, h]
      rw [run_eq_append]
      refine ih (hs.settle h) hz ?_ (by simpa using hu)
      simpa using hl
    · exact absurd hu hne

/-- Behind tokens that the pass has taken stands what is left of any text that starts with them. -/
theorem Reaches.exists_rest {agenda agenda₁ : List Goal} {s₁ : State} {ts : List Token} {events : List Event}
    (h : Reaches agenda s ts events agenda₁ s₁) (hs : Separated agenda) (hm : MeetsAll agenda s y s')
    (hl : y.phrase.lexemes = ts.map (·.lexeme) ++ more) :
    ∃ z, MeetsAll agenda₁ s₁ z s' ∧ z.phrase.lexemes = more := by
  induction h generalizing y with
  | refl => exact ⟨y, hm, by simpa using hl⟩
  | step h _ ih =>
    rcases settle_of_meetsAll hs hm hl with ⟨agenda₂, s₂, events₂, z, h₂, hz, rfl⟩ | ⟨x, span, events₂, h₂, -⟩
    · rw [h] at h₂
      cases h₂
      exact ih (hs.settle h) hz (by simpa using hl)
    · rw [h] at h₂
      cases h₂

end

end Goal
end JackToVm
