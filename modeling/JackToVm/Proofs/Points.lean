import JackToVm.Proofs.Blocks

/-!
What the pass knows at a point of a subroutine. The pass works a subroutine off on top of the members behind it
(`Reaches.above`). In its body the pass declares local variables and nothing else (`Reaches.grows`), so the
environment at a point is that in front of the body with some more of them (`environment_of_point`).
-/

namespace JackToVm

/-- Members declare variables of the class and leave the others. -/
theorem Syntax.Member.scopes_leave (ms : List Member) (s : State) :
    (leave ms s).className = s.className ∧
      (leave ms s).classScope = s.classScope.defineAll .wrapped (ms.flatMap bindings) := by
  induction ms generalizing s with
  | nil => exact ⟨rfl, rfl⟩
  | cons m ms ih =>
    rw [List.flatMap_cons, Scope.defineAll_append]
    cases m with
    | statics | fields => exact ih _
    | routine r =>
      have hr := ih ((r.entered { s with routineScope := {} }).drawn r.body.draws)
      rw [Routine.entered_eq] at hr
      rw [leave, Routine.entered_eq]
      exact hr

namespace Syntax.Routine

/-- All of a subroutine in front of its body, with the opening brace. -/
def signaturePhrase (r : Routine) : Phrase :=
  .keyword (kindWord r.kind) ++ .token (resultLexeme r.result?) ++ .name r.name ++ .symbol .leftParen ++
    Parameter.listPhrase r.parameters ++ .symbol .leftBrace

/-- The body of a subroutine, without its braces. -/
def bodyPhrase (r : Routine) : Phrase :=
  localsPhrase r.locals ++ r.body.phrase

/-- The state with the receiver and the parameters of a subroutine. -/
def opened (r : Routine) (s : State) : State :=
  (s.declareReceiver r.kind).declareAll (r.parameters.map Parameter.binding)

/-- What is known in front of the body of a subroutine: its receiver and its parameters. -/
def outset (r : Routine) (className : String) (classScope : Scope) : Environment where
  className := className
  classScope := classScope
  routineScope := ({} : Scope).defineAll .wrapped (receiver className r.kind ++ r.parameters.map Parameter.binding)

theorem environment_opened (r : Routine) (s : State) :
    (r.opened { s with routineScope := {} }).environment = r.outset s.className s.classScope := by
  have hp : ∀ b ∈ r.parameters.map Parameter.binding, b.kind = .argument ∨ b.kind = .local_ :=
    List.forall_mem_map.mpr fun p _ => Or.inl rfl
  rw [opened, State.declareAll_routine _ hp, outset, Scope.defineAll_append]
  cases r.kind <;> rfl

end Syntax.Routine

theorem Phrase.Bound.uses_unbound {env : Environment} {p : Phrase} (h : p.Bound env) : (p.unbound env).uses = [] := by
  refine List.filter_eq_nil_iff.mpr fun u hu => ?_
  rw [Option.isNone_iff_eq_none]
  exact Option.isSome_iff_ne_none.mp (h u hu)

/-- The second environment is the first one with more local variables. -/
def Environment.Grows (env env' : Environment) : Prop :=
  ∃ locals : List Binding, (∀ b ∈ locals, b.kind = .local_) ∧
    env' = { env with routineScope := env.routineScope.defineAll .wrapped locals }

theorem Environment.Grows.refl (env : Environment) : env.Grows env :=
  ⟨[], List.forall_mem_nil _, rfl⟩

theorem Environment.Grows.trans {env env₁ env₂ : Environment} (h : env.Grows env₁) (h' : env₁.Grows env₂) :
    env.Grows env₂ := by
  obtain ⟨bs, hbs, rfl⟩ := h
  obtain ⟨more, hmore, rfl⟩ := h'
  refine ⟨bs ++ more, List.forall_mem_append.mpr ⟨hbs, hmore⟩, ?_⟩
  rw [Scope.defineAll_append]

namespace Goal
open Syntax

section
variable {t : Token} {ts us : List Token} {agenda agenda₁ agenda₂ goals : List Goal} {s s₁ s₂ s' : State}
  {events : List Event} {y : Yield}

/-! ### Runs in parts -/

theorem Reaches.trans {more : List Event} (h : Reaches agenda s ts events agenda₁ s₁)
    (h' : Reaches agenda₁ s₁ us more agenda₂ s₂) : Reaches agenda s (ts ++ us) (events ++ more) agenda₂ s₂ := by
  induction h with
  | refl => exact h'
  | step hs _ ih =>
    rw [List.append_assoc]
    exact .step hs (ih h')

theorem Reaches.split (h : Reaches agenda s (ts ++ us) events agenda₂ s₂) :
    ∃ agenda₁ s₁ front back, Reaches agenda s ts front agenda₁ s₁ ∧ Reaches agenda₁ s₁ us back agenda₂ s₂ ∧
      events = front ++ back := by
  induction ts generalizing agenda s events with
  | nil => exact ⟨agenda, s, [], events, .refl .., h, rfl⟩
  | cons t ts ih =>
    cases h with
    | step hs h =>
      obtain ⟨agenda₁, s₁, front, back, hfront, hback, rfl⟩ := ih h
      exact ⟨agenda₁, s₁, _, back, .step hs hfront, hback, (List.append_assoc ..).symm⟩

/-- The tokens that were taken tell where the pass is. -/
theorem Reaches.unique {more : List Event} (h : Reaches agenda s ts events agenda₁ s₁)
    (h' : Reaches agenda s ts more agenda₂ s₂) : agenda₁ = agenda₂ ∧ s₁ = s₂ := by
  induction h generalizing more with
  | refl =>
    cases h'
    exact ⟨rfl, rfl⟩
  | step hs _ ih =>
    cases h' with
    | step hs' h' =>
      rw [hs] at hs'
      cases hs'
      exact ih h'

theorem settle_above {events : Array Event} (rest : List Goal)
    (h : settle t #[] agenda s = (.ok (agenda₁, s₁), events)) :
    settle t #[] (agenda ++ rest) s = (.ok (agenda₁ ++ rest, s₁), events) := by
  induction agenda generalizing s events with
  | nil => cases h
  | cons g agenda ih =>
    rw [List.cons_append, settle_cons]
    rw [settle_cons] at h
    cases hg : g.step t s with
    | fail e => simp [hg] at h
    | done events₀ s₀ =>
      simp only [hg, Prod.mk.injEq] at h ⊢
      obtain ⟨h₁, rfl⟩ := h
      have hrest := ih (Prod.ext h₁ rfl)
      rw [hrest]
      exact ⟨rfl, rfl⟩
    | take events₀ goals s₀ =>
      simp only [hg, Prod.mk.injEq, Except.ok.injEq] at h ⊢
      obtain ⟨⟨rfl, rfl⟩, rfl⟩ := h
      exact ⟨⟨(List.append_assoc ..).symm ▸ rfl, rfl⟩, rfl⟩

/-- What an agenda does is done above other goals as well. -/
theorem Reaches.above (h : Reaches agenda s ts events agenda₁ s₁) (rest : List Goal) :
    Reaches (agenda ++ rest) s ts events (agenda₁ ++ rest) s₁ := by
  induction h with
  | refl => exact .refl ..
  | step hs _ ih => exact .step (settle_above rest hs) ih

/-- The pass takes all of a text in which no name is used as a variable that is none, and comes to the end of the
agenda. -/
theorem reaches_of_meetsAll (hs : Separated agenda) (hm : MeetsAll agenda s y s')
    (hl : y.phrase.lexemes = ts.map (·.lexeme)) (hu : y.phrase.uses = []) :
    ∃ events, Reaches agenda s ts events [] s' := by
  induction ts generalizing agenda s y with
  | nil =>
    cases agenda with
    | nil =>
      obtain ⟨-, rfl⟩ := hm
      exact ⟨[], .refl ..⟩
    | cons g agenda => exact absurd hl (hs.ne_nil (by simp) hm)
  | cons t ts ih =>
    rcases settle_of_meetsAll hs hm hl with ⟨agenda₁, s₁, events, z, h, hz, rfl⟩ | ⟨x, span, events, -, hne⟩
    · obtain ⟨more, hmore⟩ := ih (hs.settle h) hz (by simpa using hl) (by simpa using hu)
      exact ⟨_, .step h hmore⟩
    · exact absurd hu hne

/-! ### Up to a subroutine -/

theorem exists_of_lexemes_append {p q : Phrase} (h : (p ++ q).lexemes = ts.map (·.lexeme)) :
    ∃ us vs, ts = us ++ vs ∧ p.lexemes = us.map (·.lexeme) ∧ q.lexemes = vs.map (·.lexeme) := by
  obtain ⟨us, vs, rfl, hus, hvs⟩ := List.map_eq_append_iff.mp h.symm
  exact ⟨us, vs, rfl, hus.symm, hvs.symm⟩

theorem exists_of_lexemes_token {l : Lexeme} {p : Phrase} (h : (.token l ++ p : Phrase).lexemes = ts.map (·.lexeme)) :
    ∃ t us, ts = t :: us ∧ t.lexeme = l ∧ p.lexemes = us.map (·.lexeme) := by
  cases ts with
  | nil => cases h
  | cons t us =>
    obtain ⟨rfl, hl⟩ := List.cons.inj h
    exact ⟨t, us, rfl, rfl, hl⟩

/-- A goal that does not depend on what stands behind it is worked off by itself. -/
theorem separated_singleton {g : Goal} (h : g.follow? = none) : Separated [g] :=
  ⟨by simp [h], trivial⟩

theorem reaches_declaration (d : Declaration) (kind : Kind) (s : State)
    (hl : d.phrase.lexemes = ts.map (·.lexeme)) :
    ∃ events, Reaches [variableType kind] s ts events [] (s.declareAll (d.bindings kind)) :=
  reaches_of_meetsAll (separated_singleton rfl) (meetsAll_singleton.mpr ⟨d, rfl, rfl⟩) hl d.uses_phrase

/-- A declaration of class variables. -/
theorem reaches_variables (d : Declaration) {kind : Kind} {word : Keyword} {s : State}
    (hk : kind = .static ∨ kind = .field)
    (hstep : ∀ t : Token, t.lexeme = .keyword word → members.step t s = .take [] [variableType kind, members] s)
    (hl : (.keyword word ++ d.phrase : Phrase).lexemes = ts.map (·.lexeme)) :
    ∃ events, Reaches [members] s ts events [members]
      { s with classScope := s.classScope.defineAll .wrapped (d.bindings kind) } := by
  obtain ⟨t, us, rfl, ht, hl⟩ := exists_of_lexemes_token hl
  obtain ⟨events, h⟩ := reaches_declaration d kind s hl
  rw [d.declareAll_class hk] at h
  have hs : settle t #[] [members] s = (.ok ([variableType kind, members], s), #[]) := by
    rw [settle_cons, hstep t ht]
    rfl
  exact ⟨_, .step hs (h.above [members])⟩

/-- The reserved word of a subroutine clears the scope of the last one. -/
theorem settle_kindWord {kind : RoutineKind} (ht : t.lexeme = .keyword (Routine.kindWord kind)) :
    settle t #[] [members] s = (.ok ([returnType kind, members], { s with routineScope := {} }), #[]) := by
  cases kind <;> simp [settle, step, memberStep, ht, Routine.kindWord]

/-- A member whose variables are declared is taken as a whole. -/
theorem reaches_member (m : Member) (s : State) (hl : m.phrase.lexemes = ts.map (·.lexeme))
    (hb : ∀ r, m = .routine r → r.body.phrase.Bound (r.environment .wrapped s.className s.classScope)) :
    ∃ events, Reaches [members] s ts events [members] (Member.leave [m] s) := by
  cases m with
  | statics d => exact reaches_variables d (Or.inl rfl) (fun t ht => by simp [step, memberStep, ht]) hl
  | fields d => exact reaches_variables d (Or.inr rfl) (fun t ht => by simp [step, memberStep, ht]) hl
  | routine r =>
    simp only [Member.phrase, Routine.phrase, Routine.headPhrase, Phrase.append_assoc] at hl
    obtain ⟨t, us, rfl, ht, hl⟩ := exists_of_lexemes_token hl
    have hm : MeetsAll [returnType r.kind] { s with routineScope := {} } _ _ :=
      meetsAll_singleton.mpr ⟨r, rfl, rfl, rfl⟩
    have henv : (r.entered { s with routineScope := {} }).environment =
        r.environment .wrapped s.className s.classScope := by
      rw [Routine.entered_eq]
      rfl
    have hu := (hb r rfl).uses_unbound
    obtain ⟨events, h⟩ := reaches_of_meetsAll (separated_singleton rfl) hm (by simpa using hl)
      (by simp [henv, hu])
    exact ⟨_, .step (settle_kindWord ht) (h.above [members])⟩

theorem reaches_members (ms : List Member) (s : State)
    (hl : (Phrase.join Member.phrase ms).lexemes = ts.map (·.lexeme))
    (hb : ∀ front r back, ms = front ++ .routine r :: back →
      r.body.phrase.Bound
        (r.environment .wrapped s.className (s.classScope.defineAll .wrapped (front.flatMap Member.bindings)))) :
    ∃ events, Reaches [members] s ts events [members] (Member.leave ms s) := by
  induction ms generalizing s ts with
  | nil =>
    obtain rfl := List.map_eq_nil_iff.mp hl.symm
    exact ⟨[], .refl ..⟩
  | cons m ms ih =>
    obtain ⟨us, vs, rfl, hus, hvs⟩ := exists_of_lexemes_append hl
    obtain ⟨events, h⟩ := reaches_member m s hus fun r hr => by
      subst hr
      exact hb [] r ms rfl
    obtain ⟨hname, hscope⟩ := Member.scopes_leave [m] s
    obtain ⟨more, h'⟩ := ih (Member.leave [m] s) hvs fun front r back hms => by
      have hbound := hb (m :: front) r back (by rw [hms, List.cons_append])
      rw [hname, hscope]
      simpa using hbound
    have hleave : Member.leave ms (Member.leave [m] s) = Member.leave (m :: ms) s := by cases m <;> rfl
    rw [hleave] at h'
    exact ⟨_, h.trans h'⟩

/-! ### The head of a subroutine -/

theorem settle_symbol {x : Symbol} (ht : t.lexeme = .symbol x) :
    settle t #[] (symbol x :: agenda) s = (.ok (agenda, s), #[]) := by
  simp [settle, step, ht]

theorem settle_returnType {result? : Option TypeName} (ht : t.lexeme = Routine.resultLexeme result?)
    (kind : RoutineKind) :
    settle t #[] (returnType kind :: agenda) s = (.ok (routineName kind result?.isNone :: agenda, s), #[]) := by
  cases result? with
  | none => simp [settle, step, ht, Routine.resultLexeme]
  | some type =>
    have hne : t.lexeme ≠ .keyword .void := by
      rw [ht]
      cases type <;> simp [Routine.resultLexeme, TypeName.lexeme]
    simp [settle, step, hne, wantType_of_lexeme ht]

theorem settle_routineName {name : String} (ht : t.lexeme = .identifier name) (kind : RoutineKind) (void : Bool) :
    settle t #[] (routineName kind void :: agenda) s =
      (.ok ([emit (.enteredRoutine kind s.className name), symbol .leftParen, parameters, symbol .leftBrace,
        locals kind name, statements void false] ++ agenda, s.declareReceiver kind), #[]) := by
  simp [settle, step, wantName, Token.identifier?, ht]

theorem settle_emit_symbol {x : Symbol} (ht : t.lexeme = .symbol x) (event : Event) :
    settle t #[] (emit event :: symbol x :: agenda) s = (.ok (agenda, s), #[event]) := by
  simp [settle, step, ht]

/-- In front of the body of a subroutine its receiver and its parameters are declared. -/
theorem reaches_signature (r : Routine) (s : State) (hl : r.signaturePhrase.lexemes = ts.map (·.lexeme)) :
    ∃ events, Reaches [members] s ts events
      [locals r.kind r.name, statements r.result?.isNone false, members] (r.opened { s with routineScope := {} }) := by
  simp only [Routine.signaturePhrase, Phrase.append_assoc] at hl
  obtain ⟨t₁, ts, rfl, h₁, hl⟩ := exists_of_lexemes_token hl
  obtain ⟨t₂, ts, rfl, h₂, hl⟩ := exists_of_lexemes_token hl
  obtain ⟨t₃, ts, rfl, h₃, hl⟩ := exists_of_lexemes_token hl
  obtain ⟨t₄, ts, rfl, h₄, hl⟩ := exists_of_lexemes_token hl
  obtain ⟨ps, ts, rfl, hps, hl⟩ := exists_of_lexemes_append hl
  rw [← Phrase.append_nil (Phrase.symbol _)] at hl
  obtain ⟨t₅, ts, rfl, h₅, hl⟩ := exists_of_lexemes_token hl
  obtain rfl := List.map_eq_nil_iff.mp hl.symm
  have hm : MeetsAll [parameters] (({ s with routineScope := {} } : State).declareReceiver r.kind) _ _ :=
    meetsAll_singleton.mpr ⟨r.parameters, rfl, rfl⟩
  obtain ⟨_, hparameters⟩ := reaches_of_meetsAll (separated_singleton rfl) hm hps (by simp)
  let behind := [locals r.kind r.name, statements r.result?.isNone false, members]
  have hback := (hparameters.above (symbol .leftBrace :: behind)).trans (.step (settle_symbol h₅) (.refl behind _))
  exact ⟨_, .step (settle_kindWord h₁) (.step (settle_returnType h₂ r.kind)
    (.step (settle_routineName h₃ r.kind _) (.step (settle_emit_symbol h₄ _) hback)))⟩

/-! ### The body of a subroutine -/

/-- Tells whether a goal is one of the body of a subroutine. It declares local variables at most. -/
def isInner : Goal → Bool
  | keyword _ | symbol _ | emit _ | locals .. | statements .. | letTarget | letRest .. | otherwise _ | returnValue
  | term | operators | afterName .. | callee _ | openArguments .. | arguments .. | moreArguments .. => true
  | variableType kind | variableName kind _ | moreVariables kind _ => kind = .local_
  | _ => false

theorem inner_termStep {next : List Goal} (hn : ∀ g ∈ next, g.isInner = true)
    (h : termStep next t s = .take events goals s₁) : s₁ = s ∧ ∀ g ∈ goals, g.isInner = true := by
  unfold termStep at h
  split at h <;> try (cases h; exact ⟨rfl, hn⟩)
  · cases h
    exact ⟨rfl, List.forall_mem_cons.mpr ⟨rfl, hn⟩⟩
  · cases h
    exact ⟨rfl, List.forall_mem_append.mpr ⟨by simp [expression, isInner], List.forall_mem_cons.mpr ⟨rfl, hn⟩⟩⟩
  · split at h <;> cases h
    exact ⟨rfl, List.forall_mem_cons.mpr ⟨rfl, List.forall_mem_cons.mpr ⟨rfl, hn⟩⟩⟩
  · cases h

/-- A step in the body declares local variables at most, and stays in the body. -/
theorem inner_of_take {g : Goal} (hg : g.isInner = true) (h : g.step t s = .take events goals s₁) :
    s.environment.Grows s₁.environment ∧ ∀ g ∈ goals, g.isInner = true := by
  have keeps {s₁ : State} (h : s₁.environment = s.environment) : s.environment.Grows s₁.environment :=
    h ▸ .refl _
  cases g with
  | emit => cases h
  | variableType kind =>
    simp only [step] at h
    obtain ⟨type, -, hk⟩ := wantType_take h
    cases hk
    exact ⟨keeps rfl, by simpa [isInner] using hg⟩
  | variableName kind type =>
    obtain ⟨x, -, hk⟩ := wantName_take h
    cases hk
    obtain rfl : kind = .local_ := by simpa [isInner] using hg
    exact ⟨⟨[{ name := x, type, kind := .local_ }], by simp, rfl⟩, by simp [isInner]⟩
  | moreVariables kind =>
    simp only [step] at h
    split at h <;> cases h
    · exact ⟨keeps rfl, by simpa [isInner] using hg⟩
    · exact ⟨keeps rfl, List.forall_mem_nil _⟩
  | letTarget =>
    obtain ⟨x, -, hk⟩ := wantName_take h
    cases hk
    exact ⟨keeps rfl, by simp [isInner]⟩
  | statements =>
    simp only [step, statementStep] at h
    split at h
    case h_1 => split at h <;> cases h <;> exact ⟨keeps rfl, List.forall_mem_nil _⟩
    all_goals cases h <;> exact ⟨keeps rfl, by simp [isInner, condition, block, expression, write]⟩
  | letRest =>
    obtain ⟨v, -, hk⟩ := wantVariable_take h
    split at hk <;> cases hk <;> exact ⟨keeps rfl, by simp [isInner, element, expression, write]⟩
  | afterName =>
    simp only [step, nameStep] at h
    split at h
    · cases h
      exact ⟨keeps rfl, by simp [isInner]⟩
    · obtain ⟨v, -, hk⟩ := wantVariable_take h
      cases hk
      exact ⟨keeps rfl, by simp [isInner, element, expression, write]⟩
    · cases h
      exact ⟨keeps rfl, by simp [isInner]⟩
    · obtain ⟨v, -, hk⟩ := wantVariable_take h
      cases hk
  | callee =>
    obtain ⟨x, -, hk⟩ := wantName_take h
    split at hk <;> cases hk <;> exact ⟨keeps rfl, by simp [isInner, write]⟩
  | term =>
    obtain ⟨rfl, hgoals⟩ := inner_termStep (List.forall_mem_nil _) h
    exact ⟨keeps rfl, hgoals⟩
  | returnValue | arguments =>
    simp only [step] at h
    split at h
    · cases h
      exact ⟨keeps rfl, by simp [isInner, write]⟩
    · obtain ⟨rfl, hgoals⟩ := inner_termStep (by simp [isInner, write]) h
      exact ⟨keeps rfl, hgoals⟩
  | operators =>
    simp only [step] at h
    split at h
    · split at h <;> cases h
      exact ⟨keeps rfl, by simp [isInner, write]⟩
    · cases h
  | keyword | symbol | locals | otherwise | openArguments | moreArguments =>
    simp only [step] at h
    split at h <;> cases h <;> exact ⟨keeps rfl, by simp [isInner, block, write]⟩
  | _ => cases hg

theorem inner_of_settle {events : Array Event} (ha : ∀ g ∈ agenda, g.isInner = true)
    (h : settle t #[] agenda s = (.ok (agenda₁, s₁), events)) :
    s.environment.Grows s₁.environment ∧ ∀ g ∈ agenda₁, g.isInner = true := by
  induction agenda generalizing s events with
  | nil => cases h
  | cons g agenda ih =>
    rw [List.forall_mem_cons] at ha
    rw [settle_cons] at h
    cases hg : g.step t s with
    | fail e => simp [hg] at h
    | done events₀ s₀ =>
      simp only [hg, Prod.mk.injEq] at h
      obtain ⟨rfl, -⟩ := done_cases hg
      exact ih ha.2 (Prod.ext h.1 rfl)
    | take events₀ goals s₀ =>
      simp only [hg, Prod.mk.injEq, Except.ok.injEq] at h
      obtain ⟨⟨rfl, rfl⟩, -⟩ := h
      obtain ⟨hgrows, hgoals⟩ := inner_of_take ha.1 hg
      exact ⟨hgrows, List.forall_mem_append.mpr ⟨hgoals, ha.2⟩⟩

/-- The body of a subroutine declares local variables at most. -/
theorem Reaches.grows (h : Reaches agenda s ts events agenda₁ s₁) (ha : ∀ g ∈ agenda, g.isInner = true) :
    s.environment.Grows s₁.environment ∧ ∀ g ∈ agenda₁, g.isInner = true := by
  induction h with
  | refl => exact ⟨.refl _, ha⟩
  | step hs _ ih =>
    obtain ⟨hgrows, hagenda⟩ := inner_of_settle ha hs
    obtain ⟨hmore, hrest⟩ := ih hagenda
    exact ⟨hgrows.trans hmore, hrest⟩

/-- The pass gets to each point of a body whose variables are declared, with some of its local variables. -/
theorem reaches_inside (r : Routine) {inside : List Lexeme} (hb : r.body.phrase.Bound (r.entered s).environment)
    (hl : inside <+: r.bodyPhrase.lexemes) (hts : inside = ts.map (·.lexeme)) :
    ∃ events agenda₁ s₁,
      Reaches [locals r.kind r.name, statements r.result?.isNone false, members] (r.opened s) ts events agenda₁ s₁ ∧
        (r.opened s).environment.Grows s₁.environment ∧ s₁.environment.Grows (r.entered s).environment := by
  -- The body goes on to its end, where the tokens do not matter.
  obtain ⟨rest, hrest⟩ := hl
  let more : List Token := (rest ++ [Lexeme.symbol .rightBrace]).map fun lexeme => { lexeme, span := default }
  have hlocals : (locals r.kind r.name).Meets (r.opened s) _ (r.entered s) := ⟨r.locals, rfl, entered_of_parts rfl⟩
  have hstatements : MeetsAll [statements r.result?.isNone false] (r.entered s) _ _ :=
    meetsAll_singleton.mpr ⟨r.body, rfl, rfl⟩
  have hs : Separated [locals r.kind r.name, statements r.result?.isNone false] := by
    refine ⟨?_, separated_singleton rfl⟩
    rintro p ⟨⟩
    exact heads_statements
  have hlexemes : (Routine.localsPhrase r.locals ++ (r.body.phrase ++ .symbol .rightBrace)).lexemes =
      (ts ++ more).map (·.lexeme) := by
    rw [← Phrase.append_assoc, Phrase.lexemes_append, ← Routine.bodyPhrase, ← hrest]
    simp [more, hts, Function.comp_def]
  have hm : MeetsAll [locals r.kind r.name, statements r.result?.isNone false] (r.opened s) _ _ :=
    ⟨_, _, _, hlocals, hstatements, rfl⟩
  obtain ⟨_, hall⟩ : ∃ events, Reaches _ (r.opened s) (ts ++ more) events [] _ :=
    reaches_of_meetsAll hs hm (by simpa using hlexemes) (by simp [hb.uses_unbound])
  obtain ⟨agenda₁, s₁, front, _, h, hback, -⟩ := hall.split
  obtain ⟨hgrows, hagenda⟩ := h.grows (by simp [isInner])
  exact ⟨front, _, s₁, h.above [members], hgrows, (hback.grows hagenda).1⟩

/-! ### Points of a class -/

theorem reaches_class {name : String} (hl : (Class.headPhrase name).lexemes = ts.map (·.lexeme)) (s : State) :
    ∃ events, Reaches ofClass s ts events [members] { s with className := name } := by
  simp only [Class.headPhrase, Phrase.append_assoc] at hl
  obtain ⟨t₁, ts, rfl, h₁, hl⟩ := exists_of_lexemes_token hl
  obtain ⟨t₂, ts, rfl, h₂, hl⟩ := exists_of_lexemes_token hl
  rw [← Phrase.append_nil (Phrase.symbol _)] at hl
  obtain ⟨t₃, ts, rfl, h₃, hl⟩ := exists_of_lexemes_token hl
  obtain rfl := List.map_eq_nil_iff.mp hl.symm
  have hs₁ : settle t₁ #[] ofClass s = (.ok ([className], s), #[]) := by simp [ofClass, settle, step, h₁]
  have hs₂ : settle t₂ #[] [className] s =
      (.ok ([emit (.enteredClass name), symbol .leftBrace, members], { s with className := name }), #[]) := by
    simp [settle, step, wantName, Token.identifier?, h₂]
  exact ⟨_, .step hs₁ (.step hs₂ (.step (settle_emit_symbol h₃ _) (.refl ..)))⟩

end

end Goal

/-- The lexemes `before` end at a point of the body of a subroutine, between its braces. -/
def Syntax.Routine.Point (r : Routine) (className : String) (front : List Member) (before : List Lexeme) : Prop :=
  ∃ inside, inside <+: r.bodyPhrase.lexemes ∧
    before = (Class.headPhrase className ++ Phrase.join Member.phrase front ++ r.signaturePhrase).lexemes ++ inside

open Syntax

/-- In a class whose variables are declared, the pass gets to the place behind each of the members. -/
theorem reaches_front {c : Syntax.Class} {front back : List Member} {before : List Token}
    (hc : c.unbound.uses = []) (hms : c.members = front ++ back)
    (hl : (Class.headPhrase c.name ++ Phrase.join Member.phrase front).lexemes = before.map (·.lexeme)) (n : Nat) :
    ∃ events, Goal.Reaches Goal.ofClass { labels := { next := n } } before events [.members]
      (Member.leave front { className := c.name, labels := { next := n } }) := by
  obtain ⟨ts, us, rfl, hts, hus⟩ := Goal.exists_of_lexemes_append hl
  obtain ⟨_, hclass⟩ := Goal.reaches_class hts { labels := { next := n } }
  let entered : State := { className := c.name, labels := { next := n } }
  obtain ⟨_, hfront⟩ := Goal.reaches_members front entered hus fun front' r back' h => by
    have h' : c.members = front' ++ .routine r :: (back' ++ back) := by
      rw [hms, h, List.append_assoc, List.cons_append]
    exact Class.bound_of_mem_placed hc (Class.mem_placed_behind h' .wrapped n)
  exact ⟨_, hclass.trans hfront⟩

/-- In a class whose variables are declared, the pass gets to each point of the body of a subroutine. There it knows
the receiver, the parameters and some of the local variables, and the class variables in front of the subroutine. -/
theorem environment_of_point {c : Syntax.Class} {front back : List Member} {r : Routine} {before : List Token}
    (hc : c.unbound.uses = []) (hms : c.members = front ++ .routine r :: back)
    (hp : r.Point c.name front (before.map (·.lexeme))) (n : Nat) :
    ∃ events agenda s, Goal.Reaches Goal.ofClass { labels := { next := n } } before events agenda s ∧
      (r.outset c.name (({} : Scope).defineAll .wrapped (front.flatMap Member.bindings))).Grows s.environment ∧
      s.environment.Grows (r.behind .wrapped c.name front {} n).environment := by
  obtain ⟨inside, hinside, hbefore⟩ := hp
  obtain ⟨ts, us, rfl, hts, hus⟩ := List.map_eq_append_iff.mp hbefore
  obtain ⟨ts, vs, rfl, hts, hvs⟩ := Goal.exists_of_lexemes_append hts.symm
  obtain ⟨_, hfront⟩ := reaches_front hc hms hts n
  let entered : State := { className := c.name, labels := { next := n } }
  obtain ⟨hname, hscope⟩ := Member.scopes_leave front entered
  obtain ⟨_, hsignature⟩ := Goal.reaches_signature r (Member.leave front entered) hvs
  have henv : (r.entered { Member.leave front entered with routineScope := {} }).environment =
      (r.behind .wrapped c.name front {} n).environment := by
    rw [Routine.entered_eq]
    simp only [State.environment, hname, hscope]
    rfl
  have hbound : r.body.phrase.Bound (r.behind .wrapped c.name front {} n).environment :=
    Class.bound_of_mem_placed hc (Class.mem_placed_behind hms .wrapped n)
  obtain ⟨_, agenda, s, hbody, hs, hend⟩ := Goal.reaches_inside r (henv ▸ hbound) hinside hus.symm
  rw [r.environment_opened, hname, hscope] at hs
  exact ⟨_, agenda, s, (hfront.trans hsignature).trans hbody, hs, henv ▸ hend⟩

end JackToVm
