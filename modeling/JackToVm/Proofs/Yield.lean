import JackToVm.Pass.Goal
import JackToVm.Proofs.Codegen

/-!
What a goal of the pass stands for. A goal is met by some tree, and the tree yields the lexemes that the
goal takes, the code that it writes, and the names among the lexemes that are no variables where they are
used as such (`Goal.Meets`). Scoping does not decide whether a goal is met: a tree with such a name meets
its goal too, and the name stands in the yield.
-/

namespace JackToVm

def State.environment (s : State) : Environment :=
  { className := s.className, classScope := s.classScope, routineScope := s.routineScope }

namespace State

theorem lookup?_eq (s : State) (x : String) : s.lookup? x = s.environment.lookup? x := rfl

/-- The state after so many label numbers more. -/
def drawn (s : State) (n : Nat) : State :=
  { s with labels := { next := s.labels.next + n } }

@[simp] theorem drawn_zero (s : State) : s.drawn 0 = s := rfl

@[simp] theorem drawn_drawn (s : State) (m n : Nat) : (s.drawn m).drawn n = s.drawn (m + n) := by
  simp [drawn, Nat.add_assoc]

@[simp] theorem environment_drawn (s : State) (n : Nat) : (s.drawn n).environment = s.environment := rfl

@[simp] theorem next_drawn (s : State) (n : Nat) : (s.drawn n).labels.next = s.labels.next + n := rfl

/-- Declares the variables of a list, one after the other. -/
def declareAll (s : State) (bindings : List Binding) : State :=
  bindings.foldl (fun s b => s.declare b.name b.type b.kind) s

@[simp] theorem declareAll_nil (s : State) : s.declareAll [] = s := rfl

@[simp] theorem declareAll_cons (s : State) (b : Binding) (bs : List Binding) :
    s.declareAll (b :: bs) = (s.declare b.name b.type b.kind).declareAll bs := rfl

@[simp] theorem declareAll_append (s : State) (as bs : List Binding) :
    s.declareAll (as ++ bs) = (s.declareAll as).declareAll bs := by
  simp [declareAll]

/-- Variables of a subroutine go to its own scope. -/
theorem declareAll_routine (s : State) {bs : List Binding}
    (h : ∀ b ∈ bs, b.kind = .argument ∨ b.kind = .local_) :
    s.declareAll bs = { s with routineScope := s.routineScope.defineAll .wrapped bs } := by
  induction bs generalizing s with
  | nil => rfl
  | cons b bs ih =>
    rw [declareAll_cons, ih _ fun c hc => h c (List.mem_cons_of_mem _ hc)]
    obtain ⟨name, type, kind⟩ := b
    rcases h _ List.mem_cons_self with hk | hk
    · cases hk; rfl
    · cases hk; rfl

/-- Variables of the class go to the scope of the class. -/
theorem declareAll_class (s : State) {bs : List Binding}
    (h : ∀ b ∈ bs, b.kind = .static ∨ b.kind = .field) :
    s.declareAll bs = { s with classScope := s.classScope.defineAll .wrapped bs } := by
  induction bs generalizing s with
  | nil => rfl
  | cons b bs ih =>
    rw [declareAll_cons, ih _ fun c hc => h c (List.mem_cons_of_mem _ hc)]
    obtain ⟨name, type, kind⟩ := b
    rcases h _ List.mem_cons_self with hk | hk
    · cases hk; rfl
    · cases hk; rfl

end State

/-! ### Yields -/

@[simp] theorem Event.instruction?_wrote (i : Vm.Instruction) : (wrote i).instruction? = some i := rfl

@[simp] theorem Event.instruction?_drew (n : Nat) : (drew n).instruction? = none := rfl

@[simp] theorem Event.instruction?_enteredClass (name : String) : (enteredClass name).instruction? = none := rfl

@[simp] theorem Event.instruction?_enteredRoutine (kind : RoutineKind) (className name : String) :
    (enteredRoutine kind className name).instruction? = none := rfl

/-- The phrase with only those uses whose name is no variable. -/
def Phrase.unbound (env : Environment) (p : Phrase) : Phrase :=
  { p with uses := p.uses.filter fun u => (env.lookup? u.name).isNone }

namespace Phrase
variable (env : Environment)

@[simp] theorem lexemes_unbound (p : Phrase) : (p.unbound env).lexemes = p.lexemes := rfl

@[simp] theorem unbound_append (p q : Phrase) : (p ++ q).unbound env = p.unbound env ++ q.unbound env := by
  ext1
  · rfl
  · simp [unbound, List.filter_map, Function.comp_def]

@[simp] theorem unbound_nil : ({} : Phrase).unbound env = {} := rfl

@[simp] theorem unbound_token (l : Lexeme) : (token l).unbound env = token l := rfl

@[simp] theorem unbound_keyword (word : Keyword) : (keyword word).unbound env = keyword word := rfl

@[simp] theorem unbound_symbol (x : Symbol) : (symbol x).unbound env = symbol x := rfl

@[simp] theorem unbound_name (x : String) : (name x).unbound env = name x := rfl

theorem unbound_of_uses {env : Environment} {p : Phrase} (h : p.uses = []) : p.unbound env = p := by
  ext1
  · rfl
  · simp [unbound, h]

@[simp] theorem unbound_listPhrase (ps : List Syntax.Parameter) :
    (Syntax.Parameter.listPhrase ps).unbound env = Syntax.Parameter.listPhrase ps :=
  unbound_of_uses (by simp)

@[simp] theorem unbound_localsPhrase (ds : List Syntax.Declaration) :
    (Syntax.Routine.localsPhrase ds).unbound env = Syntax.Routine.localsPhrase ds :=
  unbound_of_uses (by simp)

theorem unbound_use_some {env : Environment} {x : String} {v : Variable} (h : env.lookup? x = some v) :
    (use x).unbound env = {} := by
  simp [unbound, use, h]

theorem unbound_use_none {env : Environment} {x : String} (h : env.lookup? x = none) :
    (use x).unbound env = use x := by
  simp [unbound, use, h]

end Phrase

/-- A phrase, with only those uses whose name is no variable, and the code for it. -/
structure Yield where
  phrase : Phrase := {}
  code : List Vm.Instruction := []

namespace Yield

instance : Append Yield where
  append y z := { phrase := y.phrase ++ z.phrase, code := y.code ++ z.code }

/-- The yield of a token and of what happens when it is taken. -/
def taken (l : Lexeme) (events : List Event) : Yield :=
  { phrase := .token l, code := events.filterMap Event.instruction? }

/-- The yield of what happens without a token. -/
def silent (events : List Event) : Yield :=
  { code := events.filterMap Event.instruction? }

@[ext] theorem ext {y z : Yield} (hp : y.phrase = z.phrase) (hc : y.code = z.code) : y = z := by
  obtain ⟨_, _⟩ := y
  obtain ⟨_, _⟩ := z
  cases hp
  cases hc
  rfl

@[simp] theorem phrase_append (y z : Yield) : (y ++ z).phrase = y.phrase ++ z.phrase := rfl

@[simp] theorem code_append (y z : Yield) : (y ++ z).code = y.code ++ z.code := rfl

@[simp] theorem nil_append (y : Yield) : ({} : Yield) ++ y = y := by
  ext1 <;> simp

@[simp] theorem append_nil (y : Yield) : y ++ ({} : Yield) = y := by
  ext1 <;> simp

@[simp] theorem append_assoc (y z w : Yield) : y ++ z ++ w = y ++ (z ++ w) := by
  ext1 <;> simp

@[simp] theorem phrase_taken (l : Lexeme) (events : List Event) : (taken l events).phrase = .token l := rfl

@[simp] theorem code_taken (l : Lexeme) (events : List Event) :
    (taken l events).code = events.filterMap Event.instruction? := rfl

@[simp] theorem phrase_silent (events : List Event) : (silent events).phrase = {} := rfl

@[simp] theorem code_silent (events : List Event) :
    (silent events).code = events.filterMap Event.instruction? := rfl

end Yield

namespace Syntax
open Vm (Instruction)

/-! ### Trees in a state -/

theorem Declaration.declareAll_class (d : Declaration) {kind : Kind} (hk : kind = .static ∨ kind = .field)
    (s : State) :
    s.declareAll (d.bindings kind) = { s with classScope := s.classScope.defineAll .wrapped (d.bindings kind) } := by
  refine s.declareAll_class fun b hb => ?_
  obtain ⟨x, -, rfl⟩ := List.mem_map.mp hb
  exact hk

/-- What a phrase yields in a state with its code. -/
def yieldIn (s : State) (p : Phrase) (code : List Instruction) : Yield :=
  { phrase := p.unbound s.environment, code }

@[simp] theorem phrase_yieldIn (s : State) (p : Phrase) (code : List Instruction) :
    (yieldIn s p code).phrase = p.unbound s.environment := rfl

@[simp] theorem code_yieldIn (s : State) (p : Phrase) (code : List Instruction) :
    (yieldIn s p code).code = code := rfl

/-- The state with the scope of a subroutine that is declared in it. -/
def Routine.entered (r : Routine) (s : State) : State :=
  s.declareAll (r.bindings s.className)

theorem Routine.kind_of_mem_bindings {r : Routine} {name : String} {b : Binding} (hb : b ∈ r.bindings name) :
    b.kind = .argument ∨ b.kind = .local_ := by
  simp only [bindings, List.mem_append, List.mem_map, List.mem_flatMap] at hb
  rcases hb with (hb | ⟨p, -, rfl⟩) | ⟨d, -, hb⟩
  · cases hk : r.kind <;> simp [receiver, hk] at hb <;> simp [hb]
  · exact Or.inl rfl
  · obtain ⟨x, -, rfl⟩ := List.mem_map.mp hb
    exact Or.inr rfl

theorem Routine.entered_eq (r : Routine) (s : State) :
    r.entered s = { s with routineScope := s.routineScope.defineAll .wrapped (r.bindings s.className) } :=
  s.declareAll_routine fun _ => kind_of_mem_bindings

/-- A subroutine in a state. -/
def Routine.placedIn (r : Routine) (s : State) : Placed :=
  { routine := r, environment := (r.entered s).environment, start := s.labels.next }

theorem Routine.code_placedIn (r : Routine) (s : State) :
    (r.placedIn s).code .wrapped = (r.entered s).prologue r.kind r.name ++
      (r.body.code .wrapped (r.entered s).environment s.labels.next ++
        Placed.epilogue r.result?.isNone (r.body.endsInReturn false)) := by
  have h : (r.placedIn s).prologue = (r.entered s).prologue r.kind r.name := by
    simp only [Placed.prologue, State.prologue, placedIn]
    cases r.kind <;> rfl
  rw [Placed.code, h]
  rfl

@[simp] theorem Routine.next_entered (r : Routine) (s : State) :
    (r.entered s).labels.next = s.labels.next := by
  rw [entered_eq]

/-- The state behind members. -/
def Member.leave : List Member → State → State
  | [], s => s
  | .routine r :: ms, s => leave ms ((r.entered { s with routineScope := {} }).drawn r.body.draws)
  | m :: ms, s => leave ms { s with classScope := s.classScope.defineAll .wrapped m.bindings }

/-- The lexemes of members, with the uses of names that are no variables in the subroutine they stand in. -/
def Member.unbound (className : String) : List Member → Scope → Phrase
  | [], _ => {}
  | .routine r :: ms, scope =>
    r.phrase.unbound (r.environment .wrapped className scope) ++ unbound className ms scope
  | m :: ms, scope => m.phrase ++ unbound className ms (scope.defineAll .wrapped m.bindings)

/-- The lexemes of a class, with the uses of names that are no variables. -/
def Class.unbound (c : Class) : Phrase :=
  headPhrase c.name ++ Member.unbound c.name c.members {} ++ .symbol .rightBrace

theorem Member.lexemes_unbound (className : String) (ms : List Member) (scope : Scope) :
    (unbound className ms scope).lexemes = (Phrase.join phrase ms).lexemes := by
  induction ms generalizing scope with
  | nil => rfl
  | cons m ms ih => cases m <;> simp [unbound, ih, phrase]

@[simp] theorem Class.lexemes_unbound (c : Class) : c.unbound.lexemes = c.lexemes := by
  simp [unbound, lexemes, phrase, Member.lexemes_unbound]

end Syntax

namespace Goal
open Syntax

/-- A goal is met, from one state to another, by a tree with this yield. -/
def Meets (s : State) (y : Yield) (s' : State) : Goal → Prop
  | keyword word => y = { phrase := .keyword word } ∧ s' = s
  | symbol x => y = { phrase := .symbol x } ∧ s' = s
  | emit event => y = .silent [event] ∧ s' = s
  | className => ∃ name ms,
      y = { phrase := .name name ++ .symbol .leftBrace ++ Member.unbound name ms s.classScope ++
              .symbol .rightBrace
            code := (Member.place .wrapped name ms s.classScope s.labels.next).flatMap (Placed.code · .wrapped) } ∧
        s' = Member.leave ms { s with className := name }
  | members => ∃ ms,
      y = { phrase := Member.unbound s.className ms s.classScope ++ .symbol .rightBrace
            code := (Member.place .wrapped s.className ms s.classScope s.labels.next).flatMap
              (Placed.code · .wrapped) } ∧
        s' = Member.leave ms s
  | variableType kind => ∃ d : Declaration,
      y = { phrase := d.phrase } ∧ s' = s.declareAll (d.bindings kind)
  | variableName kind type => ∃ x xs,
      y = { phrase := .name x ++ moreNames xs } ∧ s' = s.declareAll (bindingsOf type kind (x :: xs))
  | moreVariables kind type => ∃ xs,
      y = { phrase := moreNames xs } ∧ s' = s.declareAll (bindingsOf type kind xs)
  | returnType kind => ∃ r : Routine, r.kind = kind ∧
      y = yieldIn (r.entered s) (.token (Routine.resultLexeme r.result?) ++ .name r.name ++ .symbol .leftParen ++
            Parameter.listPhrase r.parameters ++ .symbol .leftBrace ++ Routine.localsPhrase r.locals ++
            r.body.phrase ++ .symbol .rightBrace) ((r.placedIn s).code .wrapped) ∧
        s' = (r.entered s).drawn r.body.draws
  | routineName kind void => ∃ r : Routine, r.kind = kind ∧ r.result?.isNone = void ∧
      y = yieldIn (r.entered s) (.name r.name ++ .symbol .leftParen ++ Parameter.listPhrase r.parameters ++
            .symbol .leftBrace ++ Routine.localsPhrase r.locals ++ r.body.phrase ++ .symbol .rightBrace)
            ((r.placedIn s).code .wrapped) ∧
        s' = (r.entered s).drawn r.body.draws
  | parameters => ∃ ps,
      y = { phrase := Parameter.listPhrase ps } ∧ s' = s.declareAll (ps.map Parameter.binding)
  | parameter => ∃ (p : Parameter) (ps : List Parameter),
      y = { phrase := p.phrase ++ Parameter.tailPhrase ps } ∧
        s' = s.declareAll (p.binding :: ps.map Parameter.binding)
  | parameterName type => ∃ x ps,
      y = { phrase := .name x ++ Parameter.tailPhrase ps } ∧
        s' = s.declareAll ({ name := x, type, kind := .argument } :: ps.map Parameter.binding)
  | moreParameters => ∃ ps,
      y = { phrase := Parameter.tailPhrase ps } ∧ s' = s.declareAll (ps.map Parameter.binding)
  | locals kind name => ∃ ds : List Declaration,
      y = { phrase := Routine.localsPhrase ds, code := s'.prologue kind name } ∧
        s' = s.declareAll (ds.flatMap (Declaration.bindings .local_))
  | statements void returned => ∃ b : Block,
      y = yieldIn s (b.phrase ++ .symbol .rightBrace)
            (b.code .wrapped s.environment s.labels.next ++ Placed.epilogue void (b.endsInReturn returned)) ∧
        s' = s.drawn b.draws
  | letTarget => ∃ st p, Statement.phrase st = .keyword .let_ ++ p ∧
      y = yieldIn s p (st.code .wrapped s.environment s.labels.next) ∧ s' = s
  | letRest x _ => ∃ st p, Statement.phrase st = .keyword .let_ ++ .name x ++ p ∧
      y = yieldIn s p (st.code .wrapped s.environment s.labels.next) ∧ s' = s
  | otherwise done =>
      (y = .silent [.wrote (.label done)] ∧ s' = s) ∨
      ∃ b : Block, y = yieldIn s (.keyword .else_ ++ .symbol .leftBrace ++ b.phrase ++ .symbol .rightBrace)
          (b.code .wrapped s.environment s.labels.next ++ [.label done]) ∧ s' = s.drawn b.draws
  | returnValue => ∃ st p, Statement.phrase st = .keyword .return_ ++ p ∧
      y = yieldIn s p (st.code .wrapped s.environment s.labels.next) ∧ s' = s
  | term => ∃ t : Term, y = yieldIn s t.phrase (t.code .wrapped s.environment) ∧ s' = s
  | operators => ∃ ops : Operations, y = yieldIn s ops.phrase (ops.code .wrapped s.environment) ∧ s' = s
  | afterName x _ => ∃ t p, Term.phrase t = .name x ++ p ∧ y = yieldIn s p (t.code .wrapped s.environment) ∧ s' = s
  | callee owner => ∃ f arguments,
      y = yieldIn s (.name f ++ .symbol .leftParen ++ Arguments.phrase arguments ++ .symbol .rightParen)
            ((Term.callOn owner f arguments).code .wrapped s.environment) ∧ s' = s
  | openArguments f count => ∃ arguments,
      y = yieldIn s (.symbol .leftParen ++ Arguments.phrase arguments ++ .symbol .rightParen)
            (arguments.code .wrapped s.environment ++
              [.call f (Counting.wrapped.fit (arguments.count + count.toNat))]) ∧ s' = s
  | arguments f count => ∃ arguments,
      y = yieldIn s (Arguments.phrase arguments ++ .symbol .rightParen)
            (arguments.code .wrapped s.environment ++
              [.call f (Counting.wrapped.fit (arguments.count + count.toNat))]) ∧ s' = s
  | moreArguments f count => ∃ arguments,
      y = yieldIn s (Arguments.tailPhrase arguments ++ .symbol .rightParen)
            (arguments.code .wrapped s.environment ++
              [.call f (Counting.wrapped.fit (arguments.count + count.toNat))]) ∧ s' = s

/-- The goals of an agenda are met one after the other. -/
def MeetsAll : List Goal → State → Yield → State → Prop
  | [], s, y, s' => y = {} ∧ s' = s
  | g :: agenda, s, y, s' => ∃ y₁ s₁ y₂, g.Meets s y₁ s₁ ∧ MeetsAll agenda s₁ y₂ s' ∧ y = y₁ ++ y₂

/-! ### Agendas -/

section
variable {s s' : State} {y : Yield} {agenda : List Goal}

theorem meetsAll_cons {g : Goal} : MeetsAll (g :: agenda) s y s' ↔
    ∃ y₁ s₁ y₂, g.Meets s y₁ s₁ ∧ MeetsAll agenda s₁ y₂ s' ∧ y = y₁ ++ y₂ := Iff.rfl

theorem meetsAll_append {front : List Goal} : MeetsAll (front ++ agenda) s y s' ↔
    ∃ y₁ s₁ y₂, MeetsAll front s y₁ s₁ ∧ MeetsAll agenda s₁ y₂ s' ∧ y = y₁ ++ y₂ := by
  induction front generalizing s y with
  | nil =>
    constructor
    · intro h
      exact ⟨{}, s, y, ⟨rfl, rfl⟩, h, by simp⟩
    · rintro ⟨y₁, s₁, y₂, ⟨rfl, rfl⟩, h, rfl⟩
      simpa using h
  | cons g front ih =>
    simp only [List.cons_append, meetsAll_cons, ih]
    constructor
    · rintro ⟨y₁, s₁, _, hg, ⟨y₂, s₂, y₃, hf, ha, rfl⟩, rfl⟩
      exact ⟨y₁ ++ y₂, s₂, y₃, ⟨y₁, s₁, y₂, hg, hf, rfl⟩, ha, by simp⟩
    · rintro ⟨_, s₂, y₃, ⟨y₁, s₁, y₂, hg, hf, rfl⟩, ha, rfl⟩
      exact ⟨y₁, s₁, y₂ ++ y₃, hg, ⟨y₂, s₂, y₃, hf, ha, rfl⟩, by simp⟩

theorem meetsAll_singleton {g : Goal} : MeetsAll [g] s y s' ↔ g.Meets s y s' := by
  constructor
  · rintro ⟨y₁, s₁, y₂, hg, ⟨rfl, rfl⟩, rfl⟩
    simpa using hg
  · intro h
    exact ⟨y, s', {}, h, ⟨rfl, rfl⟩, by simp⟩

/-! A goal that keeps the state, or changes it in one way only, splits its yield off. -/

theorem meetsAll_symbol {x : Symbol} : MeetsAll (symbol x :: agenda) s y s' ↔
    ∃ z, MeetsAll agenda s z s' ∧ y = { phrase := .symbol x } ++ z := by
  constructor
  · rintro ⟨_, _, z, ⟨rfl, rfl⟩, h, rfl⟩
    exact ⟨z, h, rfl⟩
  · rintro ⟨z, h, rfl⟩
    exact ⟨_, s, z, ⟨rfl, rfl⟩, h, rfl⟩

theorem meetsAll_emit {event : Event} : MeetsAll (emit event :: agenda) s y s' ↔
    ∃ z, MeetsAll agenda s z s' ∧ y = .silent [event] ++ z := by
  constructor
  · rintro ⟨_, _, z, ⟨rfl, rfl⟩, h, rfl⟩
    exact ⟨z, h, rfl⟩
  · rintro ⟨z, h, rfl⟩
    exact ⟨_, s, z, ⟨rfl, rfl⟩, h, rfl⟩

theorem meetsAll_term {agenda : List Goal} : MeetsAll (term :: agenda) s y s' ↔
    ∃ (t : Term) (z : Yield), MeetsAll agenda s z s' ∧
      y = yieldIn s t.phrase (t.code .wrapped s.environment) ++ z := by
  constructor
  · rintro ⟨_, _, z, ⟨t, rfl, rfl⟩, h, rfl⟩
    exact ⟨t, z, h, rfl⟩
  · rintro ⟨t, z, h, rfl⟩
    exact ⟨_, s, z, ⟨t, rfl, rfl⟩, h, rfl⟩

theorem meetsAll_operators : MeetsAll (operators :: agenda) s y s' ↔
    ∃ (ops : Operations) (z : Yield), MeetsAll agenda s z s' ∧
      y = yieldIn s ops.phrase (ops.code .wrapped s.environment) ++ z := by
  constructor
  · rintro ⟨_, _, z, ⟨ops, rfl, rfl⟩, h, rfl⟩
    exact ⟨ops, z, h, rfl⟩
  · rintro ⟨ops, z, h, rfl⟩
    exact ⟨_, s, z, ⟨ops, rfl, rfl⟩, h, rfl⟩

theorem meetsAll_expression : MeetsAll (expression ++ agenda) s y s' ↔
    ∃ (e : Expression) (z : Yield), MeetsAll agenda s z s' ∧
      y = yieldIn s e.phrase (e.code .wrapped s.environment) ++ z := by
  simp only [expression, List.cons_append, List.nil_append, meetsAll_term, meetsAll_operators]
  constructor
  · rintro ⟨t, _, ⟨ops, z, h, rfl⟩, rfl⟩
    exact ⟨.of t ops, z, h, by ext1 <;> simp [Expression.phrase, Expression.code]⟩
  · rintro ⟨⟨t, ops⟩, z, h, rfl⟩
    exact ⟨t, _, ⟨ops, z, h, rfl⟩, by ext1 <;> simp [Expression.phrase, Expression.code]⟩

theorem meetsAll_statements {void returned : Bool} : MeetsAll (statements void returned :: agenda) s y s' ↔
    ∃ (b : Block) (z : Yield), MeetsAll agenda (s.drawn b.draws) z s' ∧
      y = yieldIn s (b.phrase ++ .symbol .rightBrace)
        (b.code .wrapped s.environment s.labels.next ++ Placed.epilogue void (b.endsInReturn returned)) ++ z := by
  constructor
  · rintro ⟨_, _, z, ⟨b, rfl, rfl⟩, h, rfl⟩
    exact ⟨b, z, h, rfl⟩
  · rintro ⟨b, z, h, rfl⟩
    exact ⟨_, _, z, ⟨b, rfl, rfl⟩, h, rfl⟩

theorem meetsAll_condition : MeetsAll (condition ++ agenda) s y s' ↔
    ∃ (e : Expression) (z : Yield), MeetsAll agenda s z s' ∧
      y = yieldIn s e.conditionPhrase (e.code .wrapped s.environment ++ [.compute .not]) ++ z := by
  simp only [condition, List.cons_append, List.append_assoc, List.nil_append, meetsAll_symbol,
    meetsAll_expression, write, meetsAll_emit]
  constructor
  · rintro ⟨_, ⟨e, _, ⟨_, ⟨z, h, rfl⟩, rfl⟩, rfl⟩, rfl⟩
    exact ⟨e, z, h, by ext1 <;> simp [Expression.conditionPhrase]⟩
  · rintro ⟨e, z, h, rfl⟩
    exact ⟨_, ⟨e, _, ⟨_, ⟨z, h, rfl⟩, rfl⟩, rfl⟩, by
      ext1 <;> simp [Expression.conditionPhrase]⟩

theorem meetsAll_block : MeetsAll (block ++ agenda) s y s' ↔
    ∃ (b : Block) (z : Yield), MeetsAll agenda (s.drawn b.draws) z s' ∧
      y = yieldIn s (.symbol .leftBrace ++ b.phrase ++ .symbol .rightBrace)
        (b.code .wrapped s.environment s.labels.next) ++ z := by
  simp only [block, List.cons_append, List.nil_append, meetsAll_symbol, meetsAll_statements]
  constructor
  · rintro ⟨_, ⟨b, z, h, rfl⟩, rfl⟩
    exact ⟨b, z, h, by ext1 <;> simp [Placed.epilogue]⟩
  · rintro ⟨b, z, h, rfl⟩
    exact ⟨_, ⟨b, z, h, rfl⟩, by ext1 <;> simp [Placed.epilogue]⟩

theorem meetsAll_element {v : Variable} : MeetsAll (element v ++ agenda) s y s' ↔
    ∃ (e : Expression) (z : Yield), MeetsAll agenda s z s' ∧
      y = yieldIn s (e.phrase ++ .symbol .rightBracket)
        (.pushVariable v :: e.code .wrapped s.environment ++ [.compute .add]) ++ z := by
  simp only [element, List.cons_append, List.append_assoc, List.nil_append, meetsAll_symbol,
    meetsAll_expression, write, meetsAll_emit]
  constructor
  · rintro ⟨_, ⟨e, _, ⟨_, ⟨z, h, rfl⟩, rfl⟩, rfl⟩, rfl⟩
    exact ⟨e, z, h, by ext1 <;> simp ⟩
  · rintro ⟨e, z, h, rfl⟩
    exact ⟨_, ⟨e, _, ⟨_, ⟨z, h, rfl⟩, rfl⟩, rfl⟩, by ext1 <;> simp ⟩

/-- What the whole pass stands for: a class. -/
theorem meetsAll_ofClass {n : Nat} : MeetsAll ofClass { labels := { next := n } } y s' ↔
    ∃ c : Syntax.Class, y = { phrase := c.unbound, code := c.code .wrapped n } ∧
      s' = Member.leave c.members { className := c.name, labels := { next := n } } := by
  constructor
  · rintro ⟨_, _, _, ⟨rfl, rfl⟩, h, rfl⟩
    obtain ⟨name, ms, rfl, rfl⟩ := meetsAll_singleton.mp h
    exact ⟨⟨name, ms⟩, by ext1 <;> simp [Class.unbound, Class.headPhrase, Class.code, Class.placed], rfl⟩
  · rintro ⟨⟨name, ms⟩, rfl, rfl⟩
    refine ⟨_, _, _, ⟨rfl, rfl⟩, meetsAll_singleton.mpr ⟨name, ms, rfl, rfl⟩, ?_⟩
    ext1 <;> simp [Class.unbound, Class.headPhrase, Class.code, Class.placed]

end

end Goal

end JackToVm
