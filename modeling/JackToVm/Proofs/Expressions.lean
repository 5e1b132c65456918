import JackToVm.Proofs.Depth
import JackToVm.Proofs.Points
import JackToVm.Proofs.Simulation

/-!
Expressions in any scopes, apart from the class around them. `workOff?` works goals off on tokens, up to a token that
they are met without. An expression that is worked off has a value (`Expression.exists_eval`), and as long as its calls
say how many arguments they have, its code is executed from its first instruction to its last and keeps the frame
(`executes_of_steps`). This holds wherever in a class an expression starts (`run_of_opens`).
-/

namespace JackToVm

/-! ### Goals that are worked off -/

namespace Goal
open Syntax

/-- What happens when the goals are all met without the token, and the state behind them. -/
def pass? (t : Token) : List Goal → State → Option (List Event × State)
  | [], s => some ([], s)
  | goal :: agenda, s =>
    match goal.step t s with
    | .done events s => (pass? t agenda s).map fun (more, s) => (events ++ more, s)
    | _ => none

/-- Works goals off on tokens. They take these tokens, and then they are met in front of `t`. -/
def workOff? (t : Token) : List Token → List Goal → State → Option (List Event × State)
  | [], agenda, s => pass? t agenda s
  | first :: ts, agenda, s =>
    match settle first #[] agenda s with
    | (.ok (agenda, s), events) => (workOff? t ts agenda s).map fun (more, s) => (events.toList ++ more, s)
    | (.error _, _) => none

section
variable {t : Token} {ts : List Token} {goals agenda left : List Goal} {s s₁ s' : State} {events : List Event}

theorem exists_of_pass?_cons {g : Goal} (h : pass? t (g :: agenda) s = some (events, s')) :
    ∃ front s₁ back, g.step t s = .done front s₁ ∧ pass? t agenda s₁ = some (back, s') ∧ events = front ++ back := by
  rw [pass?] at h
  split at h
  case h_1 front s₁ hstep =>
    obtain ⟨⟨back, s₂⟩, hback, heq⟩ := Option.map_eq_some_iff.mp h
    cases heq
    exact ⟨front, s₁, back, hstep, hback, rfl⟩
  case h_2 => cases h

theorem meetsAll_of_pass? (h : pass? t agenda s = some (events, s')) : MeetsAll agenda s (.silent events) s' := by
  induction agenda generalizing s events with
  | nil =>
    cases h
    exact ⟨rfl, rfl⟩
  | cons g agenda ih =>
    obtain ⟨front, s₁, back, hstep, hback, rfl⟩ := exists_of_pass?_cons h
    exact ⟨_, s₁, _, meets_of_done hstep, ih hback, by ext1 <;> simp⟩

/-- The token is settled by the goals behind those that are met without it. -/
theorem settle_of_pass? (h : pass? t left s = some (events, s')) (agenda : List Goal) :
    settle t #[] (left ++ agenda) s = ((settle t #[] agenda s').1, events.toArray ++ (settle t #[] agenda s').2) := by
  induction left generalizing s events with
  | nil =>
    cases h
    simp
  | cons g left ih =>
    obtain ⟨front, s₁, back, hstep, hback, rfl⟩ := exists_of_pass?_cons h
    rw [List.cons_append, settle_cons]
    simp only [hstep, ih hback, ← List.append_toArray, Array.append_assoc]

theorem run_of_pass? (h : pass? t left s = some (events, s')) (finish : Span) (items : List Item)
    (agenda : List Goal) :
    run finish #[] (.ok t :: items) (left ++ agenda) s =
      { trace := events ++ (run finish #[] (.ok t :: items) agenda s').trace
        result := (run finish #[] (.ok t :: items) agenda s').result } := by
  simp only [run, settle_of_pass? h]
  cases settle t #[] agenda s' with
  | mk outcome more =>
    cases outcome with
    | error e => simp
    | ok next =>
      simp only
      rw [run_eq_append, run_eq_append finish more]
      simp

theorem Reaches.run_append (h : Reaches agenda s ts events left s₁) (finish : Span) (items : List Item) :
    run finish #[] (ts.map .ok ++ items) agenda s =
      { trace := events ++ (run finish #[] items left s₁).trace
        result := (run finish #[] items left s₁).result } := by
  induction h with
  | refl => rfl
  | step hs _ ih =>
    rw [List.map_cons, List.cons_append, run_of_settle hs, ih]
    simp

theorem exists_of_workOff? (h : workOff? t ts goals s = some (events, s')) :
    ∃ front left s₁ back, Reaches goals s ts front left s₁ ∧ pass? t left s₁ = some (back, s') ∧
      events = front ++ back := by
  induction ts generalizing goals s events with
  | nil => exact ⟨[], goals, s, events, .refl .., h, rfl⟩
  | cons first ts ih =>
    rw [workOff?] at h
    split at h
    case h_1 agenda s₂ done hs =>
      obtain ⟨⟨more, s₃⟩, hmore, heq⟩ := Option.map_eq_some_iff.mp h
      cases heq
      obtain ⟨front, left, s₁, back, hreach, hpass, rfl⟩ := ih hmore
      exact ⟨_, left, s₁, back, .step hs hreach, hpass, (List.append_assoc ..).symm⟩
    case h_2 => cases h

/-- Goals that are worked off happen so in every run in which they come first, and the run goes on with the goals
behind them at the next token. -/
theorem run_of_workOff? (h : workOff? t ts goals s = some (events, s')) (finish : Span) (items : List Item)
    (agenda : List Goal) :
    run finish #[] (ts.map .ok ++ .ok t :: items) (goals ++ agenda) s =
      { trace := events ++ (run finish #[] (.ok t :: items) agenda s').trace
        result := (run finish #[] (.ok t :: items) agenda s').result } := by
  obtain ⟨front, left, s₁, back, hreach, hpass, rfl⟩ := exists_of_workOff? h
  rw [(hreach.above agenda).run_append, run_of_pass? hpass]
  simp

/-- Goals that are worked off are met by the tokens. -/
theorem meetsAll_of_workOff? (h : workOff? t ts goals s = some (events, s')) :
    MeetsAll goals s
      { phrase := { lexemes := ts.map (·.lexeme) }, code := events.filterMap Event.instruction? } s' := by
  obtain ⟨front, left, s₁, back, hreach, hpass, rfl⟩ := exists_of_workOff? h
  have hy : ({ phrase := { lexemes := ts.map (·.lexeme) }
               code := (front ++ back).filterMap Event.instruction? } : Yield) =
      { phrase := { lexemes := ts.map (·.lexeme) }, code := front.filterMap Event.instruction? } ++ .silent back := by
    ext1
    · ext1 <;> simp
    · simp
  rw [hy]
  exact hreach.meetsAll (meetsAll_of_pass? hpass)

/-- An expression that is worked off is one tree. It keeps the state, the code is that of the tree, and all names that
it uses are variables. -/
theorem exists_expression_of_workOff? (h : workOff? t ts expression s = some (events, s')) :
    s' = s ∧ ∃ e : Expression, e.phrase.lexemes = ts.map (·.lexeme) ∧ e.phrase.Bound s.environment ∧
      events.filterMap Event.instruction? = e.code .wrapped s.environment := by
  have hmeets := meetsAll_of_workOff? h
  rw [← List.append_nil expression] at hmeets
  obtain ⟨e, _, ⟨rfl, rfl⟩, hy⟩ := meetsAll_expression.mp hmeets
  rw [Yield.append_nil] at hy
  have hphrase : { lexemes := ts.map (·.lexeme) } = e.phrase.unbound s'.environment := congrArg Yield.phrase hy
  have huses : [] = (e.phrase.unbound s'.environment).uses := congrArg Phrase.uses hphrase
  refine ⟨rfl, e, (congrArg Phrase.lexemes hphrase).symm, fun u hu => ?_, congrArg Yield.code hy⟩
  rw [Phrase.unbound, eq_comm, List.filter_eq_nil_iff] at huses
  simpa [Option.isSome_iff_ne_none] using huses u hu

/-! ### Where expressions start -/

/-- The agenda starts with an expression, and the other goals are behind it. The value of a `return` and the first
argument of a call are expressions once their first token is there. -/
inductive Opens : (goals agenda : List Goal) → Prop where
  | expression (agenda : List Goal) : Opens (expression ++ agenda) agenda
  | returnValue (agenda : List Goal) : Opens (returnValue :: agenda) (write .return_ :: symbol .semicolon :: agenda)
  | arguments (f : String) (count : UInt16) (agenda : List Goal) :
      Opens (arguments f count :: agenda) (moreArguments f (count + 1) :: agenda)

/-- The first token of a term is settled as that of an expression wherever one starts. -/
theorem settle_of_opens (hopens : Opens goals agenda) (h : termStep [] t s = .take events left s₁) :
    settle t #[] goals s = settle t #[] (expression ++ agenda) s := by
  -- A `return` without a value and a call without arguments start with a symbol that starts no term.
  have hclosing {x : Symbol} (hx : x.closes = true) : t.lexeme ≠ .symbol x := by
    intro ht
    cases x <;> cases hx <;> simp [termStep, ht, Symbol.unaryOp?] at h
  cases hopens with
  | expression => rfl
  | returnValue agenda =>
    have hne : t.lexeme ≠ .symbol .semicolon := hclosing rfl
    simp [settle, expression, step, hne, h, termStep_eq [operators, _, _]]
  | arguments f count agenda =>
    have hne : t.lexeme ≠ .symbol .rightParen := hclosing rfl
    simp [settle, expression, step, hne, h, termStep_eq [operators, _]]

/-- An expression that is worked off has a first token, which is that of a term. -/
theorem exists_term_of_workOff? (h : workOff? t ts expression s = some (events, s')) :
    ∃ first more front left s₁, ts = first :: more ∧ termStep [] first s = .take front left s₁ := by
  cases ts with
  | nil =>
    obtain ⟨front, s₁, back, hstep, -⟩ := exists_of_pass?_cons h
    exact absurd hstep termStep_ne_done
  | cons first more =>
    obtain ⟨_, left, s₁, _, hreach, -⟩ := exists_of_workOff? h
    cases hreach with
    | step hsettle _ =>
      rw [expression, settle_cons, step] at hsettle
      cases hterm : termStep [] first s with
      | fail e => simp [hterm] at hsettle
      | done events s₁ => exact absurd hterm termStep_ne_done
      | take front left s₁ => exact ⟨first, more, front, left, s₁, rfl, hterm⟩

/-- An expression is worked off alike wherever it starts. -/
theorem run_of_opens (h : workOff? t ts expression s = some (events, s')) (hopens : Opens goals agenda)
    (finish : Span) (items : List Item) :
    run finish #[] (ts.map .ok ++ .ok t :: items) goals s =
      { trace := events ++ (run finish #[] (.ok t :: items) agenda s').trace
        result := (run finish #[] (.ok t :: items) agenda s').result } := by
  rw [← run_of_workOff? h]
  obtain ⟨first, more, front, left, s₁, rfl, hterm⟩ := exists_term_of_workOff? h
  simp only [List.map_cons, List.cons_append, run, settle_of_opens hopens hterm]

end

end Goal

/-! ### Values -/

namespace Syntax

theorem Frame.exists_value? {f : Frame} {x : String} {v : Variable} (hv : f.environment.lookup? x = some v)
    (σ : Store) : ∃ w, f.value? σ x = some w := by
  rw [Frame.value?, hv, Option.map_some]
  exact ⟨_, rfl⟩

mutual

theorem Term.exists_eval {f : Frame} : ∀ (t : Term), t.phrase.Bound f.environment → ∀ σ,
    ∃ w σ', t.eval f σ = some (w, σ')
  | .integer value, _, σ => ⟨_, _, rfl⟩
  | .string text, _, σ => ⟨_, _, rfl⟩
  | .constant value, _, σ => ⟨_, _, rfl⟩
  | .read x, h, σ => by
    rw [Term.phrase, Phrase.bound_append] at h
    obtain ⟨v, hv⟩ := h.2.lookup?
    obtain ⟨w, hw⟩ := Frame.exists_value? hv σ
    exact ⟨w, σ, by simp [Term.eval, hw]⟩
  | .element x index, h, σ => by
    simp only [Term.phrase, Phrase.bound_append] at h
    obtain ⟨v, hv⟩ := h.1.1.1.2.lookup?
    obtain ⟨base, hbase⟩ := Frame.exists_value? hv σ
    obtain ⟨i, σ₁, hindex⟩ := index.exists_eval h.1.2 σ
    exact ⟨σ₁.memory.heap (base + i), σ₁, by simp [Term.eval, hbase, hindex]⟩
  | .call g arguments, h, σ => by
    simp only [Term.phrase, Phrase.bound_append] at h
    obtain ⟨ws, σ₁, hws⟩ := arguments.exists_eval h.1.2 σ
    exact ⟨_, _, by simp only [Term.eval, hws]; rfl⟩
  | .callOn owner g arguments, h, σ => by
    simp only [Term.phrase, Phrase.bound_append] at h
    obtain ⟨ws, σ₁, hws⟩ := arguments.exists_eval h.1.2 σ
    -- The name in front of the dot may be that of a class, so it is no use of a variable.
    cases hv : f.environment.lookup? owner with
    | some v =>
      obtain ⟨receiver, hreceiver⟩ := Frame.exists_value? hv σ
      exact ⟨_, _, by simp only [Term.eval, hv, hreceiver, hws]; rfl⟩
    | none => exact ⟨_, _, by simp only [Term.eval, hv, hws]; rfl⟩
  | .group inside, h, σ => by
    simp only [Term.phrase, Phrase.bound_append] at h
    exact inside.exists_eval h.1.2 σ
  | .unary op operand, h, σ => by
    rw [Term.phrase, Phrase.bound_append] at h
    obtain ⟨w, σ₁, hw⟩ := operand.exists_eval h.2 σ
    exact ⟨_, _, by simp only [Term.eval, hw]; rfl⟩

/-- An expression whose names are variables has a value. -/
theorem Expression.exists_eval {f : Frame} : ∀ (e : Expression), e.phrase.Bound f.environment → ∀ σ,
    ∃ w σ', e.eval f σ = some (w, σ')
  | .of first rest, h, σ => by
    rw [Expression.phrase, Phrase.bound_append] at h
    obtain ⟨w, σ₁, hfirst⟩ := first.exists_eval h.1 σ
    obtain ⟨w', σ₂, hrest⟩ := rest.exists_eval h.2 w σ₁
    exact ⟨w', σ₂, by simp only [Expression.eval, hfirst]; exact hrest⟩

theorem Operations.exists_eval {f : Frame} : ∀ (o : Operations), o.phrase.Bound f.environment → ∀ x σ,
    ∃ w σ', o.eval f x σ = some (w, σ')
  | .none, _, x, σ => ⟨x, σ, rfl⟩
  | .more op operand rest, h, x, σ => by
    simp only [Operations.phrase, Phrase.bound_append] at h
    obtain ⟨y, σ₁, hoperand⟩ := operand.exists_eval h.1.2 σ
    obtain ⟨w, σ₂, hrest⟩ := rest.exists_eval h.2 (f.binary op x y σ₁).1 (f.binary op x y σ₁).2
    exact ⟨w, σ₂, by simp only [Operations.eval, hoperand]; exact hrest⟩

theorem Arguments.exists_eval {f : Frame} : ∀ (a : Arguments), a.phrase.Bound f.environment → ∀ σ,
    ∃ ws σ', a.eval f σ = some (ws, σ')
  | .none, _, σ => ⟨[], σ, rfl⟩
  | .more first rest, h, σ => by
    rw [Arguments.phrase, Phrase.bound_append] at h
    obtain ⟨w, σ₁, hfirst⟩ := first.exists_eval h.1 σ
    obtain ⟨ws, σ₂, hrest⟩ := rest.exists_eval (Arguments.bound_of_tail h.2) σ₁
    exact ⟨w :: ws, σ₂, by simp [Arguments.eval, hfirst, hrest]⟩

end

end Syntax

/-! ### Straight code -/

namespace Vm

/-- The instructions are executed, each of them once and in their order, in whatever code they stand. -/
inductive Executes (lib : Library) : List Instruction → Machine → Machine → Prop where
  | nil (m : Machine) : Executes lib [] m m
  | cons {i : Instruction} {code : List Instruction} {m m₁ m₂ : Machine}
      (first : ∀ whole rest, step lib whole ⟨i :: rest, m⟩ = some ⟨rest, m₁⟩) (next : Executes lib code m₁ m₂) :
      Executes lib (i :: code) m m₂

theorem Executes.steps {lib : Library} {code : List Instruction} {m m' : Machine} (h : Executes lib code m m')
    (whole rest : List Instruction) : Steps lib whole ⟨code ++ rest, m⟩ ⟨rest, m'⟩ := by
  induction h with
  | nil m => exact .refl _
  | cons first _ ih => exact .cons (first whole _) ih

/-- The machines agree in the places of a subroutine that are no scratch. -/
structure Machine.SameFrame (m m' : Machine) : Prop where
  arguments : m'.arguments = m.arguments
  locals : m'.locals = m.locals
  this : m'.this = m.this

theorem Machine.SameFrame.trans {m m₁ m₂ : Machine} (h : m.SameFrame m₁) (h' : m₁.SameFrame m₂) : m.SameFrame m₂ :=
  ⟨h'.arguments.trans h.arguments, h'.locals.trans h.locals, h'.this.trans h.this⟩

/-- An instruction of an expression goes on behind itself and keeps the frame. -/
theorem step_ofExpression {lib : Library} {env : Environment} {i : Instruction} {code rest : List Instruction}
    {m : Machine} {c : Config} (hi : i.OfExpression env) (h : step lib code ⟨i :: rest, m⟩ = some c) :
    ∃ m', c = ⟨rest, m'⟩ ∧ (∀ code rest, step lib code ⟨i :: rest, m⟩ = some ⟨rest, m'⟩) ∧ m.SameFrame m' := by
  have hpush {segment : Segment} {index : Nat} (h : step lib code ⟨.push segment index :: rest, m⟩ = some c) :
      ∃ m', c = ⟨rest, m'⟩ ∧ (∀ code rest, step lib code ⟨.push segment index :: rest, m⟩ = some ⟨rest, m'⟩) ∧
        m.SameFrame m' := by
    obtain ⟨w, hw, rfl⟩ := Option.map_eq_some_iff.mp h
    exact ⟨_, rfl, fun code rest => by rw [step, hw]; rfl, rfl, rfl, rfl⟩
  -- Only a `pop` writes to the frame, and the one `pop` of an expression goes to `pointer 1`.
  cases hi with
  | constant | read | this | element => exact hpush h
  | select =>
    simp only [step] at h ⊢
    split at h
    case h_1 w stack hstack =>
      cases h
      exact ⟨_, rfl, fun code rest => rfl, rfl, rfl, rfl⟩
    case h_2 => cases h
  | compute command =>
    obtain ⟨stack, hstack, rfl⟩ := Option.map_eq_some_iff.mp h
    exact ⟨_, rfl, fun code rest => by rw [step, hstack]; rfl, rfl, rfl, rfl⟩
  | call name n =>
    simp only [step] at h ⊢
    split at h
    case isTrue hn =>
      cases h
      exact ⟨_, rfl, fun code rest => if_pos hn, rfl, rfl, rfl⟩
    case isFalse => cases h

/-- Code of an expression that runs to its end is executed, and keeps the frame. -/
theorem executes_of_steps {lib : Library} {env : Environment} {code whole : List Instruction} {m m' : Machine}
    (hcode : ∀ i ∈ code, i.OfExpression env) (h : Steps lib whole ⟨code, m⟩ ⟨[], m'⟩) :
    Executes lib code m m' ∧ m.SameFrame m' := by
  induction code generalizing m with
  | nil =>
    -- No step is left, so the run has come to its end here and not later.
    rcases Relation.ReflTransGen.cases_head h with heq | ⟨c, hc, -⟩
    · cases heq
      exact ⟨.nil _, rfl, rfl, rfl⟩
    · cases hc
  | cons i code ih =>
    rw [List.forall_mem_cons] at hcode
    rcases Relation.ReflTransGen.cases_head h with heq | ⟨c, hc, hrest⟩
    · cases heq
    · obtain ⟨m₁, rfl, hstep, hframe⟩ := step_ofExpression hcode.1 hc
      obtain ⟨hexecutes, hframe'⟩ := ih hcode.2 hrest
      exact ⟨.cons hstep hexecutes, hframe.trans hframe'⟩

end Vm

/-! ### Expressions that are worked off -/

open Goal (workOff? run)
open Syntax (CallsFit Expression Frame)

/-- The lexemes of an expression are those of no other. -/
theorem Syntax.Expression.lexemes_inj {e e' : Expression} (h : e.phrase.lexemes = e'.phrase.lexemes) : e = e' := by
  have hcloses : Starts Lexeme.closes [.symbol .semicolon] := starts_cons.mpr rfl
  exact (e.eq_of_lexemes e' hcloses hcloses (by rw [h])).1

/-- The code of an expression whose names are variables is executed from any machine. It leaves the value on the stack
and the memory behind the evaluation, and keeps the frame. -/
theorem Syntax.Expression.exists_executes {e : Expression} {env : Environment} (h : e.phrase.Bound env)
    (library : Vm.Library) (m : Vm.Machine) :
    let f : Frame := { environment := env, library, this := m.this }
    ∃ w σ m', e.eval f (f.storeOf m) = some (w, σ) ∧ Vm.Executes library (e.code .exact env) m m' ∧ m.SameFrame m' ∧
      m'.stack = w :: m.stack ∧ m'.memory = σ.memory := by
  intro f
  obtain ⟨w, σ, heval⟩ := e.exists_eval (f := f) h (f.storeOf m)
  have hturns : f.Turns [] (e.code .exact env) m.stack (f.storeOf m) (w :: m.stack) σ := e.turns_code heval
  -- With nothing behind the code the run cannot go on, and what it executes is executed in front of any code.
  obtain ⟨m', hsteps, hshows⟩ := hturns m [] (Frame.shows_storeOf rfl)
  rw [List.append_nil] at hsteps
  obtain ⟨hexecutes, hframe⟩ := Vm.executes_of_steps (e.ofExpression_code env) hsteps
  exact ⟨w, σ, m', heval, hexecutes, hframe, hshows.stack, hshows.memory⟩

/-- The tokens of `x - 2 * a[1]`, at no place in particular. -/
def productTokens : List Token :=
  [.identifier "x", .symbol .minus, .integer 2, .symbol .star, .identifier "a", .symbol .leftBracket, .integer 1,
    .symbol .rightBracket].map fun lexeme => { lexeme, span := default }

/-- Behind the declarations of a parameter `x` and a local `a`. -/
def productState : State :=
  (({ className := "Main" } : State).declare "x" "int" .argument).declare "a" "Array" .local_

def productCode : List Vm.Instruction :=
  [.push .argument 0, .push .constant 2, .compute .sub, .push .local_ 0, .push .constant 1, .compute .add,
    .pop .pointer 1, .push .that 0, .call "Math.multiply" 2]

def productLibrary : Vm.Library where
  call name arguments μ := if name = "Math.multiply" then (arguments.foldl (· * ·) 1, μ) else (0, μ)
  temps _ _ m := m.temps

/-- The argument is 5, and the local is the address 100, behind which the heap has a 7. -/
def productMachine : Vm.Machine where
  stack := [42]
  memory := { heap := fun address => if address = 101 then 7 else 0, statics := fun _ => 0 }
  arguments _ := 5
  locals _ := 100
  temps _ := 0
  this := 0
  that := 0

/-- The tokens of some more arguments, all of them `0`, and of the end of the call. -/
def moreZeros : Nat → List Token
  | 0 => [{ lexeme := .symbol .rightParen, span := default }]
  | n + 1 => { lexeme := .symbol .comma, span := default } :: { lexeme := .integer 0, span := default } :: moreZeros n

/-- The tokens of `C.f(0, 0, …)` with one argument and some more. -/
def zerosTokens (more : Nat) : List Token :=
  [.identifier "C", .symbol .dot, .identifier "f", .symbol .leftParen, .integer 0].map
    (fun lexeme => { lexeme, span := default }) ++ moreZeros more

/-- Pushes so many words, and calls with so many arguments. -/
def zerosCode (f : String) (n : Nat) (count : UInt16) : List Vm.Instruction :=
  List.replicate n (.pushConstant 0) ++ [.call f count.toNat]

theorem workOff?_moreZeros (f : String) (n : Nat) (count : UInt16) (s : State) :
    workOff? { lexeme := .symbol .semicolon, span := default } (moreZeros n)
        [.operators, .moreArguments f count, .operators] s =
      some ((zerosCode f n (count + UInt16.ofNat n)).map .wrote, s) := by
  induction n generalizing count with
  | zero =>
    simp [moreZeros, zerosCode, workOff?, Goal.pass?, Goal.settle, Goal.step, Goal.write, Token.symbol?,
      Symbol.binaryOp?]
  | succ n ih =>
    have hcount : count + 1 + UInt16.ofNat n = count + UInt16.ofNat (n + 1) := by
      rw [UInt16.ofNat_add, UInt16.add_assoc, UInt16.add_comm (UInt16.ofNat n)]
      rfl
    rw [← hcount]
    simp [moreZeros, zerosCode, workOff?, Goal.settle, Goal.step, Goal.termStep, Token.symbol?, Symbol.binaryOp?, ih,
      List.replicate_succ]

theorem workOff?_zerosTokens (more : Nat) :
    workOff? { lexeme := .symbol .semicolon, span := default } (zerosTokens more) Goal.expression {} =
      some ((zerosCode "C.f" (more + 1) (UInt16.ofNat (more + 1))).map .wrote, {}) := by
  have hmore := workOff?_moreZeros "C.f" more 1 {}
  have hcount : 1 + UInt16.ofNat more = UInt16.ofNat (more + 1) := by
    rw [UInt16.ofNat_add, UInt16.add_comm]
    rfl
  have hname : toString "C" ++ toString "." ++ toString "f" = "C.f" := by decide
  rw [hcount] at hmore
  simp [zerosTokens, zerosCode, workOff?, Goal.expression, Goal.settle, Goal.step, Goal.termStep, Goal.nameStep,
    Goal.calleeStep, Goal.wantName, Token.identifier?, State.lookup?, hname, hmore, List.replicate_succ]

/-- All words of a call that says it has no argument stay on the stack. -/
theorem Vm.Executes.length_stack {lib : Library} {f : String} {n : Nat} {m m' : Machine}
    (h : Executes lib (zerosCode f n 0) m m') : m'.stack.length = m.stack.length + n + 1 := by
  induction n generalizing m with
  | zero =>
    cases h with
    | cons first next =>
      cases next
      have hstep := first [] []
      cases hstep
      rfl
  | succ n ih =>
    cases h with
    | cons first next =>
      have hlength := ih next
      have hstep := first [] []
      cases hstep
      rw [hlength, List.length_cons]
      omega

end JackToVm
