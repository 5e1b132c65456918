import JackToVm.Proofs.Sound
import JackToVm.Proofs.Tracking

/-!
What the routines of a descent do. A routine works off goals that stand in front of the agenda, and leaves others in
their place (`Contract`). Each routine keeps its contract when it can be called (`Pays`), whatever the tokens are: it
comes to the end of what it reads, or the descent stops with the error of the compilation. Routines that call each other
keep their contracts together, by induction on the bound on the calls.
-/

namespace JackToVm
namespace Descent
open Goal (wantType)

/-! ### Contracts -/

/-- What a routine does to the agenda. It starts at some token with goals in front, and ends at some token with others
in their place. -/
structure Contract (α : Type) where
  starts : Token → Prop := fun _ => True
  front : List Goal
  back : α → List Goal := fun _ => []
  ends : Token → Prop := fun _ => True

/-- A routine that can be called tracks the compilation. It keeps its contract, and the cursor moves at least so
often. -/
def Pays {α : Type} (m : Nat) (c : Compilation) (x : Nat → Descent α) (p : Production) (n moves : Nat)
    (k : Contract α) : Prop :=
  ∀ {path : List Call} {e : Engine} {t : Token} {next : Goal} {agenda : List Goal} {Q : α → Engine → Prop},
    e.At m c t (k.front ++ next :: agenda) → k.starts t → Enters m path n p e.advances →
    (∀ a t' e', e'.At m c t' (k.back a ++ next :: agenda) → k.ends t' → e.advances + moves ≤ e'.advances → Q a e') →
    Tracks m c (x n) path e Q

section
variable {α : Type} {m n moves : Nat} {c : Compilation} {x : Nat → Descent α} {p : Production} {k : Contract α}

theorem pays_zero : Pays m c x p 0 moves k :=
  fun _ _ hp _ => hp.bound_ne_zero.elim

/-- A routine keeps its contract when the body of its call does. -/
theorem pays_succ {y : Descent α} (hx : x (n + 1) = call p y)
    (hy : ∀ (path : List Call) (e : Engine) (t : Token) (next : Goal) (agenda : List Goal) (Q : α → Engine → Prop),
      e.At m c t (k.front ++ next :: agenda) → k.starts t → Enters m path (n + 1) p e.advances →
      (∀ a t' e', e'.At m c t' (k.back a ++ next :: agenda) → k.ends t' → e.advances + moves ≤ e'.advances → Q a e') →
      Tracks m c y ({ production := p, advances := e.advances } :: path) e Q) : Pays m c x p (n + 1) moves k := by
  intro path e t next agenda Q h ht hp hQ
  rw [hx]
  refine tracks_call h hp fun e₁ h₁ hp₁ ha₁ => ?_
  exact hy path e₁ t next agenda Q h₁ ht hp₁ fun a t' e' h' ht' ha' => hQ a t' e' h' ht' (ha₁ ▸ ha')

end

variable {m n : Nat} {c : Compilation} {path : List Call} {e : Engine} {t : Token} {g next : Goal} {agenda : List Goal}

/-! ### Declarations -/

theorem wantType_eq (t : Token) (k : String → Step) :
    wantType t k = match typeName? t.lexeme with
      | some name => k name
      | none => .fail (.unexpected (.construct "type") t) := by
  unfold wantType typeName?
  split <;> simp_all

/-- A type is read where the goal wants one. -/
theorem pays_type (g : Goal) (after : String → Goal) (n : Nat) :
    Pays m c type .type n 1 {
      starts := fun t => ∀ s, g.step t s = wantType t fun name => .take [] [after name] s
      front := [g]
      back := fun name => [after name] } := by
  cases n with
  | zero => exact pays_zero
  | succ n =>
    refine pays_succ (by rw [type]) fun path e t next agenda Q h hg hp hQ => ?_
    have hstep := hg e.state
    rw [wantType_eq] at hstep
    rw [tracks_bind, tracks_current h.current]
    cases hname : typeName? t.lexeme with
    | none =>
      rw [hname] at hstep
      exact tracks_unexpected h.current (h.fail hstep)
    | some name =>
      rw [hname] at hstep
      simp only [tracks_bind, tracks_pure]
      exact tracks_advance (h.take hstep) fun t' e' h' ha' => hQ name t' e' h' trivial (by omega)

theorem step_moreVariables {kind : Kind} {type : String} {s : State} (ht : t.lexeme ≠ .symbol .comma) :
    (Goal.moreVariables kind type).step t s = (Goal.symbol .semicolon).step t s := by
  simp only [Goal.step]
  split <;> simp_all

theorem pays_variableNames (kind : Kind) (type : String) (n : Nat) :
    Pays m c (variableNames kind type) .variableNames n 1
      { front := [.variableName kind type], back := fun _ => [.symbol .semicolon] } := by
  induction n with
  | zero => exact pays_zero
  | succ n ih =>
    refine pays_succ (by rw [variableNames]) fun path e t next agenda Q h _ hp hQ => ?_
    simp only [tracks_bind]
    -- The agenda declares the name when it takes the token, the routine behind the move.
    refine tracks_consumeIdentifier h rfl fun name t₁ e₁ h₁ hs₁ ha₁ => ?_
    rw [tracks_change, hs₁]
    by_cases ht₁ : t₁.lexeme = .symbol .comma
    · have hcomma : (Goal.moreVariables kind type).step t₁ (e.state.declare name type kind) =
          .take [] [.variableName kind type] (e.state.declare name type kind) := by
        simp only [Goal.step, ht₁]
      simp only [tracks_isAt_pos h₁.current ht₁, if_true, tracks_bind]
      refine tracks_advance (h₁.take hcomma) fun t₂ e₂ h₂ ha₂ => ?_
      simp only at ha₂
      exact ih h₂ trivial (hp.behind h₂.advances_le (by omega)) fun _ t' e' h' _ ha' =>
        hQ () t' e' h' trivial (by omega)
    · simp only [tracks_isAt_neg h₁.current ht₁, Bool.false_eq_true, if_false, tracks_pure]
      exact hQ () t₁ _ (h₁.same (step_moreVariables ht₁)) trivial (by simp only; omega)

theorem pays_declaration (kind : Kind) (n : Nat) :
    Pays m c (declaration kind) .declaration n 1 { front := [.variableType kind] } := by
  cases n with
  | zero => exact pays_zero
  | succ n =>
    refine pays_succ (by rw [declaration]) fun path e t next agenda Q h _ hp hQ => ?_
    simp only [tracks_bind]
    refine pays_type _ _ n h (fun _ => rfl) (hp.inside (by decide)) fun type t₁ e₁ h₁ _ ha₁ => ?_
    refine pays_variableNames kind type n h₁ trivial (hp.behind h₁.advances_le (by omega)) fun _ t₂ e₂ h₂ _ ha₂ => ?_
    exact tracks_consumeSymbol h₂ fun t' e' h' ha' => hQ () t' e' h' trivial (by omega)

theorem pays_localVariables (n : Nat) :
    Pays m c localVariables .localVariables n 1 { front := [.keyword .var, .variableType .local_] } := by
  cases n with
  | zero => exact pays_zero
  | succ n =>
    refine pays_succ (by rw [localVariables]) fun path e t next agenda Q h _ hp hQ => ?_
    simp only [tracks_bind]
    refine tracks_consumeKeyword h fun t₁ e₁ h₁ ha₁ => ?_
    exact pays_declaration .local_ n h₁ trivial (hp.behind h₁.advances_le (by omega)) fun _ t' e' h' _ ha' =>
      hQ () t' e' h' trivial (by omega)

theorem pays_locals (kind : RoutineKind) (name : String) (n : Nat) :
    Pays m c locals .locals n 0 {
      front := [.locals kind name]
      back := fun _ => [.locals kind name]
      ends := fun t => t.lexeme ≠ .keyword .var } := by
  induction n with
  | zero => exact pays_zero
  | succ n ih =>
    refine pays_succ (by rw [locals]) fun path e t next agenda Q h _ hp hQ => ?_
    rw [tracks_bind]
    by_cases ht : t.lexeme = .keyword .var
    · have hvar : (Goal.locals kind name).step t e.state =
          .take [] [.variableType .local_, .locals kind name] e.state := by
        simp only [Goal.step, if_pos ht]
      have h₁ : e.At m c t (.keyword .var :: .variableType .local_ :: .locals kind name :: next :: agenda) :=
        h.expand hvar (by simp only [Goal.step, if_pos ht])
      simp only [tracks_isAt_pos h.current ht, if_true, tracks_bind]
      refine pays_localVariables n h₁ trivial (hp.inside (by decide)) fun _ t₂ e₂ h₂ _ ha₂ => ?_
      exact ih h₂ trivial (hp.behind h₂.advances_le (by omega)) fun _ t' e' h' ht' ha' =>
        hQ () t' e' h' ht' (by omega)
    · simp only [tracks_isAt_neg h.current ht, Bool.false_eq_true, if_false, tracks_pure]
      exact hQ () t e h ht (by omega)

theorem step_moreParameters {s : State} (ht : t.lexeme ≠ .symbol .comma) :
    Goal.moreParameters.step t s = (Goal.symbol .rightParen).step t s := by
  simp only [Goal.step]
  split <;> simp_all

theorem pays_parameters (n : Nat) :
    Pays m c parameters .parameters n 1 { front := [.parameter], back := fun _ => [.symbol .rightParen] } := by
  induction n with
  | zero => exact pays_zero
  | succ n ih =>
    refine pays_succ (by rw [parameters]) fun path e t next agenda Q h _ hp hQ => ?_
    simp only [tracks_bind]
    refine pays_type _ _ n h (fun _ => rfl) (hp.inside (by decide)) fun type t₁ e₁ h₁ _ ha₁ => ?_
    refine tracks_consumeIdentifier h₁ rfl fun name t₂ e₂ h₂ hs₂ ha₂ => ?_
    rw [tracks_change, hs₂]
    by_cases ht₂ : t₂.lexeme = .symbol .comma
    · have hcomma : Goal.moreParameters.step t₂ (e₁.state.declare name type .argument) =
          .take [] [.parameter] (e₁.state.declare name type .argument) := by
        simp only [Goal.step, ht₂]
      simp only [tracks_isAt_pos h₂.current ht₂, if_true, tracks_bind]
      refine tracks_advance (h₂.take hcomma) fun t₃ e₃ h₃ ha₃ => ?_
      simp only at ha₃
      exact ih h₃ trivial (hp.behind h₃.advances_le (by omega)) fun _ t' e' h' _ ha' =>
        hQ () t' e' h' trivial (by omega)
    · simp only [tracks_isAt_neg h₂.current ht₂, Bool.false_eq_true, if_false, tracks_pure]
      exact hQ () t₂ _ (h₂.same (step_moreParameters ht₂)) trivial (by simp only; omega)

theorem pays_parameterList (n : Nat) :
    Pays m c parameterList .parameterList n 0 { front := [.parameters], back := fun _ => [.symbol .rightParen] } := by
  cases n with
  | zero => exact pays_zero
  | succ n =>
    refine pays_succ (by rw [parameterList]) fun path e t next agenda Q h _ hp hQ => ?_
    rw [tracks_bind]
    by_cases ht : t.lexeme = .symbol .rightParen
    · simp only [tracks_isAt_pos h.current ht, if_true, tracks_pure]
      exact hQ () t e (h.same (by simp only [Goal.step, if_pos ht])) trivial (by omega)
    · have h₁ : e.At m c t (.parameter :: next :: agenda) := h.same (by simp only [Goal.step, if_neg ht])
      simp only [tracks_isAt_neg h.current ht, Bool.false_eq_true, if_false]
      exact pays_parameters n h₁ trivial (hp.inside (by decide)) fun _ t' e' h' _ ha' =>
        hQ () t' e' h' trivial (by omega)

/-! ### Expressions -/

theorem step_symbol_ne_done {x : Symbol} {s : State} (events : List Event) (s' : State) :
    (Goal.symbol x).step t s ≠ .done events s' := by
  simp only [Goal.step]
  split <;> simp

theorem step_openArguments {f : String} {count : UInt16} {s : State} :
    (Goal.openArguments f count).step t s = ((Goal.symbol .leftParen).step t s).before [.arguments f count] := by
  simp only [Goal.step]
  split <;> rfl

theorem step_moreArguments {f : String} {count : UInt16} {s : State} (ht : t.lexeme ≠ .symbol .comma) :
    (Goal.moreArguments f count).step t s =
      ((Goal.symbol .rightParen).step t s).before [.write (.call f count.toNat)] := by
  simp only [Goal.step]
  split <;> simp_all [Step.before]

/-- A goal that does what a term does, with other goals behind, can be split. -/
theorem at_of_termStep {goals : List Goal} (h : e.At m c t (g :: agenda))
    (hg : g.step t e.state = Goal.termStep goals t e.state) : e.At m c t (.term :: (goals ++ agenda)) := by
  refine h.split ?_ fun _ _ => Goal.termStep_ne_done
  rw [hg, Goal.termStep_eq, Goal.step]
  cases Goal.termStep [] t e.state <;> rfl

theorem tracks_string {text : String} {Q : Unit → Engine → Prop} (h : e.At m c t agenda)
    (hp : Enters m path n .string e.advances)
    (hQ : ∀ (e' : Engine) (sink : Vm.Sink), e'.At m c t agenda → sink.limit? = none → e'.advances = e.advances →
      Q () { e' with sink, trace := e'.trace ++ (Vm.Instruction.ofString text).map Event.wrote }) :
    Tracks m c (string text n) path e Q := by
  cases n with
  | zero => exact hp.bound_ne_zero.elim
  | succ n =>
    rw [string]
    refine tracks_call h hp fun e₁ h₁ _ ha₁ => ?_
    exact tracks_writeAll h₁.unlimited fun sink hs => hQ e₁ sink h₁ hs ha₁

/-- What the routines of an expression do, under a bound on the calls inside. -/
structure ExpressionsPay (m : Nat) (c : Compilation) (n : Nat) : Prop where
  expression : Pays m c expression .expression n 1 { front := Goal.expression }
  operations : Pays m c operations .operations n 0 { front := [.operators] }
  term : Pays m c term .term n 1 { front := [.term] }
  nameTerm : Pays m c nameTerm .nameTerm n 1
    { starts := fun t => ∃ name, t.lexeme = .identifier name, front := [.term] }
  expressionList (f : String) (start : UInt16) : Pays m c expressionList .expressionList n 1
    { front := [.openArguments f start], back := fun count => [.write (.call f (start + count).toNat)] }
  expressions (f : String) (start count : UInt16) : Pays m c (expressions count) .expressions n 1 {
    front := Goal.expression ++ [.moreArguments f (start + (count + 1))]
    back := fun total => [.symbol .rightParen, .write (.call f (start + total).toNat)] }

namespace ExpressionsPay

theorem expression_succ (ih : ExpressionsPay m c n) :
    Pays m c Descent.expression .expression (n + 1) 1 { front := Goal.expression } := by
  refine pays_succ (by rw [Descent.expression]) fun path e t next agenda Q h _ hp hQ => ?_
  simp only [tracks_bind]
  refine ih.term h trivial (hp.inside (by decide)) fun _ t₁ e₁ h₁ _ ha₁ => ?_
  exact ih.operations h₁ trivial (hp.behind h₁.advances_le (by omega)) fun _ t' e' h' _ ha' =>
    hQ () t' e' h' trivial (by omega)

theorem operations_succ (ih : ExpressionsPay m c n) :
    Pays m c Descent.operations .operations (n + 1) 0 { front := [.operators] } := by
  refine pays_succ (by rw [Descent.operations]) fun path e t next agenda Q h _ hp hQ => ?_
  rw [tracks_bind]
  refine tracks_extract h (fun hnone => by simp only [Goal.step, hnone]) fun x hx => ?_
  cases hop : x.binaryOp? with
  | none =>
    have hstep : Goal.operators.step t e.state = .done [] e.state := by simp only [Goal.step, hx, hop]
    rw [tracks_pure]
    exact hQ () t e (h.done hstep) trivial (by omega)
  | some op =>
    have hstep : Goal.operators.step t e.state = .take [] [.term, .write (.ofBinaryOp op), .operators] e.state := by
      simp only [Goal.step, hx, hop]
    simp only [tracks_bind]
    refine tracks_advance (h.take hstep) fun t₁ e₁ h₁ ha₁ => ?_
    refine ih.term h₁ trivial (hp.behind h₁.advances_le (by omega)) fun _ t₂ e₂ h₂ _ ha₂ => ?_
    refine tracks_write h₂ fun e₃ h₃ ha₃ => ?_
    exact ih.operations h₃ trivial (hp.behind h₃.advances_le (by omega)) fun _ t' e' h' _ ha' =>
      hQ () t' e' h' trivial (by omega)

theorem expressions_succ (ih : ExpressionsPay m c n) (f : String) (start count : UInt16) :
    Pays m c (Descent.expressions count) .expressions (n + 1) 1 {
      front := Goal.expression ++ [.moreArguments f (start + (count + 1))]
      back := fun total => [.symbol .rightParen, .write (.call f (start + total).toNat)] } := by
  refine pays_succ (by rw [Descent.expressions]) fun path e t next agenda Q h _ hp hQ => ?_
  simp only [tracks_bind]
  refine ih.expression h trivial (hp.inside (by decide)) fun _ t₁ e₁ h₁ _ ha₁ => ?_
  by_cases ht₁ : t₁.lexeme = .symbol .comma
  · have hcomma : (Goal.moreArguments f (start + (count + 1))).step t₁ e₁.state =
        .take [] (Goal.expression ++ [.moreArguments f (start + (count + 1 + 1))]) e₁.state := by
      simp only [Goal.step, ht₁, UInt16.add_assoc]
      rfl
    simp only [tracks_isAt_pos h₁.current ht₁, if_true, tracks_bind]
    refine tracks_advance (h₁.take hcomma) fun t₂ e₂ h₂ ha₂ => ?_
    exact ih.expressions f start (count + 1) h₂ trivial (hp.behind h₂.advances_le (by omega)) fun a t' e' h' _ ha' =>
      hQ a t' e' h' trivial (by omega)
  · simp only [tracks_isAt_neg h₁.current ht₁, Bool.false_eq_true, if_false, tracks_pure]
    exact hQ (count + 1) t₁ e₁ (h₁.split (step_moreArguments ht₁) step_symbol_ne_done) trivial ha₁

theorem expressionList_succ (ih : ExpressionsPay m c n) (f : String) (start : UInt16) :
    Pays m c Descent.expressionList .expressionList (n + 1) 1
      { front := [.openArguments f start], back := fun count => [.write (.call f (start + count).toNat)] } := by
  refine pays_succ (by rw [Descent.expressionList]) fun path e t next agenda Q h _ hp hQ => ?_
  have hopen : e.At m c t (.symbol .leftParen :: .arguments f start :: next :: agenda) :=
    h.split step_openArguments step_symbol_ne_done
  simp only [tracks_bind]
  refine tracks_consumeSymbol hopen fun t₁ e₁ h₁ ha₁ => ?_
  by_cases ht₁ : t₁.lexeme = .symbol .rightParen
  · have hclose : (Goal.arguments f start).step t₁ e₁.state =
        .take [] [.write (.call f (start + 0).toNat)] e₁.state := by
      simp only [Goal.step, if_pos ht₁, UInt16.add_zero]
    have h₂ : e₁.At m c t₁ (.symbol .rightParen :: .write (.call f (start + 0).toNat) :: next :: agenda) :=
      h₁.expand hclose (by simp only [Goal.step, if_pos ht₁])
    simp only [tracks_isAt_pos h₁.current ht₁, if_true, tracks_bind, tracks_pure]
    exact tracks_consumeSymbol h₂ fun t' e' h' ha' => hQ 0 t' e' h' trivial (by omega)
  · have hterm : (Goal.arguments f start).step t₁ e₁.state =
        Goal.termStep [.operators, .moreArguments f (start + (0 + 1))] t₁ e₁.state := by
      simp only [Goal.step, if_neg ht₁, UInt16.zero_add]
    have h₂ := at_of_termStep h₁ hterm
    simp only [tracks_isAt_neg h₁.current ht₁, Bool.false_eq_true, if_false, tracks_bind, tracks_pure]
    refine ih.expressions f start 0 h₂ trivial (hp.behind h₂.advances_le (by omega)) fun count t₃ e₃ h₃ _ ha₃ => ?_
    exact tracks_consumeSymbol h₃ fun t' e' h' ha' => hQ count t' e' h' trivial (by omega)

theorem term_succ (ih : ExpressionsPay m c n) : Pays m c Descent.term .term (n + 1) 1 { front := [.term] } := by
  refine pays_succ (by rw [Descent.term]) fun path e t next agenda Q h _ hp hQ => ?_
  have hstep (s : State) : Goal.term.step t s = Goal.termStep [] t s := rfl
  -- A term of one token ends behind it.
  have hend (t' : Token) (e' : Engine) (h' : e'.At m c t' (next :: agenda)) (ha' : e'.advances = e.advances + 1) :
      Q () e' :=
    hQ () t' e' h' trivial (by omega)
  have hone {i : Vm.Instruction} (hi : Goal.term.step t e.state = .take [.wrote i] [] e.state) :
      Tracks m c (write i >>= fun _ => advance) ({ production := .term, advances := e.advances } :: path) e Q := by
    rw [tracks_bind]
    exact tracks_wrote h.unlimited fun sink hs => tracks_advance ((h.take hi).into hs) hend
  rw [tracks_bind, tracks_current h.current]
  split <;> rename_i hl <;> simp only [hl, Goal.termStep] at hstep
  · exact hone (hstep _)
  · rw [tracks_bind]
    refine tracks_string h (hp.inside (by decide)) fun e₁ sink h₁ hs ha₁ => ?_
    exact tracks_advance ((h₁.take (hstep _)).into hs) fun t' e' h' ha' => hend t' e' h' (ha₁ ▸ ha')
  · rw [tracks_bind]
    refine tracks_wrote h.unlimited fun sink hs => ?_
    rw [tracks_bind]
    refine tracks_wrote hs fun sink hs => ?_
    exact tracks_advance ((h.take (hstep _)).into hs) hend
  · exact hone (hstep _)
  · exact hone (hstep _)
  · exact hone (hstep _)
  · exact tracks_unexpected h.current (h.fail (hstep _))
  · exact ih.nameTerm h ⟨_, hl⟩ (hp.inside (by decide)) fun _ t' e' h' _ ha' => hQ () t' e' h' trivial ha'
  · simp only [tracks_bind]
    refine tracks_advance (h.take (hstep _)) fun t₁ e₁ h₁ ha₁ => ?_
    refine ih.expression h₁ trivial (hp.behind h₁.advances_le (by omega)) fun _ t₂ e₂ h₂ _ ha₂ => ?_
    exact tracks_consumeSymbol h₂ fun t' e' h' ha' => hQ () t' e' h' trivial (by omega)
  · rename_i x _
    cases hop : x.unaryOp? with
    | none =>
      simp only [hop] at hstep
      exact tracks_unexpected h.current (h.fail (hstep _))
    | some op =>
      simp only [hop] at hstep
      simp only [tracks_bind]
      refine tracks_advance (h.take (hstep _)) fun t₁ e₁ h₁ ha₁ => ?_
      refine ih.term h₁ trivial (hp.behind h₁.advances_le (by omega)) fun _ t₂ e₂ h₂ _ ha₂ => ?_
      exact tracks_write h₂ fun e' h' ha' => hQ () t₂ e' h' trivial (by omega)

section
variable {p : Production} {a : Nat} {Q : Unit → Engine → Prop}

/-- The index of an array element is read behind a move. -/
theorem tracks_element (ih : ExpressionsPay m c n) {array : Variable}
    (h : e.Owes m c [] (Goal.element array ++ next :: agenda)) (hp : Enters m path (n + 1) p a) (ha : a ≤ e.advances)
    (hQ : ∀ t' e', e'.At m c t' (next :: agenda) → e.advances < e'.advances → Q () e') :
    Tracks m c (element array (Descent.expression n)) ({ production := p, advances := a } :: path) e Q := by
  simp only [element, tracks_bind]
  refine tracks_advance h fun t₁ e₁ h₁ ha₁ => ?_
  refine tracks_write h₁ fun e₂ h₂ ha₂ => ?_
  refine ih.expression h₂ trivial (hp.behind h₂.advances_le (by omega)) fun _ t₃ e₃ h₃ _ ha₃ => ?_
  refine tracks_consumeSymbol h₃ fun t₄ e₄ h₄ ha₄ => ?_
  exact tracks_write h₄ fun e' h' ha' => hQ t₄ e' h' (by omega)

theorem tracks_memberCall (ih : ExpressionsPay m c n) {owner : String}
    (h : e.Owes m c [] (.callee owner :: next :: agenda)) (hp : Enters m path (n + 1) p a) (ha : a ≤ e.advances)
    (hQ : ∀ t' e', e'.At m c t' (next :: agenda) → e.advances < e'.advances → Q () e') :
    Tracks m c (memberCall owner (Descent.expressionList n)) ({ production := p, advances := a } :: path) e Q := by
  simp only [memberCall, tracks_bind]
  refine tracks_advance h fun t₁ e₁ h₁ ha₁ => ?_
  cases hv : e₁.state.lookup? owner with
  | none =>
    have hstep : (Goal.callee owner).step t₁ e₁.state = Goal.wantName t₁ fun member =>
        .take [] [.openArguments s!"{owner}.{member}" 0] e₁.state := by
      simp only [Goal.step, Goal.calleeStep, hv]
    refine tracks_consumeName h₁ hstep fun member t₂ e₂ h₂ hs₂ ha₂ => ?_
    simp only [tracks_know, hs₂, hv, tracks_bind]
    refine ih.expressionList _ 0 h₂ trivial (hp.behind h₂.advances_le (by omega)) fun count t₃ e₃ h₃ _ ha₃ => ?_
    rw [← UInt16.zero_add count]
    exact tracks_write h₃ fun e' h' ha' => hQ t₃ e' h' (by omega)
  | some v =>
    have hstep : (Goal.callee owner).step t₁ e₁.state = Goal.wantName t₁ fun member =>
        .take [] [.write (.pushVariable v), .openArguments s!"{v.type}.{member}" 1] e₁.state := by
      simp only [Goal.step, Goal.calleeStep, hv]
    refine tracks_consumeName h₁ hstep fun member t₂ e₂ h₂ hs₂ ha₂ => ?_
    simp only [tracks_know, hs₂, hv, tracks_bind]
    refine tracks_write h₂ fun e₃ h₃ ha₃ => ?_
    refine ih.expressionList _ 1 h₃ trivial (hp.behind h₃.advances_le (by omega)) fun count t₄ e₄ h₄ _ ha₄ => ?_
    rw [UInt16.add_comm count]
    exact tracks_write h₄ fun e' h' ha' => hQ t₄ e' h' (by omega)

theorem tracks_methodCall (ih : ExpressionsPay m c n) {name : String}
    (h : e.At m c t (.write (.push .pointer 0) :: .openArguments s!"{e.state.className}.{name}" 1 :: next :: agenda))
    (hp : Enters m path (n + 1) p a) (ha : a < e.advances)
    (hQ : ∀ t' e', e'.At m c t' (next :: agenda) → e.advances < e'.advances → Q () e') :
    Tracks m c (methodCall name (Descent.expressionList n)) ({ production := p, advances := a } :: path) e Q := by
  simp only [methodCall, tracks_bind, tracks_know]
  refine tracks_write h fun e₁ h₁ ha₁ => ?_
  refine ih.expressionList _ 1 h₁ trivial (hp.behind h₁.advances_le (by omega)) fun count t₂ e₂ h₂ _ ha₂ => ?_
  rw [UInt16.add_comm count]
  exact tracks_write h₂ fun e' h' ha' => hQ t₂ e' h' (by omega)

end

theorem nameTerm_succ (ih : ExpressionsPay m c n) : Pays m c Descent.nameTerm .nameTerm (n + 1) 1
    { starts := fun t => ∃ name, t.lexeme = .identifier name, front := [.term] } := by
  refine pays_succ (by rw [Descent.nameTerm]) fun path e t next agenda Q h hname hp hQ => ?_
  obtain ⟨name, hname⟩ := hname
  have hstep : Goal.term.step t e.state = .take [] [.afterName name t.span] e.state := by
    simp only [Goal.step, Goal.termStep, hname]
  have hspan : e.cursor.span = t.span := by rw [Showing.span, h.current]
  simp only [tracks_bind, tracks_look, hspan]
  refine tracks_identifier h.current hname (tracks_advance (h.take hstep) fun t₁ e₁ h₁ ha₁ => ?_)
  have hend (t' : Token) (e' : Engine) (h' : e'.At m c t' (next :: agenda)) (ha' : e₁.advances ≤ e'.advances) :
      Q () e' :=
    hQ () t' e' h' trivial (by omega)
  -- The token behind the name decides.
  by_cases hdot : t₁.lexeme = .symbol .dot
  · have hstep₁ : (Goal.afterName name t.span).step t₁ e₁.state = .take [] [.callee name] e₁.state := by
      simp only [Goal.step, Goal.nameStep, hdot]
    simp only [tracks_isAt_pos h₁.current hdot, if_true]
    exact ih.tracks_memberCall (h₁.take hstep₁) hp (by omega) fun t' e' h' ha' => hend t' e' h' (Nat.le_of_lt ha')
  simp only [tracks_isAt_neg h₁.current hdot, Bool.false_eq_true, if_false, tracks_bind]
  by_cases hbracket : t₁.lexeme = .symbol .leftBracket
  · have hstep₁ : (Goal.afterName name t.span).step t₁ e₁.state = Goal.wantVariable e₁.state name t.span fun v =>
        .take [] (Goal.element v ++ [.write (.pop .pointer 1), .write (.push .that 0)]) e₁.state := by
      simp only [Goal.step, Goal.nameStep, hbracket]
    simp only [tracks_isAt_pos h₁.current hbracket, if_true, tracks_bind]
    refine tracks_resolve h₁ hstep₁ fun v hv => ?_
    refine ih.tracks_element (h₁.take hv) hp (by omega) fun t₂ e₂ h₂ ha₂ => ?_
    refine tracks_write h₂ fun e₃ h₃ ha₃ => ?_
    exact tracks_write h₃ fun e' h' ha' => hend t₂ e' h' (by omega)
  simp only [tracks_isAt_neg h₁.current hbracket, Bool.false_eq_true, if_false, tracks_bind]
  by_cases hparen : t₁.lexeme = .symbol .leftParen
  · have h₂ : e₁.At m c t₁ (.write (.push .pointer 0) :: .openArguments s!"{e₁.state.className}.{name}" 1 :: next ::
        agenda) :=
      h₁.swap (by simp [Goal.settle, Goal.step, Goal.nameStep, Goal.write, hparen])
    simp only [tracks_isAt_pos h₁.current hparen, if_true]
    exact ih.tracks_methodCall h₂ hp (by omega) fun t' e' h' ha' => hend t' e' h' (Nat.le_of_lt ha')
  have hstep₁ : (Goal.afterName name t.span).step t₁ e₁.state = Goal.wantVariable e₁.state name t.span fun v =>
      .done [.wrote (.pushVariable v)] e₁.state := by
    rw [Goal.step, Goal.nameStep]
    split <;> simp_all
  simp only [tracks_isAt_neg h₁.current hparen, Bool.false_eq_true, if_false, tracks_bind]
  refine tracks_resolve h₁ hstep₁ fun v hv => ?_
  have h₂ : e₁.At m c t₁ (.write (.pushVariable v) :: next :: agenda) := h₁.same hv
  exact tracks_write h₂ fun e' h' ha' => hend t₁ e' h' (by omega)

end ExpressionsPay

theorem expressionsPay (n : Nat) : ExpressionsPay m c n := by
  induction n with
  | zero => exact ⟨pays_zero, pays_zero, pays_zero, pays_zero, fun _ _ => pays_zero, fun _ _ _ => pays_zero⟩
  | succ n ih =>
    exact ⟨ih.expression_succ, ih.operations_succ, ih.term_succ, ih.nameTerm_succ, ih.expressionList_succ,
      ih.expressions_succ⟩

/-! ### Statements -/

theorem pays_condition (n : Nat) : Pays m c condition .condition n 1 { front := Goal.condition } := by
  cases n with
  | zero => exact pays_zero
  | succ n =>
    refine pays_succ (by rw [condition]) fun path e t next agenda Q h _ hp hQ => ?_
    simp only [tracks_bind]
    refine tracks_consumeSymbol h fun t₁ e₁ h₁ ha₁ => ?_
    refine (expressionsPay n).expression h₁ trivial (hp.behind h₁.advances_le (by omega)) fun _ t₂ e₂ h₂ _ ha₂ => ?_
    refine tracks_consumeSymbol h₂ fun t₃ e₃ h₃ ha₃ => ?_
    exact tracks_write h₃ fun e' h' ha' => hQ () t₃ e' h' trivial (by omega)

theorem pays_letStatement (n : Nat) :
    Pays m c letStatement .letStatement n 1 { front := [.keyword .let_, .letTarget] } := by
  cases n with
  | zero => exact pays_zero
  | succ n =>
    refine pays_succ (by rw [letStatement]) fun path e t next agenda Q h _ hp hQ => ?_
    simp only [tracks_bind, tracks_look]
    refine tracks_consumeKeyword h fun t₁ e₁ h₁ ha₁ => ?_
    have hspan : e₁.cursor.span = t₁.span := by rw [Showing.span, h₁.current]
    rw [hspan]
    refine tracks_consumeName h₁ rfl fun name t₂ e₂ h₂ _ ha₂ => ?_
    refine tracks_resolve h₂ rfl fun v hv => ?_
    by_cases ht₂ : t₂.lexeme = .symbol .leftBracket
    · simp only [ht₂] at hv
      simp only [tracks_isAt_pos h₂.current ht₂, if_true, tracks_bind]
      refine (expressionsPay n).tracks_element (h₂.take hv) hp (by omega) fun t₃ e₃ h₃ ha₃ => ?_
      refine tracks_consumeSymbol h₃ fun t₄ e₄ h₄ ha₄ => ?_
      refine (expressionsPay n).expression h₄ trivial (hp.behind h₄.advances_le (by omega)) fun _ t₅ e₅ h₅ _ ha₅ => ?_
      refine tracks_write h₅ fun e₆ h₆ ha₆ => ?_
      refine tracks_write h₆ fun e₇ h₇ ha₇ => ?_
      refine tracks_write h₇ fun e₈ h₈ ha₈ => ?_
      refine tracks_write h₈ fun e₉ h₉ ha₉ => ?_
      exact tracks_consumeSymbol h₉ fun t' e' h' ha' => hQ () t' e' h' trivial (by omega)
    · have h₃ : e₂.At m c t₂ (.symbol .eq :: (Goal.expression ++ [.write (.popVariable v), .symbol .semicolon] ++
          next :: agenda)) := by
        refine h₂.split (hv.trans ?_) step_symbol_ne_done
        simp only [Goal.step]
        split <;> simp_all [Step.before]
      simp only [tracks_isAt_neg h₂.current ht₂, Bool.false_eq_true, if_false, tracks_bind]
      refine tracks_consumeSymbol h₃ fun t₄ e₄ h₄ ha₄ => ?_
      refine (expressionsPay n).expression h₄ trivial (hp.behind h₄.advances_le (by omega)) fun _ t₅ e₅ h₅ _ ha₅ => ?_
      refine tracks_write h₅ fun e₆ h₆ ha₆ => ?_
      exact tracks_consumeSymbol h₆ fun t' e' h' ha' => hQ () t' e' h' trivial (by omega)

theorem pays_doStatement (n : Nat) : Pays m c doStatement .doStatement n 1
    { front := [.keyword .do_, .term, .symbol .semicolon, .write (.pop .temp 0)] } := by
  cases n with
  | zero => exact pays_zero
  | succ n =>
    refine pays_succ (by rw [doStatement]) fun path e t next agenda Q h _ hp hQ => ?_
    simp only [tracks_bind]
    refine tracks_consumeKeyword h fun t₁ e₁ h₁ ha₁ => ?_
    refine (expressionsPay n).term h₁ trivial (hp.behind h₁.advances_le (by omega)) fun _ t₂ e₂ h₂ _ ha₂ => ?_
    refine tracks_consumeSymbol h₂ fun t₃ e₃ h₃ ha₃ => ?_
    exact tracks_write h₃ fun e' h' ha' => hQ () t₃ e' h' trivial (by omega)

theorem pays_returnStatement (n : Nat) :
    Pays m c returnStatement .returnStatement n 1 { front := [.keyword .return_, .returnValue] } := by
  cases n with
  | zero => exact pays_zero
  | succ n =>
    refine pays_succ (by rw [returnStatement]) fun path e t next agenda Q h _ hp hQ => ?_
    simp only [tracks_bind]
    refine tracks_consumeKeyword h fun t₁ e₁ h₁ ha₁ => ?_
    by_cases ht₁ : t₁.lexeme = .symbol .semicolon
    · have h₂ : e₁.At m c t₁ (.write (.pushConstant 0) :: .write .return_ :: .symbol .semicolon :: next :: agenda) :=
        h₁.swap (by simp [Goal.settle, Goal.step, Goal.write, ht₁])
      simp only [tracks_isAt_pos h₁.current ht₁, if_true, tracks_bind]
      refine tracks_write h₂ fun e₃ h₃ ha₃ => ?_
      refine tracks_write h₃ fun e₄ h₄ ha₄ => ?_
      exact tracks_consumeSymbol h₄ fun t' e' h' ha' => hQ () t' e' h' trivial (by omega)
    · have hterm : Goal.returnValue.step t₁ e₁.state =
          Goal.termStep [.operators, .write .return_, .symbol .semicolon] t₁ e₁.state := by
        simp only [Goal.step, if_neg ht₁]
      have h₂ := at_of_termStep h₁ hterm
      simp only [tracks_isAt_neg h₁.current ht₁, Bool.false_eq_true, if_false, tracks_bind]
      refine (expressionsPay n).expression h₂ trivial (hp.behind h₂.advances_le (by omega)) fun _ t₃ e₃ h₃ _ ha₃ => ?_
      refine tracks_write h₃ fun e₄ h₄ ha₄ => ?_
      exact tracks_consumeSymbol h₄ fun t' e' h' ha' => hQ () t' e' h' trivial (by omega)

theorem lexeme_of_keyword? {word : Keyword} (h : t.keyword? = some word) : t.lexeme = .keyword word := by
  obtain ⟨lexeme, span⟩ := t
  cases lexeme <;> simp_all [Token.keyword?]

/-- What the routines of statements do, under a bound on the calls inside. -/
structure StatementsPay (m : Nat) (c : Compilation) (n : Nat) : Prop where
  statements (void returned : Bool) : Pays m c (statements returned) .statements n 0 {
    front := [.statements void returned]
    back := fun returned => [.statements void returned]
    ends := fun t => t.lexeme = .symbol .rightBrace }
  block : Pays m c block .block n 1 { front := Goal.block }
  ifStatement (void returned : Bool) : Pays m c ifStatement .ifStatement n 1 {
    starts := fun t => t.lexeme = .keyword .if_
    front := [.statements void returned]
    back := fun _ => [.statements void false] }
  whileStatement (void returned : Bool) : Pays m c whileStatement .whileStatement n 1 {
    starts := fun t => t.lexeme = .keyword .while_
    front := [.statements void returned]
    back := fun _ => [.statements void false] }

namespace StatementsPay

theorem statements_succ (ih : StatementsPay m c n) (void returned : Bool) :
    Pays m c (Descent.statements returned) .statements (n + 1) 0 {
      front := [.statements void returned]
      back := fun returned => [.statements void returned]
      ends := fun t => t.lexeme = .symbol .rightBrace } := by
  refine pays_succ (by rw [Descent.statements]) fun path e t next agenda Q h _ hp hQ => ?_
  rw [tracks_bind]
  by_cases hclose : t.lexeme = .symbol .rightBrace
  · simp only [tracks_isAt_pos h.current hclose, if_true, tracks_pure]
    exact hQ returned t e h hclose (by omega)
  have hword : e.cursor.keyword.toOption = t.keyword? := by
    rw [Showing.keyword, Showing.extract_eq h.current]
    cases t.keyword? <;> rfl
  simp only [tracks_isAt_neg h.current hclose, Bool.false_eq_true, if_false, tracks_bind, tracks_look, hword]
  have hmore {returned : Bool} {t₁ : Token} {e₁ : Engine}
      (h₁ : e₁.At m c t₁ (.statements void returned :: next :: agenda)) (ha₁ : e.advances < e₁.advances) :
      Tracks m c (Descent.statements returned n) ({ production := .statements, advances := e.advances } :: path) e₁ Q :=
    ih.statements void returned h₁ trivial (hp.behind h₁.advances_le ha₁) fun a t' e' h' ht' ha' =>
      hQ a t' e' h' ht' (by omega)
  -- A statement that starts with its own keyword is read in front of the other statements.
  have hplain {x : Nat → Descent Unit} {p : Production} {word : Keyword} {goals : List Goal} {returned' : Bool}
      (hx : Pays m c x p n 1 { front := .keyword word :: goals }) (ht : t.lexeme = .keyword word)
      (hstep : (Goal.statements void returned).step t e.state =
        .take [] (goals ++ [.statements void returned']) e.state)
      (hlevel : Production.statements.level < p.level) :
      Tracks m c (x n >>= fun _ => Descent.statements returned' n)
        ({ production := .statements, advances := e.advances } :: path) e Q := by
    have h₁ : e.At m c t (.keyword word :: (goals ++ .statements void returned' :: next :: agenda)) := by
      have hexpand := h.expand hstep (show (Goal.keyword word).step t e.state = _ by simp only [Goal.step, if_pos ht])
      rwa [List.append_assoc] at hexpand
    rw [tracks_bind]
    exact hx h₁ trivial (hp.inside hlevel) fun _ t₂ e₂ h₂ _ ha₂ => hmore h₂ ha₂
  split <;> rename_i hk
  · have ht := lexeme_of_keyword? hk
    rw [hk]
    exact hplain (pays_letStatement n) ht (by simp only [Goal.step, Goal.statementStep, ht]; rfl) (by decide)
  · have ht := lexeme_of_keyword? hk
    rw [hk, tracks_bind]
    exact ih.ifStatement void returned h ht (hp.inside (by decide)) fun _ t₁ e₁ h₁ _ ha₁ => hmore h₁ ha₁
  · have ht := lexeme_of_keyword? hk
    rw [hk, tracks_bind]
    exact ih.whileStatement void returned h ht (hp.inside (by decide)) fun _ t₁ e₁ h₁ _ ha₁ => hmore h₁ ha₁
  · have ht := lexeme_of_keyword? hk
    rw [hk]
    exact hplain (pays_doStatement n) ht (by simp only [Goal.step, Goal.statementStep, ht]; rfl) (by decide)
  · have ht := lexeme_of_keyword? hk
    rw [hk]
    exact hplain (pays_returnStatement n) ht (by simp only [Goal.step, Goal.statementStep, ht]; rfl) (by decide)
  · rw [tracks_bind]
    refine tracks_unexpected h.current (h.fail ?_)
    rw [Goal.step, Goal.statementStep]
    split <;> simp_all [Token.keyword?]

theorem block_succ (ih : StatementsPay m c n) : Pays m c Descent.block .block (n + 1) 1 { front := Goal.block } := by
  refine pays_succ (by rw [Descent.block]) fun path e t next agenda Q h _ hp hQ => ?_
  simp only [tracks_bind]
  refine tracks_consumeSymbol h fun t₁ e₁ h₁ ha₁ => ?_
  refine ih.statements false false h₁ trivial (hp.behind h₁.advances_le (by omega)) fun a t₂ e₂ h₂ ht₂ ha₂ => ?_
  have hclose : t₂.lexeme = .symbol .rightBrace := ht₂
  have h₃ : e₂.At m c t₂ (.symbol .rightBrace :: next :: agenda) :=
    h₂.same (by simp [Goal.step, Goal.statementStep, hclose])
  exact tracks_consumeSymbol h₃ fun t' e' h' ha' => hQ () t' e' h' trivial (by omega)

theorem ifStatement_succ (ih : StatementsPay m c n) (void returned : Bool) :
    Pays m c Descent.ifStatement .ifStatement (n + 1) 1 {
      starts := fun t => t.lexeme = .keyword .if_
      front := [.statements void returned]
      back := fun _ => [.statements void false] } := by
  refine pays_succ (by rw [Descent.ifStatement]) fun path e t next agenda Q h ht hp hQ => ?_
  have hstep : (Goal.statements void returned).step t e.state = Goal.statementStep void returned t e.state := rfl
  simp only [Goal.statementStep, show t.lexeme = .keyword .if_ from ht] at hstep
  simp only [tracks_bind, tracks_drawLabel]
  -- The agenda draws the labels with the keyword, the routine in front of it.
  refine tracks_keyword h.current ht (tracks_advance (h.take hstep) fun t₁ e₁ h₁ ha₁ => ?_)
  replace ha₁ : e₁.advances = e.advances + 1 := ha₁
  refine pays_condition n h₁ trivial (hp.behind h₁.advances_le (by omega)) fun _ t₂ e₂ h₂ _ ha₂ => ?_
  refine tracks_write h₂ fun e₃ h₃ ha₃ => ?_
  refine ih.block h₃ trivial (hp.behind h₃.advances_le (by omega)) fun _ t₄ e₄ h₄ _ ha₄ => ?_
  refine tracks_write h₄ fun e₅ h₅ ha₅ => ?_
  refine tracks_write h₅ fun e₆ h₆ ha₆ => ?_
  by_cases ht₄ : t₄.lexeme = .keyword .else_
  · have helse (done : String) : (Goal.otherwise done).step t₄ e₆.state =
        .take [] (Goal.block ++ [.write (.label done)]) e₆.state := by
      simp only [Goal.step, if_pos ht₄]
    simp only [tracks_isAt_pos h₆.current ht₄, if_true, tracks_bind]
    refine tracks_advance (h₆.take (helse _)) fun t₇ e₇ h₇ ha₇ => ?_
    refine ih.block h₇ trivial (hp.behind h₇.advances_le (by omega)) fun _ t₈ e₈ h₈ _ ha₈ => ?_
    exact tracks_write h₈ fun e' h' ha' => hQ () t₈ e' h' trivial (by omega)
  · have hend (done : String) :
        (Goal.otherwise done).step t₄ e₆.state = (Goal.write (.label done)).step t₄ e₆.state := by
      simp only [Goal.step, if_neg ht₄, Goal.write]
    simp only [tracks_isAt_neg h₆.current ht₄, Bool.false_eq_true, if_false]
    exact tracks_write (h₆.same (hend _)) fun e' h' ha' => hQ () t₄ e' h' trivial (by omega)

theorem whileStatement_succ (ih : StatementsPay m c n) (void returned : Bool) :
    Pays m c Descent.whileStatement .whileStatement (n + 1) 1 {
      starts := fun t => t.lexeme = .keyword .while_
      front := [.statements void returned]
      back := fun _ => [.statements void false] } := by
  refine pays_succ (by rw [Descent.whileStatement]) fun path e t next agenda Q h ht hp hQ => ?_
  have hstep : (Goal.statements void returned).step t e.state = Goal.statementStep void returned t e.state := rfl
  simp only [Goal.statementStep, show t.lexeme = .keyword .while_ from ht] at hstep
  rw [tracks_bind, tracks_drawLabel, tracks_bind, tracks_drawLabel, tracks_bind]
  refine tracks_wrote h.unlimited fun sink hs => ?_
  simp only [tracks_bind]
  refine tracks_keyword h.current ht (tracks_advance ((h.take hstep).into hs) fun t₁ e₁ h₁ ha₁ => ?_)
  replace ha₁ : e₁.advances = e.advances + 1 := ha₁
  refine pays_condition n h₁ trivial (hp.behind h₁.advances_le (by omega)) fun _ t₂ e₂ h₂ _ ha₂ => ?_
  refine tracks_write h₂ fun e₃ h₃ ha₃ => ?_
  refine ih.block h₃ trivial (hp.behind h₃.advances_le (by omega)) fun _ t₄ e₄ h₄ _ ha₄ => ?_
  refine tracks_write h₄ fun e₅ h₅ ha₅ => ?_
  exact tracks_write h₅ fun e' h' ha' => hQ () t₄ e' h' trivial (by omega)

end StatementsPay

theorem statementsPay (n : Nat) : StatementsPay m c n := by
  induction n with
  | zero => exact ⟨fun _ _ => pays_zero, pays_zero, fun _ _ => pays_zero, fun _ _ => pays_zero⟩
  | succ n ih => exact ⟨ih.statements_succ, ih.block_succ, ih.ifStatement_succ, ih.whileStatement_succ⟩

end Descent
end JackToVm
