import Mathlib.Data.List.Forall2
import JackToVm.Proofs.Reach

/-!
Two runs of the pass side by side. They read the same lexemes, in places that correspond, and number their
labels from `a` and from `b` on. A step keeps them together (`Goal.step_twins`): they do the same, but for the
numbers of labels and for the places in errors, and the numbers are among those that were drawn.
-/

namespace JackToVm

namespace Vm

/-- The label that an instruction sets or jumps to. -/
def Instruction.mention? : Instruction → Option String
  | .label x | .goto x | .ifGoto x => some x
  | _ => none

/-- Two labels of one sort. The number of one is as far behind `a` as that of the other is behind `b`, and is
among the first `m` numbers. -/
def Labels.Twins (a b m : Nat) (x y : String) : Prop :=
  ∃ k < m, (x = ifName (a + k) ∧ y = ifName (b + k)) ∨ (x = whileName (a + k) ∧ y = whileName (b + k))

/-- The same instruction, but for the number of its label. -/
inductive Instruction.Twins (a b m : Nat) : Instruction → Instruction → Prop where
  | same {i : Instruction} (h : i.mention? = none) : Twins a b m i i
  | label {x y : String} (h : Labels.Twins a b m x y) : Twins a b m (.label x) (.label y)
  | goto {x y : String} (h : Labels.Twins a b m x y) : Twins a b m (.goto x) (.goto y)
  | ifGoto {x y : String} (h : Labels.Twins a b m x y) : Twins a b m (.ifGoto x) (.ifGoto y)

section
variable {a b m n : Nat}

theorem Labels.Twins.mono {x y : String} (h : Labels.Twins a b m x y) (hmn : m ≤ n) : Labels.Twins a b n x y := by
  obtain ⟨k, hk, hxy⟩ := h
  exact ⟨k, Nat.lt_of_lt_of_le hk hmn, hxy⟩

theorem Labels.twins_if {k : Nat} (h : k < m) : Labels.Twins a b m (ifName (a + k)) (ifName (b + k)) :=
  ⟨k, h, Or.inl ⟨rfl, rfl⟩⟩

theorem Labels.twins_while {k : Nat} (h : k < m) : Labels.Twins a b m (whileName (a + k)) (whileName (b + k)) :=
  ⟨k, h, Or.inr ⟨rfl, rfl⟩⟩

theorem Instruction.Twins.mono {i j : Instruction} (h : i.Twins a b m j) (hmn : m ≤ n) : i.Twins a b n j := by
  cases h with
  | same h => exact .same h
  | label h => exact .label (h.mono hmn)
  | goto h => exact .goto (h.mono hmn)
  | ifGoto h => exact .ifGoto (h.mono hmn)

end

end Vm

/-! ### Events -/

/-- The same events, from `m` drawn numbers to `n`, but for the numbers of labels. -/
inductive Event.Twins (a b : Nat) : Nat → List Event → List Event → Nat → Prop where
  | nil (m : Nat) : Twins a b m [] [] m
  | wrote {m n : Nat} {i j : Vm.Instruction} {events events' : List Event} (h : i.Twins a b m j)
      (next : Twins a b m events events' n) : Twins a b m (.wrote i :: events) (.wrote j :: events') n
  | drew {m n : Nat} {events events' : List Event} (next : Twins a b (m + 1) events events' n) :
      Twins a b m (.drew (a + m) :: events) (.drew (b + m) :: events') n
  | enteredClass {m n : Nat} {events events' : List Event} (name : String)
      (next : Twins a b m events events' n) :
      Twins a b m (.enteredClass name :: events) (.enteredClass name :: events') n
  | enteredRoutine {m n : Nat} {events events' : List Event} (kind : RoutineKind) (className name : String)
      (next : Twins a b m events events' n) :
      Twins a b m (.enteredRoutine kind className name :: events) (.enteredRoutine kind className name :: events') n

namespace Event.Twins
variable {a b k m n : Nat} {events events' more more' : List Event}

theorem append (h : Event.Twins a b k events events' m) (hm : Event.Twins a b m more more' n) :
    Event.Twins a b k (events ++ more) (events' ++ more') n := by
  induction h with
  | nil => exact hm
  | wrote h _ ih => exact .wrote h (ih hm)
  | drew _ ih => exact .drew (ih hm)
  | enteredClass name _ ih => exact .enteredClass name (ih hm)
  | enteredRoutine kind className name _ ih => exact .enteredRoutine kind className name (ih hm)

/-- Instructions without labels are the same in both runs. -/
theorem of_code (code : List Vm.Instruction) (h : ∀ i ∈ code, i.mention? = none) :
    Event.Twins a b m (code.map .wrote) (code.map .wrote) m := by
  induction code with
  | nil => exact .nil m
  | cons i code ih =>
    rw [List.forall_mem_cons] at h
    exact .wrote (.same h.1) (ih h.2)

theorem le (h : Event.Twins a b m events events' n) : m ≤ n := by
  induction h with
  | nil => exact Nat.le_refl _
  | drew _ ih => omega
  | _ => assumption

end Event.Twins

/-! ### Tokens, states and goals -/

section
variable (R : Span → Span → Prop) (a b m : Nat)

def Token.Twins (t u : Token) : Prop :=
  t.lexeme = u.lexeme ∧ R t.span u.span

/-- The same item, in places that correspond. -/
inductive Item.Twins : Item → Item → Prop where
  | ok {t u : Token} (h : t.Twins R u) : Twins (.ok t) (.ok u)
  | error {cause : LexCause} {p q : Span} (h : R p q) : Twins (.error ⟨cause, p⟩) (.error ⟨cause, q⟩)

/-- The same error, in places that correspond. -/
inductive CompileError.Twins : CompileError → CompileError → Prop where
  | lexical {cause : LexCause} {p q : Span} (h : R p q) : Twins (.lexical ⟨cause, p⟩) (.lexical ⟨cause, q⟩)
  | unexpected (expected : Expected) {t u : Token} (h : t.Twins R u) :
      Twins (.unexpected expected t) (.unexpected expected u)
  | undefined (name : String) {p q : Span} (h : R p q) : Twins (.undefined name p) (.undefined name q)
  | endOfInput {p q : Span} (h : R p q) : Twins (.endOfInput p) (.endOfInput q)

/-- The same result, in places that correspond. -/
inductive ResultTwins : Except CompileError Unit → Except CompileError Unit → Prop where
  | ok : ResultTwins (.ok ()) (.ok ())
  | error {e f : CompileError} (h : e.Twins R f) : ResultTwins (.error e) (.error f)

/-- The same state, when `m` numbers are drawn in both runs. -/
inductive State.Twins : State → State → Prop where
  | mk (className : String) (classScope routineScope : Scope) :
      Twins ⟨className, classScope, routineScope, ⟨a + m⟩⟩ ⟨className, classScope, routineScope, ⟨b + m⟩⟩

/-- Tells whether a goal has neither a label nor a place in it. -/
def Goal.isPlain : Goal → Bool
  | emit (.wrote i) => i.mention?.isNone
  | emit (.drew _) | letRest .. | afterName .. | otherwise _ => false
  | _ => true

/-- The same goal, but for the number of a label, or in places that correspond. -/
inductive Goal.Twins : Goal → Goal → Prop where
  | same {g : Goal} (h : g.isPlain = true) : Twins g g
  | write {i j : Vm.Instruction} (h : i.Twins a b m j) : Twins (.write i) (.write j)
  | otherwise {x y : String} (h : Vm.Labels.Twins a b m x y) : Twins (.otherwise x) (.otherwise y)
  | letRest (name : String) {p q : Span} (h : R p q) : Twins (.letRest name p) (.letRest name q)
  | afterName (name : String) {p q : Span} (h : R p q) : Twins (.afterName name p) (.afterName name q)

/-- The same agenda, goal by goal. -/
abbrev Goal.AllTwins (goals goals' : List Goal) : Prop :=
  List.Forall₂ (Goal.Twins R a b m) goals goals'

/-- The same step, when `m` numbers are drawn in front of it. -/
inductive Step.Twins : Step → Step → Prop where
  | fail {e f : CompileError} (h : e.Twins R f) : Twins (.fail e) (.fail f)
  | done {n : Nat} {events events' : List Event} {s s' : State} (he : Event.Twins a b m events events' n)
      (hs : State.Twins a b n s s') : Twins (.done events s) (.done events' s')
  | take {n : Nat} {events events' : List Event} {goals goals' : List Goal} {s s' : State}
      (he : Event.Twins a b m events events' n) (hg : Goal.AllTwins R a b n goals goals')
      (hs : State.Twins a b n s s') : Twins (.take events goals s) (.take events' goals' s')

end

theorem CompileError.Twins.eq {e f : CompileError} (h : e.Twins Eq f) : e = f := by
  cases h with
  | lexical h => rw [h]
  | @unexpected expected t u h =>
    obtain ⟨hl, hp⟩ := h
    rw [show t = u from congr (congrArg Token.mk hl) hp]
  | undefined name h => rw [h]
  | endOfInput h => rw [h]

theorem ResultTwins.eq {x y : Except CompileError Unit} (h : ResultTwins Eq x y) : x = y := by
  cases h with
  | ok => rfl
  | error h => rw [h.eq]

namespace State.Twins
variable {a b m : Nat} {s s' : State}

theorem next (h : State.Twins a b m s s') : s.labels.next = a + m ∧ s'.labels.next = b + m := by
  cases h
  exact ⟨rfl, rfl⟩

theorem lookup? (h : State.Twins a b m s s') (x : String) : s'.lookup? x = s.lookup? x := by
  cases h
  rfl

theorem declare (h : State.Twins a b m s s') (name type : String) (kind : Kind) :
    State.Twins a b m (s.declare name type kind) (s'.declare name type kind) := by
  cases h
  cases kind <;> exact .mk ..

theorem declareReceiver (h : State.Twins a b m s s') (kind : RoutineKind) :
    State.Twins a b m (s.declareReceiver kind) (s'.declareReceiver kind) := by
  cases h
  cases kind <;> exact .mk ..

end State.Twins

namespace Goal
variable {R : Span → Span → Prop} {a b m n : Nat} {t u : Token} {s s' : State} {g g' : Goal}
  {goals goals' more more' : List Goal}

theorem Twins.mono (h : g.Twins R a b m g') (hmn : m ≤ n) : g.Twins R a b n g' := by
  cases h with
  | same h => exact .same h
  | write h => exact .write (h.mono hmn)
  | otherwise h => exact .otherwise (h.mono hmn)
  | letRest name h => exact .letRest name h
  | afterName name h => exact .afterName name h

namespace AllTwins

theorem append (h : AllTwins R a b m goals goals') (hm : AllTwins R a b m more more') :
    AllTwins R a b m (goals ++ more) (goals' ++ more') :=
  List.rel_append h hm

theorem mono (h : AllTwins R a b m goals goals') (hmn : m ≤ n) : AllTwins R a b n goals goals' :=
  h.imp fun _ _ hg => hg.mono hmn

theorem of_plain (h : ∀ g ∈ goals, g.isPlain = true) : AllTwins R a b m goals goals :=
  List.forall₂_same.mpr fun g hg => .same (h g hg)

end AllTwins

/-! ### One step -/

theorem fail_twins (expected : Expected) (ht : t.Twins R u) :
    Step.Twins R a b m (.fail (.unexpected expected t)) (.fail (.unexpected expected u)) :=
  .fail (.unexpected expected ht)

theorem take_twins (hs : State.Twins a b m s s') (hg : AllTwins R a b m goals goals') :
    Step.Twins R a b m (.take [] goals s) (.take [] goals' s') :=
  .take (.nil m) hg hs

theorem wantName_twins {k k' : String → Step} (ht : t.Twins R u)
    (hk : ∀ x, t.lexeme = .identifier x → Step.Twins R a b m (k x) (k' x)) :
    Step.Twins R a b m (wantName t k) (wantName u k') := by
  obtain ⟨l, p⟩ := t
  obtain ⟨l', q⟩ := u
  obtain rfl : l = l' := ht.1
  cases l with
  | identifier x => exact hk x rfl
  | _ => exact fail_twins _ ht

theorem wantType_twins {k k' : String → Step} (ht : t.Twins R u) (hk : ∀ x, Step.Twins R a b m (k x) (k' x)) :
    Step.Twins R a b m (wantType t k) (wantType u k') := by
  obtain ⟨l, p⟩ := t
  obtain ⟨l', q⟩ := u
  obtain rfl : l = l' := ht.1
  simp only [wantType]
  split
  iterate 4 exact hk _
  exact fail_twins _ ht

theorem wantVariable_twins {name : String} {p q : Span} {k k' : Variable → Step} (hs : State.Twins a b m s s')
    (hpq : R p q) (hk : ∀ v, Step.Twins R a b m (k v) (k' v)) :
    Step.Twins R a b m (wantVariable s name p k) (wantVariable s' name q k') := by
  rw [wantVariable, wantVariable, hs.lookup?]
  split
  · exact hk _
  · exact .fail (.undefined name hpq)

theorem memberStep_twins (ht : t.Twins R u) (hs : State.Twins a b m s s') :
    Step.Twins R a b m (memberStep t s) (memberStep u s') := by
  obtain ⟨l, p⟩ := t
  obtain ⟨l', q⟩ := u
  obtain rfl : l = l' := ht.1
  have hreset : State.Twins a b m { s with routineScope := {} } { s' with routineScope := {} } := by
    cases hs
    exact .mk ..
  simp only [memberStep]
  split
  · exact take_twins hs .nil
  · exact take_twins hs (.of_plain (by simp [isPlain]))
  · exact take_twins hs (.of_plain (by simp [isPlain]))
  · exact take_twins hreset (.of_plain (by simp [isPlain]))
  · exact take_twins hreset (.of_plain (by simp [isPlain]))
  · exact take_twins hreset (.of_plain (by simp [isPlain]))
  · exact fail_twins _ ht
  · exact fail_twins _ ht

theorem isPlain_expression : ∀ g ∈ expression, g.isPlain = true := by
  simp [expression, isPlain]

theorem isPlain_condition : ∀ g ∈ condition, g.isPlain = true := by
  simp [condition, expression, write, isPlain, Vm.Instruction.mention?]

theorem isPlain_block : ∀ g ∈ block, g.isPlain = true := by
  simp [block, isPlain]

theorem isPlain_element (v : Variable) : ∀ g ∈ element v, g.isPlain = true := by
  simp [element, expression, write, isPlain, Vm.Instruction.mention?, Vm.Instruction.pushVariable]

theorem statementStep_twins (void returned : Bool) (ht : t.Twins R u) (hs : State.Twins a b m s s') :
    Step.Twins R a b m (statementStep void returned t s) (statementStep void returned u s') := by
  obtain ⟨l, p⟩ := t
  obtain ⟨l', q⟩ := u
  obtain rfl : l = l' := ht.1
  have hdrawn : State.Twins a b (m + 2) { s with labels := s.labels.draw.2.draw.2 }
      { s' with labels := s'.labels.draw.2.draw.2 } := by
    cases hs
    exact .mk ..
  simp only [statementStep, hs.next.1, hs.next.2, Nat.add_assoc]
  split
  · split
    · exact .take (.of_code [.pushConstant 0, .return_] (by simp [Vm.Instruction.mention?,
        Vm.Instruction.pushConstant])) .nil hs
    · exact take_twins hs .nil
  · exact take_twins hs (.of_plain (by simp [isPlain]))
  · -- The two labels are the first numbers that were not drawn yet.
    have halt := Vm.Labels.twins_if (a := a) (b := b) (show m < m + 2 by omega)
    have hdone := Vm.Labels.twins_if (a := a) (b := b) (show m + 1 < m + 2 by omega)
    refine .take (.drew (.drew (.nil _))) ?_ hdrawn
    refine (((AllTwins.of_plain isPlain_condition).append ?_).append (.of_plain isPlain_block)).append ?_
    · exact .cons (.write (.ifGoto halt)) .nil
    · exact .cons (.write (.goto hdone)) (.cons (.write (.label halt)) (.cons (.otherwise hdone)
        (AllTwins.of_plain (by simp [isPlain]))))
  · have htop := Vm.Labels.twins_while (a := a) (b := b) (show m < m + 2 by omega)
    have hdone := Vm.Labels.twins_while (a := a) (b := b) (show m + 1 < m + 2 by omega)
    refine .take (.drew (.drew (.wrote (.label htop) (.nil _)))) ?_ hdrawn
    refine (((AllTwins.of_plain isPlain_condition).append ?_).append (.of_plain isPlain_block)).append ?_
    · exact .cons (.write (.ifGoto hdone)) .nil
    · exact .cons (.write (.goto htop)) (.cons (.write (.label hdone)) (AllTwins.of_plain (by simp [isPlain])))
  · exact take_twins hs (.of_plain (by simp [isPlain, write, Vm.Instruction.mention?]))
  · exact take_twins hs (.of_plain (by simp [isPlain]))
  · exact fail_twins _ ht

theorem letStep_twins (name : String) {p q : Span} (hpq : R p q) (ht : t.Twins R u)
    (hs : State.Twins a b m s s') : Step.Twins R a b m (letStep name p t s) (letStep name q u s') := by
  refine wantVariable_twins hs hpq fun v => ?_
  obtain ⟨l, p⟩ := t
  obtain ⟨l', q⟩ := u
  obtain rfl : l = l' := ht.1
  dsimp only
  split
  · refine take_twins hs ((((AllTwins.of_plain (isPlain_element v)).append ?_).append
      (.of_plain isPlain_expression)).append ?_)
    · exact .of_plain (by simp [isPlain])
    · exact .of_plain (by simp [isPlain, write, Vm.Instruction.mention?])
  · refine take_twins hs ((AllTwins.of_plain isPlain_expression).append ?_)
    exact .of_plain (by simp [isPlain, write, Vm.Instruction.mention?, Vm.Instruction.popVariable])
  · exact fail_twins _ ht

theorem mention?_ofString (text : String) : ∀ i ∈ Vm.Instruction.ofString text, i.mention? = none := by
  intro i hi
  simp only [Vm.Instruction.ofString, List.mem_cons, List.mem_flatMap, List.not_mem_nil, or_false] at hi
  rcases hi with rfl | rfl | ⟨c, -, rfl | rfl⟩ <;> rfl

theorem termStep_twins {next next' : List Goal} (hn : AllTwins R a b m next next') (ht : t.Twins R u)
    (hs : State.Twins a b m s s') : Step.Twins R a b m (termStep next t s) (termStep next' u s') := by
  obtain ⟨l, p⟩ := t
  obtain ⟨l', q⟩ := u
  obtain rfl : l = l' := ht.1
  have hcode (code : List Vm.Instruction) (h : ∀ i ∈ code, i.mention? = none) :
      Step.Twins R a b m (.take (code.map .wrote) next s) (.take (code.map .wrote) next' s') :=
    .take (.of_code code h) hn hs
  simp only [termStep]
  split
  · exact hcode [_] (by simp [Vm.Instruction.mention?, Vm.Instruction.pushConstant])
  · exact hcode _ (mention?_ofString _)
  · exact hcode [_, _] (by simp [Vm.Instruction.mention?, Vm.Instruction.pushConstant])
  · exact hcode [_] (by simp [Vm.Instruction.mention?, Vm.Instruction.pushConstant])
  · exact hcode [_] (by simp [Vm.Instruction.mention?, Vm.Instruction.pushConstant])
  · exact hcode [_] (by simp [Vm.Instruction.mention?])
  · exact take_twins hs (.cons (.afterName _ ht.2) hn)
  · exact take_twins hs ((AllTwins.of_plain isPlain_expression).append (.cons (.same rfl) hn))
  · split
    · rename_i op _
      have hop : (Vm.Instruction.ofUnaryOp op).mention? = none := by cases op <;> rfl
      exact take_twins hs (.cons (.same rfl) (.cons (.write (.same hop)) hn))
    · exact fail_twins _ ht
  · exact fail_twins _ ht

theorem nameStep_twins (name : String) {p q : Span} (hpq : R p q) (ht : t.Twins R u)
    (hs : State.Twins a b m s s') : Step.Twins R a b m (nameStep name p t s) (nameStep name q u s') := by
  have hclass : s'.className = s.className := by
    cases hs
    rfl
  obtain ⟨l, p⟩ := t
  obtain ⟨l', q⟩ := u
  obtain rfl : l = l' := ht.1
  simp only [nameStep, hclass]
  split
  · exact take_twins hs (.of_plain (by simp [isPlain]))
  · refine wantVariable_twins hs hpq fun v => take_twins hs ((AllTwins.of_plain (isPlain_element v)).append ?_)
    exact .of_plain (by simp [isPlain, write, Vm.Instruction.mention?])
  · exact .take (.of_code [.push .pointer 0] (by simp [Vm.Instruction.mention?]))
      (.of_plain (by simp [isPlain])) hs
  · exact wantVariable_twins hs hpq fun v => .done (.wrote (.same rfl) (.nil m)) hs

theorem calleeStep_twins (owner : String) (ht : t.Twins R u) (hs : State.Twins a b m s s') :
    Step.Twins R a b m (calleeStep owner t s) (calleeStep owner u s') := by
  refine wantName_twins ht fun name _ => ?_
  rw [hs.lookup?]
  split
  · exact take_twins hs (.of_plain (by simp [isPlain, write, Vm.Instruction.mention?, Vm.Instruction.pushVariable]))
  · exact take_twins hs (.of_plain (by simp [isPlain]))

theorem mention?_prologue (s : State) (kind : RoutineKind) (name : String) :
    ∀ i ∈ s.prologue kind name, i.mention? = none := by
  cases kind <;> simp [State.prologue, Vm.Instruction.mention?, Vm.Instruction.pushConstant]

/-- A goal without a label and a place does the same in both runs. -/
theorem step_twins_of_isPlain (h : g.isPlain = true) (ht : t.Twins R u) (hs : State.Twins a b m s s') :
    Step.Twins R a b m (g.step t s) (g.step u s') := by
  have hl := ht.1
  cases g with
  | keyword word =>
    simp only [step, hl]
    split
    · exact take_twins hs .nil
    · exact fail_twins _ ht
  | symbol x =>
    simp only [step, hl]
    split
    · exact take_twins hs .nil
    · exact fail_twins _ ht
  | emit event =>
    cases event with
    | enteredClass name => exact .done (.enteredClass name (.nil m)) hs
    | enteredRoutine kind className name => exact .done (.enteredRoutine kind className name (.nil m)) hs
    | drew number => cases h
    | wrote i => exact .done (.wrote (.same (Option.isNone_iff_eq_none.mp h)) (.nil m)) hs
  | className =>
    refine wantName_twins ht fun name _ => ?_
    cases hs
    exact take_twins (.mk ..) (.of_plain (by simp [isPlain]))
  | members => exact memberStep_twins ht hs
  | variableType kind =>
    simp only [step]
    exact wantType_twins ht fun _ => take_twins hs (.of_plain (by simp [isPlain]))
  | variableName kind type =>
    exact wantName_twins ht fun name _ => take_twins (hs.declare name type kind) (.of_plain (by simp [isPlain]))
  | moreVariables kind type =>
    simp only [step, hl]
    split
    · exact take_twins hs (.of_plain (by simp [isPlain]))
    · exact take_twins hs .nil
    · exact fail_twins _ ht
  | returnType kind =>
    simp only [step, hl]
    split
    · exact take_twins hs (.of_plain (by simp [isPlain]))
    · exact wantType_twins ht fun _ => take_twins hs (.of_plain (by simp [isPlain]))
  | routineName kind void =>
    refine wantName_twins ht fun name _ => ?_
    cases hs
    exact take_twins ((State.Twins.mk ..).declareReceiver kind) (.of_plain (by simp [isPlain]))
  | parameters =>
    simp only [step, hl]
    split
    · exact take_twins hs .nil
    · exact wantType_twins ht fun _ => take_twins hs (.of_plain (by simp [isPlain]))
  | parameter =>
    simp only [step]
    exact wantType_twins ht fun _ => take_twins hs (.of_plain (by simp [isPlain]))
  | parameterName type =>
    exact wantName_twins ht fun name _ => take_twins (hs.declare name type .argument) (.of_plain (by simp [isPlain]))
  | moreParameters =>
    simp only [step, hl]
    split
    · exact take_twins hs (.of_plain (by simp [isPlain]))
    · exact take_twins hs .nil
    · exact fail_twins _ ht
  | locals kind name =>
    have hprologue : s'.prologue kind name = s.prologue kind name := by
      cases hs
      rfl
    simp only [step, hl, hprologue]
    split
    · exact take_twins hs (.of_plain (by simp [isPlain]))
    · exact .done (.of_code _ (mention?_prologue s kind name)) hs
  | statements void returned => exact statementStep_twins void returned ht hs
  | letTarget => exact wantName_twins ht fun name _ => take_twins hs (.cons (.letRest name ht.2) .nil)
  | letRest name span => cases h
  | otherwise done => cases h
  | returnValue =>
    simp only [step, hl]
    split
    · exact .take (.of_code [.pushConstant 0, .return_] (by simp [Vm.Instruction.mention?,
        Vm.Instruction.pushConstant])) .nil hs
    · exact termStep_twins (.of_plain (by simp [isPlain, write, Vm.Instruction.mention?])) ht hs
  | term => exact termStep_twins .nil ht hs
  | operators =>
    have hsymbol : t.symbol? = u.symbol? := by simp only [Token.symbol?, hl]
    simp only [step, hsymbol]
    split
    · split
      · rename_i op _
        have hop : (Vm.Instruction.ofBinaryOp op).mention? = none := by cases op <;> rfl
        exact take_twins hs (.cons (.same rfl) (.cons (.write (.same hop)) (.cons (.same rfl) .nil)))
      · exact .done (.nil m) hs
    · exact fail_twins _ ht
  | afterName name span => cases h
  | callee owner => exact calleeStep_twins owner ht hs
  | openArguments f count =>
    simp only [step, hl]
    split
    · exact take_twins hs (.of_plain (by simp [isPlain]))
    · exact fail_twins _ ht
  | arguments f count =>
    simp only [step, hl]
    split
    · exact take_twins hs (.of_plain (by simp [isPlain, write, Vm.Instruction.mention?]))
    · exact termStep_twins (.of_plain (by simp [isPlain])) ht hs
  | moreArguments f count =>
    simp only [step, hl]
    split
    · exact take_twins hs (.of_plain (by simp [isPlain]))
    · exact take_twins hs (.of_plain (by simp [isPlain, write, Vm.Instruction.mention?]))
    · exact fail_twins _ ht

/-- A step keeps two runs together. -/
theorem step_twins (hg : g.Twins R a b m g') (ht : t.Twins R u) (hs : State.Twins a b m s s') :
    Step.Twins R a b m (g.step t s) (g'.step u s') := by
  cases hg with
  | same h => exact step_twins_of_isPlain h ht hs
  | write h => exact .done (.wrote h (.nil m)) hs
  | @otherwise x y h =>
    simp only [step, ht.1]
    split
    · exact take_twins hs ((AllTwins.of_plain isPlain_block).append (.cons (.write (.label h)) .nil))
    · exact .done (.wrote (.label h) (.nil m)) hs
  | letRest name h => exact letStep_twins name h ht hs
  | afterName name h => exact nameStep_twins name h ht hs

/-! ### Whole runs -/

/-- What settling a token comes to in two runs. -/
inductive SettleTwins (R : Span → Span → Prop) (a b m : Nat) :
    Except CompileError (List Goal × State) × Array Event →
      Except CompileError (List Goal × State) × Array Event → Prop where
  | error {n : Nat} {e f : CompileError} {events events' : Array Event} (h : e.Twins R f)
      (he : Event.Twins a b m events.toList events'.toList n) :
      SettleTwins R a b m (.error e, events) (.error f, events')
  | ok {n : Nat} {goals goals' : List Goal} {s s' : State} {events events' : Array Event}
      (he : Event.Twins a b m events.toList events'.toList n) (hg : AllTwins R a b n goals goals')
      (hs : State.Twins a b n s s') :
      SettleTwins R a b m (.ok (goals, s), events) (.ok (goals', s'), events')

theorem settle_twins (ha : AllTwins R a b m goals goals') (ht : t.Twins R u) (hs : State.Twins a b m s s') :
    SettleTwins R a b m (settle t #[] goals s) (settle u #[] goals' s') := by
  induction goals generalizing m goals' s s' with
  | nil =>
    cases ha
    exact .error (.unexpected _ ht) (.nil m)
  | cons g goals ih =>
    cases ha with
    | @cons _ g' _ goals' hg ha =>
      rw [settle_cons, settle_cons]
      have hstep := step_twins hg ht hs
      generalize g.step t s = x at hstep ⊢
      generalize g'.step u s' = x' at hstep ⊢
      cases hstep with
      | fail h => exact .error h (.nil m)
      | @done _ _ _ s₁ s₁' he hs =>
        have hrest := ih (AllTwins.mono ha he.le) hs
        dsimp only
        generalize settle t #[] goals s₁ = y at hrest ⊢
        generalize settle u #[] goals' s₁' = y' at hrest ⊢
        cases hrest with
        | error h hr => exact .error h (by simpa using he.append hr)
        | ok hr hg hs => exact .ok (by simpa using he.append hr) hg hs
      | take he hg hs => exact .ok (by simpa using he) (hg.append (AllTwins.mono ha he.le)) hs

/-- A second run gets as far as the first one. -/
theorem Reaches.twins {agenda agenda' agenda₁ : List Goal} {s s' s₁ : State} {ts ts' : List Token}
    {events : List Event} (h : Reaches agenda s ts events agenda₁ s₁)
    (ht : List.Forall₂ (Token.Twins R) ts ts') (ha : AllTwins R a b m agenda agenda')
    (hs : State.Twins a b m s s') :
    ∃ n events' agenda₁' s₁', Reaches agenda' s' ts' events' agenda₁' s₁' ∧ Event.Twins a b m events events' n ∧
      AllTwins R a b n agenda₁ agenda₁' ∧ State.Twins a b n s₁ s₁' := by
  induction h generalizing m agenda' s' ts' with
  | refl =>
    cases ht
    exact ⟨m, [], agenda', s', .refl .., .nil m, ha, hs⟩
  | step hsettle _ ih =>
    cases ht with
    | @cons t u ts ts' htu ht =>
      have htwins := settle_twins ha htu hs
      rw [hsettle] at htwins
      generalize hy : settle u #[] agenda' s' = y at htwins
      cases htwins with
      | ok he hg hs =>
        obtain ⟨n, events', agenda₁', s₁', hr, hmore, hagenda, hstate⟩ := ih ht hg hs
        exact ⟨n, _, agenda₁', s₁', .step hy hr, he.append hmore, hagenda, hstate⟩

/-- Two runs over the same items do the same. Both end for want of items, or with the same result. -/
theorem run_twins (finish finish' : Span) {items items' : List Item}
    (hi : List.Forall₂ (Item.Twins R) items items') (ha : AllTwins R a b m goals goals')
    (hs : State.Twins a b m s s') :
    (∃ n, Event.Twins a b m (run finish #[] items goals s).trace (run finish' #[] items' goals' s').trace n) ∧
      ((run finish #[] items goals s).result = .error (.endOfInput finish) ∧
          (run finish' #[] items' goals' s').result = .error (.endOfInput finish') ∨
        ResultTwins R (run finish #[] items goals s).result (run finish' #[] items' goals' s').result) := by
  induction hi generalizing m goals goals' s s' with
  | nil =>
    cases ha with
    | nil => exact ⟨⟨m, .nil m⟩, Or.inr .ok⟩
    | cons => exact ⟨⟨m, .nil m⟩, Or.inl ⟨rfl, rfl⟩⟩
  | @cons item item' items items' hitem _ ih =>
    cases hitem with
    | error h => exact ⟨⟨m, .nil m⟩, Or.inr (.error (.lexical h))⟩
    | @ok t u ht =>
      have hsettle := settle_twins ha ht hs
      simp only [run]
      generalize settle t #[] goals s = y at hsettle ⊢
      generalize settle u #[] goals' s' = y' at hsettle ⊢
      cases hsettle with
      | error h he => exact ⟨⟨_, he⟩, Or.inr (.error h)⟩
      | ok he hg hs =>
        obtain ⟨⟨n, hn⟩, hr⟩ := ih hg hs
        simp only
        rw [run_eq_append, run_eq_append finish']
        exact ⟨⟨n, he.append hn⟩, hr⟩

end Goal

/-- Two compilations of one source draw as many numbers, do the same and end with the same result. -/
theorem compile_twins (source : String) (a b : Nat) :
    (∃ n, Event.Twins a b 0 (compile source a).trace (compile source b).trace n) ∧
      (compile source a).result = (compile source b).result := by
  have hitems : List.Forall₂ (Item.Twins Eq) (Item.ofSource source) (Item.ofSource source) := by
    refine List.forall₂_same.mpr fun item _ => ?_
    cases item with
    | ok t => exact .ok ⟨rfl, rfl⟩
    | error e => exact .error rfl
  have hagenda : Goal.AllTwins Eq a b 0 Goal.ofClass Goal.ofClass :=
    .of_plain (by simp [Goal.ofClass, Goal.isPlain])
  obtain ⟨hn, hr⟩ := Goal.run_twins (.atEnd source) (.atEnd source) hitems hagenda (State.Twins.mk "" {} {})
  refine ⟨hn, ?_⟩
  rcases hr with ⟨hp, hq⟩ | hr
  · exact hp.trans hq.symm
  · exact hr.eq

end JackToVm
