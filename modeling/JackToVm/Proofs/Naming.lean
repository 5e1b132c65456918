import JackToVm.Proofs.Lexing
import JackToVm.Proofs.Reach

/-!
Which characters lines are made of. The names in the instructions are put together from identifiers, from dots
and from the names of labels, and a step of the pass keeps it so (`Goal.isName_step`). So a line has no
characters but letters, digits and a few marks, and none of them ends the line.
-/

namespace JackToVm

/-! ### Names -/

namespace Vm

/-- Tells whether a character may stand in a name of the output. -/
def isNamePart (c : Char) : Bool :=
  isWordPart c || c = '.'

def IsName (x : String) : Prop :=
  ∀ c ∈ x.toList, isNamePart c = true

instance (x : String) : Decidable (IsName x) :=
  List.decidableBAll (isNamePart · = true) x.toList

namespace IsName
variable {x y : String}

theorem append (hx : IsName x) (hy : IsName y) : IsName (x ++ y) := by
  rw [IsName, String.toList_append, List.forall_mem_append]
  exact ⟨hx, hy⟩

theorem dot (hx : IsName x) (hy : IsName y) : IsName s!"{x}.{y}" :=
  (hx.append (by decide)).append hy

theorem of_isWordPart (h : ∀ c ∈ x.toList, isWordPart c = true) : IsName x := by
  intro c hc
  rw [isNamePart, h c hc, Bool.true_or]

theorem number (n : Nat) : IsName (toString n) := by
  refine of_isWordPart fun c hc => ?_
  have hc' : c ∈ Nat.toDigits 10 n := by rwa [← Nat.toList_repr]
  have hdigit := Nat.isDigit_of_mem_toDigits (by decide) (by decide) hc'
  simp only [Char.isDigit, Bool.and_eq_true, decide_eq_true_eq] at hdigit
  simp only [isWordPart, isDigit, Bool.or_eq_true, Bool.and_eq_true, decide_eq_true_eq]
  exact Or.inr hdigit

theorem labelName (n : Nat) : IsName (Labels.name n) :=
  append (x := "LABEL") (by decide) (number n)

theorem ifName (n : Nat) : IsName (Labels.ifName n) :=
  append (x := "IF") (by decide) (labelName n)

theorem whileName (n : Nat) : IsName (Labels.whileName n) :=
  append (x := "WHILE") (by decide) (labelName n)

end IsName

namespace Instruction

/-- The names in an instruction. -/
def names : Instruction → List String
  | .label x | .goto x | .ifGoto x | .call x _ | .function x _ => [x]
  | _ => []

theorem isName_ofBinaryOp (op : BinaryOp) : ∀ x ∈ (ofBinaryOp op).names, IsName x := by
  cases op <;> decide

theorem isName_ofUnaryOp (op : UnaryOp) : ∀ x ∈ (ofUnaryOp op).names, IsName x := by
  cases op <;> decide

theorem isName_ofString (text : String) : ∀ i ∈ ofString text, ∀ x ∈ i.names, IsName x := by
  intro i hi
  simp only [ofString, List.mem_cons, List.mem_flatMap, List.not_mem_nil, or_false] at hi
  rcases hi with rfl | rfl | ⟨c, -, rfl | rfl⟩
  · exact List.forall_mem_nil _
  · decide
  · exact List.forall_mem_nil _
  · decide

end Instruction

end Vm

/-! ### What the pass keeps names in -/

/-- The names that an event writes. -/
def Event.names : Event → List String
  | .wrote i => i.names
  | _ => []

/-- The names that a goal may write in a later step. -/
def Goal.names : Goal → List String
  | .emit event => event.names
  | .variableName _ type | .moreVariables _ type | .parameterName type => [type]
  | .locals _ name => [name]
  | .otherwise done => [done]
  | .afterName name _ => [name]
  | .callee owner => [owner]
  | .openArguments f _ | .arguments f _ | .moreArguments f _ => [f]
  | _ => []

/-- The name of the class and the types of the variables, which may be names of classes. -/
def State.names (s : State) : List String :=
  s.className :: (s.routineScope.declared ++ s.classScope.declared).map (·.type)

def Step.names : Step → List String
  | .fail _ => []
  | .done events s => events.flatMap Event.names ++ s.names
  | .take events goals s => events.flatMap Event.names ++ goals.flatMap Goal.names ++ s.names

open Vm (IsName)

/-- The names in the instructions of events. -/
theorem Event.isName_of_mem_filterMap {events : List Event} (h : ∀ e ∈ events, ∀ x ∈ e.names, IsName x) :
    ∀ i ∈ events.filterMap instruction?, ∀ x ∈ i.names, IsName x := by
  intro i hi
  obtain ⟨event, hevent, heq⟩ := List.mem_filterMap.mp hi
  have hnames := h event hevent
  cases event with
  | wrote j =>
    obtain rfl := Option.some.inj heq
    exact hnames
  | _ => cases heq

namespace State
variable {s : State}

theorem isName_declare {type : String} (hs : ∀ x ∈ s.names, IsName x) (ht : IsName type) (name : String)
    (kind : Kind) : ∀ x ∈ (s.declare name type kind).names, IsName x := by
  cases kind <;> simp_all [names, declare, Scope.define] <;> grind

theorem isName_declareReceiver (hs : ∀ x ∈ s.names, IsName x) (kind : RoutineKind) :
    ∀ x ∈ (s.declareReceiver kind).names, IsName x := by
  have hclass : IsName s.className := hs _ List.mem_cons_self
  cases kind with
  | function => exact hs
  | _ => exact isName_declare hs hclass _ _

theorem isName_type {x : String} {v : Variable} (hs : ∀ x ∈ s.names, IsName x) (hv : s.lookup? x = some v) :
    IsName v.type := by
  rw [lookup?, Option.orElse_eq_orElse, Option.orElse_eq_or, Option.or_eq_some_iff] at hv
  refine hs _ (List.mem_cons_of_mem _ (List.mem_map_of_mem (List.mem_append.mpr ?_)))
  exact hv.imp List.mem_of_find?_eq_some fun h => List.mem_of_find?_eq_some h.2

theorem isName_prologue {name : String} (hs : ∀ x ∈ s.names, IsName x) (hn : IsName name) (kind : RoutineKind) :
    ∀ i ∈ s.prologue kind name, ∀ x ∈ i.names, IsName x := by
  have hheader : IsName s!"{s.className}.{name}" := (hs _ List.mem_cons_self).dot hn
  have halloc : IsName "Memory.alloc" := by decide
  cases kind <;> simpa [prologue, Vm.Instruction.names, Vm.Instruction.pushConstant, halloc] using hheader

end State

/-! ### One step -/

namespace Step
variable {events : List Event} {goals : List Goal} {s : State}

theorem isName_done (he : ∀ e ∈ events, ∀ x ∈ e.names, IsName x) (hs : ∀ x ∈ s.names, IsName x) :
    ∀ x ∈ (done events s).names, IsName x := by
  rw [names, List.forall_mem_append, List.forall_mem_flatMap]
  exact ⟨he, hs⟩

theorem isName_take (he : ∀ e ∈ events, ∀ x ∈ e.names, IsName x) (hg : ∀ g ∈ goals, ∀ x ∈ g.names, IsName x)
    (hs : ∀ x ∈ s.names, IsName x) : ∀ x ∈ (take events goals s).names, IsName x := by
  rw [names, List.forall_mem_append, List.forall_mem_append, List.forall_mem_flatMap, List.forall_mem_flatMap]
  exact ⟨⟨he, hg⟩, hs⟩

end Step

namespace Goal
variable {t : Token} {s : State} {k : String → Step}

theorem isName_wantName (ht : ∀ x, t.lexeme = .identifier x → IsName x)
    (hk : ∀ name, IsName name → ∀ x ∈ (k name).names, IsName x) : ∀ x ∈ (wantName t k).names, IsName x := by
  obtain ⟨l, p⟩ := t
  cases l with
  | identifier name => exact hk name (ht name rfl)
  | _ => exact List.forall_mem_nil _

theorem isName_wantType (ht : ∀ x, t.lexeme = .identifier x → IsName x)
    (hk : ∀ type, IsName type → ∀ x ∈ (k type).names, IsName x) : ∀ x ∈ (wantType t k).names, IsName x := by
  unfold wantType
  split
  · exact hk _ (by decide)
  · exact hk _ (by decide)
  · exact hk _ (by decide)
  · exact hk _ (ht _ ‹_›)
  · exact List.forall_mem_nil _

theorem isName_wantVariable {name : String} {span : Span} {k : Variable → Step}
    (hk : ∀ v, ∀ x ∈ (k v).names, IsName x) : ∀ x ∈ (wantVariable s name span k).names, IsName x := by
  unfold wantVariable
  split
  · exact hk _
  · exact List.forall_mem_nil _

/-- A step that writes nothing. -/
theorem isName_take {goals : List Goal} (hs : ∀ x ∈ s.names, IsName x)
    (hg : ∀ g ∈ goals, ∀ x ∈ g.names, IsName x) : ∀ x ∈ (Step.take [] goals s).names, IsName x :=
  Step.isName_take (List.forall_mem_nil _) hg hs

theorem isName_memberStep (hs : ∀ x ∈ s.names, IsName x) : ∀ x ∈ (memberStep t s).names, IsName x := by
  have hreset : ∀ x ∈ ({ s with routineScope := {} } : State).names, IsName x := by
    simp_all [State.names]
  unfold memberStep
  split
  · exact isName_take hs (List.forall_mem_nil _)
  · exact isName_take hs (by simp [names])
  · exact isName_take hs (by simp [names])
  · exact isName_take hreset (by simp [names])
  · exact isName_take hreset (by simp [names])
  · exact isName_take hreset (by simp [names])
  · exact List.forall_mem_nil _
  · exact List.forall_mem_nil _

theorem isName_statementStep (hs : ∀ x ∈ s.names, IsName x) (void returned : Bool) :
    ∀ x ∈ (statementStep void returned t s).names, IsName x := by
  have hif := IsName.ifName
  have hwhile := IsName.whileName
  unfold statementStep
  split
  · split
    · exact Step.isName_take (by simp [Event.names, Vm.Instruction.names, Vm.Instruction.pushConstant])
        (List.forall_mem_nil _) hs
    · exact isName_take hs (List.forall_mem_nil _)
  · exact isName_take hs (by simp [names])
  · refine Step.isName_take (by simp [Event.names]) ?_ hs
    simp [names, condition, expression, block, write, Event.names, Vm.Instruction.names, hif]
  · refine Step.isName_take (by simp [Event.names, Vm.Instruction.names, hwhile]) ?_ hs
    simp [names, condition, expression, block, write, Event.names, Vm.Instruction.names, hwhile]
  · exact isName_take hs (by simp [names, write, Event.names, Vm.Instruction.names])
  · exact isName_take hs (by simp [names])
  · exact List.forall_mem_nil _

theorem isName_letStep (hs : ∀ x ∈ s.names, IsName x) (name : String) (span : Span) :
    ∀ x ∈ (letStep name span t s).names, IsName x := by
  refine isName_wantVariable fun v => ?_
  split
  · refine isName_take hs ?_
    simp [names, element, expression, write, Event.names, Vm.Instruction.names, Vm.Instruction.pushVariable]
  · refine isName_take hs ?_
    simp [names, expression, write, Event.names, Vm.Instruction.names, Vm.Instruction.popVariable]
  · exact List.forall_mem_nil _

theorem isName_termStep {next : List Goal} (ht : ∀ x, t.lexeme = .identifier x → IsName x)
    (hs : ∀ x ∈ s.names, IsName x) (hn : ∀ g ∈ next, ∀ x ∈ g.names, IsName x) :
    ∀ x ∈ (termStep next t s).names, IsName x := by
  have hcode (code : List Vm.Instruction) (h : ∀ i ∈ code, ∀ x ∈ i.names, IsName x) :
      ∀ x ∈ (Step.take (code.map .wrote) next s).names, IsName x :=
    Step.isName_take (List.forall_mem_map.mpr h) hn hs
  unfold termStep
  split
  · exact hcode [_] (by simp [Vm.Instruction.names, Vm.Instruction.pushConstant])
  · exact hcode _ (Vm.Instruction.isName_ofString _)
  · exact hcode [_, _] (by simp [Vm.Instruction.names, Vm.Instruction.pushConstant])
  · exact hcode [_] (by simp [Vm.Instruction.names, Vm.Instruction.pushConstant])
  · exact hcode [_] (by simp [Vm.Instruction.names, Vm.Instruction.pushConstant])
  · exact hcode [_] (by simp [Vm.Instruction.names])
  · rename_i name hl
    exact isName_take hs (List.forall_mem_cons.mpr ⟨by simpa [names] using ht name hl, hn⟩)
  · refine isName_take hs (List.forall_mem_append.mpr ⟨by simp [expression, names], ?_⟩)
    exact List.forall_mem_cons.mpr ⟨List.forall_mem_nil _, hn⟩
  · split
    · rename_i op _
      refine isName_take hs (List.forall_mem_cons.mpr ⟨List.forall_mem_nil _, List.forall_mem_cons.mpr ⟨?_, hn⟩⟩)
      exact Vm.Instruction.isName_ofUnaryOp op
    · exact List.forall_mem_nil _
  · exact List.forall_mem_nil _

theorem isName_nameStep {name : String} (hn : IsName name) (hs : ∀ x ∈ s.names, IsName x) (span : Span) :
    ∀ x ∈ (nameStep name span t s).names, IsName x := by
  have hclass : IsName s.className := hs _ List.mem_cons_self
  unfold nameStep
  split
  · exact isName_take hs (by simpa [names] using hn)
  · refine isName_wantVariable fun v => isName_take hs ?_
    simp [names, element, expression, write, Event.names, Vm.Instruction.names, Vm.Instruction.pushVariable]
  · refine Step.isName_take (by simp [Event.names, Vm.Instruction.names]) ?_ hs
    simpa [names] using hclass.dot hn
  · refine isName_wantVariable fun v => Step.isName_done ?_ hs
    simp [Event.names, Vm.Instruction.names, Vm.Instruction.pushVariable]

theorem isName_calleeStep {owner : String} (ho : IsName owner) (ht : ∀ x, t.lexeme = .identifier x → IsName x)
    (hs : ∀ x ∈ s.names, IsName x) : ∀ x ∈ (calleeStep owner t s).names, IsName x := by
  refine isName_wantName ht fun f hf => ?_
  split
  · rename_i v hv
    have htype : IsName s!"{v.type}.{f}" := (State.isName_type hs hv).dot hf
    refine isName_take hs ?_
    simpa [names, write, Event.names, Vm.Instruction.names, Vm.Instruction.pushVariable] using htype
  · exact isName_take hs (by simpa [names] using ho.dot hf)

/-- Names stay names in a step. -/
theorem isName_step {g : Goal} (ht : ∀ x, t.lexeme = .identifier x → IsName x) (hs : ∀ x ∈ s.names, IsName x)
    (hg : ∀ x ∈ g.names, IsName x) : ∀ x ∈ (g.step t s).names, IsName x := by
  cases g with
  | keyword word =>
    simp only [step]
    split
    · exact isName_take hs (List.forall_mem_nil _)
    · exact List.forall_mem_nil _
  | symbol x =>
    simp only [step]
    split
    · exact isName_take hs (List.forall_mem_nil _)
    · exact List.forall_mem_nil _
  | emit event => exact Step.isName_done (List.forall_mem_singleton.mpr hg) hs
  | className =>
    refine isName_wantName ht fun name hn => isName_take ?_ (by simp [names, Event.names])
    simp_all [State.names]
  | members => exact isName_memberStep hs
  | variableType kind =>
    simp only [step]
    exact isName_wantType ht fun type htype => isName_take hs (by simpa [names] using htype)
  | variableName kind type =>
    have htype : IsName type := by simpa [names] using hg
    exact isName_wantName ht fun name _ =>
      isName_take (State.isName_declare hs htype name kind) (by simpa [names] using htype)
  | moreVariables kind type =>
    simp only [step]
    split
    · exact isName_take hs (by simpa [names] using hg)
    · exact isName_take hs (List.forall_mem_nil _)
    · exact List.forall_mem_nil _
  | returnType kind =>
    simp only [step]
    split
    · exact isName_take hs (by simp [names])
    · exact isName_wantType ht fun _ _ => isName_take hs (by simp [names])
  | routineName kind void =>
    refine isName_wantName ht fun name hn => isName_take (State.isName_declareReceiver hs kind) ?_
    simpa [names, Event.names] using hn
  | parameters =>
    simp only [step]
    split
    · exact isName_take hs (List.forall_mem_nil _)
    · exact isName_wantType ht fun type htype => isName_take hs (by simpa [names] using htype)
  | parameter =>
    simp only [step]
    exact isName_wantType ht fun type htype => isName_take hs (by simpa [names] using htype)
  | parameterName type =>
    have htype : IsName type := by simpa [names] using hg
    exact isName_wantName ht fun name _ =>
      isName_take (State.isName_declare hs htype name .argument) (by simp [names])
  | moreParameters =>
    simp only [step]
    split
    · exact isName_take hs (by simp [names])
    · exact isName_take hs (List.forall_mem_nil _)
    · exact List.forall_mem_nil _
  | locals kind name =>
    have hn : IsName name := by simpa [names] using hg
    simp only [step]
    split
    · exact isName_take hs (by simpa [names] using hn)
    · exact Step.isName_done (List.forall_mem_map.mpr (State.isName_prologue hs hn kind)) hs
  | statements void returned => exact isName_statementStep hs void returned
  | letTarget => exact isName_wantName ht fun _ _ => isName_take hs (by simp [names])
  | letRest name span => exact isName_letStep hs name span
  | otherwise done =>
    simp only [step]
    split
    · refine isName_take hs ?_
      simpa [names, block, write, Event.names, Vm.Instruction.names] using hg
    · exact Step.isName_done (List.forall_mem_singleton.mpr hg) hs
  | returnValue =>
    simp only [step]
    split
    · exact Step.isName_take (by simp [Event.names, Vm.Instruction.names, Vm.Instruction.pushConstant])
        (List.forall_mem_nil _) hs
    · exact isName_termStep ht hs (by simp [names, write, Event.names, Vm.Instruction.names])
  | term => exact isName_termStep ht hs (List.forall_mem_nil _)
  | operators =>
    simp only [step]
    split
    · split
      · rename_i op _
        have hop := Vm.Instruction.isName_ofBinaryOp op
        exact isName_take hs (by simpa [names, write, Event.names] using hop)
      · exact Step.isName_done (List.forall_mem_nil _) hs
    · exact List.forall_mem_nil _
  | afterName name span => exact isName_nameStep (by simpa [names] using hg) hs span
  | callee owner => exact isName_calleeStep (by simpa [names] using hg) ht hs
  | openArguments f count =>
    simp only [step]
    split
    · exact isName_take hs (by simpa [names] using hg)
    · exact List.forall_mem_nil _
  | arguments f count =>
    simp only [step]
    split
    · exact isName_take hs (by simpa [names, write, Event.names, Vm.Instruction.names] using hg)
    · exact isName_termStep ht hs (by simpa [names] using hg)
  | moreArguments f count =>
    simp only [step]
    split
    · exact isName_take hs (by simpa [names] using hg)
    · exact isName_take hs (by simpa [names, write, Event.names, Vm.Instruction.names] using hg)
    · exact List.forall_mem_nil _

/-! ### Whole runs -/

/-- All that may be written for an agenda in a state are names. -/
def Named (agenda : List Goal) (s : State) : Prop :=
  (∀ g ∈ agenda, ∀ x ∈ g.names, IsName x) ∧ ∀ x ∈ s.names, IsName x

theorem isName_settle {agenda : List Goal} (ht : ∀ x, t.lexeme = .identifier x → IsName x)
    (h : Named agenda s) :
    (∀ e ∈ (settle t #[] agenda s).2.toList, ∀ x ∈ e.names, IsName x) ∧
      ∀ next, (settle t #[] agenda s).1 = .ok next → Named next.1 next.2 := by
  refine @forall_mem_settle t agenda s _ Named Named (fun g agenda s hnamed => ?_) h
  obtain ⟨hagenda, hs⟩ := hnamed
  rw [List.forall_mem_cons] at hagenda
  have hstep := isName_step ht hs hagenda.1
  cases hg : g.step t s with
  | fail e => trivial
  | done events s₁ =>
    rw [hg, Step.names, List.forall_mem_append, List.forall_mem_flatMap] at hstep
    exact ⟨hstep.1, hagenda.2, hstep.2⟩
  | take events goals s₁ =>
    rw [hg, Step.names, List.forall_mem_append, List.forall_mem_append, List.forall_mem_flatMap,
      List.forall_mem_flatMap] at hstep
    exact ⟨hstep.1.1, List.forall_mem_append.mpr ⟨hstep.1.2, hagenda.2⟩, hstep.2⟩

theorem isName_run {agenda : List Goal} {items : List Item} (finish : Span)
    (hi : ∀ t, .ok t ∈ items → ∀ x, t.lexeme = .identifier x → IsName x) (h : Named agenda s) :
    ∀ e ∈ (run finish #[] items agenda s).trace, ∀ x ∈ e.names, IsName x := by
  refine @forall_mem_run agenda s _
    (fun items agenda s => (∀ t, .ok t ∈ items → ∀ x, t.lexeme = .identifier x → IsName x) ∧ Named agenda s)
    finish (fun t items agenda s hnamed => ?_) items ⟨hi, h⟩
  obtain ⟨hi, h⟩ := hnamed
  obtain ⟨hevents, hnext⟩ := isName_settle (hi t List.mem_cons_self) h
  exact ⟨hevents, fun next hok => ⟨fun u hu => hi u (List.mem_cons_of_mem _ hu), hnext next hok⟩⟩

end Goal

/-- Whatever the source is, the names that are written are made of letters, digits, `_` and dots. -/
theorem isName_of_mem_trace (source : String) (start : Nat) :
    ∀ e ∈ (compile source start).trace, ∀ x ∈ e.names, IsName x := by
  have hempty : IsName "" := by decide
  refine Goal.isName_run _ ?_ ⟨by simp [Goal.ofClass, Goal.names], by simpa [State.names] using hempty⟩
  intro t ht x hx
  exact .of_isWordPart (Item.isWordPart_of_mem_ofSource ht hx)

end JackToVm
