import JackToVm.Proofs.Allocation
import JackToVm.Proofs.Isolation
import JackToVm.Proofs.Printing

/-!
How large constants are. The constants of a lexeme are bounded by the lexer, and all others that the pass pushes are 0
or 1, but for the size that a constructor asks for. This is what the counter of fields shows, which with the field
names that are still to come is never more than there are in the source (`Goal.counts_step`).
-/

namespace JackToVm

/-! ### Constants and field names of a source -/

namespace Lexeme

/-- The constants that are pushed for a lexeme. -/
def constants : Lexeme → List Nat
  | integer value => [value]
  | string text => text.length :: text.toList.map Char.toNat
  | _ => []

/-- The names up to the next semicolon. -/
def namesAhead : List Lexeme → List String
  | [] | .symbol .semicolon :: _ => []
  | .identifier x :: ls => x :: namesAhead ls
  | _ :: ls => namesAhead ls

/-- The names that are declared as fields. The word `field` and a type stand in front of them. -/
def fieldNames : List Lexeme → List String
  | [] => []
  | .keyword .field :: ls => namesAhead ls.tail ++ fieldNames ls
  | _ :: ls => fieldNames ls

theorem fieldNames_of_ne {l : Lexeme} (h : l ≠ .keyword .field) (ls : List Lexeme) :
    fieldNames (l :: ls) = fieldNames ls := by
  rw [fieldNames]
  exact h

theorem length_fieldNames_le (l : Lexeme) (ls : List Lexeme) :
    (fieldNames ls).length ≤ (fieldNames (l :: ls)).length := by
  by_cases hl : l = .keyword .field
  · rw [hl, fieldNames, List.length_append]
    omega
  · rw [fieldNames_of_ne hl]

theorem Written.constants_le {l : Lexeme} {text : List Char} (h : l.Written text) :
    ∀ n ∈ l.constants, n ≤ maxConstant := by
  cases h with
  | keyword | symbol | identifier => exact List.forall_mem_nil _
  | integer _ hvalue => exact List.forall_mem_singleton.mpr hvalue
  | @string text _ hcodes hlength =>
    rw [constants, String.toList_ofList, String.length_ofList]
    exact List.forall_mem_cons.mpr ⟨hlength, List.forall_mem_map.mpr hcodes⟩

end Lexeme

def Item.lexeme? : Item → Option Lexeme
  | .ok t => some t.lexeme
  | .error _ => none

/-- The lexemes of a source. What is none is passed over. -/
def lexemesOf (source : String) : List Lexeme :=
  (Item.ofSource source).filterMap Item.lexeme?

theorem Item.constants_le {source : String} {t : Token} (h : .ok t ∈ Item.ofSource source) :
    ∀ n ∈ t.lexeme.constants, n ≤ maxConstant := by
  obtain ⟨text, htext⟩ := exists_written_of_mem_ofSource h
  exact htext.constants_le

/-! ### What the pass has to count -/

/-- The constant that an event pushes. -/
def Event.constants : Event → List Nat
  | .wrote (.push .constant n) => [n]
  | _ => []

/-- A string pushes its length and the codes of its characters. -/
theorem Event.constants_ofString (text : String) :
    ((Vm.Instruction.ofString text).map Event.wrote).flatMap constants = (Lexeme.string text).constants := by
  have hcodes (cs : List Char) : ((cs.flatMap fun c => [Vm.Instruction.pushConstant c.toNat,
      .call "String.appendChar" 2]).map Event.wrote).flatMap constants = cs.map Char.toNat := by
    induction cs with
    | nil => rfl
    | cons c cs ih => exact congrArg (c.toNat :: ·) ih
  exact congrArg (text.length :: ·) (hcodes text.toList)

namespace Goal

def constants : Goal → List Nat
  | emit event => event.constants
  | _ => []

/-- The fields that a goal declares when these are the next lexemes. -/
def fieldsAhead (ls : List Lexeme) : Goal → List String
  | variableType .field => Lexeme.namesAhead ls.tail
  | variableName .field _ | moreVariables .field _ => Lexeme.namesAhead ls
  | _ => []

/-- Tells whether a goal neither pushes a constant by itself nor declares a field. -/
def isQuiet : Goal → Bool
  | variableType kind | variableName kind _ | moreVariables kind _ => kind ≠ .field
  | g => g.constants.isEmpty

theorem constants_of_isQuiet {g : Goal} (h : g.isQuiet = true) : g.constants = [] := by
  unfold isQuiet at h
  split at h
  · rfl
  · rfl
  · rfl
  · exact List.isEmpty_iff.mp h

theorem fieldsAhead_of_isQuiet {g : Goal} (h : g.isQuiet = true) (ls : List Lexeme) : g.fieldsAhead ls = [] := by
  unfold fieldsAhead
  split <;> first | rfl | cases h

/-- The fields of a class so far, and those that are still to come, are not more than `bound`. Only the first goal may
be in the midst of a declaration of fields. -/
def Counts (bound : Nat) (ls : List Lexeme) (s : State) : List Goal → Prop
  | [] => s.classScope.count .field + (Lexeme.fieldNames ls).length ≤ bound
  | g :: agenda => g.constants = [] ∧ agenda.all isQuiet = true ∧
      s.classScope.count .field + (g.fieldsAhead ls).length + (Lexeme.fieldNames ls).length ≤ bound

end Goal

/-- A step pushes no constant above `bound`, and keeps count. The token is one of those that are still to come, unless
it is used up. -/
def Step.Counts (bound : Nat) (t : Token) (ls : List Lexeme) : Step → Prop
  | .fail _ => True
  | .done events s => (∀ e ∈ events, ∀ n ∈ e.constants, n ≤ bound) ∧ Goal.Counts bound (t.lexeme :: ls) s []
  | .take events goals s => (∀ e ∈ events, ∀ n ∈ e.constants, n ≤ bound) ∧ Goal.Counts bound ls s goals

namespace Goal
variable {bound : Nat} {t : Token} {ls : List Lexeme} {s s' : State} {goals agenda : List Goal}

theorem Counts.append (h : Counts bound ls s goals) (ha : agenda.all isQuiet = true) :
    Counts bound ls s (goals ++ agenda) := by
  cases goals with
  | nil =>
    cases agenda with
    | nil => exact h
    | cons g agenda =>
      rw [List.all_cons, Bool.and_eq_true] at ha
      obtain ⟨hg, ha⟩ := ha
      refine ⟨constants_of_isQuiet hg, ha, ?_⟩
      rw [fieldsAhead_of_isQuiet hg, List.length_nil, Nat.add_zero]
      exact h
  | cons g goals =>
    obtain ⟨hg, hgoals, hle⟩ := h
    have hall : (goals ++ agenda).all isQuiet = true := by
      rw [List.all_append, hgoals, ha]
      rfl
    exact ⟨hg, hall, hle⟩

theorem Counts.tail {g : Goal} (h : Counts bound ls s (g :: agenda)) : Counts bound ls s agenda := by
  obtain ⟨-, ha, hle⟩ := h
  have hnil : Counts bound ls s [] := by
    rw [Counts]
    omega
  exact hnil.append ha

/-! ### One step -/

/-- A token that is used up by a goal that declares no field. -/
theorem counts_take {events : List Event} (h : Counts bound (t.lexeme :: ls) s [])
    (he : ∀ e ∈ events, ∀ n ∈ e.constants, n ≤ bound) (hgoals : goals.all isQuiet = true)
    (hs : s'.classScope.count .field = s.classScope.count .field) :
    (Step.take events goals s').Counts bound t ls := by
  have hnil : Counts bound ls s' [] := by
    have hle := Lexeme.length_fieldNames_le t.lexeme ls
    rw [Counts] at h ⊢
    omega
  exact ⟨he, hnil.append hgoals⟩

/-- A step that writes nothing. -/
theorem counts_move (h : Counts bound (t.lexeme :: ls) s []) (hgoals : goals.all isQuiet = true)
    (hs : s'.classScope.count .field = s.classScope.count .field) : (Step.take [] goals s').Counts bound t ls :=
  counts_take h (List.forall_mem_nil _) hgoals hs

theorem counts_done {events : List Event} (h : Counts bound (t.lexeme :: ls) s [])
    (he : ∀ e ∈ events, ∀ n ∈ e.constants, n ≤ bound) : (Step.done events s).Counts bound t ls :=
  ⟨he, h⟩

theorem counts_wantName {k : String → Step} (hk : ∀ x, t.lexeme = .identifier x → (k x).Counts bound t ls) :
    (wantName t k).Counts bound t ls := by
  obtain ⟨l, p⟩ := t
  cases l with
  | identifier x => exact hk x rfl
  | _ => trivial

theorem counts_wantType {k : String → Step} (hk : ∀ type, (k type).Counts bound t ls) :
    (wantType t k).Counts bound t ls := by
  unfold wantType
  split
  · exact hk _
  · exact hk _
  · exact hk _
  · exact hk _
  · trivial

theorem counts_wantVariable {x : String} {span : Span} {k : Variable → Step} (hk : ∀ v, (k v).Counts bound t ls) :
    (wantVariable s x span k).Counts bound t ls := by
  unfold wantVariable
  split
  · exact hk _
  · trivial

theorem isQuiet_pushVariable (v : Variable) : (write (.pushVariable v)).isQuiet = true := by
  obtain ⟨x, type, kind, index⟩ := v
  cases kind <;> rfl

theorem isQuiet_ofUnaryOp (op : UnaryOp) : (write (.ofUnaryOp op)).isQuiet = true := by
  cases op <;> rfl

theorem isQuiet_ofBinaryOp (op : BinaryOp) : (write (.ofBinaryOp op)).isQuiet = true := by
  cases op <;> rfl

theorem constants_pushVariable (v : Variable) : (Event.wrote (.pushVariable v)).constants = [] := by
  obtain ⟨x, type, kind, index⟩ := v
  cases kind <;> rfl

theorem counts_memberStep (h : Counts bound (t.lexeme :: ls) s []) : (memberStep t s).Counts bound t ls := by
  unfold memberStep
  split
  · exact counts_move h rfl rfl
  · exact counts_move h rfl rfl
  · rename_i hfield
    -- The names of this declaration are the next ones to come.
    rw [Counts, hfield, Lexeme.fieldNames, List.length_append, ← Nat.add_assoc] at h
    exact ⟨List.forall_mem_nil _, rfl, rfl, h⟩
  · exact counts_move h rfl rfl
  · exact counts_move h rfl rfl
  · exact counts_move h rfl rfl
  · trivial
  · trivial

theorem counts_statementStep (h : Counts bound (t.lexeme :: ls) s []) (void returned : Bool) :
    (statementStep void returned t s).Counts bound t ls := by
  unfold statementStep
  split
  · split
    · exact counts_take h (by simp [Event.constants, Vm.Instruction.pushConstant]) rfl rfl
    · exact counts_move h rfl rfl
  · exact counts_move h rfl rfl
  · exact counts_take h (by simp [Event.constants]) rfl rfl
  · exact counts_take h (by simp [Event.constants]) rfl rfl
  · exact counts_move h rfl rfl
  · exact counts_move h rfl rfl
  · trivial

theorem counts_letStep (h : Counts bound (t.lexeme :: ls) s []) (x : String) (span : Span) :
    (letStep x span t s).Counts bound t ls := by
  refine counts_wantVariable fun v => ?_
  have hread := isQuiet_pushVariable v
  split
  · refine counts_move h ?_ rfl
    rw [element, List.cons_append, List.cons_append, List.cons_append, List.cons_append, List.all_cons, hread]
    rfl
  · exact counts_move h rfl rfl
  · trivial

theorem counts_termStep {next : List Goal} (hbound : 1 ≤ bound) (ht : ∀ n ∈ t.lexeme.constants, n ≤ bound)
    (h : Counts bound (t.lexeme :: ls) s []) (hnext : next.all isQuiet = true) :
    (termStep next t s).Counts bound t ls := by
  unfold termStep
  split
  · rename_i value hl
    rw [hl] at ht
    exact counts_take h (List.forall_mem_singleton.mpr ht) hnext rfl
  · rename_i text hl
    rw [hl, ← Event.constants_ofString, List.forall_mem_flatMap] at ht
    exact counts_take h ht hnext rfl
  · exact counts_take h (by simpa [Event.constants, Vm.Instruction.pushConstant] using hbound) hnext rfl
  · exact counts_take h (by simp [Event.constants, Vm.Instruction.pushConstant]) hnext rfl
  · exact counts_take h (by simp [Event.constants, Vm.Instruction.pushConstant]) hnext rfl
  · exact counts_take h (by simp [Event.constants]) hnext rfl
  · exact counts_move h (by rw [List.all_cons, hnext]; rfl) rfl
  · exact counts_move h (by rw [List.all_append, List.all_cons, hnext]; rfl) rfl
  · split
    · rename_i op _
      have hop := isQuiet_ofUnaryOp op
      exact counts_move h (by rw [List.all_cons, List.all_cons, hop, hnext]; rfl) rfl
    · trivial
  · trivial

theorem counts_nameStep (h : Counts bound (t.lexeme :: ls) s []) (x : String) (span : Span) :
    (nameStep x span t s).Counts bound t ls := by
  unfold nameStep
  split
  · exact counts_move h rfl rfl
  · refine counts_wantVariable fun v => counts_move h ?_ rfl
    have hread := isQuiet_pushVariable v
    rw [element, List.cons_append, List.cons_append, List.all_cons, hread]
    rfl
  · exact counts_take h (by simp [Event.constants]) rfl rfl
  · refine counts_wantVariable fun v => counts_done h ?_
    rw [List.forall_mem_singleton, constants_pushVariable]
    exact List.forall_mem_nil _

theorem counts_calleeStep (h : Counts bound (t.lexeme :: ls) s []) (owner : String) :
    (calleeStep owner t s).Counts bound t ls := by
  refine counts_wantName fun f _ => ?_
  split
  · rename_i v _
    have hread := isQuiet_pushVariable v
    exact counts_move h (by rw [List.all_cons, hread]; rfl) rfl
  · exact counts_move h rfl rfl

/-- A constructor asks for the fields so far. -/
theorem constants_prologue (hs : s.classScope.count .field ≤ bound) (kind : RoutineKind) (name : String) :
    ∀ e ∈ (s.prologue kind name).map Event.wrote, ∀ n ∈ e.constants, n ≤ bound := by
  cases kind with
  | constructor_ => simpa [State.prologue, Event.constants, Vm.Instruction.pushConstant] using hs
  | method | function => simp [State.prologue, Event.constants]

/-- The step of a name in a declaration. A field that comes to the class is one less to come. -/
theorem counts_variableName {kind : Kind} {type x : String} (ht : t.lexeme = .identifier x)
    (h : Counts bound (t.lexeme :: ls) s [variableName kind type]) :
    Counts bound ls (s.declare x type kind) [moreVariables kind type] := by
  obtain ⟨-, -, hle⟩ := h
  refine ⟨rfl, rfl, ?_⟩
  rw [ht] at hle
  cases kind with
  | field =>
    have hcount : (s.declare x type .field).classScope.count .field = (s.classScope.count .field + 1) % 65536 := rfl
    have hahead : (fieldsAhead (.identifier x :: ls) (variableName .field type)).length =
        (fieldsAhead ls (moreVariables .field type)).length + 1 := rfl
    have hnames : Lexeme.fieldNames (.identifier x :: ls) = Lexeme.fieldNames ls := rfl
    rw [hahead, hnames] at hle
    have hwrapped := Nat.mod_le (s.classScope.count .field + 1) 65536
    rw [hcount]
    omega
  | _ => exact hle

/-- The pass keeps count in a step. -/
theorem counts_step {g : Goal} (hbound : 1 ≤ bound) (ht : ∀ n ∈ t.lexeme.constants, n ≤ bound)
    (hg : Counts bound (t.lexeme :: ls) s [g]) : (g.step t s).Counts bound t ls := by
  have h : Counts bound (t.lexeme :: ls) s [] := hg.tail
  cases g with
  | keyword word =>
    simp only [step]
    split
    · exact counts_move h rfl rfl
    · trivial
  | symbol x =>
    simp only [step]
    split
    · exact counts_move h rfl rfl
    · trivial
  | emit event =>
    have hevent : event.constants = [] := hg.1
    refine counts_done h ?_
    rw [List.forall_mem_singleton, hevent]
    exact List.forall_mem_nil _
  | className => exact counts_wantName fun x _ => counts_move h rfl rfl
  | members => exact counts_memberStep h
  | variableType kind =>
    rw [step]
    refine counts_wantType fun type => ⟨List.forall_mem_nil _, rfl, rfl, ?_⟩
    have hle := Lexeme.length_fieldNames_le t.lexeme ls
    obtain ⟨-, -, hcount⟩ := hg
    cases kind <;> exact (Nat.add_le_add_left hle _).trans hcount
  | variableName kind type =>
    exact counts_wantName fun x hx => ⟨List.forall_mem_nil _, counts_variableName hx hg⟩
  | moreVariables kind type =>
    simp only [step]
    split
    · rename_i hcomma
      obtain ⟨-, -, hcount⟩ := hg
      refine ⟨List.forall_mem_nil _, rfl, rfl, ?_⟩
      rw [hcomma] at hcount
      cases kind <;> exact hcount
    · exact counts_move h rfl rfl
    · trivial
  | returnType kind =>
    simp only [step]
    split
    · exact counts_move h rfl rfl
    · exact counts_wantType fun _ => counts_move h rfl rfl
  | routineName kind void =>
    refine counts_wantName fun x _ => counts_move h rfl ?_
    cases kind <;> rfl
  | parameters =>
    simp only [step]
    split
    · exact counts_move h rfl rfl
    · exact counts_wantType fun _ => counts_move h rfl rfl
  | parameter =>
    rw [step]
    exact counts_wantType fun _ => counts_move h rfl rfl
  | parameterName type => exact counts_wantName fun x _ => counts_move h rfl rfl
  | moreParameters =>
    simp only [step]
    split
    · exact counts_move h rfl rfl
    · exact counts_move h rfl rfl
    · trivial
  | locals kind x =>
    simp only [step]
    split
    · exact counts_move h rfl rfl
    · exact counts_done h (constants_prologue (Nat.le_of_add_right_le h) kind x)
  | statements void returned => exact counts_statementStep h void returned
  | letTarget => exact counts_wantName fun x _ => counts_move h rfl rfl
  | letRest x span => exact counts_letStep h x span
  | otherwise done =>
    simp only [step]
    split
    · exact counts_move h rfl rfl
    · exact counts_done h (by simp [Event.constants])
  | returnValue =>
    simp only [step]
    split
    · exact counts_take h (by simp [Event.constants, Vm.Instruction.pushConstant]) rfl rfl
    · exact counts_termStep hbound ht h rfl
  | term => exact counts_termStep hbound ht h rfl
  | operators =>
    simp only [step]
    split
    · split
      · rename_i op _
        have hop := isQuiet_ofBinaryOp op
        exact counts_move h (by rw [List.all_cons, List.all_cons, hop]; rfl) rfl
      · exact counts_done h (List.forall_mem_nil _)
    · trivial
  | afterName x span => exact counts_nameStep h x span
  | callee owner => exact counts_calleeStep h owner
  | openArguments f count =>
    simp only [step]
    split
    · exact counts_move h rfl rfl
    · trivial
  | arguments f count =>
    simp only [step]
    split
    · exact counts_move h rfl rfl
    · exact counts_termStep hbound ht h rfl
  | moreArguments f count =>
    simp only [step]
    split
    · exact counts_move h rfl rfl
    · exact counts_move h rfl rfl
    · trivial

/-! ### Whole runs -/

theorem counts_settle (hbound : 1 ≤ bound) (ht : ∀ n ∈ t.lexeme.constants, n ≤ bound)
    (h : Counts bound (t.lexeme :: ls) s agenda) :
    (∀ e ∈ (settle t #[] agenda s).2.toList, ∀ n ∈ e.constants, n ≤ bound) ∧
      ∀ next, (settle t #[] agenda s).1 = .ok next → Counts bound ls next.2 next.1 := by
  refine @forall_mem_settle t agenda s _ (fun agenda s => Counts bound (t.lexeme :: ls) s agenda)
    (fun agenda s => Counts bound ls s agenda) (fun g agenda s hcounts => ?_) h
  obtain ⟨hg, ha, hle⟩ := hcounts
  have hstep : (g.step t s).Counts bound t ls := counts_step hbound ht ⟨hg, rfl, hle⟩
  cases hs : g.step t s with
  | fail e => trivial
  | done events s₁ =>
    rw [hs] at hstep
    exact ⟨hstep.1, hstep.2.append ha⟩
  | take events goals s₁ =>
    rw [hs] at hstep
    exact ⟨hstep.1, hstep.2.append ha⟩

theorem counts_run {items : List Item} (finish : Span) (hbound : 1 ≤ bound)
    (hi : ∀ t, .ok t ∈ items → ∀ n ∈ t.lexeme.constants, n ≤ bound)
    (h : Counts bound (items.filterMap Item.lexeme?) s agenda) :
    ∀ e ∈ (run finish #[] items agenda s).trace, ∀ n ∈ e.constants, n ≤ bound := by
  refine @forall_mem_run agenda s _
    (fun items agenda s => (∀ t, .ok t ∈ items → ∀ n ∈ t.lexeme.constants, n ≤ bound) ∧
      Counts bound (items.filterMap Item.lexeme?) s agenda)
    finish (fun t items agenda s hbounded => ?_) items ⟨hi, h⟩
  obtain ⟨hi, h⟩ := hbounded
  obtain ⟨hevents, hnext⟩ := counts_settle hbound (hi t List.mem_cons_self) h
  exact ⟨hevents, fun next hok => ⟨fun u hu => hi u (List.mem_cons_of_mem _ hu), hnext next hok⟩⟩

end Goal

/-! ### Lines -/

/-- A line that pushes a constant is that of the instruction. -/
theorem Vm.Instruction.eq_push_of_text_eq {i : Instruction} {n : Nat} (h : i.text = "push constant " ++ toString n) :
    i = .push .constant n := by
  have hchars := congrArg String.toList h
  cases i with
  | push segment index =>
    cases segment with
    | constant =>
      have htext : "push constant " ++ toString index = "push constant " ++ toString n := h
      rw [Labels.toString_inj ((String.append_right_inj _).mp htext)]
    | _ => simp [text, Segment.text, toString] at hchars
  | compute command => cases command <;> simp [text, Command.text, toString] at hchars
  | _ => simp [text, toString] at hchars

/-- Constants can be loaded: whatever becomes of a source, no line of the output pushes a constant above the largest
one, as long as there are no more field names in the source than that. -/
theorem constants_of_compileTo (source : String) (limit? : Option Nat) (labels : Vm.Labels) (n : Nat)
    (h : "push constant " ++ toString n ∈ Vm.linesOf (compileTo source limit? labels).output) :
    n ≤ max maxConstant (Lexeme.fieldNames (lexemesOf source)).length := by
  obtain ⟨front, hfront, hlines, -⟩ := exists_lines_of_compileTo source limit? labels
  rw [hlines] at h
  obtain ⟨i, hi, htext⟩ := List.mem_map.mp h
  obtain ⟨event, hevent, hinstruction⟩ := List.mem_filterMap.mp hi
  rw [Vm.Instruction.eq_push_of_text_eq htext] at hinstruction
  -- The names of the whole source are those still to come when the pass starts.
  have hstart : Goal.Counts (max maxConstant (Lexeme.fieldNames (lexemesOf source)).length)
      ((Item.ofSource source).filterMap Item.lexeme?) { labels := { next := labels.next } } Goal.ofClass := by
    refine ⟨rfl, rfl, ?_⟩
    have hzero : ({ labels := { next := labels.next } } : State).classScope.count .field +
        (Goal.fieldsAhead (lexemesOf source) (.keyword .class_)).length = 0 := rfl
    rw [← lexemesOf, hzero, Nat.zero_add]
    exact Nat.le_max_right ..
  have hone : 1 ≤ max maxConstant (Lexeme.fieldNames (lexemesOf source)).length :=
    Nat.le_trans (by decide) (Nat.le_max_left ..)
  have hconstants := Goal.counts_run (.atEnd source) hone
    (fun t ht n hn => (Item.constants_le ht n hn).trans (Nat.le_max_left ..)) hstart event (hfront.subset hevent)
  cases event with
  | wrote j =>
    obtain rfl := Option.some.inj hinstruction
    exact hconstants n (List.mem_singleton.mpr rfl)
  | _ => cases hinstruction

/-- A class whose constructor breaks off behind the largest constant. -/
def stumpSource : String :=
  "class P { field int x, y; constructor P new() { let x = 32767; return ) } }"

theorem constants_of_compileTo_stump :
    (compile stumpSource 0).result.isOk = false ∧
      "push constant " ++ toString 32767 ∈ Vm.linesOf (compileTo stumpSource none { next := 0 }).output ∧
      32767 ≤ max maxConstant (Lexeme.fieldNames (lexemesOf stumpSource)).length := by
  have hrun : (compile stumpSource 0).result.isOk = false ∧
      "push constant " ++ toString 32767 ∈ (compile stumpSource 0).code.map Vm.Instruction.text := by
    decide +kernel
  obtain ⟨hresult, hmem⟩ := hrun
  have hline := (linesOf_compileTo_none stumpSource { next := 0 }).symm ▸ hmem
  exact ⟨hresult, hline, constants_of_compileTo stumpSource none { next := 0 } 32767 hline⟩

/-! ### Too many fields -/

namespace Syntax

theorem lexemes_moreNames (names : List String) :
    (moreNames names).lexemes = names.flatMap (fun x => [.symbol .comma, .identifier x]) ++ [.symbol .semicolon] := by
  rw [moreNames, Phrase.lexemes_append, Phrase.lexemes_symbol]
  congr 1
  induction names with
  | nil => rfl
  | cons x names ih =>
    rw [Phrase.join_cons, Phrase.lexemes_append, ih]
    rfl

/-- A class is written with blanks between its lexemes. -/
theorem Class.isText_printed {c : Class} (h : ∀ l ∈ c.lexemes, l.Printable) :
    c.IsText (printed (fun _ => " ") c.lexemes) := by
  have hread : Piece.readings (printed (fun _ => " ") c.lexemes).toList = c.lexemes.map .lexeme := by
    have hparts (l l' : Lexeme) : Parts l l' " " := .inl ⟨.blank rfl .nil, ' ', rfl, rfl⟩
    have hread := @readings_printed c.lexemes (fun _ => " ") "" h (fun _ l l' _ _ => hparts l l') (.inl rfl)
    rwa [String.toList_empty, List.append_nil] at hread
  refine Item.exists_tokens_of_reading ?_
  rw [Item.map_reading_ofSource, hread]

theorem Class.IsText.lexemesOf_eq {c : Class} {source : String} (h : c.IsText source) :
    lexemesOf source = c.lexemes := by
  obtain ⟨tokens, hi, hl⟩ := h
  have hmap : tokens.filterMap (fun t => Item.lexeme? (.ok t)) = tokens.map (·.lexeme) := by
    rw [← List.filterMap_eq_map]
    rfl
  rw [lexemesOf, hi, List.filterMap_map, hl]
  exact hmap

end Syntax

def wideConstructor : Syntax.Routine where
  kind := .constructor_
  result? := some (.named "A")
  name := "new"
  parameters := []
  locals := []
  body := .cons (.returnValue (.of (.constant .this) .none)) .nil

/-- A class with a field and some more, all of one name. -/
def wideClass (more : Nat) : Syntax.Class where
  name := "A"
  members := [.fields { type := .int, first := "x", more := List.replicate more "x" }, .routine wideConstructor]

def wideSource (more : Nat) : String :=
  printed (fun _ => " ") (wideClass more).lexemes

theorem lexemes_wideClass (more : Nat) :
    (wideClass more).lexemes =
      [.keyword .class_, .identifier "A", .symbol .leftBrace, .keyword .field, .keyword .int, .identifier "x"] ++
      ((List.replicate more "x").flatMap (fun x => [.symbol .comma, .identifier x]) ++
      [.symbol .semicolon, .keyword .constructor_, .identifier "A", .identifier "new", .symbol .leftParen,
        .symbol .rightParen, .symbol .leftBrace, .keyword .return_, .keyword .this, .symbol .semicolon,
        .symbol .rightBrace, .symbol .rightBrace]) := by
  simp [wideClass, Syntax.Class.lexemes, Syntax.Class.phrase, Syntax.Class.headPhrase, Syntax.Member.phrase,
    Syntax.Declaration.phrase, Syntax.lexemes_moreNames, Syntax.TypeName.lexeme, wideConstructor, Syntax.Routine.phrase,
    Syntax.Routine.headPhrase, Syntax.Routine.kindWord, Syntax.Routine.resultLexeme, Syntax.Parameter.listPhrase,
    Syntax.Routine.localsPhrase, Syntax.Block.phrase, Syntax.Statement.phrase, Syntax.Expression.phrase,
    Syntax.Term.phrase, Syntax.Operations.phrase, Syntax.Constant.word]

theorem isText_wideSource (more : Nat) : (wideClass more).IsText (wideSource more) := by
  refine Syntax.Class.isText_printed ?_
  rw [lexemes_wideClass, List.forall_mem_append, List.forall_mem_append, List.forall_mem_flatMap]
  refine ⟨by decide, fun x hx => ?_, by decide⟩
  rw [List.eq_of_mem_replicate hx]
  decide

theorem uses_wideClass (more : Nat) : (wideClass more).unbound.uses = [] := by
  refine (Syntax.Class.uses_eq_nil_iff 0).mpr fun u hu => ?_
  obtain rfl := List.mem_singleton.mp hu
  exact nofun

/-- The constructor asks for as many words as there are fields, as long as there are numbers for them. -/
theorem push_mem_wideSource {more : Nat} (h : more + 1 < 65536) :
    "push constant " ++ toString (more + 1) ∈ Vm.linesOf (compileTo (wideSource more) none { next := 0 }).output := by
  obtain ⟨-, hcode⟩ := compile_of_isText (isText_wideSource more) (uses_wideClass more) 0
  let fields : Syntax.Member := .fields { type := .int, first := "x", more := List.replicate more "x" }
  have hplaced : wideConstructor.behind .wrapped "A" [fields] {} 0 ∈ (wideClass more).placed .wrapped 0 :=
    Syntax.Class.mem_placed_behind rfl .wrapped 0
  have hcount : (wideConstructor.behind .wrapped "A" [fields] {} 0).environment.classScope.count .field = more + 1 := by
    rw [Syntax.Routine.count_field_behind, ← Counting.fit_of_lt .wrapped h]
    simp [fields, Syntax.fieldNames, Syntax.Member.fieldNames, Syntax.Declaration.names]
  have hpush : .pushConstant (more + 1) ∈ (wideConstructor.behind .wrapped "A" [fields] {} 0).code .wrapped := by
    rw [← hcount]
    exact List.mem_cons_of_mem _ List.mem_cons_self
  have hmem : .pushConstant (more + 1) ∈ (wideClass more).code .wrapped 0 :=
    List.mem_flatMap.mpr ⟨_, hplaced, hpush⟩
  rw [linesOf_compileTo_none, hcode]
  exact List.mem_map_of_mem hmem

theorem countP_wideSource (more : Nat) :
    (lexemesOf (wideSource more)).countP (·.lexemeClass = .identifier) = more + 4 := by
  have hmore : ((List.replicate more "x").flatMap fun x => [.symbol .comma, .identifier x]).countP
      (fun l : Lexeme => l.lexemeClass = .identifier) = more := by
    induction more with
    | zero => rfl
    | succ more ih =>
      rw [List.replicate_succ, List.flatMap_cons, List.countP_append, ih]
      exact Nat.add_comm 1 more
  rw [(isText_wideSource more).lexemesOf_eq, lexemes_wideClass, List.countP_append, List.countP_append, hmore]
  change 2 + (more + 2) = more + 4
  omega

/-- A constant may be too large: the size of an object with more fields than the largest constant, with fewer names in
the source than there are numbers for variables. -/
theorem not_forall_constants_le :
    ¬ ∀ (source : String) (limit? : Option Nat) (labels : Vm.Labels) (n : Nat),
      (lexemesOf source).countP (·.lexemeClass = .identifier) < 65536 →
      "push constant " ++ toString n ∈ Vm.linesOf (compileTo source limit? labels).output → n ≤ maxConstant := by
  intro h
  have hfew : (lexemesOf (wideSource 32767)).countP (·.lexemeClass = .identifier) < 65536 := by
    rw [countP_wideSource]
    decide
  have hle := h (wideSource 32767) none { next := 0 } 32768 hfew (push_mem_wideSource (by decide))
  exact absurd hle (by decide)

end JackToVm
