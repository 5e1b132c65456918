import JackToVm.Proofs.Sound
import JackToVm.Proofs.Unambiguous

/-!
What stands behind a goal. Some goals have no end of their own, and some are done only when they see the
next token; for these the first lexeme of the goals behind them must be one that cannot be theirs
(`Goal.follow?`). The agenda of a class has this property, and no step of the pass loses it
(`Separated.take`, `Separated.tail`).
-/

namespace JackToVm
namespace Goal
open Syntax Lexeme

/-- The lexemes that may stand behind what a goal takes, when the goal depends on them. -/
def follow? : Goal → Option (Lexeme → Bool)
  | emit _ => some fun _ => true
  | locals .. | otherwise _ => some inBlock
  | term | afterName .. | callee _ | openArguments .. | arguments .. | moreArguments .. => some endsTerm
  | operators => some closes
  | _ => none

/-- Whatever meets an agenda starts with a lexeme of a sort. -/
def Heads (p : Lexeme → Bool) (agenda : List Goal) : Prop :=
  ∀ ⦃s y s'⦄, MeetsAll agenda s y s' → Starts p y.phrase.lexemes

/-- Behind each goal of an agenda stands what may stand there. -/
def Separated : List Goal → Prop
  | [] => True
  | g :: agenda => (∀ p, g.follow? = some p → Heads p agenda) ∧ Separated agenda

theorem Separated.tail {g : Goal} {agenda : List Goal} (h : Separated (g :: agenda)) : Separated agenda := h.2

/-! ### How agendas start -/

section
variable {p q : Lexeme → Bool} {agenda : List Goal}

theorem Heads.mono (h : Heads p agenda) (hpq : ∀ l, p l → q l) : Heads q agenda :=
  fun _ _ _ hm => (h hm).mono hpq

theorem Heads.some (h : Heads p agenda) : Heads (fun _ => true) agenda :=
  h.mono fun _ _ => rfl

/-- A goal whose own lexemes start in a way makes an agenda start in that way. -/
theorem heads_cons {g : Goal} (h : ∀ {s y s'}, g.Meets s y s' → Starts p y.phrase.lexemes) :
    Heads p (g :: agenda) := by
  rintro s y s' ⟨y₁, s₁, y₂, hg, -, rfl⟩
  exact (h hg).append

theorem heads_symbol {x : Symbol} (h : p (.symbol x) = true) : Heads p (symbol x :: agenda) := by
  refine heads_cons ?_
  rintro s y s' ⟨rfl, -⟩
  exact starts_cons.mpr h

theorem heads_emit {event : Event} (h : Heads p agenda) : Heads p (emit event :: agenda) := by
  intro s y s' hm
  obtain ⟨z, hz, rfl⟩ := meetsAll_emit.mp hm
  simpa using h hz

theorem heads_term : Heads (fun l => !l.closes) (term :: agenda) := by
  refine heads_cons ?_
  rintro s y s' ⟨a, rfl, -⟩
  exact a.starts

theorem heads_operators (h : Heads closes agenda) : Heads endsTerm (operators :: agenda) := by
  intro s y s' hm
  obtain ⟨ops, z, hz, rfl⟩ := meetsAll_operators.mp hm
  simpa using Operations.starts (h hz)

theorem heads_statements {void returned : Bool} : Heads inBlock (statements void returned :: agenda) := by
  refine heads_cons ?_
  rintro s y s' ⟨b, rfl, -⟩
  simpa using b.starts []

theorem heads_otherwise {done : String} (h : Heads (fun _ => true) agenda) :
    Heads (fun _ => true) (otherwise done :: agenda) := by
  rintro s y s' ⟨_, s₁, z, ⟨rfl, rfl⟩ | ⟨b, rfl, rfl⟩, hz, rfl⟩
  · simpa using h hz
  · simp [starts_cons]

theorem heads_openArguments {f : String} {count : UInt16} :
    Heads (fun _ => true) (openArguments f count :: agenda) := by
  refine heads_cons ?_
  rintro s y s' ⟨as, rfl, -⟩
  simp [starts_cons]

theorem heads_moreArguments {f : String} {count : UInt16} : Heads closes (moreArguments f count :: agenda) := by
  refine heads_cons ?_
  rintro s y s' ⟨as, rfl, -⟩
  simpa using as.tail_starts []

/-- What may stand behind an expression may stand behind its operators, and they behind its first term. -/
theorem separated_expression (h : Heads closes agenda) (hs : Separated agenda) :
    Separated (expression ++ agenda) := by
  refine ⟨?_, ?_, hs⟩
  · rintro p ⟨⟩
    exact heads_operators h
  · rintro p ⟨⟩
    exact h

theorem separated_symbol {x : Symbol} (hs : Separated agenda) : Separated (symbol x :: agenda) :=
  ⟨by simp [follow?], hs⟩

theorem separated_emit {event : Event} (h : Heads (fun _ => true) agenda) (hs : Separated agenda) :
    Separated (emit event :: agenda) := by
  refine ⟨?_, hs⟩
  rintro p ⟨⟩
  exact h

theorem separated_statements {void returned : Bool} (hs : Separated agenda) :
    Separated (statements void returned :: agenda) :=
  ⟨by simp [follow?], hs⟩

theorem separated_condition (hs : Separated (write (.compute .not) :: agenda)) :
    Separated (condition ++ agenda) :=
  separated_symbol (separated_expression (heads_symbol rfl) (separated_symbol hs))

theorem separated_block (hs : Separated agenda) : Separated (block ++ agenda) :=
  separated_symbol (separated_statements hs)

theorem separated_element {v : Variable} (hs : Separated (write (.compute .add) :: agenda)) :
    Separated (element v ++ agenda) :=
  separated_emit heads_term.some (separated_expression (heads_symbol rfl) (separated_symbol hs))

end

/-! ### Steps keep agendas separated -/

section
variable {t : Token} {s s₁ : State} {events : List Event} {goals agenda : List Goal}

/-- The goals that a term is replaced by may stand in front of what may stand behind the term. -/
theorem separated_termStep {next : List Goal} (h : termStep next t s = .take events goals s₁)
    (hn : Heads endsTerm (next ++ agenda)) (hs : Separated (next ++ agenda)) : Separated (goals ++ agenda) := by
  unfold termStep at h
  split at h <;> try (cases h; exact hs)
  · cases h
    refine ⟨?_, hs⟩
    rintro p ⟨⟩
    exact hn
  · cases h
    simp only [List.append_assoc, List.cons_append]
    exact separated_expression (heads_symbol rfl) (separated_symbol hs)
  · split at h <;> cases h
    refine ⟨?_, separated_emit hn.some hs⟩
    rintro p ⟨⟩
    exact heads_emit hn
  · cases h

theorem separated_statementStep {void returned : Bool}
    (h : statementStep void returned t s = .take events goals s₁) (hs : Separated agenda) :
    Separated (goals ++ agenda) := by
  have hst : Separated (statements void false :: agenda) := separated_statements hs
  unfold statementStep at h
  split at h
  · split at h <;> cases h <;> exact hs
  · cases h
    exact ⟨by simp [follow?], hst⟩
  · cases h
    simp only [List.append_assoc, List.cons_append, List.nil_append]
    refine separated_condition (separated_emit (heads_emit (heads_symbol rfl)) (separated_emit (heads_symbol rfl)
      (separated_block ?_)))
    refine separated_emit (heads_emit (heads_otherwise heads_statements.some))
      (separated_emit (heads_otherwise heads_statements.some) ⟨?_, hst⟩)
    rintro p ⟨⟩
    exact heads_statements
  · cases h
    simp only [List.append_assoc, List.cons_append, List.nil_append]
    exact separated_condition (separated_emit (heads_emit (heads_symbol rfl)) (separated_emit (heads_symbol rfl)
      (separated_block (separated_emit (heads_emit heads_statements.some) (separated_emit heads_statements.some hst)))))
  · cases h
    refine ⟨?_, separated_symbol (separated_emit heads_statements.some hst)⟩
    rintro p ⟨⟩
    exact heads_symbol rfl
  · cases h
    exact ⟨by simp [follow?], hst⟩
  · cases h

theorem separated_letStep {x : String} {span : Span} (h : letStep x span t s = .take events goals s₁)
    (hs : Separated agenda) : Separated (goals ++ agenda) := by
  obtain ⟨v, -, hk⟩ := wantVariable_take h
  have hend : Separated (symbol .semicolon :: agenda) := separated_symbol hs
  split at hk <;> cases hk
  · simp only [List.append_assoc, List.cons_append, List.nil_append]
    refine separated_element (separated_emit (heads_symbol rfl) (separated_symbol
      (separated_expression (heads_emit (heads_emit (heads_emit (heads_emit (heads_symbol rfl))))) ?_)))
    exact separated_emit (heads_emit (heads_emit (heads_emit (heads_symbol rfl))))
      (separated_emit (heads_emit (heads_emit (heads_symbol rfl)))
        (separated_emit (heads_emit (heads_symbol rfl)) (separated_emit (heads_symbol rfl) hend)))
  · simp only [List.append_assoc, List.cons_append, List.nil_append]
    exact separated_expression (heads_emit (heads_symbol rfl)) (separated_emit (heads_symbol rfl) hend)

theorem separated_nameStep {x : String} {span : Span} (h : nameStep x span t s = .take events goals s₁)
    (hh : Heads endsTerm agenda) (hs : Separated agenda) : Separated (goals ++ agenda) := by
  unfold nameStep at h
  split at h
  · cases h
    exact ⟨by rintro p ⟨⟩; exact hh, hs⟩
  · obtain ⟨v, -, hk⟩ := wantVariable_take h
    cases hk
    simp only [List.append_assoc, List.cons_append, List.nil_append]
    exact separated_element (separated_emit (heads_emit (heads_emit hh.some))
      (separated_emit (heads_emit hh.some) (separated_emit hh.some hs)))
  · cases h
    exact ⟨by rintro p ⟨⟩; exact hh, hs⟩
  · obtain ⟨v, -, hk⟩ := wantVariable_take h
    cases hk

/-- A step puts goals in the place of a goal that may stand in front of what stood behind it. -/
theorem Separated.take {g : Goal} (hs : Separated (g :: agenda)) (h : g.step t s = .take events goals s₁) :
    Separated (goals ++ agenda) := by
  obtain ⟨hf, ha⟩ := hs
  -- A goal that does not depend on what stands behind it may stand anywhere.
  have free : ∀ {g' : Goal} {rest : List Goal}, g'.follow? = none → Separated rest → Separated (g' :: rest) :=
    fun hg hr => ⟨by simp [hg], hr⟩
  cases g with
  | emit event => cases h
  | className =>
    obtain ⟨name, -, hk⟩ := wantName_take h
    cases hk
    exact separated_emit (heads_symbol rfl) (separated_symbol (free rfl ha))
  | members =>
    simp only [step, memberStep] at h
    split at h <;> cases h
    · exact ha
    all_goals exact free rfl (free rfl ha)
  | variableName | parameterName | letTarget =>
    obtain ⟨x, -, hk⟩ := wantName_take h
    cases hk
    exact free rfl ha
  | variableType | parameter =>
    simp only [step] at h
    obtain ⟨type, -, hk⟩ := wantType_take h
    cases hk
    exact free rfl ha
  | returnType | parameters =>
    simp only [step] at h
    split at h
    · cases h
      first | exact ha | exact free rfl ha
    · obtain ⟨type, -, hk⟩ := wantType_take h
      cases hk
      exact free rfl ha
  | routineName =>
    obtain ⟨name, -, hk⟩ := wantName_take h
    cases hk
    refine separated_emit (heads_symbol rfl) (separated_symbol (free rfl (separated_symbol ⟨?_, free rfl ha⟩)))
    rintro p ⟨⟩
    exact heads_statements
  | locals =>
    simp only [step] at h
    split at h <;> cases h
    exact free rfl ⟨hf, ha⟩
  | statements => exact separated_statementStep h ha
  | letRest => exact separated_letStep h ha
  | otherwise =>
    simp only [step] at h
    split at h <;> cases h
    simp only [List.append_assoc, List.cons_append, List.nil_append]
    exact separated_block (separated_emit (hf _ rfl).some ha)
  | returnValue =>
    simp only [step] at h
    split at h
    · cases h
      exact ha
    · exact separated_termStep h (heads_operators (heads_emit (heads_symbol rfl)))
        ⟨by rintro p ⟨⟩; exact heads_emit (heads_symbol rfl),
          separated_emit (heads_symbol rfl) (separated_symbol ha)⟩
  | term => exact separated_termStep h (hf _ rfl) ha
  | operators =>
    simp only [step] at h
    split at h
    · split at h <;> cases h
      have hc := hf _ rfl
      refine ⟨?_, separated_emit (heads_operators hc).some ⟨hf, ha⟩⟩
      rintro p ⟨⟩
      exact heads_emit (heads_operators hc)
    · cases h
  | afterName => exact separated_nameStep h (hf _ rfl) ha
  | callee =>
    obtain ⟨x, -, hk⟩ := wantName_take h
    split at hk <;> cases hk
    · exact separated_emit heads_openArguments ⟨hf, ha⟩
    · exact ⟨hf, ha⟩
  | arguments =>
    simp only [step] at h
    split at h
    · cases h
      exact separated_emit (hf _ rfl).some ha
    · exact separated_termStep h (heads_operators heads_moreArguments)
        (separated_expression heads_moreArguments ⟨hf, ha⟩).tail
  | moreArguments =>
    simp only [step] at h
    split at h <;> cases h
    · exact separated_expression heads_moreArguments ⟨hf, ha⟩
    · exact separated_emit (hf _ rfl).some ha
  | openArguments =>
    simp only [step] at h
    split at h <;> cases h
    exact ⟨hf, ha⟩
  | keyword | symbol =>
    simp only [step] at h
    split at h <;> cases h
    exact ha
  | moreVariables | moreParameters =>
    simp only [step] at h
    split at h <;> cases h
    · exact free rfl ha
    · exact ha

theorem separated_ofClass : Separated ofClass :=
  ⟨by simp [follow?], by simp [follow?], trivial⟩

/-- A goal that does not depend on what stands behind it takes a lexeme. -/
theorem lexemes_ne_nil_of_meets {g : Goal} {y : Yield} {s' : State} (hf : g.follow? = none)
    (hg : g.Meets s y s') : y.phrase.lexemes ≠ [] := by
  cases g with
  | keyword | symbol =>
    obtain ⟨rfl, -⟩ := hg
    simp
  | className =>
    obtain ⟨name, ms, rfl, -⟩ := hg
    simp
  | members | moreVariables | moreParameters | statements =>
    obtain ⟨_, rfl, -⟩ := hg
    simp [moreNames, Parameter.tailPhrase]
  | variableType =>
    obtain ⟨d, rfl, -⟩ := hg
    simp [Declaration.phrase]
  | variableName | parameterName =>
    obtain ⟨x, xs, rfl, -⟩ := hg
    simp
  | returnType =>
    obtain ⟨r, -, rfl, -⟩ := hg
    simp
  | routineName =>
    obtain ⟨r, -, -, rfl, -⟩ := hg
    simp
  | parameters =>
    obtain ⟨ps, rfl, -⟩ := hg
    cases ps <;> simp [Parameter.listPhrase, Parameter.phrase]
  | parameter =>
    obtain ⟨p, ps, rfl, -⟩ := hg
    simp [Parameter.phrase]
  | letTarget | letRest | returnValue =>
    obtain ⟨st, p, hp, rfl, -⟩ := hg
    have hl := congrArg Phrase.lexemes hp
    intro hn
    simp only [phrase_yieldIn, Phrase.lexemes_unbound] at hn
    cases st <;> simp [Statement.phrase, hn] at hl
  | _ => cases hf

/-- An agenda that is left takes a lexeme at least. -/
theorem Separated.ne_nil {y : Yield} {s' : State} (hs : Separated agenda) (ha : agenda ≠ [])
    (hm : MeetsAll agenda s y s') : y.phrase.lexemes ≠ [] := by
  cases agenda with
  | nil => exact absurd rfl ha
  | cons g agenda =>
    obtain ⟨y₁, s₂, y₂, hg, hm, rfl⟩ := hm
    cases hf : g.follow? with
    | some p =>
      obtain ⟨l, rest, hl, -⟩ := hs.1 p hf hm
      simp [hl]
    | none => simp [lexemes_ne_nil_of_meets hf hg]

end

end Goal
end JackToVm
