import JackToVm.Proofs.Acceptance

/-!
Errors point to the right place. What the pass has taken can always be completed to a class, and a token
that it refuses cannot stand behind what it has taken. A name that is reported as undefined is the last
token taken, and is declared neither in the subroutine it stands in nor in front of it.
-/

namespace JackToVm

open Syntax

/-- Lexemes that some class starts with. -/
def Viable (ls : List Lexeme) : Prop :=
  ∃ (c : Syntax.Class) (more : List Lexeme), c.lexemes = ls ++ more

/-- The lexemes `before` end inside the statements of a subroutine, in front of a lexeme of these. -/
def Syntax.Routine.Encloses (r : Routine) (className : String) (front : List Member) (before : List Lexeme)
    (l : Lexeme) : Prop :=
  ∃ inside behind, r.body.phrase.lexemes = inside ++ l :: behind ∧
    before = (Class.headPhrase className ++ Phrase.join Member.phrase front ++ r.headPhrase).lexemes ++ inside

/-- A shortest expression. -/
def zero : Expression := .of (.integer 0) .none

/-- What stands behind the name in a shortest assignment. -/
def assignsZero : Phrase := .symbol .eq ++ zero.phrase ++ .symbol .semicolon

theorem phrase_assign_zero (x : String) :
    (Statement.assign x zero).phrase = .keyword .let_ ++ .name x ++ (.use x ++ assignsZero) := by
  simp [Statement.phrase, assignsZero]

namespace Goal

/-! ### Goals can be met -/

theorem exists_meets (g : Goal) (s : State) : ∃ y s', g.Meets s y s' := by
  let routine (kind : RoutineKind) (void : Bool) : Routine :=
    { kind, result? := if void then none else some .int, name := "f", parameters := [], locals := [], body := .nil }
  cases g with
  | keyword | symbol | emit => exact ⟨_, _, rfl, rfl⟩
  | className => exact ⟨_, _, "A", [], rfl, rfl⟩
  | members => exact ⟨_, _, [], rfl, rfl⟩
  | variableType => exact ⟨_, _, ⟨.int, "x", []⟩, rfl, rfl⟩
  | variableName | parameterName => exact ⟨_, _, "x", [], rfl, rfl⟩
  | moreVariables | moreParameters | parameters | locals => exact ⟨_, _, [], rfl, rfl⟩
  | returnType kind => exact ⟨_, _, routine kind true, rfl, rfl, rfl⟩
  | routineName kind void => exact ⟨_, _, routine kind void, rfl, by cases void <;> rfl, rfl, rfl⟩
  | parameter => exact ⟨_, _, ⟨.int, "x"⟩, [], rfl, rfl⟩
  | statements => exact ⟨_, _, .nil, rfl, rfl⟩
  | letTarget =>
    have hp := phrase_assign_zero "x"
    rw [Phrase.append_assoc] at hp
    exact ⟨_, _, .assign "x" zero, _, hp, rfl, rfl⟩
  | letRest x => exact ⟨_, _, .assign x zero, _, phrase_assign_zero x, rfl, rfl⟩
  | otherwise => exact ⟨_, _, Or.inl ⟨rfl, rfl⟩⟩
  | returnValue => exact ⟨_, _, .return_, _, rfl, rfl, rfl⟩
  | term => exact ⟨_, _, .integer 0, rfl, rfl⟩
  | operators | openArguments | arguments | moreArguments => exact ⟨_, _, .none, rfl, rfl⟩
  | afterName x => exact ⟨_, _, .read x, _, rfl, rfl, rfl⟩
  | callee => exact ⟨_, _, "f", .none, rfl, rfl⟩

theorem exists_meetsAll (agenda : List Goal) (s : State) : ∃ y s', MeetsAll agenda s y s' := by
  induction agenda generalizing s with
  | nil => exact ⟨_, _, rfl, rfl⟩
  | cons g agenda ih =>
    obtain ⟨y, s₁, hg⟩ := exists_meets g s
    obtain ⟨z, s', hm⟩ := ih s₁
    exact ⟨_, s', y, s₁, z, hg, hm, rfl⟩

section
variable {agenda agenda₁ goals : List Goal} {s s₁ s' : State} {t : Token} {ts : List Token} {events : List Event}
  {n : Nat} {g : Goal}

/-- What is left on the agenda completes the tokens that were taken to a class. -/
theorem Reaches.completed {z : Yield} (h : Reaches ofClass { labels := { next := n } } ts events agenda s)
    (hm : MeetsAll agenda s z s') :
    ∃ c : Syntax.Class, c.lexemes = ts.map (·.lexeme) ++ z.phrase.lexemes ∧ c.unbound.uses = z.phrase.uses := by
  obtain ⟨c, hc, -⟩ := meetsAll_ofClass.mp (h.meetsAll hm)
  have hp := congrArg Yield.phrase hc
  simp only [Yield.phrase_append] at hp
  refine ⟨c, ?_, ?_⟩
  · rw [← Class.lexemes_unbound, ← hp]
    rfl
  · rw [← hp]
    rfl

theorem Reaches.viable (h : Reaches ofClass { labels := { next := n } } ts events agenda s) :
    Viable (ts.map (·.lexeme)) := by
  obtain ⟨z, s', hm⟩ := exists_meetsAll agenda s
  obtain ⟨c, hc, -⟩ := h.completed hm
  exact ⟨c, _, hc⟩

/-- Any class that starts with the tokens taken goes on with what the agenda stands for. -/
theorem Reaches.rest_of_class (h : Reaches ofClass { labels := { next := n } } ts events agenda s) {c : Syntax.Class}
    {more : List Lexeme} (hc : c.lexemes = ts.map (·.lexeme) ++ more) :
    ∃ z s', MeetsAll agenda s z s' ∧ z.phrase.lexemes = more := by
  obtain ⟨z, hz, hl⟩ := h.exists_rest separated_ofClass (meetsAll_ofClass.mpr ⟨c, rfl, rfl⟩) (by simpa using hc)
  exact ⟨z, _, hz, hl⟩

/-! ### Tokens that are refused -/

theorem wantName_fail {k : String → Step} {e : CompileError} (h : wantName t k = .fail e) :
    (∃ x, e = .unexpected x t) ∨ ∃ x, k x = .fail e := by
  unfold wantName at h
  split at h
  · exact Or.inr ⟨_, h⟩
  · cases h
    exact Or.inl ⟨_, rfl⟩

theorem wantType_fail {k : String → Step} {e : CompileError} (h : wantType t k = .fail e) :
    (∃ x, e = .unexpected x t) ∨ ∃ x, k x = .fail e := by
  unfold wantType at h
  split at h
  iterate 4 exact Or.inr ⟨_, h⟩
  cases h
  exact Or.inl ⟨_, rfl⟩

theorem wantVariable_fail {x : String} {span : Span} {k : Variable → Step} {e : CompileError}
    (h : wantVariable s x span k = .fail e) :
    (e = .undefined x span ∧ s.environment.lookup? x = none) ∨ ∃ v, k v = .fail e := by
  cases hv : s.environment.lookup? x with
  | some v => exact Or.inr ⟨v, by rwa [wantVariable_some hv] at h⟩
  | none =>
    rw [wantVariable_none hv] at h
    cases h
    exact Or.inl ⟨rfl, rfl⟩

theorem termStep_fail {next : List Goal} {e : CompileError} (h : termStep next t s = .fail e) :
    ∃ x, e = .unexpected x t := by
  unfold termStep at h
  split at h <;> try cases h
  · split at h <;> cases h
    exact ⟨_, rfl⟩
  · exact ⟨_, rfl⟩

/-- A goal that has taken a name and does not know yet whether the name is a variable. -/
def pending? : Goal → Option (String × Span)
  | letRest x span | afterName x span => some (x, span)
  | _ => none

/-- A goal fails because the token is not the one it wants, or because the name it has taken is no variable. -/
theorem fail_cases {e : CompileError} (h : g.step t s = .fail e) :
    (∃ x, e = .unexpected x t) ∨
      ∃ x span, e = .undefined x span ∧ g.pending? = some (x, span) ∧ s.environment.lookup? x = none := by
  cases g with
  | letRest x span =>
    rcases wantVariable_fail h with ⟨rfl, hv⟩ | ⟨v, hk⟩
    · exact Or.inr ⟨x, span, rfl, rfl, hv⟩
    · split at hk <;> cases hk
      exact Or.inl ⟨_, rfl⟩
  | afterName x span =>
    simp only [step, nameStep] at h
    split at h <;> try cases h
    · rcases wantVariable_fail h with ⟨rfl, hv⟩ | ⟨v, hk⟩
      · exact Or.inr ⟨x, span, rfl, rfl, hv⟩
      · cases hk
    · rcases wantVariable_fail h with ⟨rfl, hv⟩ | ⟨v, hk⟩
      · exact Or.inr ⟨x, span, rfl, rfl, hv⟩
      · cases hk
  | emit => cases h
  | members =>
    simp only [step, memberStep] at h
    split at h <;> cases h
    all_goals exact Or.inl ⟨_, rfl⟩
  | statements =>
    simp only [step, statementStep] at h
    split at h <;> try cases h
    · split at h <;> cases h
    · exact Or.inl ⟨_, rfl⟩
  | callee =>
    rcases wantName_fail h with hx | ⟨x, hk⟩
    · exact Or.inl hx
    · split at hk <;> cases hk
  | className | variableName | routineName | parameterName | letTarget =>
    rcases wantName_fail h with hx | ⟨x, hk⟩
    · exact Or.inl hx
    · cases hk
  | variableType | parameter =>
    simp only [step] at h
    rcases wantType_fail h with hx | ⟨x, hk⟩
    · exact Or.inl hx
    · cases hk
  | returnType | parameters =>
    simp only [step] at h
    split at h
    · cases h
    · rcases wantType_fail h with hx | ⟨x, hk⟩
      · exact Or.inl hx
      · cases hk
  | term => exact Or.inl (termStep_fail h)
  | returnValue | arguments =>
    simp only [step] at h
    split at h
    · cases h
    · exact Or.inl (termStep_fail h)
  | operators =>
    simp only [step] at h
    split at h
    · split at h <;> cases h
    · cases h
      exact Or.inl ⟨_, rfl⟩
  | _ =>
    simp only [step] at h
    split at h <;> cases h
    all_goals exact Or.inl ⟨_, rfl⟩

/-! ### Names that are looked up later -/

/-- Only the first goal of an agenda may have taken a name, and the name is the last token. -/
def Fresh (last? : Option Token) : List Goal → Prop
  | [] => True
  | g :: agenda => (∀ x span, g.pending? = some (x, span) → last? = some ⟨.identifier x, span⟩) ∧
      ∀ g' ∈ agenda, g'.pending? = none

theorem Fresh.append {last? : Option Token} (h : Fresh last? goals) (ha : ∀ g ∈ agenda, g.pending? = none) :
    Fresh last? (goals ++ agenda) := by
  cases goals with
  | nil =>
    cases agenda with
    | nil => trivial
    | cons g agenda =>
      refine ⟨fun x span hp => ?_, fun g' hg' => ha g' (List.mem_cons_of_mem _ hg')⟩
      rw [ha g List.mem_cons_self] at hp
      cases hp
  | cons g goals =>
    refine ⟨h.1, fun g' hg' => ?_⟩
    rcases List.mem_append.mp hg' with hg' | hg'
    · exact h.2 g' hg'
    · exact ha g' hg'

theorem fresh_termStep {next : List Goal} (hn : ∀ g ∈ next, g.pending? = none)
    (h : termStep next t s = .take events goals s₁) : Fresh (some t) goals := by
  have hnil : Fresh (some t) [] := trivial
  have hnext : Fresh (some t) next := hnil.append hn
  unfold termStep at h
  split at h <;> try (cases h; exact hnext)
  · rename_i x hx
    cases h
    refine ⟨?_, hn⟩
    rintro y span ⟨⟩
    rw [← hx]
  · cases h
    exact Fresh.append (by simp [expression, Fresh, pending?]) (by simpa [pending?] using hn)
  · split at h <;> cases h
    exact ⟨by simp [pending?], by simpa [write, pending?] using hn⟩
  · cases h

/-- A token that is taken leaves a name to be looked up only when it is the name. -/
theorem fresh_of_take (h : g.step t s = .take events goals s₁) : Fresh (some t) goals := by
  cases g with
  | emit => cases h
  | letTarget =>
    obtain ⟨x, hx, hk⟩ := wantName_take h
    cases hk
    refine ⟨?_, by simp⟩
    rintro y span ⟨⟩
    rw [← hx]
  | members =>
    simp only [step, memberStep] at h
    split at h <;> cases h <;> simp [Fresh, pending?]
  | statements =>
    simp only [step, statementStep] at h
    split at h
    case h_1 => split at h <;> cases h <;> trivial
    all_goals cases h <;> simp [Fresh, pending?, condition, block, expression, write]
  | letRest =>
    obtain ⟨v, -, hk⟩ := wantVariable_take h
    split at hk <;> cases hk <;> simp [Fresh, pending?, element, expression, write]
  | afterName =>
    simp only [step, nameStep] at h
    split at h
    · cases h
      simp [Fresh, pending?]
    · obtain ⟨v, -, hk⟩ := wantVariable_take h
      cases hk
      simp [Fresh, pending?, element, expression, write]
    · cases h
      simp [Fresh, pending?]
    · obtain ⟨v, -, hk⟩ := wantVariable_take h
      cases hk
  | callee =>
    obtain ⟨x, -, hk⟩ := wantName_take h
    split at hk <;> cases hk <;> simp [Fresh, pending?, write]
  | className | variableName | routineName | parameterName =>
    obtain ⟨x, -, hk⟩ := wantName_take h
    cases hk
    simp [Fresh, pending?]
  | variableType | parameter =>
    simp only [step] at h
    obtain ⟨x, -, hk⟩ := wantType_take h
    cases hk
    simp [Fresh, pending?]
  | returnType | parameters =>
    simp only [step] at h
    split at h
    · cases h
      simp [Fresh, pending?]
    · obtain ⟨x, -, hk⟩ := wantType_take h
      cases hk
      simp [Fresh, pending?]
  | term => exact fresh_termStep (by simp) h
  | returnValue | arguments =>
    simp only [step] at h
    split at h
    · cases h
      simp [Fresh, pending?, write]
    · exact fresh_termStep (by simp [pending?, write]) h
  | operators =>
    simp only [step] at h
    split at h
    · split at h <;> cases h
      simp [Fresh, pending?, write]
    · cases h
  | _ =>
    simp only [step] at h
    split at h <;> cases h <;> simp [Fresh, pending?, block, write]

theorem fresh_of_settle {events : Array Event} (ha : ∀ g ∈ agenda.tail, g.pending? = none)
    (h : settle t #[] agenda s = (.ok (agenda₁, s₁), events)) : Fresh (some t) agenda₁ := by
  induction agenda generalizing s events with
  | nil => cases h
  | cons g agenda ih =>
    rw [settle_cons] at h
    cases hg : g.step t s with
    | fail e => simp [hg] at h
    | done events₀ s₀ =>
      simp only [hg, Prod.mk.injEq] at h
      exact ih (fun g' hg' => ha g' (List.mem_of_mem_tail hg')) (Prod.ext h.1 rfl)
    | take events₀ goals s₀ =>
      simp only [hg, Prod.mk.injEq, Except.ok.injEq] at h
      rw [← h.1.1]
      exact (fresh_of_take hg).append ha

theorem Fresh.tail {last? : Option Token} (h : Fresh last? agenda) : ∀ g ∈ agenda.tail, g.pending? = none := by
  cases agenda with
  | nil => simp
  | cons g agenda => exact h.2

theorem Reaches.fresh {last? : Option Token} (h : Reaches agenda s ts events agenda₁ s₁)
    (hf : Fresh last? agenda) : Fresh (ts.getLast?.or last?) agenda₁ := by
  induction h generalizing last? with
  | refl => simpa using hf
  | step h _ ih => simpa [List.getLast?_cons] using ih (fresh_of_settle hf.tail h)

theorem Reaches.fresh_ofClass (h : Reaches ofClass s ts events agenda s₁) : Fresh ts.getLast? agenda := by
  have hf : Fresh none ofClass := by simp [ofClass, Fresh, pending?]
  simpa using h.fresh hf

/-- A token is refused because it is not wanted, or because the name in front of it is no variable. -/
theorem settle_error {events : Array Event} {e : CompileError} (ha : ∀ g ∈ agenda.tail, g.pending? = none)
    (h : settle t #[] agenda s = (.error e, events)) :
    (∃ x, e = .unexpected x t) ∨
      ∃ x span g rest, e = .undefined x span ∧ agenda = g :: rest ∧ g.pending? = some (x, span) ∧
        s.environment.lookup? x = none := by
  induction agenda generalizing s events with
  | nil =>
    cases h
    exact Or.inl ⟨_, rfl⟩
  | cons g agenda ih =>
    rw [settle_cons] at h
    cases hg : g.step t s with
    | fail e' =>
      simp only [hg, Prod.mk.injEq, Except.error.injEq] at h
      rw [h.1] at hg
      rcases fail_cases hg with hx | ⟨x, span, he, hp, hv⟩
      · exact Or.inl hx
      · exact Or.inr ⟨x, span, g, agenda, he, rfl, hp, hv⟩
    | done events₀ s₀ =>
      simp only [hg, Prod.mk.injEq] at h
      rcases ih (fun g' hg' => ha g' (List.mem_of_mem_tail hg')) (Prod.ext h.1 rfl) with
        hx | ⟨x, span, g', rest, -, rfl, hp, -⟩
      · exact Or.inl hx
      · rw [ha g' List.mem_cons_self] at hp
        cases hp
    | take events₀ goals s₀ => simp [hg] at h

/-- A goal that has taken a name that is no variable can be met, and the name is left as a use. -/
theorem exists_meets_pending {x : String} {span : Span} (hp : g.pending? = some (x, span))
    (hv : s.environment.lookup? x = none) :
    ∃ y s', g.Meets s y s' ∧ { name := x, rest := y.phrase.lexemes } ∈ y.phrase.uses := by
  cases g with
  | letRest =>
    cases hp
    refine ⟨_, _, ⟨.assign x zero, _, phrase_assign_zero x, rfl, rfl⟩, ?_⟩
    simp [Phrase.unbound_use_none hv, Use.before]
  | afterName =>
    cases hp
    refine ⟨_, _, ⟨.read x, _, rfl, rfl, rfl⟩, ?_⟩
    simp [Phrase.unbound_use_none hv]
  | _ => cases hp

/-- A name that is no variable stands in a subroutine and is declared neither in it nor in front of it. -/
theorem Reaches.exists_routine {x : String} {span : Span} {before : List Token}
    (h : Reaches ofClass { labels := { next := n } } (before ++ [⟨.identifier x, span⟩]) events (g :: agenda) s)
    (hp : g.pending? = some (x, span)) (hv : s.environment.lookup? x = none) :
    ∃ className front r, Routine.Encloses r className front (before.map (·.lexeme)) (.identifier x) ∧
      x ∉ r.declares ∧ x ∉ front.flatMap Member.declares := by
  obtain ⟨y, s₂, hg, hu⟩ := exists_meets_pending hp hv
  obtain ⟨z, s₃, hz⟩ := exists_meetsAll agenda s₂
  obtain ⟨c, hc, hcu⟩ := h.completed ⟨y, s₂, z, hg, hz, rfl⟩
  have hmem : { name := x, rest := y.phrase.lexemes ++ z.phrase.lexemes } ∈ c.unbound.uses := by
    rw [hcu, Yield.phrase_append, Phrase.uses_append]
    exact List.mem_append_left _ (List.mem_map_of_mem hu)
  obtain ⟨front, r, back, v, hms, hvu, hn, heq⟩ := Class.mem_uses_unbound.mp hmem
  obtain ⟨inside, hb⟩ := r.body.named v hvu
  simp only [Use.before, Use.mk.injEq] at heq
  obtain ⟨rfl, hrest⟩ := heq
  obtain ⟨-, hr, hf⟩ := Routine.lookup?_eq_none.mp hn
  refine ⟨c.name, front, r, ⟨inside, v.rest, hb, ?_⟩, hr, hf⟩
  have hl : c.lexemes = (Class.headPhrase c.name ++ Phrase.join Member.phrase front ++ r.headPhrase).lexemes ++
      (inside ++ .identifier v.name :: (v.rest ++ (.symbol .rightBrace ::
        (Phrase.join Member.phrase back).lexemes ++ [.symbol .rightBrace]))) := by
    simp [Class.lexemes, Class.phrase, hms, Member.phrase, Routine.phrase, hb]
  rw [hl, ← hrest] at hc
  -- Both sides go on with the name and with the same lexemes behind it.
  have hsame : before.map (·.lexeme) ++ .identifier v.name :: (y.phrase.lexemes ++ z.phrase.lexemes) =
      (Class.headPhrase c.name ++ Phrase.join Member.phrase front ++ r.headPhrase).lexemes ++ inside ++
        .identifier v.name :: (y.phrase.lexemes ++ z.phrase.lexemes) := by
    simpa using hc.symm
  exact List.append_cancel_right hsame

end

end Goal

/-! ### Where errors point to -/

/-- What an error says about the place that it points to. -/
def Blames (source : String) : CompileError → Prop
  | .unexpected _ found => ∃ (before : List Token) (rest : List Item),
      Item.ofSource source = before.map .ok ++ .ok found :: rest ∧
      Viable (before.map (·.lexeme)) ∧ ¬ Viable (before.map (·.lexeme) ++ [found.lexeme])
  | .lexical e => ∃ (before : List Token) (rest : List Item),
      Item.ofSource source = before.map .ok ++ .error e :: rest ∧ Viable (before.map (·.lexeme))
  | .endOfInput _ => ∃ tokens : List Token,
      Item.ofSource source = tokens.map .ok ∧ Viable (tokens.map (·.lexeme)) ∧
      ∀ c : Syntax.Class, c.lexemes ≠ tokens.map (·.lexeme)
  | .undefined name span => ∃ (before : List Token) (rest : List Item),
      Item.ofSource source = before.map .ok ++ .ok ⟨.identifier name, span⟩ :: rest ∧
      span.fragment source = name ∧ Viable (before.map (·.lexeme) ++ [.identifier name]) ∧
      ∃ className front r, Routine.Encloses r className front (before.map (·.lexeme)) (.identifier name) ∧
        name ∉ r.declares ∧ name ∉ front.flatMap Member.declares
  | .sinkFull => False

/-- A source that does not compile is blamed in the right place. -/
theorem blames_of_compile_error (source : String) (labels : Vm.Labels) (e : CompileError)
    (h : (compile source labels.next).resultAfter ((compile source labels.next).deliver none labels) = .error e) :
    Blames source e := by
  rw [Compilation.resultAfter_deliver_none] at h
  obtain ⟨tokens, rest, events, more, agenda, s, hi, hr, he, -⟩ :=
    Goal.run_cases (.atEnd source) (Item.ofSource source) Goal.ofClass { labels := { next := labels.next } }
  change Goal.Ends _ agenda s rest more (compile source labels.next).result at he
  rw [h] at he
  have hsep := hr.separated Goal.separated_ofClass
  cases he with
  | short ha =>
    refine ⟨tokens, by simpa using hi, hr.viable, fun c hc => ?_⟩
    have hc' : c.lexemes = tokens.map (·.lexeme) ++ [] := by simpa using hc
    obtain ⟨z, s', hz, hl⟩ := hr.rest_of_class hc'
    exact hsep.ne_nil ha hz hl
  | lexical e' rest => exact ⟨tokens, rest, hi, hr.viable⟩
  | @refused t _ _ rest hs =>
    have hfresh := hr.fresh_ofClass
    rcases Goal.settle_error hfresh.tail hs with ⟨x, rfl⟩ | ⟨x, span, g, rest', rfl, rfl, hp, hv⟩
    · refine ⟨tokens, rest, hi, hr.viable, ?_⟩
      rintro ⟨c, ext, hc⟩
      have hc' : c.lexemes = tokens.map (·.lexeme) ++ t.lexeme :: ext := by simpa using hc
      obtain ⟨z, s', hz, hl⟩ := hr.rest_of_class hc'
      rcases Goal.settle_of_meetsAll hsep hz hl with ⟨_, _, _, _, hok, -⟩ | ⟨_, _, _, hu, -⟩
      · rw [hs] at hok
        cases hok
      · rw [hs] at hu
        cases hu
    · obtain ⟨before, rfl⟩ := List.getLast?_eq_some_iff.mp (hfresh.1 x span hp)
      have hi' : Item.ofSource source = before.map .ok ++ .ok ⟨.identifier x, span⟩ :: .ok t :: rest := by
        simpa using hi
      have hmem : .ok ⟨.identifier x, span⟩ ∈ Item.ofSource source := by
        rw [hi']
        simp
      exact ⟨before, _, hi', (Item.identifier_of_mem_ofSource hmem rfl).1, by simpa using hr.viable,
        hr.exists_routine hp hv⟩

theorem eq_error_of_swap {result : Except CompileError Unit} {e : CompileError}
    (h : (match result with | .ok _ => none | .error e => some e) = some e) : result = .error e := by
  cases result with
  | ok => cases h
  | error e' => rw [Option.some.inj h]

theorem blames_of_compile_error_undeclared :
    Blames "class A { function void f() { let x = 1; } }"
      (.undefined "x" { start := 34, stop := 35, line := 1, column := 35 }) :=
  blames_of_compile_error _ {} _ (eq_error_of_swap (by decide +kernel))

end JackToVm
