import JackToVm.Proofs.Sound

/-!
Runs of the pass, token by token. `Reaches` says how far the pass gets on some tokens and what happens on
the way; `run_cases` says that a run of a source gets somewhere on its first tokens, and how it ends there. What holds
of all events of a run is shown token by token (`forall_mem_run`).
-/

namespace JackToVm
namespace Goal
open Syntax

/-- The pass comes from one agenda and state to another by taking tokens, and these events happen. -/
inductive Reaches : List Goal → State → List Token → List Event → List Goal → State → Prop where
  | refl (agenda : List Goal) (s : State) : Reaches agenda s [] [] agenda s
  | step {t : Token} {ts : List Token} {agenda agenda₁ agenda₂ : List Goal} {s s₁ s₂ : State}
      {events : Array Event} {more : List Event} (h : settle t #[] agenda s = (.ok (agenda₁, s₁), events))
      (next : Reaches agenda₁ s₁ ts more agenda₂ s₂) :
      Reaches agenda s (t :: ts) (events.toList ++ more) agenda₂ s₂

/-- How a run over items ends behind the tokens that it takes, with an agenda and a state: what is left of the
items, the events since the last token, and the result. -/
inductive Ends (finish : Span) (agenda : List Goal) (s : State) :
    List Item → List Event → Except CompileError Unit → Prop where
  | done (h : agenda = []) : Ends finish agenda s [] [] (.ok ())
  | short (h : agenda ≠ []) : Ends finish agenda s [] [] (.error (.endOfInput finish))
  | lexical (e : LexError) (rest : List Item) :
      Ends finish agenda s (.error e :: rest) [] (.error (.lexical e))
  | refused {t : Token} {e : CompileError} {events : Array Event} (rest : List Item)
      (h : settle t #[] agenda s = (.error e, events)) :
      Ends finish agenda s (.ok t :: rest) events.toList (.error e)

section
variable {t : Token} {ts : List Token} {agenda agenda₁ agenda₂ : List Goal} {s s₁ s₂ s' : State}
  {events : List Event} {z : Yield}

/-- Settling a token means that goals are done, and then one takes the token. -/
theorem settle_cons (g : Goal) : settle t #[] (g :: agenda) s =
    match g.step t s with
    | .fail e => (.error e, #[])
    | .done events s => ((settle t #[] agenda s).1, events.toArray ++ (settle t #[] agenda s).2)
    | .take events goals s => (.ok (goals ++ agenda, s), events.toArray) := by
  simp only [settle]
  cases g.step t s with
  | fail e => rfl
  | done events s =>
    simp only
    rw [settle_eq_append]
    simp
  | take events goals s => simp

theorem meetsAll_of_settle {events : Array Event} (h : settle t #[] agenda s = (.ok (agenda₁, s₁), events))
    (hm : MeetsAll agenda₁ s₁ z s') :
    MeetsAll agenda s (.taken t.lexeme events.toList ++ z) s' := by
  induction agenda generalizing s events with
  | nil => cases h
  | cons g agenda ih =>
    rw [settle_cons] at h
    cases hg : g.step t s with
    | fail e => simp [hg] at h
    | done events₀ s₀ =>
      simp only [hg, Prod.mk.injEq] at h
      obtain ⟨h₁, rfl⟩ := h
      refine ⟨_, s₀, _, meets_of_done hg, ih (Prod.ext h₁ rfl), ?_⟩
      ext1 <;> simp
    | take events₀ goals s₀ =>
      simp only [hg, Prod.mk.injEq, Except.ok.injEq] at h
      obtain ⟨⟨rfl, rfl⟩, rfl⟩ := h
      obtain ⟨y₁, s₂, y₂, hm₁, hm₂, rfl⟩ := meetsAll_append.mp hm
      exact ⟨_, s₂, y₂, meets_of_take hg hm₁, hm₂, by simp⟩

namespace Reaches

/-- What is met behind the tokens that were taken is met in front of them too. -/
theorem meetsAll (h : Reaches agenda s ts events agenda₁ s₁) (hm : MeetsAll agenda₁ s₁ z s') :
    MeetsAll agenda s
      ({ phrase := { lexemes := ts.map (·.lexeme) }, code := events.filterMap Event.instruction? } ++ z) s' := by
  induction h with
  | refl => simpa using hm
  | @step t ts _ _ _ _ _ _ events more h _ ih =>
    have hy : ({ phrase := { lexemes := (t :: ts).map (·.lexeme) }
                 code := (events.toList ++ more).filterMap Event.instruction? } : Yield) =
        .taken t.lexeme events.toList ++
          { phrase := { lexemes := ts.map (·.lexeme) }, code := more.filterMap Event.instruction? } := by
      ext1
      · ext1 <;> simp
      · simp
    rw [hy, Yield.append_assoc]
    exact meetsAll_of_settle h (ih hm)

end Reaches

/-- What holds of all events of a token. `Before` holds in front of each goal that looks at the token, and `After`
behind the one that takes it. -/
theorem forall_mem_settle {P : Event → Prop} {Before After : List Goal → State → Prop}
    (hstep : ∀ g agenda s, Before (g :: agenda) s →
      match g.step t s with
      | .fail _ => True
      | .done events s => (∀ e ∈ events, P e) ∧ Before agenda s
      | .take events goals s => (∀ e ∈ events, P e) ∧ After (goals ++ agenda) s)
    (h : Before agenda s) :
    (∀ e ∈ (settle t #[] agenda s).2.toList, P e) ∧
      ∀ next, (settle t #[] agenda s).1 = .ok next → After next.1 next.2 := by
  induction agenda generalizing s with
  | nil => exact ⟨List.forall_mem_nil _, nofun⟩
  | cons g agenda ih =>
    have hg := hstep g agenda s h
    rw [settle_cons]
    cases hs : g.step t s with
    | fail e => exact ⟨List.forall_mem_nil _, nofun⟩
    | done events s₁ =>
      rw [hs] at hg
      obtain ⟨hevents, hbefore⟩ := hg
      obtain ⟨hmore, hnext⟩ := ih hbefore
      refine ⟨?_, hnext⟩
      rw [Array.toList_append, List.forall_mem_append]
      exact ⟨hevents, hmore⟩
    | take events goals s₁ =>
      rw [hs] at hg
      obtain ⟨hevents, hafter⟩ := hg
      refine ⟨hevents, ?_⟩
      rintro _ ⟨⟩
      exact hafter

/-- What holds of all events of a run: each token keeps an invariant, and its events are of the kind. -/
theorem forall_mem_run {P : Event → Prop} {Inv : List Item → List Goal → State → Prop} (finish : Span)
    (hsettle : ∀ t items agenda s, Inv (.ok t :: items) agenda s →
      (∀ e ∈ (settle t #[] agenda s).2.toList, P e) ∧
        ∀ next, (settle t #[] agenda s).1 = .ok next → Inv items next.1 next.2)
    {items : List Item} (h : Inv items agenda s) : ∀ e ∈ (run finish #[] items agenda s).trace, P e := by
  induction items generalizing agenda s with
  | nil => cases agenda <;> exact List.forall_mem_nil _
  | cons item items ih =>
    cases item with
    | error e => exact List.forall_mem_nil _
    | ok t =>
      obtain ⟨hevents, hnext⟩ := hsettle t items agenda s h
      simp only [run]
      cases hs : settle t #[] agenda s with
      | mk outcome events =>
        rw [hs] at hevents hnext
        cases outcome with
        | error e => exact hevents
        | ok next =>
          simp only
          rw [run_eq_append, List.forall_mem_append]
          exact ⟨hevents, ih (hnext next rfl)⟩

/-- A run over a token that is taken goes on with the items behind it. -/
theorem run_of_settle {finish : Span} {items : List Item} {events : Array Event}
    (h : settle t #[] agenda s = (.ok (agenda₁, s₁), events)) :
    run finish #[] (.ok t :: items) agenda s =
      { trace := events.toList ++ (run finish #[] items agenda₁ s₁).trace
        result := (run finish #[] items agenda₁ s₁).result } := by
  rw [← run_eq_append]
  simp only [run, h]

/-- A run takes its first tokens and ends behind them. -/
theorem run_cases (finish : Span) (items : List Item) (agenda : List Goal) (s : State) :
    ∃ ts rest events more agenda₁ s₁, items = ts.map .ok ++ rest ∧ Reaches agenda s ts events agenda₁ s₁ ∧
      Ends finish agenda₁ s₁ rest more (run finish #[] items agenda s).result ∧
      (run finish #[] items agenda s).trace = events ++ more := by
  induction items generalizing agenda s with
  | nil =>
    cases agenda with
    | nil => exact ⟨[], [], [], [], [], s, rfl, .refl .., .done rfl, rfl⟩
    | cons g agenda => exact ⟨[], [], [], [], _, s, rfl, .refl .., .short (by simp), rfl⟩
  | cons item items ih =>
    cases item with
    | error e => exact ⟨[], _, [], [], agenda, s, rfl, .refl .., .lexical e items, rfl⟩
    | ok t =>
      cases hs : settle t #[] agenda s with
      | mk outcome events =>
        cases outcome with
        | error e =>
          refine ⟨[], _, [], events.toList, agenda, s, rfl, .refl .., ?_, ?_⟩
          · simpa only [run, hs] using .refused items hs
          · simp only [run, hs, List.nil_append]
        | ok next =>
          obtain ⟨agenda₁, s₁⟩ := next
          obtain ⟨ts, rest, ev, more, agenda₂, s₂, rfl, hr, he, ht⟩ := ih agenda₁ s₁
          rw [run_of_settle hs]
          exact ⟨t :: ts, rest, _, more, agenda₂, s₂, rfl, .step hs hr, he, by simp [ht]⟩

end

end Goal
end JackToVm
