import JackToVm.Proofs.Contracts

/-!
The pass comes to an end on every source. The descent over a class keeps to the agenda up to the end of the source
(`Descent.tracks_class`), so it has the outcome of the compilation as soon as the bound on its calls is a multiple of
the number of items (`descent_of_source`). It moves the cursor at most once for each item and once more, and a routine
is called inside of itself only behind a move.
-/

namespace JackToVm
namespace Descent
open Goal (wantType)

variable {m n : Nat} {c : Compilation} {path : List Call} {e : Engine} {t : Token} {next : Goal} {agenda : List Goal}

/-! ### Members of a class -/

/-- The declaration of a class variable starts where the pass looks at the keyword. -/
theorem tracks_classVariables {kind : Kind} {Q : Unit → Engine → Prop} (h : e.At m c t (.members :: agenda))
    (ht : ∀ s, Goal.members.step t s = .take [] [.variableType kind, .members] s)
    (hp : Enters m path n .classVariables e.advances)
    (hQ : ∀ t' e', e'.At m c t' (.members :: agenda) → e.advances < e'.advances → Q () e') :
    Tracks m c (classVariables kind n) path e Q := by
  cases n with
  | zero => exact hp.bound_ne_zero.elim
  | succ n =>
    rw [classVariables]
    refine tracks_call h hp fun e₁ h₁ hp₁ ha₁ => ?_
    rw [tracks_bind]
    refine tracks_advance (h₁.take (ht e₁.state)) fun t₂ e₂ h₂ ha₂ => ?_
    exact pays_declaration kind n h₂ trivial (hp₁.behind h₂.advances_le (by omega)) fun _ t' e' h' _ ha' =>
      hQ t' e' h' (by omega)

theorem pays_body (kind : RoutineKind) (name : String) (void : Bool) (n : Nat) :
    Pays m c (body kind name void) .body n 1
      { front := [.symbol .leftBrace, .locals kind name, .statements void false] } := by
  cases n with
  | zero => exact pays_zero
  | succ n =>
    refine pays_succ (by rw [body]) fun path e t next agenda Q h _ hp hQ => ?_
    simp only [tracks_bind, tracks_know]
    refine tracks_consumeSymbol h fun t₁ e₁ h₁ ha₁ => ?_
    refine pays_locals kind name n h₁ trivial (hp.behind h₁.advances_le (by omega)) fun _ t₂ e₂ h₂ ht₂ ha₂ => ?_
    have hhead : (Goal.locals kind name).step t₂ e₂.state =
        .done ((e₂.state.prologue kind name).map .wrote) e₂.state := by
      simp only [Goal.step, if_neg (show t₂.lexeme ≠ .keyword .var from ht₂)]
    refine tracks_writeAll h₂.unlimited fun sink hs => ?_
    refine (statementsPay n).statements void false ⟨(h₂.done hhead).toOwes.into hs, h₂.current⟩ trivial
      (hp.behind h₂.advances_le (by simp only; omega)) fun returned t₃ e₃ h₃ ht₃ ha₃ => ?_
    have hclose : t₃.lexeme = .symbol .rightBrace := ht₃
    replace ha₃ : e₂.advances ≤ e₃.advances := ha₃
    cases hreturn : void && !returned with
    | true =>
      have h₄ : e₃.At m c t₃ (.write (.pushConstant 0) :: .write .return_ :: .symbol .rightBrace :: next :: agenda) :=
        h₃.swap (by simp [Goal.settle, Goal.step, Goal.statementStep, Goal.write, hclose, hreturn])
      simp only [if_true, tracks_bind]
      refine tracks_write h₄ fun e₅ h₅ ha₅ => ?_
      refine tracks_write h₅ fun e₆ h₆ ha₆ => ?_
      exact tracks_consumeSymbol h₆ fun t' e' h' ha' => hQ () t' e' h' trivial (by omega)
    | false =>
      have h₄ : e₃.At m c t₃ (.symbol .rightBrace :: next :: agenda) :=
        h₃.same (by simp [Goal.step, Goal.statementStep, hclose, hreturn])
      simp only [Bool.false_eq_true, if_false]
      exact tracks_consumeSymbol h₄ fun t' e' h' ha' => hQ () t' e' h' trivial (by omega)

theorem tracks_namedRoutine {kind : RoutineKind} {void : Bool} {p : Production} {a : Nat} {Q : Unit → Engine → Prop}
    (h : e.At m c t (.routineName kind void :: next :: agenda)) (hp : Enters m path (n + 1) p a) (ha : a ≤ e.advances)
    (hQ : ∀ t' e', e'.At m c t' (next :: agenda) → e.advances < e'.advances → Q () e') :
    Tracks m c (namedRoutine kind void n) ({ production := p, advances := a } :: path) e Q := by
  simp only [namedRoutine, tracks_bind, tracks_know, tracks_tell, tracks_change]
  refine tracks_consumeIdentifier h rfl fun name t₁ e₁ h₁ hs₁ ha₁ => ?_
  rw [hs₁]
  refine tracks_consumeSymbol (h₁.done rfl) fun t₂ e₂ h₂ ha₂ => ?_
  replace ha₂ : e₂.advances = e₁.advances + 1 := ha₂
  refine pays_parameterList n h₂ trivial (hp.behind h₂.advances_le (by omega)) fun _ t₃ e₃ h₃ _ ha₃ => ?_
  refine tracks_consumeSymbol h₃ fun t₄ e₄ h₄ ha₄ => ?_
  exact pays_body kind name void n h₄ trivial (hp.behind h₄.advances_le (by omega)) fun _ t' e' h' _ ha' =>
    hQ t' e' h' (by omega)

/-- A subroutine starts where the pass looks at the keyword. -/
theorem tracks_routine {kind : RoutineKind} {Q : Unit → Engine → Prop} (h : e.At m c t (.members :: agenda))
    (ht : ∀ s, Goal.members.step t s = .take [] [.returnType kind, .members] { s with routineScope := {} })
    (hp : Enters m path n .routine e.advances)
    (hQ : ∀ t' e', e'.At m c t' (.members :: agenda) → e.advances < e'.advances → Q () e') :
    Tracks m c (routine kind n) path e Q := by
  cases n with
  | zero => exact hp.bound_ne_zero.elim
  | succ n =>
    rw [routine]
    refine tracks_call h hp fun e₁ h₁ hp₁ ha₁ => ?_
    simp only [tracks_bind, tracks_change]
    refine tracks_advance (h₁.take (ht e₁.state)) fun t₂ e₂ h₂ ha₂ => ?_
    replace ha₂ : e₂.advances = e₁.advances + 1 := ha₂
    by_cases hvoid : t₂.lexeme = .keyword .void
    · have hstep : (Goal.returnType kind).step t₂ e₂.state = .take [] [.routineName kind true] e₂.state := by
        simp only [Goal.step, if_pos hvoid]
      simp only [tracks_isAt_pos h₂.current hvoid, if_true, tracks_bind]
      refine tracks_advance (h₂.take hstep) fun t₃ e₃ h₃ ha₃ => ?_
      exact tracks_namedRoutine h₃ hp₁ (by omega) fun t' e' h' ha' => hQ t' e' h' (by omega)
    · have htype (s : State) : (Goal.returnType kind).step t₂ s =
          wantType t₂ fun _ => .take [] [.routineName kind false] s := by
        simp only [Goal.step, if_neg hvoid]
      simp only [tracks_isAt_neg h₂.current hvoid, Bool.false_eq_true, if_false, tracks_bind]
      refine pays_type _ _ n h₂ htype (hp₁.behind h₂.advances_le (by omega)) fun _ t₃ e₃ h₃ _ ha₃ => ?_
      exact tracks_namedRoutine h₃ hp₁ (by omega) fun t' e' h' ha' => hQ t' e' h' (by omega)

/-- The members of a class are read up to the closing brace. -/
theorem tracks_members {Q : Unit → Engine → Prop} (h : e.At m c t (.members :: agenda))
    (hp : Enters m path n .members e.advances)
    (hQ : ∀ t' e', e'.At m c t' (.members :: agenda) → t'.lexeme = .symbol .rightBrace → Q () e') :
    Tracks m c (members n) path e Q := by
  induction n generalizing e t path with
  | zero => exact hp.bound_ne_zero.elim
  | succ n ih =>
    rw [members]
    refine tracks_call h hp fun e₁ h₁ hp₁ _ => ?_
    rw [tracks_bind]
    by_cases hclose : t.lexeme = .symbol .rightBrace
    · simp only [tracks_isAt_pos h₁.current hclose, if_true, tracks_pure]
      exact hQ t e₁ h₁ hclose
    simp only [tracks_isAt_neg h₁.current hclose, Bool.false_eq_true, if_false, tracks_bind]
    refine tracks_extract h₁ (fun hnone => ?_) fun word hword => ?_
    · rw [Goal.step, Goal.memberStep]
      split <;> simp_all [Token.keyword?]
    have ht := lexeme_of_keyword? hword
    have hmore (t₂ : Token) (e₂ : Engine) (h₂ : e₂.At m c t₂ (.members :: agenda)) (ha₂ : e₁.advances < e₂.advances) :
        Tracks m c (members n) ({ production := .members, advances := e₁.advances } :: path) e₂ Q :=
      ih h₂ (hp₁.behind h₂.advances_le ha₂)
    split <;> rw [tracks_bind]
    · exact tracks_classVariables h₁ (fun s => by rw [Goal.step, Goal.memberStep, ht]) (hp₁.inside (by decide)) hmore
    · exact tracks_classVariables h₁ (fun s => by rw [Goal.step, Goal.memberStep, ht]) (hp₁.inside (by decide)) hmore
    · exact tracks_routine h₁ (fun s => by rw [Goal.step, Goal.memberStep, ht]) (hp₁.inside (by decide)) hmore
    · exact tracks_routine h₁ (fun s => by rw [Goal.step, Goal.memberStep, ht]) (hp₁.inside (by decide)) hmore
    · exact tracks_routine h₁ (fun s => by rw [Goal.step, Goal.memberStep, ht]) (hp₁.inside (by decide)) hmore
    · refine tracks_unexpected h₁.current (h₁.fail ?_)
      rw [Goal.step, Goal.memberStep]
      split <;> simp_all

/-! ### Classes -/

theorem tracks_endOfSource (h : e.Owes m c [] []) :
    Tracks m c endOfSource path e fun _ e' => e'.Stops m c (.ok ()) := by
  have hle := h.advances_le
  obtain ⟨hnested, hahead, -, -, hrest⟩ := h
  have hfollows : e.cursor.Follows { e.cursor.toShowing with pending := e.cursor.unreadItems } :=
    ⟨rfl, by rw [hahead]⟩
  obtain ⟨hmore, hbehind⟩ := hfollows.hasMore
  have hlook : hasMore path e = some (.ok e.cursor.hasMore.1, { e with cursor := e.cursor.hasMore.2 }) := rfl
  rw [endOfSource, tracks_bind, tracks_of_eq hlook, hmore]
  cases hitems : e.cursor.unreadItems with
  | nil =>
    rw [hitems] at hrest
    exact tracks_pure.mpr ⟨hnested, Nat.le_succ_of_le hle, hrest.symm⟩
  | cons item rest =>
    rw [hitems] at hrest hbehind
    obtain ⟨hmoved, hshown⟩ := hbehind.advance
    simp only [List.isEmpty_cons, Bool.not_false, if_true, tracks_bind]
    cases item with
    | error err => exact tracks_of_error (advance_of_error hmoved) ⟨hnested, Nat.succ_le_succ hle, hrest.symm⟩
    | ok t =>
      rw [tracks_of_eq (advance_of_ok hmoved)]
      exact tracks_unexpected (congrArg Showing.current? hshown.showing) ⟨hnested, Nat.succ_le_succ hle, hrest.symm⟩

/-- The descent over a whole source comes to the result of the compilation. -/
theorem tracks_class (source : String) (start : Nat) {bound : Nat}
    (hbound : 4 * ((Item.ofSource source).length + 1) ≤ bound) :
    Tracks (Item.ofSource source).length (compile source start) (class_ bound) [] (.ofSource source start) fun _ e =>
      e.Stops (Item.ofSource source).length (compile source start) (.ok ()) := by
  have hp : Enters (Item.ofSource source).length [] bound .class_ 0 :=
    ⟨⟨List.pairwise_singleton _ _, by simp [Call.weight, Production.level]⟩, by omega⟩
  cases bound with
  | zero => exact hp.bound_ne_zero.elim
  | succ n =>
    have hstart : ({ Engine.ofSource source start with calls := [[{ production := .class_, advances := 0 }]] } :
        Engine).Owes (Item.ofSource source).length (compile source start) [] Goal.ofClass :=
      ⟨by simpa using hp.nested, rfl, rfl, Nat.zero_add _, rfl⟩
    simp only [class_, tracks_call_iff, tracks_bind, tracks_change, tracks_tell]
    refine tracks_advance hstart fun t₁ e₁ h₁ ha₁ => ?_
    replace ha₁ : e₁.advances = 1 := ha₁
    refine tracks_consumeKeyword h₁ fun t₂ e₂ h₂ ha₂ => ?_
    refine tracks_consumeIdentifier h₂ rfl fun name t₃ e₃ h₃ hs₃ ha₃ => ?_
    rw [hs₃]
    refine tracks_consumeSymbol (h₃.done rfl) fun t₄ e₄ h₄ ha₄ => ?_
    refine tracks_members h₄ (hp.behind h₄.advances_le (by omega)) fun t₅ e₅ h₅ ht₅ => ?_
    have hstep : Goal.members.step t₅ e₅.state = .take [] [] e₅.state := by
      rw [Goal.step, Goal.memberStep, ht₅]
    exact tracks_endOfSource (h₅.take hstep)

theorem exists_stops (source : String) (start : Nat) {bound : Nat}
    (hbound : 4 * ((Item.ofSource source).length + 1) ≤ bound) :
    ∃ outcome e, class_ bound [] (.ofSource source start) = some (outcome, e) ∧
      e.Stops (Item.ofSource source).length (compile source start) outcome := by
  obtain ⟨outcome, e, hrun, hend⟩ := tracks_class source start hbound
  refine ⟨outcome, e, hrun, ?_⟩
  cases outcome <;> exact hend

end Descent

/-! ### Whole sources -/

/-- The pass comes to an end on every source. Each piece of a text, gap or item, leaves less text behind it, so a source
has no more items than characters; the cursor gives them one after the other, with less text behind each, and then none
for ever. A descent whose calls may nest four deep for each item, and four deep more, has an outcome, which is that of
the compilation. It moves the cursor at most once for each item and once more. Its calls nest no deeper than so, and a
routine is called inside of itself, as for the next turn of a loop, only behind a move. -/
theorem descent_of_source (source : String) (start : Nat) :
    (∀ c rest, (Piece.cut c rest).2.length < (c :: rest).length) ∧
    (Item.ofSource source).length ≤ source.length ∧
    (∀ n, ((Cursor.ofSource source).behind n).next.1 = (Item.ofSource source)[n]? ∧
      (n < (Item.ofSource source).length →
        ((Cursor.ofSource source).behind (n + 1)).unread.length < ((Cursor.ofSource source).behind n).unread.length)) ∧
    ∀ bound, 4 * ((Item.ofSource source).length + 1) ≤ bound →
      ∃ outcome e, Descent.class_ bound [] (.ofSource source start) = some (outcome, e) ∧
        compile source start = { trace := e.trace.toList, result := outcome } ∧
        e.advances ≤ (Item.ofSource source).length + 1 ∧
        ∀ path ∈ e.calls, path.length ≤ 4 * ((Item.ofSource source).length + 1) ∧
          path.Pairwise fun inner outer => inner.production = outer.production → outer.advances < inner.advances := by
  refine ⟨Piece.cut_snd_length_lt, Item.length_ofSource_le source, fun n => ?_, fun bound hbound => ?_⟩
  · have hread := Cursor.hasRead_behind source n
    have hitem := hread.next.1
    rw [List.head?_drop] at hitem
    refine ⟨hitem, fun hn => hread.length_lt ?_⟩
    rw [hitem, List.getElem?_eq_getElem hn]
    exact Option.some_ne_none _
  · obtain ⟨outcome, e, hrun, hstops⟩ := Descent.exists_stops source start hbound
    refine ⟨outcome, e, hrun, hstops.compilation, hstops.advances_le, fun path hpath => ?_⟩
    have hnested := hstops.nested path hpath
    exact ⟨hnested.length_le, hnested.advances_lt⟩

/-- A class that breaks off inside of an expression. -/
theorem descent_of_source_truncated :
    4 * ((Item.ofSource "class A \x7b function int f() \x7b return -((1").length + 1) ≤ 60 ∧
    ∃ outcome e,
      Descent.class_ 60 [] (.ofSource "class A \x7b function int f() \x7b return -((1" 0) = some (outcome, e) ∧
      compile "class A \x7b function int f() \x7b return -((1" 0 = { trace := e.trace.toList, result := outcome } ∧
      e.advances ≤ 15 ∧ ∀ path ∈ e.calls, path.length ≤ 60 := by
  have hitems : (Item.ofSource "class A \x7b function int f() \x7b return -((1").length = 14 := by decide +kernel
  obtain ⟨-, -, -, hdescent⟩ := descent_of_source "class A \x7b function int f() \x7b return -((1" 0
  rw [hitems] at hdescent
  obtain ⟨outcome, e, hrun, hcompile, hadvances, hcalls⟩ := hdescent 60 (by decide)
  exact ⟨by omega, outcome, e, hrun, hcompile, hadvances, fun path hpath => (hcalls path hpath).1⟩

-- All items are read, and then the end of the source once more.
example :
    (Descent.class_ 60 [] (.ofSource "class A \x7b function int f() \x7b return -((1" 0)).map
      (fun run => (run.2.advances, (run.2.calls.map List.length).max?)) = some (15, some 13) := by
  decide +kernel

end JackToVm
