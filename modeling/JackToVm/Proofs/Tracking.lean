import JackToVm.Proofs.Descent
import JackToVm.Proofs.Exhaustion

/-!
A descent beside the agenda. An engine owes an agenda when the pass, with that agenda, comes from the engine's state to
a given compilation (`Engine.Owes`). A part of a descent tracks the compilation when it pays off what the engine owes,
or stops with the error of the compilation (`Descent.Tracks`). Calls inside of each other get heavier: a routine calls
another one behind a move of the cursor, or one of a higher level.
-/

namespace JackToVm

/-! ### Calls inside of each other -/

/-- Before the cursor moves, a routine calls only routines of higher levels. -/
def Production.level : Production → Nat
  | classVariables | localVariables | routine | parameters => 1
  | letStatement | ifStatement | whileStatement | doStatement | returnStatement | expression => 1
  | type | term => 2
  | string | nameTerm => 3
  | _ => 0

theorem Production.level_lt (p : Production) : p.level < 4 := by
  cases p <;> decide

/-- What grows from each call to the calls inside of it. -/
def Call.weight (call : Call) : Nat :=
  4 * call.advances + call.production.level

/-- Calls inside of each other, from the inside out, over a source with `m` items. -/
structure Nested (m : Nat) (path : List Call) : Prop where
  heavier : path.Pairwise fun inner outer => outer.weight < inner.weight
  weight_lt : ∀ call ∈ path, call.weight < 4 * (m + 1)

namespace Nested
variable {m : Nat} {path : List Call}

theorem length_le_of_weight_lt {bound : Nat} (hheavier : path.Pairwise fun inner outer => outer.weight < inner.weight)
    (hbound : ∀ call ∈ path, call.weight < bound) : path.length ≤ bound := by
  induction path generalizing bound with
  | nil => exact Nat.zero_le _
  | cons call path ih =>
    rw [List.pairwise_cons] at hheavier
    have hshort := ih hheavier.2 hheavier.1
    have hcall := hbound call List.mem_cons_self
    rw [List.length_cons]
    omega

theorem length_le (h : Nested m path) : path.length ≤ 4 * (m + 1) :=
  length_le_of_weight_lt h.heavier h.weight_lt

/-- A routine that is called inside of itself was left behind by the cursor. -/
theorem advances_lt (h : Nested m path) :
    path.Pairwise fun inner outer => inner.production = outer.production → outer.advances < inner.advances := by
  refine h.heavier.imp fun {inner outer} hlt hsame => ?_
  rw [Call.weight, Call.weight, hsame] at hlt
  omega

end Nested

/-- A routine can be called: its call is heavier than those around it, and the bound on the calls inside is wide
enough. -/
structure Enters (m : Nat) (path : List Call) (bound : Nat) (p : Production) (advances : Nat) : Prop where
  nested : Nested m ({ production := p, advances } :: path)
  bound_le : 4 * (m + 1) ≤ bound + (4 * advances + p.level)

namespace Enters
variable {m n a b : Nat} {path : List Call} {p q : Production}

theorem bound_ne_zero (h : Enters m path 0 p a) : False := by
  have hlt := h.nested.weight_lt _ List.mem_cons_self
  have hle := h.bound_le
  simp only [Call.weight] at hlt
  omega

theorem of_weight_lt (h : Enters m path (n + 1) p a) (hb : b ≤ m) (hlt : 4 * a + p.level < 4 * b + q.level) :
    Enters m ({ production := p, advances := a } :: path) n q b := by
  have hlevel := q.level_lt
  have hle := h.bound_le
  obtain ⟨hheavier, hbound⟩ := h.nested
  refine ⟨⟨List.pairwise_cons.mpr ⟨?_, hheavier⟩, List.forall_mem_cons.mpr ⟨?_, hbound⟩⟩, by omega⟩
  · rw [List.pairwise_cons] at hheavier
    refine List.forall_mem_cons.mpr ⟨hlt, fun outer houter => ?_⟩
    exact Nat.lt_trans (hheavier.1 outer houter) hlt
  · simp only [Call.weight]
    omega

/-- A routine of a higher level can be called in the same place. -/
theorem inside (h : Enters m path (n + 1) p a) (hlevel : p.level < q.level) :
    Enters m ({ production := p, advances := a } :: path) n q a := by
  have hlt := h.nested.weight_lt _ List.mem_cons_self
  simp only [Call.weight] at hlt
  exact h.of_weight_lt (by omega) (by omega)

/-- Any routine can be called behind a move of the cursor. -/
theorem behind (h : Enters m path (n + 1) p a) (hb : b ≤ m) (hlt : a < b) :
    Enters m ({ production := p, advances := a } :: path) n q b := by
  have hlevel := p.level_lt
  exact h.of_weight_lt hb (by omega)

end Enters

/-! ### Debts -/

/-- What a goal does with a token, with more goals behind. -/
def Step.before (goals : List Goal) : Step → Step
  | .take events front s => .take events (front ++ goals) s
  | step => step

namespace Engine

/-- The pass comes to the compilation, with this agenda, on some items in front of those that are not read yet. The sink
takes all that is written. -/
structure Owes (e : Engine) (m : Nat) (c : Compilation) (front : List Item) (agenda : List Goal) : Prop where
  nested : ∀ path ∈ e.calls, Nested m path
  ahead : e.cursor.ahead? = none
  unlimited : e.sink.limit? = none
  total : e.advances + e.cursor.unreadItems.length = m
  rest : Goal.run e.cursor.finish e.trace (front ++ e.cursor.unreadItems) agenda e.state = c

/-- The agenda is owed on the current token and the items behind it. -/
structure At (e : Engine) (m : Nat) (c : Compilation) (t : Token) (agenda : List Goal) : Prop
    extends e.Owes m c [.ok t] agenda where
  current : e.cursor.current? = some t

/-- The descent stops with the result of the compilation. -/
structure Stops (e : Engine) (m : Nat) (c : Compilation) (result : Except CompileError Unit) : Prop where
  nested : ∀ path ∈ e.calls, Nested m path
  advances_le : e.advances ≤ m + 1
  compilation : c = { trace := e.trace.toList, result }

theorem Owes.advances_le {e : Engine} {m : Nat} {c : Compilation} {front : List Item} {agenda : List Goal}
    (h : e.Owes m c front agenda) : e.advances ≤ m := by
  have htotal := h.total
  omega

/-- What was written before does not matter. -/
theorem Owes.into {e : Engine} {m : Nat} {c : Compilation} {front : List Item} {agenda : List Goal}
    (h : e.Owes m c front agenda) {sink : Vm.Sink} (hs : sink.limit? = none) :
    ({ e with sink } : Engine).Owes m c front agenda :=
  ⟨h.nested, h.ahead, hs, h.total, h.rest⟩

namespace At
variable {e : Engine} {m : Nat} {c : Compilation} {t : Token} {g : Goal} {agenda : List Goal} {events : List Event}
  {goals : List Goal} {s : State} {err : CompileError}

/-- Agendas that do the same with the current token can stand for each other. -/
theorem swap (h : e.At m c t agenda) {agenda' : List Goal}
    (hs : Goal.settle t e.trace agenda e.state = Goal.settle t e.trace agenda' e.state) : e.At m c t agenda' := by
  refine ⟨⟨h.nested, h.ahead, h.unlimited, h.total, ?_⟩, h.current⟩
  rw [← h.rest]
  simp only [List.singleton_append, Goal.run, hs]

/-- A goal can stand for another one that does the same with the current token. -/
theorem same (h : e.At m c t (g :: agenda)) {g' : Goal} (hg : g.step t e.state = g'.step t e.state) :
    e.At m c t (g' :: agenda) :=
  h.swap (by simp only [Goal.settle, hg])

/-- A goal that does what another one does, and puts more goals behind, can be split in two. -/
theorem split (h : e.At m c t (g :: agenda)) {g' : Goal} (hg : g.step t e.state = (g'.step t e.state).before goals)
    (hdone : ∀ events s, g'.step t e.state ≠ .done events s) : e.At m c t (g' :: (goals ++ agenda)) := by
  refine h.swap ?_
  rw [Goal.settle, Goal.settle, hg]
  cases hstep : g'.step t e.state with
  | fail err => rfl
  | done events s => exact absurd hstep (hdone events s)
  | take events front s => simp only [Step.before, List.append_assoc]

/-- A goal that takes the current token can be split: first the token is taken, then the new goals come. -/
theorem expand (h : e.At m c t (g :: agenda)) (hg : g.step t e.state = .take [] goals e.state) {g' : Goal}
    (hg' : g'.step t e.state = .take [] [] e.state) : e.At m c t (g' :: (goals ++ agenda)) :=
  h.split (by rw [hg, hg']; rfl) (by simp [hg'])

theorem take (h : e.At m c t (g :: agenda)) (hg : g.step t e.state = .take events goals s) :
    ({ e with trace := e.trace ++ events, state := s } : Engine).Owes m c [] (goals ++ agenda) := by
  refine ⟨h.nested, h.ahead, h.unlimited, h.total, ?_⟩
  rw [← h.rest]
  simp only [List.singleton_append, List.nil_append, Goal.run, Goal.settle, hg]

theorem done (h : e.At m c t (g :: agenda)) (hg : g.step t e.state = .done events s) :
    ({ e with trace := e.trace ++ events, state := s } : Engine).At m c t agenda := by
  refine ⟨⟨h.nested, h.ahead, h.unlimited, h.total, ?_⟩, h.current⟩
  rw [← h.rest]
  simp only [List.singleton_append, Goal.run, Goal.settle, hg]

theorem fail (h : e.At m c t (g :: agenda)) (hg : g.step t e.state = .fail err) : e.Stops m c (.error err) := by
  refine ⟨h.nested, Nat.le_succ_of_le h.advances_le, ?_⟩
  rw [← h.rest]
  simp only [List.singleton_append, Goal.run, Goal.settle, hg]

end At

end Engine

/-! ### Moves of the cursor -/

/-- What a move gives when nothing was seen ahead. -/
theorem Cursor.advance_cases {cursor : Cursor} (h : cursor.ahead? = none) :
    match cursor.unreadItems with
    | [] => cursor.advance.1 = .error (.endOfSource cursor.finish)
    | .error err :: _ => cursor.advance.1 = .error (.lexical err)
    | .ok t :: rest =>
      cursor.advance.1 = .ok () ∧ cursor.advance.2.ahead? = none ∧ cursor.advance.2.unreadItems = rest ∧
        cursor.advance.2.toShowing = { finish := cursor.finish, current? := some t } := by
  obtain ⟨hitem, hrest, hshown, hahead⟩ := cursor.read_eq
  rw [h] at hahead
  rw [advance, next_of_ahead h]
  generalize cursor.read = read at hitem hrest hshown hahead
  obtain ⟨item?, behind⟩ := read
  cases hitems : cursor.unreadItems with
  | nil =>
    rw [hitems] at hitem
    cases hitem
    exact congrArg (Except.error ∘ TokenError.endOfSource ∘ Showing.finish) hshown
  | cons item rest =>
    rw [hitems] at hitem hrest
    cases hitem
    cases item with
    | error err => rfl
    | ok t => exact ⟨rfl, hahead, hrest, congrArg (fun v : Showing => { v with current? := some t }) hshown⟩

theorem Showing.extract_eq {α : Type} {v : Showing} {t : Token} (h : v.current? = some t) (wanted : LexemeClass)
    (view : Token → Option α) :
    v.extract wanted view = match view t with
      | some a => .ok a
      | none => .error (.mismatch (.lexemeClass wanted) t) := by
  cases hview : view t <;> simp only [extract, current, mismatch, h, bind, Except.bind, hview]

namespace Descent
variable {α β : Type}

/-! ### Parts of a descent -/

/-- A part of a descent has a result. It stops with the error of the compilation, or `Q` holds behind it. -/
def Tracks (m : Nat) (c : Compilation) (x : Descent α) (path : List Call) (e : Engine) (Q : α → Engine → Prop) : Prop :=
  ∃ outcome e', x path e = some (outcome, e') ∧
    match outcome with
    | .ok a => Q a e'
    | .error err => e'.Stops m c (.error err)

section
variable {m n : Nat} {c : Compilation} {path : List Call} {e : Engine} {t : Token} {g : Goal} {agenda : List Goal}

theorem tracks_of_eq {x : Descent α} {a : α} {e' : Engine} {Q : α → Engine → Prop} (h : x path e = some (.ok a, e')) :
    Tracks m c x path e Q ↔ Q a e' := by
  simp only [Tracks, h]
  constructor
  · rintro ⟨_, _, heq, hQ⟩
    cases heq
    exact hQ
  · exact fun hQ => ⟨_, _, rfl, hQ⟩

theorem tracks_of_error {x : Descent α} {err : CompileError} {e' : Engine} {Q : α → Engine → Prop}
    (h : x path e = some (.error err, e')) (hstops : e'.Stops m c (.error err)) : Tracks m c x path e Q :=
  ⟨_, _, h, hstops⟩

theorem tracks_bind {x : Descent α} {f : α → Descent β} {Q : β → Engine → Prop} :
    Tracks m c (x >>= f) path e Q ↔ Tracks m c x path e fun a e' => Tracks m c (f a) path e' Q := by
  simp only [Tracks, bind]
  cases x path e with
  | none => simp
  | some result =>
    obtain ⟨outcome, e'⟩ := result
    cases outcome <;> simp

theorem tracks_pure {a : α} {Q : α → Engine → Prop} : Tracks m c (pure a) path e Q ↔ Q a e :=
  tracks_of_eq rfl

theorem tracks_look {view : Showing → α} {Q : α → Engine → Prop} :
    Tracks m c (look view) path e Q ↔ Q (view e.cursor.toShowing) e :=
  tracks_of_eq rfl

theorem tracks_know {view : State → α} {Q : α → Engine → Prop} :
    Tracks m c (know view) path e Q ↔ Q (view e.state) e :=
  tracks_of_eq rfl

theorem tracks_change {f : State → State} {Q : Unit → Engine → Prop} :
    Tracks m c (change f) path e Q ↔ Q () { e with state := f e.state } :=
  tracks_of_eq rfl

theorem tracks_tell {event : Event} {Q : Unit → Engine → Prop} :
    Tracks m c (tell event) path e Q ↔ Q () { e with trace := e.trace.push event } :=
  tracks_of_eq rfl

/-- A sink without a limit takes each line. -/
theorem tracks_wrote {i : Vm.Instruction} {Q : Unit → Engine → Prop} (h : e.sink.limit? = none)
    (hQ : ∀ sink : Vm.Sink, sink.limit? = none → Q () { e with sink, trace := e.trace.push (.wrote i) }) :
    Tracks m c (write i) path e Q := by
  have hwrite : write i path e =
      some (.ok (), { e with sink := e.sink.write i.line, trace := e.trace.push (.wrote i) }) := by
    simp only [write, Vm.Sink.hasRoom, h, if_true]
  exact (tracks_of_eq hwrite).mpr (hQ _ ((e.sink.limit?_write i.line).trans h))

theorem tracks_writeAll {is : List Vm.Instruction} {Q : Unit → Engine → Prop} (h : e.sink.limit? = none)
    (hQ : ∀ sink : Vm.Sink, sink.limit? = none → Q () { e with sink, trace := e.trace ++ is.map Event.wrote }) :
    Tracks m c (writeAll is) path e Q := by
  induction is generalizing e with
  | nil => exact tracks_pure.mpr (hQ e.sink h)
  | cons i is ih =>
    rw [writeAll, tracks_bind]
    exact tracks_wrote h fun _ hs => ih hs hQ

theorem tracks_drawLabel {Q : Nat → Engine → Prop} :
    Tracks m c drawLabel path e Q ↔ Q e.state.labels.next { e with
      state := { e.state with labels := e.state.labels.draw.2 }, trace := e.trace.push (.drew e.state.labels.next) } :=
  tracks_of_eq rfl

theorem tracks_call_iff {x : Descent α} {p : Production} {Q : α → Engine → Prop} :
    Tracks m c (call p x) path e Q ↔ Tracks m c x ({ production := p, advances := e.advances } :: path)
      { e with calls := ({ production := p, advances := e.advances } :: path) :: e.calls } Q :=
  Iff.rfl

theorem tracks_call {x : Descent α} {p : Production} {Q : α → Engine → Prop} (h : e.At m c t agenda)
    (hp : Enters m path (n + 1) p e.advances)
    (hx : ∀ e', e'.At m c t agenda → Enters m path (n + 1) p e'.advances → e'.advances = e.advances →
      Tracks m c x ({ production := p, advances := e'.advances } :: path) e' Q) :
    Tracks m c (call p x) path e Q := by
  have hnested := List.forall_mem_cons.mpr ⟨hp.nested, h.nested⟩
  exact hx { e with calls := _ :: e.calls } ⟨⟨hnested, h.ahead, h.unlimited, h.total, h.rest⟩, h.current⟩ hp rfl

/-! ### Moves and tests -/

theorem advance_of_ok (h : e.cursor.advance.1 = .ok ()) :
    advance path e = some (.ok (), { e with cursor := e.cursor.advance.2, advances := e.advances + 1 }) := by
  simp only [advance, h]
  rfl

theorem advance_of_error {err : TokenError} (h : e.cursor.advance.1 = .error err) :
    advance path e =
      some (.error (.ofTokenError err), { e with cursor := e.cursor.advance.2, advances := e.advances + 1 }) := by
  simp only [advance, h]
  rfl

/-- A move is made with what is owed behind the current token. A change of the state may come behind the move. -/
theorem tracks_advance_of {s : State} {Q : Unit → Engine → Prop}
    (h : ({ e with state := s } : Engine).Owes m c [] (g :: agenda))
    (hQ : ∀ t e', ({ e' with state := s } : Engine).At m c t (g :: agenda) → e'.state = e.state →
      e'.advances = e.advances + 1 → Q () e') : Tracks m c advance path e Q := by
  have hle : e.advances ≤ m := h.advances_le
  obtain ⟨hnested, hahead, hunlimited, htotal, hrest⟩ := h
  have hcases := Cursor.advance_cases hahead
  cases hitems : e.cursor.unreadItems with
  | nil =>
    simp only [hitems] at hcases hrest
    exact tracks_of_error (advance_of_error hcases) ⟨hnested, Nat.succ_le_succ hle, hrest.symm⟩
  | cons item rest =>
    simp only [hitems, List.length_cons] at hcases hrest htotal
    cases item with
    | error err => exact tracks_of_error (advance_of_error hcases) ⟨hnested, Nat.succ_le_succ hle, hrest.symm⟩
    | ok t =>
      obtain ⟨hmoved, hahead', hunread, hshown⟩ := hcases
      have hfinish : e.cursor.advance.2.finish = e.cursor.finish := by rw [hshown]
      refine (tracks_of_eq (advance_of_ok hmoved)).mpr (hQ t _ ⟨⟨hnested, hahead', hunlimited, ?_, ?_⟩, ?_⟩ rfl rfl)
      · simp only [hunread]
        omega
      · simp only [hunread, hfinish]
        exact hrest
      · exact congrArg Showing.current? hshown

theorem tracks_advance {Q : Unit → Engine → Prop} (h : e.Owes m c [] (g :: agenda))
    (hQ : ∀ t e', e'.At m c t (g :: agenda) → e'.advances = e.advances + 1 → Q () e') :
    Tracks m c advance path e Q :=
  tracks_advance_of (s := e.state) h fun t e' he' hs => hQ t e' (by rw [← hs] at he'; exact he')

theorem tracks_isAt_pos (h : e.cursor.current? = some t) {lexeme : Lexeme} (ht : t.lexeme = lexeme)
    {Q : Bool → Engine → Prop} : Tracks m c (isAt lexeme) path e Q ↔ Q true e := by
  simp only [isAt, tracks_look, Showing.isAt, h, decide_eq_true ht]

theorem tracks_isAt_neg (h : e.cursor.current? = some t) {lexeme : Lexeme} (ht : t.lexeme ≠ lexeme)
    {Q : Bool → Engine → Prop} : Tracks m c (isAt lexeme) path e Q ↔ Q false e := by
  simp only [isAt, tracks_look, Showing.isAt, h, decide_eq_false ht]

theorem tracks_current (h : e.cursor.current? = some t) {Q : Token → Engine → Prop} :
    Tracks m c (ask Showing.current) path e Q ↔ Q t e :=
  tracks_of_eq (by rw [ask, Showing.current, h]; rfl)

theorem tracks_unexpected (h : e.cursor.current? = some t) {expected : Expected} {Q : α → Engine → Prop}
    (hstops : e.Stops m c (.error (.unexpected expected t))) : Tracks m c (unexpected expected) path e Q := by
  rw [unexpected, tracks_bind, tracks_look, Showing.mismatch, h]
  exact tracks_of_error rfl hstops

/-- The current token is of the wanted class, or the goal that wants it fails. -/
theorem tracks_extract {wanted : LexemeClass} {view : Token → Option α} {Q : α → Engine → Prop}
    (h : e.At m c t (g :: agenda))
    (hg : view t = none → g.step t e.state = .fail (.unexpected (.lexemeClass wanted) t))
    (hQ : ∀ a, view t = some a → Q a e) : Tracks m c (ask (·.extract wanted view)) path e Q := by
  have hask : ask (·.extract wanted view) path e = some (match view t with
      | some a => .ok a
      | none => .error (.unexpected (.lexemeClass wanted) t), e) := by
    rw [ask, Showing.extract_eq h.current]
    cases view t <;> rfl
  cases hview : view t with
  | none =>
    rw [hview] at hask
    exact tracks_of_error hask (h.fail (hg hview))
  | some a =>
    rw [hview] at hask
    exact (tracks_of_eq hask).mpr (hQ a hview)

theorem tracks_consume {wanted : Lexeme} {expected : Expected} {next : Goal} {Q : Unit → Engine → Prop}
    (h : e.At m c t (g :: next :: agenda))
    (hg : g.step t e.state =
      if t.lexeme = wanted then .take [] [] e.state else .fail (.unexpected expected t))
    (hQ : ∀ t' e', e'.At m c t' (next :: agenda) → e'.advances = e.advances + 1 → Q () e') :
    Tracks m c (consume wanted expected) path e Q := by
  rw [consume, tracks_bind]
  by_cases ht : t.lexeme = wanted
  · rw [if_pos ht] at hg
    rw [tracks_isAt_pos h.current ht]
    exact tracks_advance (h.take hg) hQ
  · rw [if_neg ht] at hg
    rw [tracks_isAt_neg h.current ht]
    exact tracks_unexpected h.current (h.fail hg)

theorem tracks_consumeSymbol {x : Symbol} {next : Goal} {Q : Unit → Engine → Prop}
    (h : e.At m c t (.symbol x :: next :: agenda))
    (hQ : ∀ t' e', e'.At m c t' (next :: agenda) → e'.advances = e.advances + 1 → Q () e') :
    Tracks m c (consumeSymbol x) path e Q :=
  tracks_consume h rfl hQ

theorem tracks_consumeKeyword {word : Keyword} {next : Goal} {Q : Unit → Engine → Prop}
    (h : e.At m c t (.keyword word :: next :: agenda))
    (hQ : ∀ t' e', e'.At m c t' (next :: agenda) → e'.advances = e.advances + 1 → Q () e') :
    Tracks m c (consumeKeyword word) path e Q :=
  tracks_consume h rfl hQ

/-- The keyword that is the current token is consumed by a move. -/
theorem tracks_keyword {word : Keyword} {Q : Unit → Engine → Prop} (h : e.cursor.current? = some t)
    (ht : t.lexeme = .keyword word) (hQ : Tracks m c advance path e Q) : Tracks m c (consumeKeyword word) path e Q := by
  rw [consumeKeyword, consume, tracks_bind, tracks_isAt_pos h ht]
  exact hQ

/-- The name that is the current token is consumed by a move. -/
theorem tracks_identifier {name : String} {Q : String → Engine → Prop} (h : e.cursor.current? = some t)
    (ht : t.lexeme = .identifier name) (hQ : Tracks m c advance path e fun _ e' => Q name e') :
    Tracks m c consumeIdentifier path e Q := by
  have hask : ask Showing.identifier path e = some (.ok name, e) := by
    rw [ask, Showing.identifier, Showing.extract_eq h, Token.identifier?, ht]
    rfl
  simp only [consumeIdentifier, tracks_bind, tracks_of_eq hask, tracks_pure]
  exact hQ

/-- A name is consumed where the agenda wants one. What the agenda does to the state comes behind the move. -/
theorem tracks_consumeIdentifier {goals : String → List Goal} {next : String → Goal} {after : String → State}
    {Q : String → Engine → Prop} (h : e.At m c t (g :: agenda))
    (hg : g.step t e.state = Goal.wantName t fun name => .take [] (next name :: goals name) (after name))
    (hQ : ∀ name t' e', ({ e' with state := after name } : Engine).At m c t' (next name :: (goals name ++ agenda)) →
      e'.state = e.state → e'.advances = e.advances + 1 → Q name e') :
    Tracks m c consumeIdentifier path e Q := by
  rw [Goal.wantName] at hg
  simp only [consumeIdentifier, tracks_bind, tracks_pure]
  refine tracks_extract h (fun hnone => by rw [hg, hnone]) fun name hname => ?_
  rw [hname] at hg
  exact tracks_advance_of (h.take hg) (hQ name)

/-- A name is consumed where the agenda wants one and leaves the state as it is. -/
theorem tracks_consumeName {goals : String → List Goal} {next : String → Goal} {Q : String → Engine → Prop}
    (h : e.At m c t (g :: agenda))
    (hg : g.step t e.state = Goal.wantName t fun name => .take [] (next name :: goals name) e.state)
    (hQ : ∀ name t' e', e'.At m c t' (next name :: (goals name ++ agenda)) → e'.state = e.state →
      e'.advances = e.advances + 1 → Q name e') : Tracks m c consumeIdentifier path e Q := by
  refine tracks_consumeIdentifier h hg fun name t' e' he' hs => hQ name t' e' ?_ hs
  rw [← hs] at he'
  exact he'

theorem tracks_write {i : Vm.Instruction} {Q : Unit → Engine → Prop} (h : e.At m c t (.write i :: agenda))
    (hQ : ∀ e', e'.At m c t agenda → e'.advances = e.advances → Q () e') : Tracks m c (write i) path e Q :=
  tracks_wrote h.unlimited fun _ hs => hQ _ ⟨(h.done rfl).toOwes.into hs, h.current⟩ rfl

/-- A variable is known, or the goal that looks it up fails. -/
theorem tracks_resolve {name : String} {span : Span} {k : Variable → Step} {Q : Variable → Engine → Prop}
    (h : e.At m c t (g :: agenda)) (hg : g.step t e.state = Goal.wantVariable e.state name span k)
    (hQ : ∀ v, g.step t e.state = k v → Q v e) : Tracks m c (resolve name span) path e Q := by
  rw [Goal.wantVariable] at hg
  rw [resolve, tracks_bind, tracks_know]
  cases hv : e.state.lookup? name with
  | none =>
    rw [hv] at hg
    exact tracks_of_error rfl (h.fail hg)
  | some v =>
    rw [hv] at hg
    exact tracks_pure.mpr (hQ v hg)

end
end Descent
end JackToVm
