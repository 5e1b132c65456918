import JackToVm.Proofs.Lexing
import JackToVm.Token.Operation

/-!
A cursor reads its text as it goes, and looks one item ahead when it is asked whether more follows. A `Listing` has all
items from the start. Each operation does the same to both (`Follows.apply`), so the cursor gives the answers of the
listing, whatever it was asked in between (`Follows.answers`).
-/

namespace JackToVm

/-! ### The items as a list -/

/-- What is shown of a source, and the list of the items that come next. -/
structure Listing extends Showing where
  pending : List Item
deriving Repr, Inhabited

namespace Listing

def ofSource (source : String) : Listing :=
  { finish := .atEnd source, pending := Item.ofSource source }

/-- Goes on to the next token. An error is dropped, and at the end nothing changes. -/
def advance (l : Listing) : Except TokenError Unit × Listing :=
  match l.pending with
  | .ok token :: pending => (.ok (), { l with pending, current? := some token })
  | .error e :: pending => (.error (.lexical e), { l with pending })
  | [] => (.error (.endOfSource l.finish), l)

/-- Goes on, and gives a value back if there is a next token. -/
def move (l : Listing) (value : Value) : Answer × Listing :=
  l.advance.map (·.map fun _ => value) id

def apply (l : Listing) : Operation → Answer × Listing
  | .ask query => (query.answer l.toShowing, l)
  | .hasMore => (.ok (.flag !l.pending.isEmpty), l)
  | .advance => l.move .unit
  | .consumeSymbol s => if l.isAt (.symbol s) then l.move .unit else (.error (l.mismatch (.symbol s)), l)
  | .consumeKeyword word => if l.isAt (.keyword word) then l.move .unit else (.error (l.mismatch (.keyword word)), l)
  | .consumeIdentifier =>
    match l.current?.bind Token.identifier? with
    | some name => l.move (.text name)
    | none => (.error (l.mismatch (.lexemeClass .identifier)), l)

def after (l : Listing) (ops : List Operation) : Listing :=
  ops.foldl (fun l op => (l.apply op).2) l

def answers (l : Listing) : List Operation → List Answer
  | [] => []
  | op :: ops => (l.apply op).1 :: (l.apply op).2.answers ops

end Listing

/-! ### Reading one item -/

/-- An item that is read off a text is the first one of the text, and the others are those of the text behind it. -/
theorem Item.read_eq (place : Position) (text : List Char) :
    (read place text).1 = (locate place (Piece.split text)).head? ∧
      locate (read place text).2.1 (Piece.split (read place text).2.2) = (locate place (Piece.split text)).tail := by
  fun_induction read place text with
  | case1 place => simp
  | case2 place c rest piece behind item hitem =>
    rw [Piece.split_cons, locate_cons, show ofPiece? (Piece.cut c rest).1 place _ = some item from hitem]
    exact ⟨rfl, rfl⟩
  | case3 place c rest piece behind hnone ih =>
    rw [Piece.split_cons, locate_cons, show ofPiece? (Piece.cut c rest).1 place _ = none from hnone]
    exact ih

namespace Cursor

/-- The items of the text that is not read yet. -/
def unreadItems (c : Cursor) : List Item :=
  Item.locate c.place (Piece.split c.unread)

theorem read_eq (c : Cursor) :
    c.read.1 = c.unreadItems.head? ∧ c.read.2.unreadItems = c.unreadItems.tail ∧
      c.read.2.toShowing = c.toShowing ∧ c.read.2.ahead? = c.ahead? :=
  ⟨(Item.read_eq c.place c.unread).1, (Item.read_eq c.place c.unread).2, rfl, rfl⟩

/-- The cursor shows what the listing shows, and has its items in front of it. One that has looked ahead knows the
first of them and has the others unread. -/
structure Follows (c : Cursor) (l : Listing) : Prop where
  showing : c.toShowing = l.toShowing
  items : match c.ahead? with
    | none => c.unreadItems = l.pending
    | some item? => item? = l.pending.head? ∧ c.unreadItems = l.pending.tail

theorem follows_ofSource (source : String) : (ofSource source).Follows (.ofSource source) :=
  ⟨rfl, rfl⟩

/-! ### Step by step -/

namespace Follows
variable {c : Cursor} {l : Listing}

theorem next (h : c.Follows l) :
    c.next.1 = l.pending.head? ∧ c.next.2.Follows { l with pending := l.pending.tail } := by
  obtain ⟨hshowing, hitems⟩ := h
  obtain ⟨hitem, hrest, hshown, hahead⟩ := c.read_eq
  unfold Cursor.next
  cases hc : c.ahead? with
  | none =>
    rw [hc] at hitems hahead
    rw [hitems] at hitem hrest
    exact ⟨hitem, hshown.trans hshowing, by rw [hahead]; exact hrest⟩
  | some item? =>
    rw [hc] at hitems
    exact ⟨hitems.1, hshowing, hitems.2⟩

/-- Looking ahead keeps what follows. -/
theorem hasMore (h : c.Follows l) : c.hasMore.1 = !l.pending.isEmpty ∧ c.hasMore.2.Follows l := by
  obtain ⟨hshowing, hitems⟩ := h
  obtain ⟨hitem, hrest, hshown, hahead⟩ := c.read_eq
  unfold Cursor.hasMore
  cases hc : c.ahead? with
  | none =>
    rw [hc] at hitems
    rw [hitems] at hitem hrest
    have hsome : c.read.1.isSome = !l.pending.isEmpty := by
      rw [hitem]
      cases l.pending <;> rfl
    exact ⟨hsome, hshown.trans hshowing, hitem, hrest⟩
  | some item? =>
    rw [hc] at hitems
    refine ⟨?_, hshowing, by rw [hc]; exact hitems⟩
    rw [hitems.1]
    cases l.pending <;> rfl

theorem advance (h : c.Follows l) : c.advance.1 = l.advance.1 ∧ c.advance.2.Follows l.advance.2 := by
  obtain ⟨hitem, hnext⟩ := h.next
  unfold Cursor.advance Listing.advance
  generalize c.next = next at hitem hnext
  obtain ⟨item?, c'⟩ := next
  -- The next item is the first of the list, so both sides take the same branch.
  cases hpending : l.pending with
  | nil =>
    rw [hpending] at hitem hnext
    cases hitem
    obtain ⟨hshowing, hitems⟩ := hnext
    refine ⟨?_, hshowing, ?_⟩
    · exact congrArg (Except.error ∘ TokenError.endOfSource ∘ Showing.finish) hshowing
    · rw [hpending]
      exact hitems
  | cons item pending =>
    rw [hpending] at hitem hnext
    cases hitem
    obtain ⟨hshowing, hitems⟩ := hnext
    cases item with
    | ok token => exact ⟨rfl, congrArg (fun v : Showing => { v with current? := some token }) hshowing, hitems⟩
    | error e => exact ⟨rfl, hshowing, hitems⟩

end Follows

/-- The answers are the same, and the cursor follows the listing. -/
def Agrees (x : Answer × Cursor) (y : Answer × Listing) : Prop :=
  x.1 = y.1 ∧ x.2.Follows y.2

namespace Follows
variable {c : Cursor} {l : Listing}

theorem move (h : c.Follows l) (value : Value) : Agrees (c.advance.map (·.map fun _ => value) id) (l.move value) :=
  ⟨congrArg (Except.map fun _ => value) h.advance.1, h.advance.2⟩

theorem consume (h : c.Follows l) (wanted : Lexeme) (expected : Expected) :
    Agrees ((c.consume wanted expected).map (·.map fun _ => .unit) id)
      (if l.isAt wanted then l.move .unit else (.error (l.mismatch expected), l)) := by
  unfold Cursor.consume
  rw [h.showing]
  split
  · exact h.move .unit
  · exact ⟨rfl, h⟩

end Follows

end Cursor

theorem Showing.identifier_eq (v : Showing) :
    v.identifier = match v.current?.bind Token.identifier? with
      | some name => .ok name
      | none => .error (v.mismatch (.lexemeClass .identifier)) := by
  simp only [identifier, extract, current, mismatch]
  cases v.current? with
  | none => rfl
  | some token =>
    simp only [bind, Except.bind, Option.bind_some]
    cases token.identifier? <;> rfl

namespace Cursor.Follows
variable {c : Cursor} {l : Listing}

theorem consumeIdentifier (h : c.Follows l) :
    Agrees (c.consumeIdentifier.map (·.map .text) id) (l.apply .consumeIdentifier) := by
  unfold Cursor.consumeIdentifier Listing.apply
  rw [h.showing, Showing.identifier_eq]
  cases l.current?.bind Token.identifier? with
  | none => exact ⟨rfl, h⟩
  | some name =>
    have hmove := h.move (.text name)
    cases hadvance : c.advance with
    | mk moved c' =>
      rw [hadvance] at hmove
      cases moved <;> exact hmove

/-- An operation does the same to a cursor and to the listing that it follows. -/
theorem apply (h : c.Follows l) (op : Operation) : Agrees (c.apply op) (l.apply op) := by
  cases op with
  | ask query => exact ⟨congrArg query.answer h.showing, h⟩
  | hasMore => exact ⟨congrArg (Except.ok ∘ Value.flag) h.hasMore.1, h.hasMore.2⟩
  | advance => exact h.move .unit
  | consumeSymbol s => exact h.consume (.symbol s) (.symbol s)
  | consumeKeyword word => exact h.consume (.keyword word) (.keyword word)
  | consumeIdentifier => exact h.consumeIdentifier

/-! ### Operations in a row -/

theorem after (h : c.Follows l) (ops : List Operation) : (c.after ops).Follows (l.after ops) := by
  induction ops generalizing c l with
  | nil => exact h
  | cons op ops ih => exact ih (h.apply op).2

theorem answers (h : c.Follows l) (ops : List Operation) : c.answers ops = l.answers ops := by
  induction ops generalizing c l with
  | nil => rfl
  | cons op ops ih => rw [Cursor.answers, Listing.answers, (h.apply op).1, ih (h.apply op).2]

end Cursor.Follows

/-! ### Queries -/

/-- Tells whether an operation only looks. -/
def Operation.isQuery : Operation → Bool
  | .ask _ | .hasMore => true
  | _ => false

namespace Listing

theorem apply_of_isQuery (l : Listing) {op : Operation} (h : op.isQuery = true) : (l.apply op).2 = l := by
  cases op with
  | ask query => rfl
  | hasMore => rfl
  | _ => cases h

theorem answers_append (l : Listing) (front back : List Operation) :
    l.answers (front ++ back) = l.answers front ++ (l.after front).answers back := by
  induction front generalizing l with
  | nil => rfl
  | cons op front ih => rw [List.cons_append, answers, ih, answers, List.cons_append, after, after, List.foldl_cons]

theorem length_answers (l : Listing) (ops : List Operation) : (l.answers ops).length = ops.length := by
  induction ops generalizing l with
  | nil => rfl
  | cons op ops ih => rw [answers, List.length_cons, ih, List.length_cons]

/-- A query can be left out: the other answers stay the same. -/
theorem eraseIdx_answers (l : Listing) (front back : List Operation) {op : Operation} (h : op.isQuery = true) :
    (l.answers (front ++ op :: back)).eraseIdx front.length = l.answers (front ++ back) := by
  have hlength : (l.answers front).length ≤ front.length := Nat.le_of_eq (l.length_answers front)
  rw [answers_append, answers_append, List.eraseIdx_append_of_length_le hlength, length_answers, Nat.sub_self, answers,
    List.eraseIdx_cons_zero, apply_of_isQuery _ h]

/-! ### Moves -/

theorem advance_of_ok {l : Listing} {t : Token} {rest : List Item} (h : l.pending = .ok t :: rest) :
    l.advance = (.ok (), { l with pending := rest, current? := some t }) := by
  simp only [advance, h]

theorem advance_of_error {l : Listing} {e : LexError} {rest : List Item} (h : l.pending = .error e :: rest) :
    l.advance = (.error (.lexical e), { l with pending := rest }) := by
  simp only [advance, h]

theorem advance_of_nil {l : Listing} (h : l.pending = []) : l.advance = (.error (.endOfSource l.finish), l) := by
  simp only [advance, h]

/-- A move takes at most the first item, and a move that fails keeps the current token. -/
theorem advance_keeps (l : Listing) :
    l.advance.2.finish = l.finish ∧ l.advance.2.pending <:+ l.pending ∧
      ∀ e, l.advance.1 = .error e → l.advance.2.current? = l.current? := by
  cases h : l.pending with
  | nil =>
    rw [advance_of_nil h, h]
    exact ⟨rfl, List.suffix_rfl, fun _ _ => rfl⟩
  | cons item rest =>
    cases item with
    | ok t =>
      rw [advance_of_ok h]
      refine ⟨rfl, List.suffix_cons .., fun e he => ?_⟩
      cases he
    | error e =>
      rw [advance_of_error h]
      exact ⟨rfl, List.suffix_cons .., fun _ _ => rfl⟩

/-- An operation keeps the listing, or it moves on. -/
theorem apply_cases (l : Listing) (op : Operation) : (l.apply op).2 = l ∨ ∃ value, l.apply op = l.move value := by
  cases op with
  | ask query => exact .inl rfl
  | hasMore => exact .inl rfl
  | advance => exact .inr ⟨.unit, rfl⟩
  | consumeSymbol s =>
    rw [apply]
    split
    · exact .inr ⟨.unit, rfl⟩
    · exact .inl rfl
  | consumeKeyword word =>
    rw [apply]
    split
    · exact .inr ⟨.unit, rfl⟩
    · exact .inl rfl
  | consumeIdentifier =>
    rw [apply]
    split
    · exact .inr ⟨.text _, rfl⟩
    · exact .inl rfl

theorem move_keeps (l : Listing) (value : Value) :
    (l.move value).2.finish = l.finish ∧ (l.move value).2.pending <:+ l.pending ∧
      ∀ e, (l.move value).1 = .error e → (l.move value).2.current? = l.current? := by
  obtain ⟨hfinish, hpending, hcurrent⟩ := l.advance_keeps
  refine ⟨hfinish, hpending, fun e he => ?_⟩
  rw [move, Prod.map_fst] at he
  cases hadvance : l.advance.1 with
  | ok _ =>
    rw [hadvance] at he
    cases he
  | error e' => exact hcurrent e' hadvance

theorem apply_keeps (l : Listing) (op : Operation) :
    (l.apply op).2.finish = l.finish ∧ (l.apply op).2.pending <:+ l.pending ∧
      ∀ e, (l.apply op).1 = .error e → (l.apply op).2.current? = l.current? := by
  rcases l.apply_cases op with h | ⟨value, h⟩
  · rw [h]
    exact ⟨rfl, List.suffix_rfl, fun _ _ => rfl⟩
  · rw [h]
    exact l.move_keeps value

theorem after_keeps (l : Listing) (ops : List Operation) :
    (l.after ops).finish = l.finish ∧ (l.after ops).pending <:+ l.pending := by
  induction ops generalizing l with
  | nil => exact ⟨rfl, List.suffix_rfl⟩
  | cons op ops ih =>
    obtain ⟨hfinish, hpending, -⟩ := l.apply_keeps op
    obtain ⟨hfinish', hpending'⟩ := ih (l.apply op).2
    exact ⟨hfinish'.trans hfinish, hpending'.trans hpending⟩

/-- At the end of a source, moves fail and change nothing, however many there are. -/
theorem answers_replicate {l : Listing} (h : l.pending = []) (n : Nat) (more : List Operation) :
    l.answers (List.replicate n .advance ++ more) =
      List.replicate n (.error (.endOfSource l.finish)) ++ l.answers more := by
  have hmove : l.apply .advance = (.error (.endOfSource l.finish), l) := by
    rw [apply, move, advance_of_nil h]
    rfl
  induction n with
  | zero => rfl
  | succ n ih => rw [List.replicate_succ, List.cons_append, answers, hmove, ih, List.replicate_succ, List.cons_append]

end Listing

/-! ### Cursors and listings -/

/-- Whatever is asked of the cursor from here on, it gives the answers of the listing. -/
def Cursor.Behaves (c : Cursor) (l : Listing) : Prop :=
  ∀ ops, c.answers ops = l.answers ops

/-- A cursor over a source gives the answers of the listing of its items, behind any operations. It moves on to the
next token. It reports an error, drops it and keeps the current token. At the end of the source it reports the end,
however often, and changes nothing. A token that is not the wanted one is refused and the cursor stays as it is, and
an operation that fails keeps the current token. More follows as long as an item is left. A query can be put in or
left out anywhere. -/
theorem cursor_behaves (source : String) :
    (Cursor.ofSource source).Behaves (.ofSource source) ∧
    (∀ ops,
      let c := (Cursor.ofSource source).after ops
      let l := (Listing.ofSource source).after ops
      c.Behaves l ∧ l.finish = .atEnd source ∧ l.current? = c.current? ∧ l.pending <:+ Item.ofSource source ∧
      (c.hasMore.1 = true ↔ l.pending ≠ []) ∧
      (∀ t rest, l.pending = .ok t :: rest →
        c.advance.1 = .ok () ∧ c.advance.2.Behaves { l with pending := rest, current? := some t }) ∧
      (∀ e rest, l.pending = .error e :: rest →
        c.advance.1 = .error (.lexical e) ∧ c.advance.2.Behaves { l with pending := rest }) ∧
      (l.pending = [] → ∀ n more, c.answers (List.replicate n .advance ++ more) =
        List.replicate n (.error (.endOfSource (.atEnd source))) ++ c.answers more) ∧
      (∀ s, c.isAt (.symbol s) = false → c.consumeSymbol s = (.error (c.mismatch (.symbol s)), c)) ∧
      (∀ word, c.isAt (.keyword word) = false → c.consumeKeyword word = (.error (c.mismatch (.keyword word)), c)) ∧
      (∀ e, c.identifier = .error e → c.consumeIdentifier = (.error e, c)) ∧
      ∀ op e, (c.apply op).1 = .error e → (c.apply op).2.current? = c.current?) ∧
    ∀ front back op, op.isQuery = true →
      ((Cursor.ofSource source).answers (front ++ op :: back)).eraseIdx front.length =
        (Cursor.ofSource source).answers (front ++ back) := by
  have hstart := Cursor.follows_ofSource source
  refine ⟨hstart.answers, fun ops => ?_, fun front back op hquery => ?_⟩
  · have h := hstart.after ops
    obtain ⟨hfinish, hpending⟩ := (Listing.ofSource source).after_keeps ops
    generalize (Cursor.ofSource source).after ops = c at h
    generalize (Listing.ofSource source).after ops = l at h hfinish hpending
    have hcurrent : c.current? = l.current? := congrArg Showing.current? h.showing
    refine ⟨h.answers, hfinish, hcurrent.symm, hpending, ?_, fun t rest ht => ?_, fun e rest he => ?_,
      fun hnil n more => ?_, fun s hs => ?_, fun word hword => ?_, fun e he => ?_, fun op e he => ?_⟩
    · rw [h.hasMore.1]
      simp
    · have hadvance := h.advance
      rw [Listing.advance_of_ok ht] at hadvance
      exact ⟨hadvance.1, hadvance.2.answers⟩
    · have hadvance := h.advance
      rw [Listing.advance_of_error he] at hadvance
      exact ⟨hadvance.1, hadvance.2.answers⟩
    · rw [h.answers, h.answers, Listing.answers_replicate hnil, hfinish]
      rfl
    · rw [Cursor.consumeSymbol, Cursor.consume, hs]
      rfl
    · rw [Cursor.consumeKeyword, Cursor.consume, hword]
      rfl
    · rw [Cursor.consumeIdentifier, he]
    · obtain ⟨hanswer, hnext⟩ := h.apply op
      rw [hanswer] at he
      have hkept := (l.apply_keeps op).2.2 e he
      exact (congrArg Showing.current? hnext.showing).trans (hkept.trans hcurrent.symm)
  · rw [hstart.answers, hstart.answers]
    exact (Listing.ofSource source).eraseIdx_answers front back hquery

/-- A stray character behind a name is reported. Behind it there is only the end, and the name stays the current
token. -/
theorem cursor_behaves_stray :
    (∃ e, e.cause = .unknownCharacter '@' ∧
      ((Cursor.ofSource "a@").after [.advance]).advance.1 = .error (.lexical e)) ∧
    (∀ n, ((Cursor.ofSource "a@").after [.hasMore, .advance, .advance]).answers
        (List.replicate n .advance ++ [.ask .identifier]) =
      List.replicate n (.error (.endOfSource (.atEnd "a@"))) ++ [.ok (.text "a")]) ∧
    ((Cursor.ofSource "a@").answers [.advance, .hasMore, .consumeIdentifier]).eraseIdx 1 =
      (Cursor.ofSource "a@").answers [.advance, .consumeIdentifier] := by
  obtain ⟨-, hbehind, hqueries⟩ := cursor_behaves "a@"
  refine ⟨?_, fun n => ?_, hqueries [.advance] [.consumeIdentifier] .hasMore rfl⟩
  · obtain ⟨-, -, -, -, -, -, herror, -⟩ := hbehind [.advance]
    have hreadings : ((Listing.ofSource "a@").after [.advance]).pending.map Item.reading =
        [.fault (.unknownCharacter '@')] := by decide +kernel
    obtain ⟨item, rest, hpending, hreading, -⟩ := List.map_eq_cons_iff.mp hreadings
    cases item with
    | ok t => cases hreading
    | error e => exact ⟨e, Reading.fault.inj hreading, (herror e rest hpending).1⟩
  · obtain ⟨hsame, -, -, -, -, -, -, hend, -⟩ := hbehind [.hasMore, .advance, .advance]
    have hnil : ((Listing.ofSource "a@").after [.hasMore, .advance, .advance]).pending = [] :=
      List.isEmpty_iff.mp (by decide +kernel)
    have hcurrent : ((Listing.ofSource "a@").after [.hasMore, .advance, .advance]).current? =
        some { lexeme := .identifier "a", span := ⟨0, 1, 1, 1⟩ } := by decide +kernel
    have hname : ((Listing.ofSource "a@").after [.hasMore, .advance, .advance]).answers [.ask .identifier] =
        [.ok (.text "a")] := by
      simp only [Listing.answers, Listing.apply, Query.answer, Showing.identifier_eq, hcurrent]
      rfl
    rw [hend hnil n [.ask .identifier], hsame, hname]

end JackToVm
