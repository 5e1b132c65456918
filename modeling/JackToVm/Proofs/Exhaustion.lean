import JackToVm.Proofs.Lookahead
import JackToVm.Proofs.Tiling

/-!
Reading comes to an end. Each piece of a text, gap or item, leaves less text behind it, so a source has no more items
than characters. A cursor that is asked for one item after the other (`Cursor.behind`) gives them all, and then none for
ever; it has then read the whole source, and stands at the place that is counted off the source as a whole.
-/

namespace JackToVm

/-! ### Pieces and items -/

theorem Piece.length_split_le (text : List Char) : (split text).length ≤ text.length := by
  match text with
  | [] => simp
  | c :: rest =>
    have hshort := cut_snd_length_lt c rest
    have hrest := length_split_le (cut c rest).2
    rw [split_cons, List.length_cons]
    omega
termination_by text.length
decreasing_by exact cut_snd_length_lt c rest

namespace Item

theorem length_locate_le (place : Position) (pieces : List Piece) : (locate place pieces).length ≤ pieces.length := by
  induction pieces generalizing place with
  | nil => simp
  | cons piece pieces ih =>
    have hone : (ofPiece? piece place (place.after piece.text)).toList.length ≤ 1 := Option.length_toList_le
    have hrest := ih (place.after piece.text)
    rw [locate_cons, List.length_append, List.length_cons]
    omega

/-- A source has no more items than characters. -/
theorem length_ofSource_le (source : String) : (ofSource source).length ≤ source.length :=
  Nat.le_trans (length_locate_le ..) (Piece.length_split_le ..)

/-- Reading passes over the front of a text, character by character. The front of an item is not empty, and without an
item all of the text is passed over. -/
theorem exists_passed (place : Position) (text : List Char) :
    ∃ passed, text = passed ++ (read place text).2.2 ∧ (read place text).2.1 = place.after passed ∧
      ((read place text).1 ≠ none → passed ≠ []) ∧ ((read place text).1 = none → (read place text).2.2 = []) := by
  fun_induction read place text with
  | case1 place => exact ⟨[], rfl, rfl, fun h => absurd rfl h, fun _ => rfl⟩
  | case2 place c rest piece behind item hitem =>
    have hne : some item ≠ none := Option.some_ne_none item
    exact ⟨piece.text, (Piece.cut_text_append c rest).symm, rfl, fun _ => Piece.cut_text_ne_nil c rest, (absurd · hne)⟩
  | case3 place c rest piece behind hnone ih =>
    obtain ⟨passed, htext, hplace, -, hend⟩ := ih
    refine ⟨piece.text ++ passed, ?_, hplace.trans (Position.after_append ..).symm, fun _ => ?_, hend⟩
    · rw [List.append_assoc, ← htext]
      exact (Piece.cut_text_append c rest).symm
    · exact List.append_ne_nil_of_left_ne_nil (Piece.cut_text_ne_nil c rest) _

end Item

/-! ### One item after the other -/

namespace Cursor

/-- The cursor behind so many questions for the next item. -/
def behind (c : Cursor) : Nat → Cursor
  | 0 => c
  | n + 1 => (c.behind n).next.2

/-- A cursor that has read the front of a source. It has the items in front of it that the rest of the source has. -/
structure HasRead (c : Cursor) (source : String) (pending : List Item) : Prop where
  ahead : c.ahead? = none
  items : c.unreadItems = pending
  place : ∃ passed, source.toList = passed ++ c.unread ∧ c.place = ({} : Position).after passed

theorem next_of_ahead {c : Cursor} (h : c.ahead? = none) : c.next = c.read := by
  rw [next, h]

namespace HasRead
variable {c : Cursor} {source : String} {pending : List Item}

theorem next (h : c.HasRead source pending) : c.next.1 = pending.head? ∧ c.next.2.HasRead source pending.tail := by
  obtain ⟨hitem, hrest, -, hahead⟩ := c.read_eq
  rw [next_of_ahead h.ahead, ← h.items]
  refine ⟨hitem, hahead.trans h.ahead, hrest, ?_⟩
  obtain ⟨front, hsource, hplace⟩ := h.place
  obtain ⟨passed, htext, hafter, -⟩ := Item.exists_passed c.place c.unread
  refine ⟨front ++ passed, ?_, ?_⟩
  · rw [hsource, List.append_assoc]
    exact congrArg (front ++ ·) htext
  · exact hafter.trans (by rw [hplace, Position.after_append])

/-- An item that is read shortens the text. -/
theorem length_lt (h : c.HasRead source pending) (hitem : c.next.1 ≠ none) :
    c.next.2.unread.length < c.unread.length := by
  rw [next_of_ahead h.ahead] at hitem ⊢
  obtain ⟨passed, htext, -, hpassed, -⟩ := Item.exists_passed c.place c.unread
  have hpos := List.length_pos_iff.mpr (hpassed hitem)
  have hlength := congrArg List.length htext
  rw [List.length_append] at hlength
  change (Item.read c.place c.unread).2.2.length < _
  omega

/-- When no item is left, all of the source is read. -/
theorem finished (h : c.HasRead source []) :
    c.next.2.unread = [] ∧ c.next.2.place = ({} : Position).after source.toList := by
  obtain ⟨hitem, hnext⟩ := h.next
  obtain ⟨front, hsource, hplace⟩ := hnext.place
  have hend : c.next.2.unread = [] := by
    obtain ⟨passed, -, -, -, hend⟩ := Item.exists_passed c.place c.unread
    rw [next_of_ahead h.ahead] at hitem ⊢
    exact hend hitem
  rw [hend, List.append_nil] at hsource
  exact ⟨hend, hplace.trans (by rw [hsource])⟩

end HasRead

theorem hasRead_behind (source : String) (n : Nat) :
    ((ofSource source).behind n).HasRead source ((Item.ofSource source).drop n) := by
  induction n with
  | zero => exact ⟨rfl, rfl, [], rfl, rfl⟩
  | succ n ih =>
    have hnext := ih.next.2
    rwa [List.tail_drop] at hnext

end Cursor

/-! ### The end of a source -/

/-- The two ways to find the end of a source agree. The empty span at its end lies behind all of its bytes, and has the
line and the column that are reached when the characters are read one by one. A cursor that has no items left has
read all of them, and stands there. -/
theorem atEnd_eq_place (source : String) :
    let finish := source.toList.foldl Position.next {}
    (Span.atEnd source).start = source.utf8ByteSize ∧ (Span.atEnd source).stop = source.utf8ByteSize ∧
    finish.offset = source.utf8ByteSize ∧
    (Span.atEnd source).line = finish.line ∧ (Span.atEnd source).column = finish.column ∧
    ∀ n, (Item.ofSource source).length < n →
      ((Cursor.ofSource source).behind n).unread = [] ∧ ((Cursor.ofSource source).behind n).place = finish := by
  have hoffset := Position.offset_after {} source.toList
  have hline := Position.line_after {} source.toList
  have hcolumn := Position.column_after source.toList
  rw [String.ofList_toList, Nat.zero_add] at hoffset
  refine ⟨rfl, rfl, hoffset, ?_, ?_, fun n hn => ?_⟩
  · exact (Nat.add_comm ..).trans hline.symm
  · exact (Nat.add_comm ..).trans hcolumn.symm
  · obtain ⟨k, rfl⟩ : ∃ k, n = k + 1 := ⟨n - 1, by omega⟩
    have hread := Cursor.hasRead_behind source k
    rw [List.drop_of_length_le (by omega)] at hread
    exact hread.finished

/-- A letter of two bytes, a carriage return in front of a newline, and an open line behind it. -/
theorem atEnd_eq_place_mixed :
    Span.atEnd "\"é\"\r\n// \t" = ⟨10, 10, 2, 5⟩ ∧
    (Item.ofSource "\"é\"\r\n// \t").length < 2 ∧
    ((Cursor.ofSource "\"é\"\r\n// \t").behind 2).place = ⟨10, 2, 5⟩ := by
  obtain ⟨-, -, -, -, -, hplace⟩ := atEnd_eq_place "\"é\"\r\n// \t"
  refine ⟨by decide +kernel, by decide +kernel, ?_⟩
  rw [(hplace 2 (by decide +kernel)).2]
  decide +kernel

end JackToVm
