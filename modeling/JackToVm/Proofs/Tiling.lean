import JackToVm.Proofs.Wording
import Mathlib.Data.List.Induction

/-!
The items of a source and the gaps between them are all of the source. `Tiled` says so, with the place of each item
counted off the text in front of it. A step of the lexer adds one item or adds to the gap in front of the next one
(`Tiled.of_cut`), so the items of every source tile it (`tiled_split`).
-/

namespace JackToVm

/-! ### Places, counted off the text in front of them -/

namespace Position

theorem line_after (p : Position) (text : List Char) : (p.after text).line = p.line + text.count '\n' := by
  induction text generalizing p with
  | nil => rfl
  | cons c text ih =>
    rw [after_cons, ih, List.count_cons, next]
    by_cases hc : c = '\n'
    · simp only [hc, if_true, beq_self_eq_true]
      omega
    · simp [hc]

/-- The column counts the characters behind the last newline. -/
theorem column_after (text : List Char) :
    (({} : Position).after text).column = 1 + (text.reverse.takeWhile (· ≠ '\n')).length := by
  induction text using List.reverseRecOn with
  | nil => rfl
  | append_singleton text c ih =>
    rw [after_append, after_cons, after_nil, next, List.reverse_append, List.reverse_singleton, List.singleton_append]
    by_cases hc : c = '\n'
    · simp [hc]
    · simp only [hc, if_false, ih, ne_eq, not_false_eq_true, decide_true, List.takeWhile_cons_of_pos, List.length_cons]
      omega

end Position

namespace Span

/-- The span of a text that stands behind another one. -/
def behind (before text : List Char) : Span where
  start := (String.ofList before).utf8ByteSize
  stop := (String.ofList (before ++ text)).utf8ByteSize
  line := 1 + before.count '\n'
  column := 1 + (before.reverse.takeWhile (· ≠ '\n')).length

theorem between_after (before text : List Char) :
    between (({} : Position).after before) (({} : Position).after (before ++ text)) = behind before text := by
  rw [between, Position.offset_after, Position.offset_after, Position.line_after, Position.column_after, behind]
  simp

theorem stop_behind (before text : List Char) :
    (behind before text).stop = (behind before text).start + (String.ofList text).utf8ByteSize := by
  simp [behind, String.ofList_append]

theorem start_behind_lt {text : List Char} (h : text ≠ []) (before : List Char) :
    (behind before text).start < (behind before text).stop := by
  have hsize : (String.ofList text).utf8ByteSize ≠ 0 := by simpa using h
  rw [stop_behind]
  omega

end Span

/-! ### Tiles -/

/-- The items of a text that stands behind another one. In front of each item there is a gap, which goes up to a
character that is no blank, and a last gap ends the text. A token is written as its lexeme. -/
inductive Tiled : List Char → List Char → List Item → Prop where
  | gap {before gap : List Char} (hgap : Gap true gap) : Tiled before gap []
  | item {before gap text rest : List Char} {c : Char} {item : Item} {items : List Item} (hgap : Gap false gap)
      (hhead : text.head? = some c) (hblank : Text.isBlank c = false) (hspan : item.span = .behind (before ++ gap) text)
      (hwritten : ∀ t, item = .ok t → t.lexeme.Written text) (h : Tiled (before ++ gap ++ text) rest items) :
      Tiled before (gap ++ (text ++ rest)) (item :: items)

namespace Piece

theorem head?_text_cut (c : Char) (rest : List Char) : (cut c rest).1.text.head? = some c := by
  obtain ⟨d, more, htext⟩ := List.exists_cons_of_ne_nil (cut_text_ne_nil c rest)
  have happend := cut_text_append c rest
  rw [htext, List.cons_append] at happend
  rw [htext, List.head?_cons, (List.cons.inj happend).1]

theorem isBlank_of_ne_gap {c : Char} {rest : List Char} (h : (cut c rest).1.reading ≠ .gap) :
    Text.isBlank c = false := by
  rw [← Bool.not_eq_true]
  intro hblank
  exact h (by rw [cut, if_pos hblank]; rfl)

end Piece

theorem Item.ofPiece?_of_ne_gap {piece : Piece} (h : piece.reading ≠ .gap) (place behind : Position) :
    ∃ item, ofPiece? piece place behind = some item ∧ item.span = .between place behind ∧
      item.reading = piece.reading := by
  unfold ofPiece?
  cases hr : piece.reading with
  | gap => exact absurd hr h
  | lexeme lexeme => exact ⟨_, rfl, rfl, rfl⟩
  | fault cause => exact ⟨_, rfl, rfl, rfl⟩

namespace Tiled
open Piece (cut)

/-- A piece that is passed over adds to the gap in front of the next item. -/
theorem of_gap {before rest : List Char} {c : Char} {items : List Item} (hgap : (cut c rest).1.reading = .gap)
    (h : Tiled (before ++ (cut c rest).1.text) (cut c rest).2 items) : Tiled before (c :: rest) items := by
  rw [← Piece.cut_text_append c rest]
  generalize hrest : (cut c rest).2 = behind at h ⊢
  cases h with
  | gap h =>
    have hmore := @Gap.of_cut true c rest _ [] hgap (by rw [hrest, List.append_nil]) h rfl
    exact .gap hmore
  | @item _ gap text behind d item items h hhead hblank hspan hwritten hitems =>
    obtain ⟨more, htext⟩ := List.head?_eq_some_iff.mp hhead
    have hmore := Gap.of_cut hgap hrest h ⟨d, more ++ behind, by rw [htext, List.cons_append], hblank⟩
    rw [List.append_assoc before] at hspan hitems
    rw [← List.append_assoc]
    exact .item hmore hhead hblank hspan hwritten hitems

/-- A piece that is an item is the next tile. -/
theorem of_ne_gap {before rest : List Char} {c : Char} {items : List Item} {item : Item}
    (hgap : (cut c rest).1.reading ≠ .gap) (hspan : item.span = .behind before (cut c rest).1.text)
    (hreading : item.reading = (cut c rest).1.reading)
    (h : Tiled (before ++ (cut c rest).1.text) (cut c rest).2 items) : Tiled before (c :: rest) (item :: items) := by
  have hwritten : ∀ t, item = .ok t → t.lexeme.Written (cut c rest).1.text := by
    rintro t rfl
    exact Piece.written_of_cut hreading.symm
  rw [← List.append_nil before] at hspan h
  have htile := Tiled.item .nil (Piece.head?_text_cut c rest) (Piece.isBlank_of_ne_gap hgap) hspan hwritten h
  rwa [List.nil_append, Piece.cut_text_append] at htile

/-- The first piece of a text is an item, or adds to the gap in front of the next item. -/
theorem of_cut {before rest : List Char} {c : Char}
    (h : Tiled (before ++ (cut c rest).1.text) (cut c rest).2
      (Item.locate (({} : Position).after (before ++ (cut c rest).1.text)) (Piece.split (cut c rest).2))) :
    Tiled before (c :: rest) (Item.locate (({} : Position).after before) (Piece.split (c :: rest))) := by
  rw [Piece.split_cons, Item.locate_cons, ← Position.after_append]
  by_cases hgap : (cut c rest).1.reading = .gap
  · have hnone (place behind : Position) : Item.ofPiece? (cut c rest).1 place behind = none := by
      rw [Item.ofPiece?, hgap]
    rw [hnone]
    exact of_gap hgap h
  · obtain ⟨item, hitem, hspan, hreading⟩ := Item.ofPiece?_of_ne_gap hgap (({} : Position).after before)
      (({} : Position).after (before ++ (cut c rest).1.text))
    rw [Span.between_after] at hspan
    rw [hitem]
    exact of_ne_gap hgap hspan hreading h

end Tiled

/-- The items that are read off a text tile it. -/
theorem tiled_split (before text : List Char) :
    Tiled before text (Item.locate (({} : Position).after before) (Piece.split text)) := by
  induction hn : text.length using Nat.strongRecOn generalizing before text with
  | _ n ih =>
    cases text with
    | nil =>
      rw [Piece.split_nil]
      exact .gap .nil
    | cons c rest =>
      have hshort := Piece.cut_snd_length_lt c rest
      exact .of_cut (ih _ (hn ▸ hshort) _ _ rfl)

/-! ### Items of a tiled text -/

namespace Tiled
variable {before text : List Char} {items : List Item}

/-- An item lies in its place between two parts of the text. -/
theorem exists_of_mem (h : Tiled before text items) {item : Item} (hitem : item ∈ items) :
    ∃ front fragment back, text = front ++ fragment ++ back ∧ fragment ≠ [] ∧
      item.span = .behind (before ++ front) fragment ∧ ∀ t, item = .ok t → t.lexeme.Written fragment := by
  induction h with
  | gap => cases hitem
  | @item before gap fragment rest c first items _ hhead _ hspan hwritten _ ih =>
    rcases List.mem_cons.mp hitem with rfl | hitem
    · refine ⟨gap, fragment, rest, (List.append_assoc ..).symm, ?_, hspan, hwritten⟩
      rintro rfl
      cases hhead
    · obtain ⟨front, inside, back, rfl, hne, hspan, hwritten⟩ := ih hitem
      refine ⟨gap ++ (fragment ++ front), inside, back, by simp, hne, ?_, hwritten⟩
      rw [hspan]
      simp

theorem le_start (h : Tiled before text items) {item : Item} (hitem : item ∈ items) :
    (String.ofList before).utf8ByteSize ≤ item.span.start := by
  obtain ⟨front, fragment, back, -, -, hspan, -⟩ := h.exists_of_mem hitem
  simp [hspan, Span.behind, String.ofList_append]

/-- Each item ends in front of the next ones. -/
theorem pairwise (h : Tiled before text items) : items.Pairwise fun a b => a.span.stop ≤ b.span.start := by
  induction h with
  | gap => exact .nil
  | @item before gap fragment rest c first items _ _ _ hspan _ h ih =>
    refine List.pairwise_cons.mpr ⟨fun item hitem => ?_, ih⟩
    rw [hspan]
    exact h.le_start hitem

end Tiled

/-! ### Items of a source -/

open String.Pos.Raw (IsValid)

/-- The span of a part of a source lies in the source, on the boundaries of characters, and gives back the part. -/
theorem Span.fragment_behind {source : String} {front inside back : List Char}
    (h : source.toList = front ++ inside ++ back) :
    (behind front inside).fragment source = String.ofList inside ∧
      (behind front inside).stop ≤ source.utf8ByteSize ∧ IsValid source ⟨(behind front inside).start⟩ ∧
      IsValid source ⟨(behind front inside).stop⟩ := by
  have hsource : source = String.ofList front ++ String.ofList inside ++ String.ofList back := by
    rw [← String.toList_inj, h]
    simp
  have hstop : (behind front inside).stop = (String.ofList front ++ String.ofList inside).utf8ByteSize := by
    rw [behind, String.ofList_append]
  refine ⟨?_, ?_, ?_, ?_⟩
  · have hfragment := fragment_of_append hsource (behind front inside).line (behind front inside).column
    rw [← hstop] at hfragment
    exact hfragment
  · have hsize := congrArg String.utf8ByteSize hsource
    rw [String.utf8ByteSize_append, ← hstop] at hsize
    omega
  · exact String.Pos.Raw.isValid_iff_exists_append.mpr ⟨_, _, hsource.trans (String.append_assoc ..), rfl⟩
  · exact String.Pos.Raw.isValid_iff_exists_append.mpr ⟨_, _, hsource, by rw [hstop]; rfl⟩

/-- The lexer covers a source: its items and the gaps between them are the source, and each gap is blanks and
complete comments, up to the next item or to the end. The spans are in order and do not overlap; each of them is not
empty, lies in the source on the boundaries of characters, and has the line and the column of what stands in front
of it. The text of a token is that of its lexeme, and is read as this lexeme alone when it stands by itself. -/
theorem tiled_ofSource (source : String) :
    Tiled [] source.toList (Item.ofSource source) ∧
    (Item.ofSource source).Pairwise (fun a b => a.span.start < b.span.start ∧ a.span.stop ≤ b.span.start) ∧
    (∀ item ∈ Item.ofSource source,
      item.span.start < item.span.stop ∧ item.span.stop ≤ source.utf8ByteSize ∧
      IsValid source ⟨item.span.start⟩ ∧ IsValid source ⟨item.span.stop⟩ ∧
      ∃ before behind, source = before ++ item.span.fragment source ++ behind ∧
        item.span.start = before.utf8ByteSize ∧ item.span.line = 1 + before.toList.count '\n' ∧
        item.span.column = 1 + (before.toList.reverse.takeWhile (· ≠ '\n')).length) ∧
    ∀ t, .ok t ∈ Item.ofSource source → t.lexeme.Written (t.span.fragment source).toList ∧
      (Item.ofSource (t.span.fragment source)).map Item.reading = [.lexeme t.lexeme] := by
  have htiled : Tiled [] source.toList (Item.ofSource source) := tiled_split [] source.toList
  have hitem : ∀ item ∈ Item.ofSource source, ∃ front inside back, source.toList = front ++ inside ++ back ∧
      inside ≠ [] ∧ item.span = .behind front inside ∧ ∀ t, item = .ok t → t.lexeme.Written inside :=
    fun item h => htiled.exists_of_mem h
  refine ⟨htiled, ?_, fun item h => ?_, fun t h => ?_⟩
  · refine htiled.pairwise.imp_of_mem fun {a b} ha _ hab => ⟨?_, hab⟩
    obtain ⟨front, inside, -, -, hne, hspan, -⟩ := hitem a ha
    have hlt := Span.start_behind_lt hne front
    rw [← hspan] at hlt
    omega
  · obtain ⟨front, inside, back, hsource, hne, hspan, -⟩ := hitem item h
    obtain ⟨hfragment, hstop, hfirst, hlast⟩ := Span.fragment_behind hsource
    rw [hspan, hfragment]
    have hlt := Span.start_behind_lt hne front
    refine ⟨hlt, hstop, hfirst, hlast, String.ofList front, String.ofList back, ?_, rfl, ?_, ?_⟩
    · rw [← String.toList_inj, hsource]
      simp
    · simp [Span.behind]
    · simp [Span.behind]
  · obtain ⟨front, inside, back, hsource, -, hspan, hwritten⟩ := hitem _ h
    obtain ⟨hfragment, -⟩ := Span.fragment_behind hsource
    have hlexeme := hwritten t rfl
    rw [show t.span = _ from hspan, hfragment, Item.map_reading_ofSource, String.toList_ofList]
    exact ⟨hlexeme, hlexeme.readings⟩

end JackToVm
