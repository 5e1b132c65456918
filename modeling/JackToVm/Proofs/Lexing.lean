import JackToVm.Token.Item

/-!
What is known of the tokens of a source. The span of a token gives back the text that it was read from, and
the text of an identifier is its name, which is no reserved word and has no characters but those of words.
-/

namespace JackToVm

/-! ### Spans -/

namespace Span

theorem pos?_of_append {source a b : String} (h : source = a ++ b) :
    ∃ p : source.Pos, source.pos? ⟨a.utf8ByteSize⟩ = some p ∧ p.offset.byteIdx = a.utf8ByteSize := by
  have hv : String.Pos.Raw.IsValid source ⟨a.utf8ByteSize⟩ :=
    String.Pos.Raw.isValid_iff_exists_append.mpr ⟨a, b, h, rfl⟩
  refine ⟨source.pos ⟨a.utf8ByteSize⟩ hv, ?_, rfl⟩
  simp [String.pos?, String.Slice.pos?, String.pos, String.Pos.Raw.isValidForSlice_eq_true_iff, hv.toSlice]

/-- The span between two texts gives back what stands between them. -/
theorem fragment_of_append {source a b c : String} (h : source = a ++ b ++ c) (line column : Nat) :
    fragment { start := a.utf8ByteSize, stop := (a ++ b).utf8ByteSize, line, column } source = b := by
  obtain ⟨p, hp, hpo⟩ := pos?_of_append (h.trans (String.append_assoc ..))
  obtain ⟨q, hq, hqo⟩ := pos?_of_append h
  have hle : a.utf8ByteSize ≤ (a ++ b).utf8ByteSize := by simp
  simp only [fragment, hp, hq, if_pos hle]
  apply String.toByteArray_inj.mp
  change source.toByteArray.extract p.offset.byteIdx q.offset.byteIdx = b.toByteArray
  rw [hpo, hqo, h, String.append_assoc, String.toByteArray_append, String.toByteArray_append]
  have hfront := ByteArray.extract_append_size_add (a := a.toByteArray) (b := b.toByteArray ++ c.toByteArray)
    (i := 0) (j := b.utf8ByteSize)
  have hback : (b.toByteArray ++ c.toByteArray).extract 0 b.utf8ByteSize = b.toByteArray :=
    ByteArray.extract_append_eq_left rfl
  rw [Nat.add_zero, hback] at hfront
  rw [String.utf8ByteSize_append]
  exact hfront

end Span

namespace Position

theorem offset_after (p : Position) (text : List Char) :
    (p.after text).offset = p.offset + (String.ofList text).utf8ByteSize := by
  induction text generalizing p with
  | nil => simp
  | cons c text ih =>
    rw [after_cons, ih]
    simp [next, String.ofList_cons, Nat.add_assoc]

end Position

/-! ### Pieces -/

namespace Piece

theorem readWord_identifier {word : List Char} {x : String} (h : readWord word = .lexeme (.identifier x)) :
    word = x.toList ∧ Keyword.ofText? x = none := by
  simp only [readWord] at h
  split at h
  · cases h
  · rename_i hk
    cases h
    exact ⟨by simp, hk⟩

theorem readInteger_ne_identifier (digits : List Char) (x : String) :
    readInteger digits ≠ .lexeme (.identifier x) := by
  simp only [readInteger]
  split <;> simp

theorem readSingle_ne_identifier (c : Char) (x : String) : readSingle c ≠ .lexeme (.identifier x) := by
  unfold readSingle
  split <;> simp

theorem slash_ne_identifier (rest : List Char) (x : String) :
    (slash rest).1.reading ≠ .lexeme (.identifier x) := by
  unfold slash
  split
  · simp
  · split <;> simp
  · simp

theorem readString_ne_identifier (inside : List Char) (x : String) :
    readString inside ≠ .lexeme (.identifier x) := by
  unfold readString
  split
  · simp
  · split <;> simp

theorem string_ne_identifier (rest : List Char) (x : String) :
    (string rest).1.reading ≠ .lexeme (.identifier x) := by
  unfold string
  split
  · simp
  · simp only
    split
    · exact readString_ne_identifier _ x
    · simp

/-- A piece that is an identifier is a word. -/
theorem cut_of_identifier {c : Char} {rest : List Char} {x : String}
    (h : (cut c rest).1.reading = .lexeme (.identifier x)) :
    isWordStart c = true ∧ cut c rest = run c isWordPart rest readWord := by
  unfold cut at h ⊢
  by_cases hblank : Text.isBlank c = true
  · simp [hblank, run] at h
  by_cases hslash : c = '/'
  · rw [if_neg hblank, if_pos hslash] at h
    exact absurd h (slash_ne_identifier rest x)
  by_cases hquote : c = '"'
  · rw [if_neg hblank, if_neg hslash, if_pos hquote] at h
    exact absurd h (string_ne_identifier rest x)
  by_cases hdigit : isDigit c = true
  · rw [if_neg hblank, if_neg hslash, if_neg hquote, if_pos hdigit] at h
    exact absurd h (readInteger_ne_identifier _ x)
  by_cases hword : isWordStart c = true
  · rw [if_neg hblank, if_neg hslash, if_neg hquote, if_neg hdigit, if_pos hword]
    exact ⟨hword, rfl⟩
  · rw [if_neg hblank, if_neg hslash, if_neg hquote, if_neg hdigit, if_neg hword] at h
    exact absurd h (readSingle_ne_identifier c x)

/-- An identifier is spelled as its name, which is no reserved word and has no characters but those of words. -/
theorem cut_identifier {c : Char} {rest : List Char} {x : String}
    (h : (cut c rest).1.reading = .lexeme (.identifier x)) :
    (cut c rest).1.text = x.toList ∧ Keyword.ofText? x = none ∧ ∀ d ∈ x.toList, isWordPart d = true := by
  obtain ⟨hstart, hcut⟩ := cut_of_identifier h
  rw [hcut] at h ⊢
  obtain ⟨htext, hk⟩ := readWord_identifier h
  refine ⟨htext, hk, ?_⟩
  rw [← htext, List.forall_mem_cons]
  refine ⟨?_, fun d hd => List.all_eq_true.mp List.all_takeWhile d hd⟩
  rw [isWordPart, hstart, Bool.true_or]

/-- A piece of a text was cut off some end of it. -/
theorem exists_cut_of_mem_split {text : List Char} {piece : Piece} (hp : piece ∈ split text) :
    ∃ c rest, piece = (cut c rest).1 := by
  induction hn : text.length using Nat.strongRecOn generalizing text with
  | _ n ih =>
    cases text with
    | nil => simp at hp
    | cons c rest =>
      rw [split_cons, List.mem_cons] at hp
      rcases hp with rfl | hp
      · exact ⟨c, rest, rfl⟩
      · exact ih _ (hn ▸ cut_snd_length_lt c rest) hp rfl

theorem mem_split_identifier {text : List Char} {piece : Piece} {x : String} (hp : piece ∈ split text)
    (h : piece.reading = .lexeme (.identifier x)) :
    piece.text = x.toList ∧ Keyword.ofText? x = none ∧ ∀ d ∈ x.toList, isWordPart d = true := by
  obtain ⟨c, rest, rfl⟩ := exists_cut_of_mem_split hp
  exact cut_identifier h

/-- What the pieces of a text are, without the gaps. -/
def readings (text : List Char) : List Reading :=
  ((split text).map Piece.reading).filter (· ≠ .gap)

end Piece

/-! ### Tokens -/

namespace Item

/-- What an item is, wherever it stands. -/
def reading : Item → Reading
  | .ok t => .lexeme t.lexeme
  | .error e => .fault e.cause

theorem map_reading_locate (place : Position) (pieces : List Piece) :
    (locate place pieces).map reading = (pieces.map Piece.reading).filter (· ≠ .gap) := by
  induction pieces generalizing place with
  | nil => rfl
  | cons piece pieces ih =>
    rw [locate_cons, List.map_append, ih, List.map_cons]
    cases hr : piece.reading <;> simp [ofPiece?, reading, hr]

/-- The items of a source are its pieces without the gaps. -/
theorem map_reading_ofSource (source : String) :
    (ofSource source).map reading = Piece.readings source.toList :=
  map_reading_locate {} _

/-- A token among the items of pieces was read from one of the pieces, in its place. -/
theorem exists_piece_of_mem_locate {place : Position} {pieces : List Piece} {t : Token}
    (h : .ok t ∈ locate place pieces) :
    ∃ front piece back, pieces = front ++ piece :: back ∧ piece.reading = .lexeme t.lexeme ∧
      t.span = .between (place.after (front.flatMap Piece.text))
        (place.after (front.flatMap Piece.text ++ piece.text)) := by
  induction pieces generalizing place with
  | nil => cases h
  | cons piece pieces ih =>
    rw [locate_cons, List.mem_append] at h
    rcases h with h | h
    · refine ⟨[], piece, pieces, rfl, ?_⟩
      cases hr : piece.reading <;> simp_all [ofPiece?]
    · obtain ⟨front, q, back, rfl, hq, hs⟩ := ih h
      refine ⟨piece :: front, q, back, rfl, hq, ?_⟩
      simpa [Position.after_append] using hs

/-- The span of an identifier gives back its name, which is no reserved word. -/
theorem identifier_of_mem_ofSource {source : String} {t : Token} {x : String}
    (h : .ok t ∈ ofSource source) (hx : t.lexeme = .identifier x) :
    t.span.fragment source = x ∧ Keyword.ofText? x = none := by
  obtain ⟨front, piece, back, hs, hr, ht⟩ := exists_piece_of_mem_locate h
  have hmem : piece ∈ Piece.split source.toList := by simp [hs]
  obtain ⟨htext, hk, -⟩ := Piece.mem_split_identifier hmem (hx ▸ hr)
  refine ⟨?_, hk⟩
  have hall := Piece.flatMap_text_split source.toList
  rw [hs, List.flatMap_append, List.flatMap_cons, htext] at hall
  have hsource : source = String.ofList (front.flatMap Piece.text) ++ x ++
      String.ofList (back.flatMap Piece.text) := by
    rw [← String.toList_inj, ← hall]
    simp
  rw [ht, Span.between, Position.offset_after, Position.offset_after, htext, String.ofList_append]
  simpa using Span.fragment_of_append hsource _ _

theorem isWordPart_of_mem_ofSource {source : String} {t : Token} {x : String} (h : .ok t ∈ ofSource source)
    (hx : t.lexeme = .identifier x) : ∀ d ∈ x.toList, isWordPart d = true := by
  obtain ⟨front, piece, back, hs, hr, -⟩ := exists_piece_of_mem_locate h
  have hmem : piece ∈ Piece.split source.toList := by simp [hs]
  exact (Piece.mem_split_identifier hmem (hx ▸ hr)).2.2

end Item

end JackToVm
