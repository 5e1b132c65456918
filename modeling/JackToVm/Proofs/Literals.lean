import JackToVm.Compile
import JackToVm.Proofs.Tiling
import Mathlib.Data.List.Basic

/-!
Numbers and strings. `Literal` says what a text that starts with a digit or a quote is read as, and how far it goes.
The lexer reads each of them so, wherever it gets to it (`literal_cut`, `Literal.cut_eq`). The code for a string is
made of the length and the codes of its UTF-16 text, and both fit a constant (`ofString_eq`).
-/

namespace JackToVm

/-! ### How literals are read -/

/-- What a literal is read as. It goes over `text`, and `behind` is the text behind it. A number goes up to the first
character that is no digit, and a string up to its second quote. A string without one goes up to the end of its line,
which belongs to it, or to the end of the source. -/
inductive Literal : (text behind : List Char) → Reading → Prop where
  | integer {digits behind : List Char} (hne : digits ≠ []) (hdigits : ∀ d ∈ digits, isDigit d = true)
      (hstop : ∀ d ∈ behind.head?, isDigit d = false) (hvalue : Nat.ofDigitChars 10 digits 0 ≤ maxConstant) :
      Literal digits behind (.lexeme (.integer (Nat.ofDigitChars 10 digits 0)))
  | integerOverflow {digits behind : List Char} (hne : digits ≠ []) (hdigits : ∀ d ∈ digits, isDigit d = true)
      (hstop : ∀ d ∈ behind.head?, isDigit d = false) (hvalue : maxConstant < Nat.ofDigitChars 10 digits 0) :
      Literal digits behind (.fault .integerOverflow)
  | newline {inside behind : List Char} (hinside : '"' ∉ inside ∧ '\n' ∉ inside) :
      Literal ('"' :: (inside ++ ['\n'])) behind (.fault .unterminatedString)
  | endOfSource {inside : List Char} (hinside : '"' ∉ inside ∧ '\n' ∉ inside) :
      Literal ('"' :: inside) [] (.fault .unterminatedString)
  | unsupported {front back behind : List Char} {c : Char}
      (hinside : '"' ∉ front ++ c :: back ∧ '\n' ∉ front ++ c :: back)
      (hfront : ∀ d ∈ front, d.toNat ≤ maxConstant) (hc : maxConstant < c.toNat) :
      Literal ('"' :: (front ++ c :: back ++ ['"'])) behind (.fault (.unsupportedCharacter c))
  | stringOverflow {inside behind : List Char} (hinside : '"' ∉ inside ∧ '\n' ∉ inside)
      (hcodes : ∀ d ∈ inside, d.toNat ≤ maxConstant) (hlength : maxConstant < inside.length) :
      Literal ('"' :: (inside ++ ['"'])) behind (.fault .stringOverflow)
  | string {inside behind : List Char} (hinside : '"' ∉ inside ∧ '\n' ∉ inside)
      (hcodes : ∀ d ∈ inside, d.toNat ≤ maxConstant) (hlength : inside.length ≤ maxConstant) :
      Literal ('"' :: (inside ++ ['"'])) behind (.lexeme (.string (String.ofList inside)))

namespace Piece

theorem isStringPart_iff {text : List Char} :
    (∀ c ∈ text, isStringPart c = true) ↔ '"' ∉ text ∧ '\n' ∉ text := by
  simp only [isStringPart, Bool.and_eq_true, decide_eq_true_eq]
  constructor
  · intro h
    exact ⟨fun hmem => (h _ hmem).1 rfl, fun hmem => (h _ hmem).2 rfl⟩
  · rintro ⟨hquote, hnewline⟩ c hc
    refine ⟨?_, ?_⟩
    · rintro rfl
      exact hquote hc
    · rintro rfl
      exact hnewline hc

/-! ### Literals are read as said -/

theorem readString_unsupported {front back : List Char} {c : Char} (hfront : ∀ d ∈ front, d.toNat ≤ maxConstant)
    (hc : maxConstant < c.toNat) : readString (front ++ c :: back) = .fault (.unsupportedCharacter c) := by
  have hfind : (front ++ c :: back).find? (fun d => maxConstant < d.toNat) = some c := by
    rw [List.find?_append, find?_eq_none_of_codes hfront, Option.none_or, List.find?_cons_of_pos (by simpa using hc)]
  simp only [readString, hfind]

theorem readString_overflow {inside : List Char} (hcodes : ∀ d ∈ inside, d.toNat ≤ maxConstant)
    (hlength : maxConstant < inside.length) : readString inside = .fault .stringOverflow := by
  have hlong : ¬ inside.length ≤ maxConstant := Nat.not_le.mpr hlength
  simp only [readString, find?_eq_none_of_codes hcodes, if_neg hlong]

theorem string_newline {inside : List Char} (hparts : ∀ c ∈ inside, isStringPart c = true) (behind : List Char) :
    string (inside ++ '\n' :: behind) =
      ({ reading := .fault .unterminatedString, text := '"' :: (inside ++ ['\n']) }, behind) := by
  have hnewline : isStringPart '\n' = false := rfl
  simp [string, List.takeWhile_append_of_pos hparts, List.dropWhile_append_of_pos hparts, hnewline]

theorem string_endOfSource {inside : List Char} (hparts : ∀ c ∈ inside, isStringPart c = true) :
    string inside = ({ reading := .fault .unterminatedString, text := '"' :: inside }, []) := by
  have htake : (inside ++ []).takeWhile isStringPart = inside ++ [] := List.takeWhile_append_of_pos hparts
  have hdrop : (inside ++ []).dropWhile isStringPart = [] := List.dropWhile_append_of_pos hparts
  rw [List.append_nil] at htake hdrop
  simp only [string, htake, hdrop]

theorem cut_quote (rest : List Char) : cut '"' rest = string rest := rfl

end Piece

/-- The lexer goes over a literal and reads it as what it is. -/
theorem Literal.cut_eq {text behind : List Char} {reading : Reading} (h : Literal text behind reading) :
    ∃ c more, text = c :: more ∧ Piece.cut c (more ++ behind) = ({ reading, text }, behind) := by
  cases h with
  | @integer digits _ hne hdigits hstop hvalue =>
    obtain ⟨c, more, rfl⟩ := List.exists_cons_of_ne_nil hne
    rw [List.forall_mem_cons] at hdigits
    refine ⟨c, more, rfl, ?_⟩
    rw [Piece.cut_digit hdigits.1, Piece.run_append hdigits.2 hstop, Piece.readInteger_eq, if_pos hvalue]
  | @integerOverflow digits _ hne hdigits hstop hvalue =>
    obtain ⟨c, more, rfl⟩ := List.exists_cons_of_ne_nil hne
    rw [List.forall_mem_cons] at hdigits
    refine ⟨c, more, rfl, ?_⟩
    rw [Piece.cut_digit hdigits.1, Piece.run_append hdigits.2 hstop, Piece.readInteger_eq,
      if_neg (Nat.not_le.mpr hvalue)]
  | @newline inside _ hinside =>
    refine ⟨'"', inside ++ ['\n'], rfl, ?_⟩
    rw [Piece.cut_quote, List.append_assoc, List.singleton_append,
      Piece.string_newline (Piece.isStringPart_iff.mpr hinside)]
  | @endOfSource inside hinside =>
    refine ⟨'"', inside, rfl, ?_⟩
    rw [Piece.cut_quote, List.append_nil, Piece.string_endOfSource (Piece.isStringPart_iff.mpr hinside)]
  | @unsupported front back _ c hinside hfront hc =>
    refine ⟨'"', front ++ c :: back ++ ['"'], rfl, ?_⟩
    rw [Piece.cut_quote, List.append_assoc _ ['"'], List.singleton_append,
      Piece.string_append (Piece.isStringPart_iff.mpr hinside), Piece.readString_unsupported hfront hc]
  | @stringOverflow inside _ hinside hcodes hlength =>
    refine ⟨'"', inside ++ ['"'], rfl, ?_⟩
    rw [Piece.cut_quote, List.append_assoc, List.singleton_append,
      Piece.string_append (Piece.isStringPart_iff.mpr hinside), Piece.readString_overflow hcodes hlength]
  | @string inside _ hinside hcodes hlength =>
    refine ⟨'"', inside ++ ['"'], rfl, ?_⟩
    rw [Piece.cut_quote, List.append_assoc, List.singleton_append,
      Piece.string_append (Piece.isStringPart_iff.mpr hinside), Piece.readString_eq hcodes hlength]

/-! ### Digits and quotes start literals -/

namespace Piece

/-- The inside of a string that ends with a quote. -/
theorem literal_readString {inside behind : List Char} (hinside : '"' ∉ inside ∧ '\n' ∉ inside) :
    Literal ('"' :: (inside ++ ['"'])) behind (readString inside) := by
  cases hfind : inside.find? (fun c => maxConstant < c.toNat) with
  | some c =>
    obtain ⟨hc, front, back, rfl, hfront⟩ := List.find?_eq_some_iff_append.mp hfind
    have hlarge : maxConstant < c.toNat := by simpa using hc
    have hcodes : ∀ d ∈ front, d.toNat ≤ maxConstant := by simpa using hfront
    rw [readString_unsupported hcodes hlarge]
    exact .unsupported hinside hcodes hlarge
  | none =>
    have hcodes : ∀ d ∈ inside, d.toNat ≤ maxConstant := by simpa using hfind
    rcases Nat.lt_or_ge maxConstant inside.length with hlength | hlength
    · rw [readString_overflow hcodes hlength]
      exact .stringOverflow hinside hcodes hlength
    · rw [readString_eq hcodes hlength]
      exact .string hinside hcodes hlength

theorem literal_string (rest : List Char) :
    Literal (string rest).1.text (string rest).2 (string rest).1.reading := by
  have hparts : ∀ c ∈ rest.takeWhile isStringPart, isStringPart c = true :=
    fun c hc => List.all_eq_true.mp List.all_takeWhile c hc
  have hinside := isStringPart_iff.mp hparts
  have hstop := List.head?_dropWhile_not isStringPart rest
  have hrest := (List.takeWhile_append_dropWhile (p := isStringPart) (l := rest)).symm
  generalize rest.takeWhile isStringPart = inside at hparts hinside hrest
  cases hd : rest.dropWhile isStringPart with
  | nil =>
    rw [hd, List.append_nil] at hrest
    rw [hrest, string_endOfSource hparts]
    exact .endOfSource hinside
  | cons c behind =>
    rw [hd] at hrest hstop
    -- Only a quote and a newline end the inside of a string.
    have hc : c = '"' ∨ c = '\n' := by simpa [isStringPart, or_iff_not_imp_left] using hstop
    rcases hc with rfl | rfl
    · rw [hrest, string_append hparts]
      exact literal_readString hinside
    · rw [hrest, string_newline hparts]
      exact .newline hinside

theorem literal_digits {c : Char} (hc : isDigit c = true) (rest : List Char) :
    Literal (cut c rest).1.text (cut c rest).2 (cut c rest).1.reading := by
  have hdigits : ∀ d ∈ c :: rest.takeWhile isDigit, isDigit d = true :=
    List.forall_mem_cons.mpr ⟨hc, fun d hd => List.all_eq_true.mp List.all_takeWhile d hd⟩
  have hstop : ∀ d ∈ (rest.dropWhile isDigit).head?, isDigit d = false := by
    intro d hd
    have hnot := List.head?_dropWhile_not isDigit rest
    rwa [Option.mem_def.mp hd] at hnot
  rw [cut_digit hc]
  dsimp only [run]
  rw [readInteger_eq]
  split
  case isTrue hvalue => exact .integer (List.cons_ne_nil _ _) hdigits hstop hvalue
  case isFalse hvalue => exact .integerOverflow (List.cons_ne_nil _ _) hdigits hstop (Nat.not_le.mp hvalue)

/-- A text that starts with a digit or a quote starts with a literal, and the lexer cuts it off. -/
theorem literal_cut {c : Char} (h : isDigit c = true ∨ c = '"') (rest : List Char) :
    Literal (cut c rest).1.text (cut c rest).2 (cut c rest).1.reading := by
  rcases h with hc | rfl
  · exact literal_digits hc rest
  · exact literal_string rest

/-! ### Where the lexer gets to -/

/-- The places at which the lexer cuts: it has `before` behind it and `rest` in front of it. -/
inductive Reached (source : List Char) : (before rest : List Char) → Prop where
  | start : Reached source [] source
  | cut {before rest : List Char} {c : Char} (h : Reached source before (c :: rest)) :
      Reached source (before ++ (cut c rest).1.text) (cut c rest).2

theorem Reached.append_eq {source before rest : List Char} (h : Reached source before rest) :
    source = before ++ rest := by
  induction h with
  | start => rfl
  | @cut before rest c _ ih => rw [List.append_assoc, cut_text_append, ih]

/-- At each place some items are read, and the others are those of the text in front of the lexer. -/
theorem Reached.exists_items {source before rest : List Char} (h : Reached source before rest) :
    ∃ front, Item.locate {} (split source) = front ++ Item.locate (({} : Position).after before) (split rest) := by
  induction h with
  | start => exact ⟨[], rfl⟩
  | @cut before rest c _ ih =>
    obtain ⟨front, hfront⟩ := ih
    rw [split_cons, Item.locate_cons, ← Position.after_append, ← List.append_assoc] at hfront
    exact ⟨_, hfront⟩

end Piece

theorem Literal.reading_ne_gap {text behind : List Char} {reading : Reading} (h : Literal text behind reading) :
    reading ≠ .gap := by
  cases h <;> exact Reading.noConfusion

/-- A literal that the lexer gets to is the next item, and the lexer goes on behind it. -/
theorem Literal.exists_item {source text before behind : List Char} {reading : Reading}
    (h : Literal text behind reading) (hreached : Piece.Reached source before (text ++ behind)) :
    Piece.Reached source (before ++ text) behind ∧
    ∃ front item back, Item.locate {} (Piece.split source) = front ++ item :: back ∧
      item.reading = reading ∧ item.span = .behind before text := by
  obtain ⟨c, more, rfl, hcut⟩ := h.cut_eq
  rw [List.cons_append] at hreached
  obtain ⟨front, hitems⟩ := hreached.exists_items
  have hnext := hreached.cut
  rw [Piece.split_cons, Item.locate_cons, hcut, ← Position.after_append] at hitems
  rw [hcut] at hnext
  have hpiece : ({ reading, text := c :: more } : Piece).reading ≠ .gap := h.reading_ne_gap
  obtain ⟨item, hitem, hspan, hreading⟩ := Item.ofPiece?_of_ne_gap hpiece (({} : Position).after before)
    (({} : Position).after (before ++ c :: more))
  rw [hitem] at hitems
  exact ⟨hnext, front, item, _, hitems, hreading, hspan.trans (Span.between_after ..)⟩

open String.Pos.Raw (IsValid)

/-- The inside of a quoted text is all of it but the first and the last byte. -/
theorem Span.fragment_quoted {text : String} {inside : List Char} (h : text.toList = '"' :: (inside ++ ['"'])) :
    1 ≤ text.utf8ByteSize - 1 ∧ IsValid text ⟨1⟩ ∧ IsValid text ⟨text.utf8ByteSize - 1⟩ ∧
      ({ start := 1, stop := text.utf8ByteSize - 1, line := 1, column := 2 } : Span).fragment text =
        String.ofList inside := by
  have hsplit : text.toList = ['"'] ++ inside ++ ['"'] := h
  have hsize : text.utf8ByteSize = 1 + (String.ofList inside).utf8ByteSize + 1 := by
    rw [← String.ofList_toList (s := text), hsplit, String.ofList_append, String.ofList_append,
      String.utf8ByteSize_append, String.utf8ByteSize_append]
    rfl
  have hstop : text.utf8ByteSize - 1 = (String.ofList (['"'] ++ inside)).utf8ByteSize := by
    rw [String.ofList_append, String.utf8ByteSize_append, hsize]
    rfl
  obtain ⟨hfragment, -, hfirst, hlast⟩ := fragment_behind hsplit
  rw [hstop]
  refine ⟨?_, hfirst, hlast, hfragment⟩
  omega

/-! ### Strings in code -/

namespace Text

/-- The code of a character in UTF-16: one unit, or two surrogates above U+FFFF. -/
def utf16Char (c : Char) : List Nat :=
  if c.toNat < 0x10000 then [c.toNat]
  else [0xD800 + (c.toNat - 0x10000) / 0x400, 0xDC00 + (c.toNat - 0x10000) % 0x400]

def utf16 (text : String) : List Nat :=
  text.toList.flatMap utf16Char

example : utf16 "aé€😀" = [0x61, 0xE9, 0x20AC, 0xD83D, 0xDE00] := by decide

theorem utf16_eq_map {text : String} (h : ∀ c ∈ text.toList, c.toNat ≤ maxConstant) :
    utf16 text = text.toList.map Char.toNat := by
  have hunit : ∀ c ∈ text.toList, utf16Char c = [c.toNat] := by
    intro c hc
    have hcode : c.toNat ≤ 32767 := h c hc
    exact if_pos (by omega)
  rw [utf16, List.flatMap_congr hunit, List.map_eq_flatMap]

theorem length_utf16 {text : String} (h : ∀ c ∈ text.toList, c.toNat ≤ maxConstant) :
    (utf16 text).length = text.length := by
  rw [utf16_eq_map h, List.length_map, String.length_toList]

theorem length_utf16_mod {text : String} (hcodes : ∀ c ∈ text.toList, c.toNat ≤ maxConstant)
    (hlength : text.length ≤ maxConstant) : (utf16 text).length % 65536 = (utf16 text).length := by
  rw [length_utf16 hcodes]
  exact Nat.mod_eq_of_lt (Nat.lt_of_le_of_lt hlength (by decide))

end Text

/-- The text of a string token is in the range of the constants, in its characters and in its length. -/
theorem Item.string_of_mem_ofSource {source : String} {t : Token} {text : String}
    (h : .ok t ∈ Item.ofSource source) (htext : t.lexeme = .string text) :
    (∀ c ∈ text.toList, c.toNat ≤ maxConstant) ∧ text.length ≤ maxConstant := by
  obtain ⟨written, hwritten⟩ := exists_written_of_mem_ofSource h
  rw [htext] at hwritten
  cases hwritten with
  | string _ hcodes hlength => simpa using ⟨hcodes, hlength⟩

/-- The code for a string builds it from its UTF-16 units, of which it first pushes the number, as a word. -/
theorem Vm.Instruction.ofString_eq {text : String} (hcodes : ∀ c ∈ text.toList, c.toNat ≤ maxConstant)
    (hlength : text.length ≤ maxConstant) :
    ofString text = pushConstant ((Text.utf16 text).length % 65536) :: call "String.new" 1 ::
      (Text.utf16 text).flatMap fun code => [pushConstant code, call "String.appendChar" 2] := by
  rw [Text.length_utf16_mod hcodes hlength, Text.length_utf16 hcodes, Text.utf16_eq_map hcodes, List.flatMap_map,
    ofString]

/-- Numbers and strings of a source. Where the lexer gets to a digit or a quote, a literal starts. Each literal that
the lexer gets to is an item that says what the literal is and goes over all of it, and the lexer goes on right behind
it. The inside of a quoted one is a slice of its text. The code for a string token pushes the number of its characters,
which is the number of its UTF-16 units and fits a word, and appends one unit after the other, which are the codes of
its characters. -/
theorem literals_ofSource (source : String) :
    (∀ before rest, Piece.Reached source.toList before rest →
      (∀ c ∈ rest.head?, isDigit c = true ∨ c = '"' →
        ∃ text behind reading, rest = text ++ behind ∧ Literal text behind reading) ∧
      ∀ text behind reading, rest = text ++ behind → Literal text behind reading →
        Piece.Reached source.toList (before ++ text) behind ∧
        ∃ front item back, Item.ofSource source = front ++ item :: back ∧
          item.reading = reading ∧ item.span = .behind before text ∧
          let fragment := item.span.fragment source
          fragment.toList = text ∧ ∀ inside, text = '"' :: (inside ++ ['"']) →
            1 ≤ fragment.utf8ByteSize - 1 ∧ IsValid fragment ⟨1⟩ ∧ IsValid fragment ⟨fragment.utf8ByteSize - 1⟩ ∧
            ({ start := 1, stop := fragment.utf8ByteSize - 1, line := 1, column := 2 } : Span).fragment fragment =
              String.ofList inside) ∧
    ∀ t text, .ok t ∈ Item.ofSource source → t.lexeme = .string text →
      let codes := Text.utf16 text
      codes.length = text.length ∧ text.length ≤ maxConstant ∧ codes.length % 65536 = codes.length ∧
      (∀ code ∈ codes, code ≤ maxConstant) ∧ codes.map Char.ofNat = text.toList ∧
      ∀ next s, Goal.termStep next t s =
        .take ((Vm.Instruction.pushConstant (codes.length % 65536) :: .call "String.new" 1 ::
          codes.flatMap fun code => [.pushConstant code, .call "String.appendChar" 2]).map .wrote) next s := by
  refine ⟨fun before rest hreached => ⟨?_, ?_⟩, ?_⟩
  · intro c hc hstart
    obtain ⟨more, rfl⟩ := List.head?_eq_some_iff.mp hc
    exact ⟨_, _, _, (Piece.cut_text_append c more).symm, Piece.literal_cut hstart more⟩
  · rintro text behind reading rfl hliteral
    obtain ⟨hnext, front, item, back, hitems, hreading, hspan⟩ := hliteral.exists_item hreached
    have hsource := hreached.append_eq
    rw [← List.append_assoc] at hsource
    obtain ⟨hfragment, -⟩ := Span.fragment_behind hsource
    have htext : (item.span.fragment source).toList = text := by rw [hspan, hfragment, String.toList_ofList]
    exact ⟨hnext, front, item, back, hitems, hreading, hspan, htext,
      fun inside hinside => Span.fragment_quoted (htext.trans hinside)⟩
  · intro t text ht htext
    obtain ⟨hcodes, hlength⟩ := Item.string_of_mem_ofSource ht htext
    refine ⟨Text.length_utf16 hcodes, hlength, Text.length_utf16_mod hcodes hlength, ?_, ?_, fun next s => ?_⟩
    · rw [Text.utf16_eq_map hcodes]
      simpa using hcodes
    · rw [Text.utf16_eq_map hcodes, List.map_map]
      simp [Function.comp_def]
    · rw [← Vm.Instruction.ofString_eq hcodes hlength, Goal.termStep, htext]

/-- A string and, right behind it, a number that is too large. -/
theorem literals_ofSource_greeting :
    ∃ t e, .ok t ∈ Item.ofSource "\"hé\"040000" ∧ .error e ∈ Item.ofSource "\"hé\"040000" ∧
      t.lexeme = .string "hé" ∧ t.span = .behind [] "\"hé\"".toList ∧
      e.cause = .integerOverflow ∧ e.span = .behind "\"hé\"".toList "040000".toList ∧
      Goal.termStep [] t {} = .take ([.pushConstant 2, .call "String.new" 1, .pushConstant 104,
        .call "String.appendChar" 2, .pushConstant 233, .call "String.appendChar" 2].map .wrote) [] {} := by
  have hcodes : ∀ d ∈ ['h', 'é'], d.toNat ≤ maxConstant :=
    List.forall_mem_cons.mpr ⟨by decide, List.forall_mem_singleton.mpr (by decide)⟩
  have hstring : Literal "\"hé\"".toList "040000".toList (.lexeme (.string "hé")) :=
    @Literal.string ['h', 'é'] _ (by decide) hcodes (by decide)
  have hnumber : Literal "040000".toList [] (.fault .integerOverflow) :=
    .integerOverflow (by decide) (List.all_eq_true.mp rfl) (by simp) (by decide)
  obtain ⟨hplaces, hcode⟩ := literals_ofSource "\"hé\"040000"
  obtain ⟨hnext, front, item, back, hitems, hreading, hspan, -⟩ := (hplaces _ _ .start).2 _ _ _ rfl hstring
  obtain ⟨-, front', item', back', hitems', hreading', hspan', -⟩ := (hplaces _ _ hnext).2 _ _ _ rfl hnumber
  cases item with
  | error e => cases hreading
  | ok t =>
    cases item' with
    | ok t => cases hreading'
    | error e =>
      have ht : .ok t ∈ Item.ofSource "\"hé\"040000" := by simp [hitems]
      have he : .error e ∈ Item.ofSource "\"hé\"040000" := by simp [hitems']
      have hlexeme : t.lexeme = .string "hé" := Reading.lexeme.inj hreading
      obtain ⟨-, -, -, -, -, hstep⟩ := hcode t "hé" ht hlexeme
      exact ⟨t, e, ht, he, hlexeme, hspan, Reading.fault.inj hreading', hspan', hstep [] {}⟩

end JackToVm
