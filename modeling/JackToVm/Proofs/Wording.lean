import JackToVm.Proofs.Gaps

/-!
How lexemes are written. A lexeme that is read off a text is written there (`written_of_cut`), and what is written
as a lexeme is read as it, as long as the text behind it does not go on with it (`Written.exists_cut`). So each
lexeme is read off its own text again (`Written.readings`).
-/

namespace JackToVm

/-! ### Characters -/

theorem isDigit_iff {c : Char} : isDigit c = true ↔ 48 ≤ c.toNat ∧ c.toNat ≤ 57 := by
  rw [isDigit, Bool.and_eq_true, decide_eq_true_eq, decide_eq_true_eq, Char.le_def, Char.le_def,
    UInt32.le_iff_toNat_le, UInt32.le_iff_toNat_le]
  exact Iff.rfl

theorem isWordStart_iff {c : Char} :
    isWordStart c = true ↔ (c = '_' ∨ 97 ≤ c.toNat ∧ c.toNat ≤ 122) ∨ 65 ≤ c.toNat ∧ c.toNat ≤ 90 := by
  simp only [isWordStart, Bool.or_eq_true, Bool.and_eq_true, decide_eq_true_eq, Char.le_def, UInt32.le_iff_toNat_le]
  exact Iff.rfl

/-- The first characters of numbers and words are no blanks. -/
theorem isBlank_eq_false {c : Char} (h : 33 ≤ c.toNat) (h' : c.toNat ≤ 126) : Text.isBlank c = false := by
  simp only [Text.isBlank, Bool.or_eq_false_iff, Bool.and_eq_false_iff, decide_eq_false_iff_not, beq_eq_false_iff_ne]
  omega

theorem toNat_of_isWordStart {c : Char} (h : isWordStart c = true) : 65 ≤ c.toNat ∧ c.toNat ≤ 122 := by
  rcases isWordStart_iff.mp h with (rfl | h) | h
  · decide
  · omega
  · omega

theorem toNat_of_isWordPart {c : Char} (h : isWordPart c = true) : 48 ≤ c.toNat ∧ c.toNat ≤ 122 := by
  rcases Bool.or_eq_true_iff.mp h with h | h
  · have hcode := toNat_of_isWordStart h
    omega
  · have hcode := isDigit_iff.mp h
    omega

theorem Keyword.eq_text_of_ofText? {name : String} {word : Keyword} (h : ofText? name = some word) :
    name = word.text := by
  unfold ofText? at h
  split at h <;> cases h <;> rfl

theorem Symbol.eq_toChar_of_ofChar? {c : Char} {s : Symbol} (h : ofChar? c = some s) : c = s.toChar := by
  unfold ofChar? at h
  split at h <;> cases h <;> rfl

/-! ### Texts of lexemes -/

namespace Lexeme

/-- How a lexeme is written. A number may have zeros in front. -/
inductive Written : Lexeme → List Char → Prop where
  | keyword (word : Keyword) : Written (.keyword word) word.text.toList
  | symbol (s : Symbol) : Written (.symbol s) [s.toChar]
  | identifier {c : Char} {more : List Char} (hstart : isWordStart c = true) (hmore : ∀ d ∈ more, isWordPart d = true)
      (hfree : Keyword.ofText? (String.ofList (c :: more)) = none) :
      Written (.identifier (String.ofList (c :: more))) (c :: more)
  | integer {c : Char} {more : List Char} (hdigits : ∀ d ∈ c :: more, isDigit d = true)
      (hvalue : Nat.ofDigitChars 10 (c :: more) 0 ≤ maxConstant) :
      Written (.integer (Nat.ofDigitChars 10 (c :: more) 0)) (c :: more)
  | string {text : List Char} (hparts : ∀ c ∈ text, isStringPart c = true) (hcodes : ∀ c ∈ text, c.toNat ≤ maxConstant)
      (hlength : text.length ≤ maxConstant) : Written (.string (String.ofList text)) ('"' :: (text ++ ['"']))

/-- Tells whether a lexeme would go on with a character right behind it, or become a comment. -/
def goesOn : Lexeme → Char → Bool
  | .keyword _, c | .identifier _, c => isWordPart c
  | .integer _, c => isDigit c
  | .symbol .slash, c => c = '/' || c = '*'
  | _, _ => false

/-- No lexeme goes on with a blank. -/
theorem goesOn_of_isBlank (l : Lexeme) {c : Char} (hc : Text.isBlank c = true) : l.goesOn c = false := by
  have hcode : ¬ (33 ≤ c.toNat ∧ c.toNat ≤ 126) := by
    rintro ⟨hlow, hhigh⟩
    rw [isBlank_eq_false hlow hhigh] at hc
    cases hc
  rw [← Bool.not_eq_true]
  intro h
  unfold goesOn at h
  split at h
  · have hpart := toNat_of_isWordPart h
    omega
  · have hpart := toNat_of_isWordPart h
    omega
  · have hdigit := isDigit_iff.mp h
    omega
  · rw [Bool.or_eq_true, decide_eq_true_eq, decide_eq_true_eq] at h
    rcases h with rfl | rfl
    · exact hcode (by decide)
    · exact hcode (by decide)
  · cases h

end Lexeme

namespace Piece
open Lexeme (Written)

/-! ### Runs of one class -/

/-- A run goes up to a character of another class. -/
theorem run_append {p : Char → Bool} {more behind : List Char} (hmore : ∀ d ∈ more, p d = true)
    (hstop : ∀ d ∈ behind.head?, p d = false) (c : Char) (read : List Char → Reading) :
    run c p (more ++ behind) read = ({ reading := read (c :: more), text := c :: more }, behind) := by
  rw [run, List.takeWhile_append_of_pos hmore, List.dropWhile_append_of_pos hmore]
  cases behind with
  | nil => simp
  | cons d behind =>
    have hd : p d = false := hstop d rfl
    simp [hd]

theorem cut_digit {c : Char} (h : isDigit c = true) (rest : List Char) :
    cut c rest = run c isDigit rest readInteger := by
  obtain ⟨hlow, hhigh⟩ := isDigit_iff.mp h
  have hblank : Text.isBlank c = false := isBlank_eq_false (by omega) (by omega)
  have hslash : c ≠ '/' := by
    rintro rfl
    cases h
  have hquote : c ≠ '"' := by
    rintro rfl
    cases h
  simp [cut, hblank, hslash, hquote, h]

theorem cut_word {c : Char} (h : isWordStart c = true) (rest : List Char) :
    cut c rest = run c isWordPart rest readWord := by
  obtain ⟨hlow, hhigh⟩ := toNat_of_isWordStart h
  have hblank : Text.isBlank c = false := isBlank_eq_false (by omega) (by omega)
  have hslash : c ≠ '/' := by
    rintro rfl
    cases h
  have hquote : c ≠ '"' := by
    rintro rfl
    cases h
  have hdigit : isDigit c = false := by
    rw [Bool.eq_false_iff, ne_eq, isDigit_iff]
    omega
  simp [cut, hblank, hslash, hquote, hdigit, h]

/-! ### Numbers -/

/-- Digits are added up to their value, which is cut off above the largest constant. -/
theorem foldl_addDigit (digits : List Char) (n : Nat) :
    digits.foldl addDigit (min n (maxConstant + 1)) = min (Nat.ofDigitChars 10 digits n) (maxConstant + 1) := by
  induction digits generalizing n with
  | nil => rfl
  | cons d digits ih =>
    have hstep : addDigit (min n (maxConstant + 1)) d = min (10 * n + (d.toNat - '0'.toNat)) (maxConstant + 1) := by
      rw [addDigit]
      omega
    rw [List.foldl_cons, hstep, ih, Nat.ofDigitChars_cons]

theorem readInteger_eq (digits : List Char) :
    readInteger digits =
      if Nat.ofDigitChars 10 digits 0 ≤ maxConstant then .lexeme (.integer (Nat.ofDigitChars 10 digits 0))
      else .fault .integerOverflow := by
  have hvalue : digits.foldl addDigit 0 = min (Nat.ofDigitChars 10 digits 0) (maxConstant + 1) :=
    foldl_addDigit digits 0
  simp only [readInteger, hvalue]
  by_cases h : Nat.ofDigitChars 10 digits 0 ≤ maxConstant
  · have hmin : min (Nat.ofDigitChars 10 digits 0) (maxConstant + 1) = Nat.ofDigitChars 10 digits 0 := by omega
    rw [hmin, if_pos h]
  · have hmin : ¬ min (Nat.ofDigitChars 10 digits 0) (maxConstant + 1) ≤ maxConstant := by omega
    rw [if_neg h, if_neg hmin]

/-! ### Reading what is written -/

theorem string_append {text : List Char} (hparts : ∀ c ∈ text, isStringPart c = true) (behind : List Char) :
    string (text ++ '"' :: behind) =
      ({ reading := readString text, text := '"' :: (text ++ ['"']) }, behind) := by
  have hquote : isStringPart '"' = false := rfl
  simp [string, List.takeWhile_append_of_pos hparts, List.dropWhile_append_of_pos hparts, hquote]

theorem find?_eq_none_of_codes {text : List Char} (hcodes : ∀ c ∈ text, c.toNat ≤ maxConstant) :
    text.find? (fun c => maxConstant < c.toNat) = none := by
  rw [List.find?_eq_none]
  intro c hc
  have hle := hcodes c hc
  simpa using hle

theorem readString_eq {text : List Char} (hcodes : ∀ c ∈ text, c.toNat ≤ maxConstant)
    (hlength : text.length ≤ maxConstant) : readString text = .lexeme (.string (String.ofList text)) := by
  rw [readString, find?_eq_none_of_codes hcodes]
  simp only [if_pos hlength]

theorem slash_append {behind : List Char} (h : ∀ c ∈ behind.head?, Lexeme.goesOn (.symbol .slash) c = false) :
    slash behind = ({ reading := .lexeme (.symbol .slash), text := ['/'] }, behind) := by
  unfold slash
  split
  case h_1 => exact absurd (h '/' rfl) (by decide)
  case h_2 => exact absurd (h '*' rfl) (by decide)
  case h_3 => rfl

theorem cut_symbol {s : Symbol} {behind : List Char}
    (h : ∀ c ∈ behind.head?, Lexeme.goesOn (.symbol s) c = false) :
    cut s.toChar behind = ({ reading := .lexeme (.symbol s), text := [s.toChar] }, behind) := by
  cases s with
  | slash => exact slash_append h
  | _ => rfl

theorem readWord_keyword (word : Keyword) : readWord word.text.toList = .lexeme (.keyword word) := by
  simp [readWord]

theorem readWord_identifier_of_free {name : List Char} (h : Keyword.ofText? (String.ofList name) = none) :
    readWord name = .lexeme (.identifier (String.ofList name)) := by
  simp only [readWord, h]

end Piece

open Piece (cut)

theorem Keyword.exists_cons (word : Keyword) :
    ∃ c more, word.text.toList = c :: more ∧ isWordStart c = true ∧ ∀ d ∈ more, isWordPart d = true := by
  cases word <;> exact ⟨_, _, rfl, rfl, List.all_eq_true.mp rfl⟩

/-- What is written as a lexeme is read as it, unless the lexeme goes on with the text behind it. -/
theorem Lexeme.Written.exists_cut {l : Lexeme} {text : List Char} (h : l.Written text) :
    ∃ c more, text = c :: more ∧ ∀ behind : List Char, (∀ d ∈ behind.head?, l.goesOn d = false) →
      cut c (more ++ behind) = ({ reading := .lexeme l, text }, behind) := by
  cases h with
  | keyword word =>
    obtain ⟨c, more, htext, hstart, hmore⟩ := word.exists_cons
    refine ⟨c, more, htext, fun behind hstop => ?_⟩
    rw [Piece.cut_word hstart, Piece.run_append hmore hstop, ← htext, Piece.readWord_keyword]
  | symbol s => exact ⟨s.toChar, [], rfl, fun behind hstop => Piece.cut_symbol hstop⟩
  | @identifier c more hstart hmore hfree =>
    refine ⟨c, more, rfl, fun behind hstop => ?_⟩
    rw [Piece.cut_word hstart, Piece.run_append hmore hstop, Piece.readWord_identifier_of_free hfree]
  | @integer c more hdigits hvalue =>
    rw [List.forall_mem_cons] at hdigits
    refine ⟨c, more, rfl, fun behind hstop => ?_⟩
    rw [Piece.cut_digit hdigits.1, Piece.run_append hdigits.2 hstop, Piece.readInteger_eq, if_pos hvalue]
  | @string text hparts hcodes hlength =>
    refine ⟨'"', text ++ ['"'], rfl, fun behind _ => ?_⟩
    have hstring : cut '"' (text ++ '"' :: behind) = _ := Piece.string_append hparts behind
    rw [List.append_assoc, List.singleton_append, hstring, Piece.readString_eq hcodes hlength]

/-- A lexeme in front of a text that it does not go on with. -/
theorem Lexeme.Written.readings_append {l : Lexeme} {text behind : List Char} (h : l.Written text)
    (hstop : ∀ d ∈ behind.head?, l.goesOn d = false) :
    Piece.readings (text ++ behind) = .lexeme l :: Piece.readings behind := by
  obtain ⟨c, more, rfl, hread⟩ := h.exists_cut
  have hcut := hread behind hstop
  rw [List.cons_append, Piece.readings_of_ne_gap (by simp [hcut]), hcut]

/-- The text of a lexeme, by itself, is read as the lexeme. -/
theorem Lexeme.Written.readings {l : Lexeme} {text : List Char} (h : l.Written text) :
    Piece.readings text = [.lexeme l] := by
  have hread := @readings_append l text [] h (by simp)
  rwa [List.append_nil, Piece.readings_nil] at hread

/-! ### Writing of what is read -/

namespace Piece
open Lexeme (Written)

theorem written_of_slash {rest : List Char} {l : Lexeme} (h : (slash rest).1.reading = .lexeme l) :
    l.Written (slash rest).1.text := by
  unfold slash at h ⊢
  split at h
  case h_1 => cases h
  case h_2 => split at h <;> cases h
  case h_3 =>
    cases h
    exact .symbol .slash

theorem readString_lexeme {inside : List Char} {l : Lexeme} (h : readString inside = .lexeme l) :
    l = .string (String.ofList inside) ∧ (∀ c ∈ inside, c.toNat ≤ maxConstant) ∧ inside.length ≤ maxConstant := by
  unfold readString at h
  split at h
  case h_1 => cases h
  case h_2 hnone =>
    split at h
    case isFalse => cases h
    case isTrue hlength =>
      cases h
      refine ⟨rfl, fun c hc => ?_, hlength⟩
      simpa using List.find?_eq_none.mp hnone c hc

theorem written_of_string {rest : List Char} {l : Lexeme} (h : (string rest).1.reading = .lexeme l) :
    l.Written (string rest).1.text := by
  unfold string at h ⊢
  cases hd : rest.dropWhile isStringPart with
  | nil => simp [hd] at h
  | cons c more =>
    by_cases hc : c = '"'
    · have hl : readString (rest.takeWhile isStringPart) = .lexeme l := by simpa [hd, hc] using h
      obtain ⟨rfl, hcodes, hlength⟩ := readString_lexeme hl
      rw [hc]
      exact .string (fun d hd => List.all_eq_true.mp List.all_takeWhile d hd) hcodes hlength
    · simp [hd, hc] at h

theorem written_of_digits {c : Char} {rest : List Char} {l : Lexeme} (hc : isDigit c = true)
    (h : (run c isDigit rest readInteger).1.reading = .lexeme l) :
    l.Written (run c isDigit rest readInteger).1.text := by
  have hdigits : ∀ d ∈ c :: rest.takeWhile isDigit, isDigit d = true :=
    List.forall_mem_cons.mpr ⟨hc, fun d hd => List.all_eq_true.mp List.all_takeWhile d hd⟩
  dsimp only [run] at h ⊢
  rw [readInteger_eq] at h
  split at h
  case isFalse => cases h
  case isTrue hvalue =>
    cases h
    exact .integer hdigits hvalue

theorem written_of_word {c : Char} {rest : List Char} {l : Lexeme} (hc : isWordStart c = true)
    (h : (run c isWordPart rest readWord).1.reading = .lexeme l) :
    l.Written (run c isWordPart rest readWord).1.text := by
  have hmore : ∀ d ∈ rest.takeWhile isWordPart, isWordPart d = true :=
    fun d hd => List.all_eq_true.mp List.all_takeWhile d hd
  dsimp only [run, readWord] at h ⊢
  split at h
  case h_1 word hword =>
    cases h
    have htext := congrArg String.toList (Keyword.eq_text_of_ofText? hword)
    rw [String.toList_ofList] at htext
    rw [htext]
    exact .keyword word
  case h_2 hfree =>
    cases h
    exact .identifier hc hmore hfree

/-- A lexeme that is read off a text is written there. -/
theorem written_of_cut {c : Char} {rest : List Char} {l : Lexeme} (h : (cut c rest).1.reading = .lexeme l) :
    l.Written (cut c rest).1.text := by
  revert h
  refine cut_cases c rest (fun _ h => ?_) (fun _ h => ?_) (fun _ h => ?_) (fun hc h => ?_) (fun hc h => ?_)
    (fun _ h => ?_)
  · cases h
  · exact written_of_slash h
  · exact written_of_string h
  · exact written_of_digits hc h
  · exact written_of_word hc h
  · unfold readSingle at h
    dsimp only at h ⊢
    split at h
    case h_2 => cases h
    case h_1 s hs =>
      cases h
      rw [Symbol.eq_toChar_of_ofChar? hs]
      exact .symbol s

end Piece

/-- A token of a source is written there. -/
theorem Item.exists_written_of_mem_ofSource {source : String} {t : Token} (h : .ok t ∈ Item.ofSource source) :
    ∃ text, t.lexeme.Written text := by
  obtain ⟨front, piece, back, hs, hr, -⟩ := exists_piece_of_mem_locate h
  have hmem : piece ∈ Piece.split source.toList := by simp [hs]
  obtain ⟨c, rest, rfl⟩ := Piece.exists_cut_of_mem_split hmem
  exact ⟨_, Piece.written_of_cut hr⟩

end JackToVm
