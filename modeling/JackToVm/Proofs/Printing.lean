import JackToVm.Proofs.Spelling

/-!
Lexemes in print. `printed` writes lexemes one behind the other, with a text of one's choice between each two. The
lexer reads the lexemes back (`readings_printed`), whatever stands between them, as long as it is a gap that starts
with a blank, or nothing between two lexemes that do not run together (`Parts`).
-/

namespace JackToVm

namespace Lexeme

def text : Lexeme → String
  | keyword word => word.text
  | symbol s => s.text
  | identifier name => name
  | integer value => toString value
  | string text => "\"" ++ text ++ "\""

/-- A lexeme that a source can hold. -/
def Printable : Lexeme → Prop
  | keyword _ | symbol _ => True
  | identifier name => name ∉ Keyword.all.map Keyword.text ∧
      ∃ c more, name.toList = c :: more ∧ isWordStart c = true ∧ ∀ d ∈ more, isWordPart d = true
  | integer value => value ≤ maxConstant
  | string text => text.length ≤ maxConstant ∧ ∀ c ∈ text.toList, c ≠ '\n' ∧ c ≠ '"' ∧ c.toNat ≤ maxConstant

theorem printable_identifier_iff {name : String} :
    (identifier name).Printable ↔ name ∉ Keyword.all.map Keyword.text ∧
      name.toList.head?.any isWordStart = true ∧ name.toList.tail.all isWordPart = true := by
  cases h : name.toList <;> simp [Printable, h, and_assoc]

instance decidablePrintable : DecidablePred Printable
  | keyword _ | symbol _ => isTrue trivial
  | identifier _ => decidable_of_iff _ printable_identifier_iff.symm
  | integer value => Nat.decLe value maxConstant
  | string text =>
    inferInstanceAs (Decidable (text.length ≤ maxConstant ∧
      ∀ c ∈ text.toList, c ≠ '\n' ∧ c ≠ '"' ∧ c.toNat ≤ maxConstant))

/-- Tells whether two lexemes, with nothing between them, run together to another lexeme or to a comment. -/
def clashes : Lexeme → Lexeme → Bool
  | keyword _, l | identifier _, l => l.lexemeClass ∈ [.keyword, .identifier, .integer]
  | integer _, l => l.lexemeClass = .integer
  | symbol .slash, l => l = symbol .slash || l = symbol .star
  | _, _ => false

end Lexeme

/-- A gap whose first character is a blank. -/
def Gap.Led (atEnd : Bool) (gap : String) : Prop :=
  Gap atEnd gap.toList ∧ ∃ c ∈ gap.toList.head?, Text.isBlank c = true

/-- A text that can stand between two lexemes. -/
def Parts (l l' : Lexeme) (separator : String) : Prop :=
  Gap.Led false separator ∨ separator = "" ∧ l.clashes l' = false

/-- Lexemes in print. The separators are counted from the first one on. -/
def printed (separator : Nat → String) : List Lexeme → String
  | [] => ""
  | [l] => l.text
  | l :: l' :: ls => l.text ++ separator 0 ++ printed (fun i => separator (i + 1)) (l' :: ls)

/-! ### Lexemes by their texts -/

theorem Keyword.ofText?_eq_none {name : String} (h : name ∉ all.map text) : ofText? name = none := by
  cases hword : ofText? name with
  | none => rfl
  | some word =>
    rw [eq_text_of_ofText? hword] at h
    exact absurd (List.mem_map_of_mem (mem_all word)) h

theorem Symbol.toChar_inj {s s' : Symbol} : s.toChar = s'.toChar ↔ s = s' := by
  refine ⟨fun h => ?_, congrArg toChar⟩
  have hread := congrArg ofChar? h
  rw [ofChar?_toChar, ofChar?_toChar] at hread
  exact Option.some.inj hread

namespace Lexeme

/-- The digits of a number are read as the number. -/
theorem written_integer {value : Nat} (h : value ≤ maxConstant) :
    Written (integer value) (toString value).toList := by
  have hdigits : (toString value).toList = Nat.toDigits 10 value := Nat.toList_repr
  have hvalue : Nat.ofDigitChars 10 (Nat.toDigits 10 value) 0 = value :=
    Nat.ofDigitChars_toDigits (by decide) (by decide)
  have hall : ∀ d ∈ Nat.toDigits 10 value, isDigit d = true := by
    intro d hd
    have hdigit := Nat.isDigit_of_mem_toDigits (by decide) (by decide) hd
    rw [Char.isDigit_iff_toNat] at hdigit
    exact isDigit_iff.mpr hdigit
  rw [hdigits]
  cases htext : Nat.toDigits 10 value with
  | nil => exact absurd htext Nat.toDigits_ne_nil
  | cons c more =>
    rw [htext] at hvalue hall
    rw [← hvalue] at h
    have hwritten := Written.integer hall h
    rwa [hvalue] at hwritten

theorem Printable.written {l : Lexeme} (h : l.Printable) : l.Written l.text.toList := by
  cases l with
  | keyword word => exact .keyword word
  | symbol s =>
    rw [text, Symbol.text, Char.toString_eq_singleton, String.toList_singleton]
    exact .symbol s
  | identifier name =>
    obtain ⟨hfree, c, more, hname, hstart, hmore⟩ := h
    have hword := Keyword.ofText?_eq_none hfree
    rw [← String.ofList_toList (s := name), hname] at hword
    have hwritten := Written.identifier hstart hmore hword
    rwa [← hname, String.ofList_toList] at hwritten
  | integer value => exact written_integer h
  | string text =>
    obtain ⟨hlength, hchars⟩ := h
    have hparts : ∀ c ∈ text.toList, isStringPart c = true := by
      intro c hc
      obtain ⟨hnewline, hquote, -⟩ := hchars c hc
      simp [isStringPart, hnewline, hquote]
    have hwritten := Written.string hparts (fun c hc => (hchars c hc).2.2) hlength
    rw [String.ofList_toList] at hwritten
    simpa [Lexeme.text] using hwritten

theorem goesOn_symbol_iff {s : Symbol} {c : Char} :
    goesOn (symbol s) c = true ↔ s = .slash ∧ (c = Symbol.toChar .slash ∨ c = Symbol.toChar .star) := by
  cases s <;> simp [goesOn, Symbol.toChar]

theorem goesOn_symbol {c : Char} (hc : 48 ≤ c.toNat) (s : Symbol) : goesOn (symbol s) c = false := by
  rw [← Bool.not_eq_true, goesOn_symbol_iff]
  rintro ⟨-, rfl | rfl⟩
  · exact absurd hc (by decide)
  · exact absurd hc (by decide)

/-- Only words go on with a word. -/
theorem goesOn_of_isWordStart {l : Lexeme} {c : Char} (hc : isWordStart c = true)
    (hkeyword : l.lexemeClass ≠ .keyword) (hidentifier : l.lexemeClass ≠ .identifier) : l.goesOn c = false := by
  have hcode := toNat_of_isWordStart hc
  cases l with
  | keyword => exact absurd rfl hkeyword
  | identifier => exact absurd rfl hidentifier
  | symbol s => exact goesOn_symbol (by omega) s
  | string => rfl
  | integer =>
    rw [goesOn, Bool.eq_false_iff, ne_eq, isDigit_iff]
    omega

/-- What does not clash with a lexeme does not go on with its text. -/
theorem Written.goesOn_eq_false {l l' : Lexeme} {text : List Char} (h : l'.Written text)
    (hclash : l.clashes l' = false) : ∀ c ∈ text.head?, l.goesOn c = false := by
  intro c hc
  have hword (hl : l'.lexemeClass ∈ [.keyword, .identifier, .integer]) :
      l.lexemeClass ≠ .keyword ∧ l.lexemeClass ≠ .identifier := by
    cases l <;> simp_all [clashes, lexemeClass]
  cases h with
  | keyword word =>
    obtain ⟨d, more, htext, hstart, -⟩ := word.exists_cons
    rw [htext] at hc
    cases hc
    obtain ⟨hkeyword, hidentifier⟩ := hword (by simp [lexemeClass])
    exact goesOn_of_isWordStart hstart hkeyword hidentifier
  | identifier hstart =>
    cases hc
    obtain ⟨hkeyword, hidentifier⟩ := hword (by simp [lexemeClass])
    exact goesOn_of_isWordStart hstart hkeyword hidentifier
  | integer hdigits =>
    cases hc
    have hcode := isDigit_iff.mp (hdigits c (List.mem_cons_self ..))
    cases l with
    | keyword | identifier | integer => cases hclash
    | symbol s => exact goesOn_symbol (by omega) s
    | string => rfl
  | symbol s =>
    cases hc
    cases l with
    | keyword | identifier | integer => cases s <;> rfl
    | string => rfl
    | symbol s' =>
      rw [← Bool.not_eq_true, goesOn_symbol_iff]
      rintro ⟨rfl, hchar⟩
      rw [Symbol.toChar_inj, Symbol.toChar_inj] at hchar
      simp only [clashes, symbol.injEq, Bool.or_eq_false_iff, decide_eq_false_iff_not] at hclash
      rcases hchar with hslash | hstar
      · exact hclash.1 hslash
      · exact hclash.2 hstar
  | string =>
    cases hc
    cases l with
    | symbol s => cases s <;> rfl
    | keyword | identifier | integer | string => rfl

end Lexeme

/-! ### Lexemes in a row -/

theorem Gap.Led.goesOn_eq_false {atEnd : Bool} {gap : String} (h : Led atEnd gap) (l : Lexeme) (behind : List Char) :
    ∀ c ∈ (gap.toList ++ behind).head?, l.goesOn c = false := by
  obtain ⟨-, c, hhead, hblank⟩ := h
  obtain ⟨more, hgap⟩ := List.head?_eq_some_iff.mp hhead
  rw [hgap]
  rintro d ⟨⟩
  exact l.goesOn_of_isBlank hblank

/-- One lexeme, what parts it from the next one, and a text that starts with the next one. -/
theorem Parts.readings {l l' : Lexeme} {separator : String} {behind : List Char} (h : Parts l l' separator)
    (hl : l.Printable) (hl' : l'.Printable) :
    Piece.readings (l.text.toList ++ (separator.toList ++ (l'.text.toList ++ behind))) =
      .lexeme l :: Piece.readings (l'.text.toList ++ behind) := by
  rcases h with hled | ⟨rfl, hclash⟩
  · rw [hl.written.readings_append (hled.goesOn_eq_false l _), hled.1.readings nofun]
  · obtain ⟨c, more, htext, -⟩ := hl'.written.exists_cut
    have hstop := hl'.written.goesOn_eq_false hclash
    rw [htext] at hstop ⊢
    exact hl.written.readings_append hstop

theorem exists_toList_printed (separator : Nat → String) (l : Lexeme) (ls : List Lexeme) :
    ∃ behind, (printed separator (l :: ls)).toList = l.text.toList ++ behind := by
  cases ls with
  | nil => exact ⟨[], (List.append_nil _).symm⟩
  | cons l' ls =>
    refine ⟨(separator 0).toList ++ (printed (fun i => separator (i + 1)) (l' :: ls)).toList, ?_⟩
    rw [printed, String.toList_append, String.toList_append, List.append_assoc]

/-- What is printed is read back, in front of a last gap. -/
theorem readings_printed {ls : List Lexeme} {separator : Nat → String} {trail : String}
    (hprintable : ∀ l ∈ ls, l.Printable)
    (hparts : ∀ i l l', ls[i]? = some l → ls[i + 1]? = some l' → Parts l l' (separator i))
    (htrail : trail = "" ∨ Gap.Led true trail) :
    Piece.readings ((printed separator ls).toList ++ trail.toList) = ls.map .lexeme := by
  have hend : Piece.readings trail.toList = [] := by
    rcases htrail with rfl | hled
    · exact Piece.readings_nil
    · have hread := @Gap.readings true trail.toList hled.1 [] fun _ => rfl
      rwa [List.append_nil, Piece.readings_nil] at hread
  have hstop (l : Lexeme) : ∀ c ∈ trail.toList.head?, l.goesOn c = false := by
    rcases htrail with rfl | hled
    · nofun
    · have hled := hled.goesOn_eq_false l []
      rwa [List.append_nil] at hled
  -- A lexeme and its separator come off the front; the separators behind are counted anew.
  induction ls generalizing separator with
  | nil => exact hend
  | cons l ls ih =>
    obtain ⟨hl, hrest⟩ := List.forall_mem_cons.mp hprintable
    cases ls with
    | nil =>
      rw [printed, hl.written.readings_append (hstop l), hend]
      rfl
    | cons l' ls =>
      have hfirst := hparts 0 l l' rfl rfl
      have hnext := ih hrest fun i => hparts (i + 1)
      obtain ⟨behind, hbehind⟩ := exists_toList_printed (fun i => separator (i + 1)) l' ls
      have hl' := hrest l' (List.mem_cons_self ..)
      rw [printed, String.toList_append, String.toList_append, List.append_assoc, List.append_assoc, hbehind,
        List.append_assoc, hfirst.readings hl hl', ← List.append_assoc, ← hbehind, hnext]
      rfl

/-- Reading undoes printing. -/
theorem ofSource_printed {ls : List Lexeme} {separator : Nat → String} {lead trail : String}
    (hprintable : ∀ l ∈ ls, l.Printable) (hlead : Gap false lead.toList)
    (hparts : ∀ i l l', ls[i]? = some l → ls[i + 1]? = some l' → Parts l l' (separator i))
    (htrail : trail = "" ∨ Gap.Led true trail) :
    ∃ tokens : List Token, Item.ofSource (lead ++ printed separator ls ++ trail) = tokens.map .ok ∧
      tokens.map (·.lexeme) = ls := by
  have hread := readings_printed hprintable hparts htrail
  have hitems : (Item.ofSource (lead ++ printed separator ls ++ trail)).map Item.reading = ls.map .lexeme := by
    rw [Item.map_reading_ofSource, String.toList_append, String.toList_append, List.append_assoc,
      hlead.readings nofun, hread]
  obtain ⟨tokens, hok, hlexemes⟩ := Item.exists_tokens_of_reading hitems
  exact ⟨tokens, hok, hlexemes.symm⟩

/-- Lexemes that stand as close together as they can. -/
def crowd : List Lexeme :=
  [.keyword .do_, .identifier "doing", .symbol .dot, .string "// /*", .integer 32767, .symbol .slash, .symbol .minus,
    .integer 0, .symbol .slash, .symbol .star]

def crowdSeparator : Nat → String
  | 0 => " /* \" **/"
  | 7 => "\n// */\n"
  | 8 => " "
  | _ => ""

theorem ofSource_printed_crowd :
    "/**/" ++ printed crowdSeparator crowd ++ "\t// end" =
      "/**/do /* \" **/doing.\"// /*\"32767/-0\n// */\n/ *\t// end" ∧
    ∃ tokens : List Token, Item.ofSource ("/**/" ++ printed crowdSeparator crowd ++ "\t// end") = tokens.map .ok ∧
      tokens.map (·.lexeme) = crowd := by
  refine ⟨by decide +kernel, ofSource_printed ?_ ?_ ?_ ?_⟩
  · simp only [crowd, List.forall_mem_cons, Lexeme.Printable]
    have hname : ∀ d ∈ ['o', 'i', 'n', 'g'], isWordPart d = true := List.all_eq_true.mp rfl
    have hchars : ∀ c ∈ "// /*".toList, c ≠ '\n' ∧ c ≠ '"' ∧ c.toNat ≤ maxConstant := by simp [maxConstant]
    refine ⟨trivial, ⟨by decide, 'd', _, rfl, rfl, hname⟩, trivial, ⟨by decide, hchars⟩, by decide, ?_⟩
    simp
  · exact @Gap.block false [] [] (by decide) .nil
  · intro i l l' hl hl'
    match i with
    | 0 => exact .inl ⟨.blank rfl (@Gap.block false [' ', '"', ' ', '*'] [] (by decide) .nil), ' ', rfl, rfl⟩
    | 7 => exact .inl ⟨.blank rfl (@Gap.line false [' ', '*', '/'] [] (by decide) (.blank rfl .nil)), '\n', rfl, rfl⟩
    | 8 => exact .inl ⟨.blank rfl .nil, ' ', rfl, rfl⟩
    | 1 | 2 | 3 | 4 | 5 | 6 => cases hl; cases hl'; exact .inr ⟨rfl, rfl⟩
    | n + 9 => cases hl'
  · exact .inr ⟨.blank rfl (@Gap.lastLine true [' ', 'e', 'n', 'd'] rfl (by decide)), '\t', rfl, rfl⟩

end JackToVm
