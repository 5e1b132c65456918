import JackToVm.Text.Blank
import JackToVm.Token

/-!
Pieces of a source text: gaps (blanks and comments), lexemes, and stretches that are no lexeme, with
the cause. `cut` takes the first piece off a text and `split` takes a text apart. The pieces of a text,
put together, are the text (`flatMap_text_split`), and none is empty (`text_ne_nil_of_mem_split`).
-/

namespace JackToVm

/-- Why a stretch of source text is no lexeme. -/
inductive LexCause where
  | unknownCharacter (c : Char)
  | unterminatedString
  | unsupportedCharacter (c : Char)
  | unterminatedComment
  | integerOverflow
  | stringOverflow
deriving DecidableEq, Repr, Inhabited

namespace LexCause

def message : LexCause → String
  | unknownCharacter c => s!"lexical error: unknown character {Text.quotedChar c}"
  | unterminatedString => "lexical error: unterminated string constant"
  | unsupportedCharacter c =>
    s!"lexical error: character {Text.quotedChar c} is outside the constant range"
  | unterminatedComment => "lexical error: unterminated block comment"
  | integerOverflow => s!"lexical error: integer constant exceeds {maxConstant}"
  | stringOverflow => s!"lexical error: string constant longer than {maxConstant} characters"

end LexCause

/-- What a piece of source text is. -/
inductive Reading where
  | gap
  | lexeme (lexeme : Lexeme)
  | fault (cause : LexCause)
deriving DecidableEq, Repr, Inhabited

/-- A piece of source text. -/
structure Piece where
  reading : Reading
  text : List Char
deriving DecidableEq, Repr, Inhabited

/-! ### Character classes -/

/-- Tells whether a character is a decimal digit. Only the ASCII digits count. -/
def isDigit (c : Char) : Bool :=
  '0' ≤ c && c ≤ '9'

/-- Tells whether an identifier may start with a character. Only ASCII letters count. -/
def isWordStart (c : Char) : Bool :=
  c = '_' || ('a' ≤ c && c ≤ 'z') || ('A' ≤ c && c ≤ 'Z')

/-- Tells whether an identifier may go on with a character. -/
def isWordPart (c : Char) : Bool :=
  isWordStart c || isDigit c

/-- Tells whether a character can stand inside the quotes of a string. -/
def isStringPart (c : Char) : Bool :=
  c ≠ '"' && c ≠ '\n'

/-! ### The sorts of pieces -/

namespace Piece

/-- The longest piece whose further characters are all of one class, and the text behind it. -/
def run (first : Char) (p : Char → Bool) (rest : List Char) (read : List Char → Reading) :
    Piece × List Char :=
  let more := rest.takeWhile p
  ({ reading := read (first :: more), text := first :: more }, rest.dropWhile p)

/-- One more decimal digit at the end of a number, which stops growing above the largest constant. -/
def addDigit (n : Nat) (digit : Char) : Nat :=
  min (10 * n + (digit.toNat - '0'.toNat)) (maxConstant + 1)

def readInteger (digits : List Char) : Reading :=
  let value := digits.foldl addDigit 0
  if value ≤ maxConstant then .lexeme (.integer value) else .fault .integerOverflow

/-- Reads a word: a reserved word or an identifier. -/
def readWord (word : List Char) : Reading :=
  let name := String.ofList word
  match Keyword.ofText? name with
  | some keyword => .lexeme (.keyword keyword)
  | none => .lexeme (.identifier name)

/-- Reads the inside of a string. A character above the largest constant wins over the length. -/
def readString (inside : List Char) : Reading :=
  match inside.find? fun c => maxConstant < c.toNat with
  | some c => .fault (.unsupportedCharacter c)
  | none =>
    if inside.length ≤ maxConstant then .lexeme (.string (String.ofList inside))
    else .fault .stringOverflow

/-- The piece that starts with a quote. A string that does not end on its line takes the newline with
it. -/
def string (rest : List Char) : Piece × List Char :=
  let inside := rest.takeWhile isStringPart
  match rest.dropWhile isStringPart with
  | [] => ({ reading := .fault .unterminatedString, text := '"' :: inside }, [])
  | c :: rest =>
    ({ reading := if c = '"' then readString inside else .fault .unterminatedString
       text := '"' :: (inside ++ [c]) }, rest)

/-- Goes to the end of a block comment. Gives what was passed, last character first, and the text
behind the comment, if the comment ends. -/
def closeComment (passed : List Char) : List Char → List Char × Option (List Char)
  | '*' :: '/' :: rest => ('/' :: '*' :: passed, some rest)
  | c :: rest => closeComment (c :: passed) rest
  | [] => (passed, none)

/-- The piece that starts with a slash: a comment of either sort, or the symbol. -/
def slash : List Char → Piece × List Char
  | '/' :: rest =>
    ({ reading := .gap, text := '/' :: '/' :: rest.takeWhile (· ≠ '\n') }, rest.dropWhile (· ≠ '\n'))
  | '*' :: rest =>
    match closeComment ['*', '/'] rest with
    | (passed, some rest) => ({ reading := .gap, text := passed.reverse }, rest)
    | (passed, none) => ({ reading := .fault .unterminatedComment, text := passed.reverse }, [])
  | rest => ({ reading := .lexeme (.symbol .slash), text := ['/'] }, rest)

def readSingle (c : Char) : Reading :=
  match Symbol.ofChar? c with
  | some s => .lexeme (.symbol s)
  | none => .fault (.unknownCharacter c)

/-- Takes the first piece off a text that starts with `c`. -/
def cut (c : Char) (rest : List Char) : Piece × List Char :=
  if Text.isBlank c then run c Text.isBlank rest fun _ => .gap
  else if c = '/' then slash rest
  else if c = '"' then string rest
  else if isDigit c then run c isDigit rest readInteger
  else if isWordStart c then run c isWordPart rest readWord
  else ({ reading := readSingle c, text := [c] }, rest)

/-! ### A piece and what is behind it -/

theorem run_text_append (c : Char) (p : Char → Bool) (s : List Char) (read : List Char → Reading) :
    (run c p s read).1.text ++ (run c p s read).2 = c :: s := by
  simp [run]

theorem string_text_append (s : List Char) : (string s).1.text ++ (string s).2 = '"' :: s := by
  have h := List.takeWhile_append_dropWhile (p := isStringPart) (l := s)
  unfold string
  cases hd : s.dropWhile isStringPart with
  | nil => rw [hd] at h; simpa using h
  | cons c rest => rw [hd] at h; simpa using h

theorem closeComment_append (passed s : List Char) :
    (closeComment passed s).1.reverse ++ (closeComment passed s).2.getD [] = passed.reverse ++ s := by
  fun_induction closeComment passed s <;> simp_all

theorem slash_text_append (s : List Char) : (slash s).1.text ++ (slash s).2 = '/' :: s := by
  unfold slash
  split
  · simp
  · rename_i rest
    have h := closeComment_append ['*', '/'] rest
    split <;> rename_i hc <;> simp_all
  · simp

/-- A piece and the text behind it are the text that was cut. -/
theorem cut_text_append (c : Char) (s : List Char) : (cut c s).1.text ++ (cut c s).2 = c :: s := by
  unfold cut
  split
  · exact run_text_append ..
  split
  · rename_i h; subst h; exact slash_text_append s
  split
  · rename_i h; subst h; exact string_text_append s
  split
  · exact run_text_append ..
  split
  · exact run_text_append ..
  · rfl

theorem closeComment_fst_ne_nil (passed s : List Char) (h : passed ≠ []) :
    (closeComment passed s).1 ≠ [] := by
  fun_induction closeComment passed s <;> simp_all

theorem slash_text_ne_nil (s : List Char) : (slash s).1.text ≠ [] := by
  unfold slash
  split
  · simp
  · rename_i rest
    have h := closeComment_fst_ne_nil ['*', '/'] rest (by simp)
    split <;> rename_i hc <;> simp_all
  · simp

theorem string_text_ne_nil (s : List Char) : (string s).1.text ≠ [] := by
  unfold string
  cases s.dropWhile isStringPart <;> simp

theorem cut_text_ne_nil (c : Char) (s : List Char) : (cut c s).1.text ≠ [] := by
  unfold cut
  split
  · simp [run]
  split
  · exact slash_text_ne_nil s
  split
  · exact string_text_ne_nil s
  split
  · simp [run]
  split <;> simp [run]

/-- The text behind a piece is shorter than the text that was cut. -/
theorem cut_snd_length_lt (c : Char) (s : List Char) : (cut c s).2.length < (c :: s).length := by
  have h := congrArg List.length (cut_text_append c s)
  have hne := List.length_pos_iff.2 (cut_text_ne_nil c s)
  rw [List.length_append] at h
  omega

/-! ### The pieces of a text -/

def splitOnto (done : Array Piece) : List Char → Array Piece
  | [] => done
  | c :: rest => splitOnto (done.push (cut c rest).1) (cut c rest).2
termination_by text => text.length
decreasing_by exact cut_snd_length_lt c rest

def split (text : List Char) : List Piece :=
  (splitOnto #[] text).toList

theorem toList_splitOnto (done : Array Piece) (text : List Char) :
    (splitOnto done text).toList = done.toList ++ split text := by
  unfold split
  induction h : text.length using Nat.strongRecOn generalizing done text with
  | _ n ih =>
    cases text with
    | nil => rw [splitOnto, splitOnto, List.append_nil]
    | cons c rest =>
      have lt := cut_snd_length_lt c rest
      rw [splitOnto, splitOnto, ih _ (h ▸ lt) _ _ rfl, ih _ (h ▸ lt) (#[].push _) _ rfl]
      simp

@[simp] theorem split_nil : split [] = [] := by
  rw [split, splitOnto]

theorem split_cons (c : Char) (rest : List Char) :
    split (c :: rest) = (cut c rest).1 :: split (cut c rest).2 := by
  rw [split, splitOnto, toList_splitOnto]
  simp

/-- The pieces of a text, put together, are the text. -/
theorem flatMap_text_split (text : List Char) : (split text).flatMap Piece.text = text := by
  induction h : text.length using Nat.strongRecOn generalizing text with
  | _ n ih =>
    cases text with
    | nil => simp
    | cons c rest =>
      rw [split_cons, List.flatMap_cons, ih _ (h ▸ cut_snd_length_lt c rest) _ rfl, cut_text_append]

theorem text_ne_nil_of_mem_split {text : List Char} {piece : Piece} (h : piece ∈ split text) :
    piece.text ≠ [] := by
  induction hn : text.length using Nat.strongRecOn generalizing text with
  | _ n ih =>
    cases text with
    | nil => simp at h
    | cons c rest =>
      rw [split_cons, List.mem_cons] at h
      rcases h with rfl | h
      · exact cut_text_ne_nil c rest
      · exact ih _ (hn ▸ cut_snd_length_lt c rest) h rfl

end Piece

end JackToVm
