import JackToVm.Proofs.Lexing

/-!
What stands between lexemes: blanks, block comments and line comments. `Gap` says how they are written. Reading goes
over a gap and finds what is behind it (`Gap.readings`), and all that is passed over is a gap (`Gap.of_cut`).
-/

namespace JackToVm

/-- Blanks and comments in a row. A block comment goes to the first `*/` behind its opening, and a line comment up to
a newline. A gap at the end of a source may end with a line comment. -/
inductive Gap (atEnd : Bool) : List Char → Prop where
  | nil : Gap atEnd []
  | blank {c : Char} {rest : List Char} (hc : Text.isBlank c = true) (h : Gap atEnd rest) : Gap atEnd (c :: rest)
  | block {body rest : List Char} (hbody : ¬ ['*', '/'] <:+: body ++ ['*']) (h : Gap atEnd rest) :
      Gap atEnd ('/' :: '*' :: (body ++ '*' :: '/' :: rest))
  | line {body rest : List Char} (hbody : '\n' ∉ body) (h : Gap atEnd ('\n' :: rest)) :
      Gap atEnd ('/' :: '/' :: (body ++ '\n' :: rest))
  | lastLine {body : List Char} (hend : atEnd = true) (hbody : '\n' ∉ body) : Gap atEnd ('/' :: '/' :: body)

namespace Piece

/-! ### Pieces by their first character -/

/-- What is cut off a text is one of six sorts of pieces, told by the first character. -/
@[elab_as_elim] theorem cut_cases {motive : Piece × List Char → Prop} (c : Char) (rest : List Char)
    (blank : Text.isBlank c = true → motive (run c Text.isBlank rest fun _ => .gap))
    (slash : c = '/' → motive (slash rest)) (string : c = '"' → motive (string rest))
    (digits : isDigit c = true → motive (run c isDigit rest readInteger))
    (word : isWordStart c = true → motive (run c isWordPart rest readWord))
    (single : c ≠ '/' → motive ({ reading := readSingle c, text := [c] }, rest)) : motive (cut c rest) := by
  unfold cut
  split
  case isTrue h => exact blank h
  split
  case isTrue h => exact slash h
  case isFalse hslash =>
    split
    case isTrue h => exact string h
    split
    case isTrue h => exact digits h
    split
    case isTrue h => exact word h
    case isFalse => exact single hslash

@[simp] theorem readings_nil : readings [] = [] := by
  simp [readings]

theorem readings_of_gap {c : Char} {rest : List Char} (h : (cut c rest).1.reading = .gap) :
    readings (c :: rest) = readings (cut c rest).2 := by
  rw [readings, split_cons, List.map_cons, h]
  rfl

theorem readings_of_ne_gap {c : Char} {rest : List Char} (h : (cut c rest).1.reading ≠ .gap) :
    readings (c :: rest) = (cut c rest).1.reading :: readings (cut c rest).2 := by
  rw [readings, split_cons, List.map_cons, List.filter_cons_of_pos (by simpa using h)]
  rfl

/-! ### Block comments -/

/-- A block comment is passed over up to the first star with a slash behind it. -/
theorem closeComment_of_first {body : List Char} (h : ¬ ['*', '/'] <:+: body ++ ['*']) (passed rest : List Char) :
    closeComment passed (body ++ '*' :: '/' :: rest) = ('/' :: '*' :: (body.reverse ++ passed), some rest) := by
  induction body generalizing passed with
  | nil => rfl
  | cons c body ih =>
    rw [List.cons_append, List.infix_cons_iff, not_or] at h
    obtain ⟨hfirst, hrest⟩ := h
    rw [List.cons_append, closeComment, ih hrest]
    · simp
    · -- The star of the end of a comment has another character behind it here.
      rintro more rfl heq
      cases body with
      | nil => cases heq
      | cons d body =>
        obtain ⟨rfl, -⟩ := List.cons.inj heq
        exact hfirst ⟨body ++ ['*'], rfl⟩

/-- What is passed over in front of the end of a block comment has no end of one in it. -/
theorem exists_of_closeComment {passed text reversed rest : List Char}
    (h : closeComment passed text = (reversed, some rest)) :
    ∃ body, text = body ++ '*' :: '/' :: rest ∧ ¬ ['*', '/'] <:+: body ++ ['*'] ∧
      reversed = '/' :: '*' :: (body.reverse ++ passed) := by
  fun_induction closeComment passed text with
  | case1 passed rest' =>
    obtain ⟨rfl, hrest⟩ := Prod.mk.inj h
    obtain rfl := Option.some.inj hrest
    exact ⟨[], rfl, by decide, rfl⟩
  | case2 passed c text hnot ih =>
    obtain ⟨body, rfl, hbody, rfl⟩ := ih h
    refine ⟨c :: body, rfl, ?_, by simp⟩
    rw [List.cons_append, List.infix_cons_iff, not_or]
    refine ⟨?_, hbody⟩
    rintro ⟨more, hmore⟩
    obtain ⟨hstar, hmore⟩ := List.cons.inj hmore
    cases body with
    | nil => cases hmore
    | cons d body =>
      obtain ⟨rfl, -⟩ := List.cons.inj hmore
      exact hnot (body ++ '*' :: '/' :: rest) hstar.symm rfl
  | case3 passed => cases h

theorem slash_block {body : List Char} (h : ¬ ['*', '/'] <:+: body ++ ['*']) (rest : List Char) :
    slash ('*' :: (body ++ '*' :: '/' :: rest)) =
      ({ reading := .gap, text := '/' :: '*' :: (body ++ ['*', '/']) }, rest) := by
  rw [slash, closeComment_of_first h]
  simp

/-! ### Line comments -/

theorem slash_line {body rest : List Char} (h : '\n' ∉ body) (hrest : ∀ c ∈ rest.head?, c = '\n') :
    slash ('/' :: (body ++ rest)) = ({ reading := .gap, text := '/' :: '/' :: body }, rest) := by
  have hbody : ∀ c ∈ body, decide (c ≠ '\n') = true := by
    intro c hc
    rw [decide_eq_true_eq]
    rintro rfl
    exact h hc
  rw [slash, List.takeWhile_append_of_pos hbody, List.dropWhile_append_of_pos hbody]
  cases rest with
  | nil => simp
  | cons c rest =>
    obtain rfl := hrest c rfl
    simp

/-- A slash that starts a gap starts a comment. -/
theorem slash_gap {text : List Char} (h : (slash text).1.reading = .gap) :
    (∃ body, '\n' ∉ body ∧ (∀ c ∈ (slash text).2.head?, c = '\n') ∧ (slash text).1.text = '/' :: '/' :: body) ∨
    ∃ body, ¬ ['*', '/'] <:+: body ++ ['*'] ∧ (slash text).1.text = '/' :: '*' :: (body ++ ['*', '/']) := by
  unfold slash at h ⊢
  split at h
  case h_1 rest =>
    refine Or.inl ⟨rest.takeWhile (· ≠ '\n'), ?_, ?_, rfl⟩
    · intro hmem
      have hall := List.all_eq_true.mp (List.all_takeWhile (p := (· ≠ '\n')) (l := rest)) '\n' hmem
      simp at hall
    · intro c hc
      have hstop := List.head?_dropWhile_not (· ≠ '\n') rest
      rw [show (rest.dropWhile (· ≠ '\n')).head? = some c from hc] at hstop
      simpa using hstop
  case h_2 rest =>
    split at h
    case h_1 passed behind hclose =>
      obtain ⟨body, -, hbody, rfl⟩ := exists_of_closeComment hclose
      exact Or.inr ⟨body, hbody, by simp⟩
    case h_2 => cases h
  case h_3 => cases h

/-! ### Readings that are no gap -/

theorem readInteger_ne_gap (digits : List Char) : readInteger digits ≠ .gap := by
  simp only [readInteger]
  split <;> simp

theorem readWord_ne_gap (word : List Char) : readWord word ≠ .gap := by
  simp only [readWord]
  split <;> simp

theorem readSingle_ne_gap (c : Char) : readSingle c ≠ .gap := by
  unfold readSingle
  split <;> simp

theorem string_ne_gap (rest : List Char) : (string rest).1.reading ≠ .gap := by
  unfold string readString
  split
  · simp
  · dsimp only
    split
    · split
      · simp
      · split <;> simp
    · simp

end Piece

namespace Gap
open Piece (readings cut)

/-! ### Over a gap -/

/-- A blank in front of a text adds to the gap there. -/
theorem readings_blank {c : Char} (hc : Text.isBlank c = true) (text : List Char) :
    readings (c :: text) = readings text := by
  have hcut (d : Char) (rest : List Char) (hd : Text.isBlank d = true) :
      readings (d :: rest) = readings (rest.dropWhile Text.isBlank) := by
    have hpiece : cut d rest = Piece.run d Text.isBlank rest fun _ => .gap := by rw [cut, if_pos hd]
    rw [Piece.readings_of_gap (by rw [hpiece]; rfl), hpiece]
    rfl
  rw [hcut c text hc]
  cases text with
  | nil => rfl
  | cons d rest =>
    by_cases hd : Text.isBlank d = true
    · rw [List.dropWhile_cons_of_pos hd, hcut d rest hd]
    · rw [List.dropWhile_cons_of_neg hd]

theorem readings_slash {text behind : List Char} {piece : Piece} (h : Piece.slash text = (piece, behind))
    (hgap : piece.reading = .gap) : readings ('/' :: text) = readings behind := by
  have hcut : cut '/' text = (piece, behind) := h
  rw [Piece.readings_of_gap (by rw [hcut, hgap]), hcut]

/-- Reading goes over a gap. Behind a gap at the end of a source nothing is left. -/
theorem readings {atEnd : Bool} {gap : List Char} (h : Gap atEnd gap) {behind : List Char}
    (hend : atEnd = true → behind = []) : Piece.readings (gap ++ behind) = Piece.readings behind := by
  induction h with
  | nil => rfl
  | blank hc _ ih => rw [List.cons_append, readings_blank hc, ih]
  | @block body rest hbody _ ih =>
    have hslash := Piece.slash_block hbody (rest ++ behind)
    rw [← ih, ← readings_slash hslash rfl]
    simp
  | @line body rest hbody _ ih =>
    have hslash := @Piece.slash_line body ('\n' :: rest ++ behind) hbody (by simp)
    rw [← ih, ← readings_slash hslash rfl]
    simp
  | @lastLine body hlast hbody =>
    have hslash := @Piece.slash_line body [] hbody (by simp)
    rw [hend hlast, List.append_nil]
    rw [List.append_nil] at hslash
    exact readings_slash hslash rfl

/-! ### What is passed over -/

theorem blanks {atEnd : Bool} {blanks gap : List Char} (hblanks : ∀ c ∈ blanks, Text.isBlank c = true)
    (h : Gap atEnd gap) : Gap atEnd (blanks ++ gap) := by
  induction blanks with
  | nil => exact h
  | cons c blanks ih =>
    rw [List.forall_mem_cons] at hblanks
    exact .blank hblanks.1 (ih hblanks.2)

/-- What is behind a gap: nothing at the end of a source, and else a character that is no blank. -/
def Stops (atEnd : Bool) (behind : List Char) : Prop :=
  if atEnd then behind = [] else ∃ c more, behind = c :: more ∧ Text.isBlank c = false

/-- A line comment in front of a gap reaches up to the newline in it. -/
theorem of_line {atEnd : Bool} {body gap behind : List Char} (hbody : '\n' ∉ body) (h : Gap atEnd gap)
    (hstop : Stops atEnd behind) (hnewline : ∀ c ∈ (gap ++ behind).head?, c = '\n') :
    Gap atEnd ('/' :: '/' :: (body ++ gap)) := by
  cases gap with
  | cons c gap =>
    obtain rfl : c = '\n' := hnewline c rfl
    exact .line hbody h
  | nil =>
    cases atEnd with
    | true =>
      rw [List.append_nil]
      exact .lastLine rfl hbody
    | false =>
      obtain ⟨c, more, rfl, hc⟩ := hstop
      obtain rfl : c = '\n' := hnewline c rfl
      exact absurd hc (by decide)

/-- A piece that is passed over adds to the gap behind it. -/
theorem of_cut {atEnd : Bool} {c : Char} {rest gap behind : List Char} (hreading : (cut c rest).1.reading = .gap)
    (hrest : (cut c rest).2 = gap ++ behind) (h : Gap atEnd gap) (hstop : Stops atEnd behind) :
    Gap atEnd ((cut c rest).1.text ++ gap) := by
  revert hreading hrest
  refine Piece.cut_cases c rest (fun hc _ _ => ?_) (fun _ hreading hrest => ?_) (fun _ hreading => ?_)
    (fun _ hreading => ?_) (fun _ hreading => ?_) (fun _ hreading => ?_)
  · refine blanks (List.forall_mem_cons.mpr ⟨hc, ?_⟩) h
    intro d hd
    exact List.all_eq_true.mp List.all_takeWhile d hd
  · rcases Piece.slash_gap hreading with ⟨body, hbody, hnewline, htext⟩ | ⟨body, hbody, htext⟩
    · rw [hrest] at hnewline
      rw [htext]
      exact of_line hbody h hstop hnewline
    · rw [htext]
      simpa using Gap.block hbody h
  · exact absurd hreading (Piece.string_ne_gap rest)
  · exact absurd hreading (Piece.readInteger_ne_gap _)
  · exact absurd hreading (Piece.readWord_ne_gap _)
  · exact absurd hreading (Piece.readSingle_ne_gap c)

end Gap

end JackToVm
