/-!
Places in a source text. A `Position` counts bytes, lines and columns while a text is read; a `Span`
is the piece of text between two positions, with the line and the column of its first character.
Columns count characters, and only a newline starts a line.
-/

namespace JackToVm

/-- A place between two characters of a source text. Lines and columns start at 1. -/
structure Position where
  offset : Nat := 0
  line : Nat := 1
  column : Nat := 1
deriving DecidableEq, Repr, Inhabited

namespace Position

def next (p : Position) (c : Char) : Position :=
  { offset := p.offset + c.utf8Size
    line := if c = '\n' then p.line + 1 else p.line
    column := if c = '\n' then 1 else p.column + 1 }

def after (p : Position) (text : List Char) : Position :=
  text.foldl next p

@[simp] theorem after_nil (p : Position) : p.after [] = p := rfl

@[simp] theorem after_cons (p : Position) (c : Char) (text : List Char) :
    p.after (c :: text) = (p.next c).after text := rfl

theorem after_append (p : Position) (s t : List Char) : p.after (s ++ t) = (p.after s).after t := by
  simp [after]

end Position

/-- A piece of a source text: the bytes from `start` up to `stop`, which is not part of it, and the
place of its first character. -/
structure Span where
  start : Nat
  stop : Nat
  line : Nat
  column : Nat
deriving DecidableEq, Repr, Inhabited

namespace Span

def between (p q : Position) : Span :=
  { start := p.offset, stop := q.offset, line := p.line, column := p.column }

def size (s : Span) : Nat :=
  s.stop - s.start

/-- The text of a piece. It is empty when the bounds are reversed, lie outside the source or split a
character. -/
def fragment (s : Span) (source : String) : String :=
  match source.pos? ⟨s.start⟩, source.pos? ⟨s.stop⟩ with
  | some first, some last => if s.start ≤ s.stop then source.extract first last else ""
  | _, _ => ""

/-- The empty piece at the end of a source: its line is one more than the newlines of the source, and
its column one more than the characters of the last line. -/
def atEnd (source : String) : Span :=
  let text := source.toList
  { start := source.utf8ByteSize
    stop := source.utf8ByteSize
    line := text.count '\n' + 1
    column := (text.reverse.takeWhile (· ≠ '\n')).length + 1 }

end Span

end JackToVm
