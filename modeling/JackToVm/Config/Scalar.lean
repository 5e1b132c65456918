import JackToVm.Config.Place

/-!
Scalars of a configuration document: plain, quoted, and blocks of lines. Words of a plain or quoted scalar
may stand on several lines. The end of one line between words becomes a space, and further ends of lines
stay as they are; a Unicode separator of lines is never made a space.
-/

namespace JackToVm.Config

/-! ### Between words -/

/-- Blanks and ends of lines between words, and the place behind them. -/
structure Gap where
  /-- The blanks before the first end of a line. -/
  spaces : List Char
  breaks : List Char
  next : Place
  /-- Whether a tab stands left of the column where lines have to start. -/
  tabbed : Bool
deriving Repr, Inhabited

namespace Gap

/-- Tells whether a tab stands before a column in the blanks at the start of a line. -/
def tabBefore (column : Nat) : List Char → Bool
  | [] => false
  | c :: rest =>
    (isBreak c && ((rest.takeWhile isSpace).take column).contains '\t') || tabBefore column rest

/-- The gap at a place. Lines have to start in column `indent` or behind it. -/
def ofPlace (indent : Nat) (p : Place) : Gap :=
  let separators := p.run isSeparator
  { spaces := separators.takeWhile isSpace
    breaks := separators.filter isBreak
    next := p.skip separators.length
    tabbed := tabBefore indent separators }

def fold : List Char → List Char
  | ['\n'] => [' ']
  | '\n' :: more => more
  | breaks => breaks

def text (g : Gap) : List Char :=
  if g.breaks = [] then g.spaces else fold g.breaks

end Gap

/-! ### Quoted scalars -/

def hexChar? (digits : List Char) (count : Nat) : Option Char := do
  let values ← digits.mapM hexValue?
  let code := values.foldl (fun n d => 16 * n + d) 0
  if values.length = count && code.isValidChar then some (Char.ofNat code) else none

/-- The character that a letter behind a backslash stands for. -/
def escape? : Char → Option Char
  | '0' => some '\x00'
  | 'a' => some '\x07'
  | 'b' => some '\x08'
  | 't' => some '\t'
  | '\t' => some '\t'
  | 'n' => some '\n'
  | 'v' => some '\x0b'
  | 'f' => some '\x0c'
  | 'r' => some '\r'
  | 'e' => some '\x1b'
  | ' ' => some ' '
  | '"' => some '"'
  | '/' => some '/'
  | '\\' => some '\\'
  | 'N' => some '\u0085'
  | '_' => some '\u00a0'
  | 'L' => some '\u2028'
  | 'P' => some '\u2029'
  | _ => none

/-- How many hexadecimal digits follow a letter behind a backslash. -/
def escapeDigits? : Char → Option Nat
  | 'x' => some 2
  | 'u' => some 4
  | 'U' => some 8
  | _ => none

/-- The character of an escape at a letter behind a backslash, and the number of characters it takes. -/
def readEscape? (letter : Char) (rest : List Char) : Option (Char × Nat) :=
  match escape? letter, escapeDigits? letter with
  | some c, _ => some (c, 1)
  | none, some count => (hexChar? (rest.take count) count).map fun c => (c, count + 1)
  | none, none => none

/-- Reads a quoted scalar up to its closing quote. What was read stands backwards in `done`. -/
def quoted (quote : Char) : Nat → List Char → Place → Option (List Char × Place)
  | 0, _, _ => none
  | n + 1, done, p =>
    match p.rest with
    | [] => none
    | c :: rest =>
      if p.atMark then none
      else if isSeparator c then
        let gap := Gap.ofPlace 0 p
        quoted quote n (gap.text.reverse ++ done) gap.next
      else if c = quote then
        if quote = '\x27' && rest.head? = some quote then quoted quote n (c :: done) (p.skip 2)
        else some (done.reverse, p.next)
      else if c = '\\' && quote = '"' then
        match rest with
        | [] => none
        | letter :: rest =>
          if isBreak letter then
            let gap := Gap.ofPlace 0 (p.skip 2)
            quoted quote n (gap.breaks.reverse ++ done) gap.next
          else
            match readEscape? letter rest with
            | some (c, size) => quoted quote n (c :: done) (p.skip (size + 1))
            | none => none
      else quoted quote n (c :: done) p.next

/-! ### Plain scalars -/

/-- The word of a plain scalar at the start of a text. What was read stands backwards in `done`. In a flow
collection no colon may stand right before a mark of the collection or a question mark. -/
def plainWord (flow : Bool) (done : List Char) : List Char → Option (List Char)
  | [] => some done.reverse
  | c :: rest =>
    if isSeparator c then some done.reverse
    else if flow && c = ':' && rest.head?.any (fun c => isFlowMark c || c = '?') then none
    else if (c = ':' && atSeparator rest) || (flow && isFlowMark c) then some done.reverse
    else plainWord flow (c :: done) rest

/-- Reads a plain scalar and the blanks behind it; tells whether a line ends in these. The lines of the
scalar start in column `indent` or behind it. What was read stands backwards in `done`; `gap` stands for
what is between it and the next word. -/
def plain (flow : Bool) (indent : Nat) :
    Nat → List Char → List Char → Bool → Place → Option (List Char × Bool × Place)
  | 0, _, _, _, _ => none
  | n + 1, done, gap, broken, p =>
    if p.atMark || p.isAt (· = '#') then some (done.reverse, broken, p)
    else do
      let word ← plainWord flow [] p.rest
      let next := p.skip word.length
      let done := if word = [] then done else word.reverse ++ gap.reverse ++ done
      let broken := broken && word = []
      if next.isAt isSeparator then
        let gap := Gap.ofPlace indent next
        if gap.tabbed then none
        else if !flow && gap.next.column < indent then some (done.reverse, gap.breaks ≠ [], gap.next)
        else plain flow indent n done gap.text (gap.breaks ≠ []) gap.next
      else some (done.reverse, broken, next)

/-- Tells whether a plain scalar may start with a text. -/
def startsPlain (flow : Bool) : List Char → Bool
  | [] => false
  | '-' :: rest => !rest.head?.any isSpace
  | '?' :: rest => !flow && !atSeparator rest
  | ':' :: rest => !flow && !atSeparator rest
  | c :: _ => !isSeparator c && !isFlowMark c && !"#&*!|>'\"%@`".toList.contains c

/-! ### Blocks of lines -/

/-- What becomes of the ends of lines at the end of a block. -/
inductive Chomping where
  /-- All are dropped. -/
  | strip
  /-- The first one is kept. -/
  | clip
  /-- All are kept. -/
  | keep
deriving DecidableEq, Repr, Inhabited

/-- The chomping of a sign behind the mark of a block. -/
def Chomping.ofSign? : Char → Option Chomping
  | '+' => some keep
  | '-' => some strip
  | _ => none

/-- The head of a block: its chomping, the indentation that it states, and the place behind it. -/
def blockHead? (p : Place) : Option (Chomping × Nat × Place) :=
  match p.rest with
  | a :: b :: _ =>
    match Chomping.ofSign? a, digit? a with
    | some chomping, _ =>
      match digit? b with
      | some n => if n = 0 then none else some (chomping, n, p.skip 2)
      | none => some (chomping, 0, p.next)
    | none, some n =>
      if n = 0 then none
      else
        match Chomping.ofSign? b with
        | some chomping => some (chomping, n, p.skip 2)
        | none => some (.clip, n, p.next)
    | none, none => some (.clip, 0, p)
  | [a] =>
    match Chomping.ofSign? a, digit? a with
    | some chomping, _ => some (chomping, 0, p.next)
    | none, some n => if n = 0 then none else some (.clip, n, p.next)
    | none, none => some (.clip, 0, p)
  | [] => some (.clip, 0, p)
where
  /-- The value of a decimal digit. -/
  digit? (c : Char) : Option Nat :=
    if c.isDigit then some (c.toNat - '0'.toNat) else none

/-- The place behind the line of a mark; blanks and a comment may end that line. -/
def lineEnd? (p : Place) : Option Place :=
  let p := p.skipRun isSpace
  let p := if p.isAt (· = '#') then p.skipRun (!isBreak ·) else p
  if p.isAt isBreak then some p.next
  else if p.rest = [] then some p
  else none

/-- Passes over blank lines and the indentation of the next line. Gives the widest indentation seen, the
ends of lines, and the place. Where `indent` is 0, it is not known yet. -/
def blankLines (indent : Nat) : Nat → Nat → List Char → Place → Option (Nat × List Char × Place)
  | 0, _, _, _ => none
  | n + 1, widest, breaks, p =>
    let spaces := (p.run (· = ' ')).length
    let p := p.skip (if indent = 0 then spaces else min spaces (indent - p.column))
    let widest := max widest p.column
    if (indent = 0 || p.column < indent) && p.isAt (· = '\t') then none
    else
      match p.rest with
      | c :: _ => if isBreak c then blankLines indent n widest (c :: breaks) p.next
        else some (widest, breaks.reverse, p)
      | [] => some (widest, breaks.reverse, p)

/-- Reads the lines of a block. What was read stands backwards in `done`; `last` is the end of the line
before, `breaks` are the ends of the blank lines behind it, and `spaced` tells whether that line starts with
a blank. In a folded block a single end between two lines that start with a word becomes a space. -/
def blockLines (folded : Bool) (indent : Nat) :
    Nat → List Char → List Char → List Char → Bool → Place →
      Option (List Char × List Char × List Char × Place)
  | 0, _, _, _, _, _ => none
  | n + 1, done, last, breaks, spaced, p =>
    if p.column = indent && p.rest ≠ [] then do
      let starts := p.isAt isSpace
      let joint :=
        if folded && last = ['\n'] && !spaced && !starts then if breaks = [] then [' '] else []
        else last
      let line := p.run (!isBreak ·)
      let p := p.skip line.length
      let last := (p.rest.take 1).filter isBreak
      let (_, following, p) ← blankLines indent (n + 1) 0 [] (p.skip last.length)
      blockLines folded indent n (line.reverse ++ breaks.reverse ++ joint.reverse ++ done) last following
        starts p
    else some (done, last, breaks, p)

/-- Reads a block from behind its mark on. Its lines start in column `margin` or behind it. -/
def block (folded : Bool) (margin : Nat) (fuel : Nat) (p : Place) : Option (List Char × Place) := do
  let (chomping, stated, p) ← blockHead? p
  let p ← lineEnd? p
  let indent := if stated = 0 then 0 else (margin - 1) + stated
  let (widest, breaks, p) ← blankLines indent fuel 0 [] p
  let indent := if indent = 0 then max 1 (max margin widest) else indent
  let (done, last, breaks, p) ← blockLines folded indent fuel [] [] breaks false p
  let tail := match chomping with
    | .strip => []
    | .clip => last
    | .keep => last ++ breaks
  return (done.reverse ++ tail, p)

end JackToVm.Config
