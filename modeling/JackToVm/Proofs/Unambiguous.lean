import JackToVm.Proofs.Syntax

/-!
A text is read in one way only: the lexemes of a class determine its tree (`Class.eq_of_lexemes`). The
statements about parts of a class leave room for what follows. A term, an expression and a statement have
no end of their own, so for them the next lexeme must be one that cannot continue them.
-/

namespace JackToVm

/-! ### What may follow a term or an expression -/

/-- The symbols that may stand behind an expression. -/
def Symbol.closes : Symbol → Bool
  | .rightParen | .rightBracket | .semicolon | .comma => true
  | _ => false

namespace Lexeme

/-- Tells whether a lexeme may stand behind an expression. -/
def closes : Lexeme → Bool
  | .symbol x => x.closes
  | _ => false

/-- Tells whether a lexeme may stand behind a term. -/
def endsTerm : Lexeme → Bool
  | .symbol x => x.closes || x.binaryOp?.isSome
  | _ => false

theorem endsTerm_of_closes {l : Lexeme} (h : l.closes) : l.endsTerm := by
  cases l <;> simp_all [closes, endsTerm]

@[simp] theorem endsTerm_symbol (op : BinaryOp) : (Lexeme.symbol op.symbol).endsTerm := by
  simp [endsTerm]

theorem not_closes_symbol (op : BinaryOp) : (Lexeme.symbol op.symbol).closes = false := by
  cases op <;> rfl

end Lexeme

/-- The lexemes are not empty, and the first one is of a sort. -/
def Starts (p : Lexeme → Bool) (ls : List Lexeme) : Prop :=
  ∃ l rest, ls = l :: rest ∧ p l = true

theorem starts_cons {p : Lexeme → Bool} {l : Lexeme} {ls : List Lexeme} : Starts p (l :: ls) ↔ p l = true := by
  simp [Starts]

theorem Starts.mono {p q : Lexeme → Bool} {ls : List Lexeme} (h : Starts p ls) (hpq : ∀ l, p l → q l) :
    Starts q ls := by
  obtain ⟨l, rest, rfl, hl⟩ := h
  exact ⟨l, rest, rfl, hpq l hl⟩

theorem Starts.append {p : Lexeme → Bool} {ls more : List Lexeme} (h : Starts p ls) : Starts p (ls ++ more) := by
  obtain ⟨l, rest, rfl, hl⟩ := h
  exact ⟨l, rest ++ more, rfl, hl⟩

/-- A list is read in one way when its elements are and the lexeme behind the list opens none of them. -/
theorem Phrase.eq_of_join {α : Type} {f : α → Phrase} {p : Lexeme → Bool}
    (hf : ∀ {a b r r'}, (f a).lexemes ++ r = (f b).lexemes ++ r' → a = b ∧ r = r')
    (hp : ∀ a, Starts (fun l => !p l) (f a).lexemes) {as bs : List α} {r r' : List Lexeme}
    (hr : Starts p r) (hr' : Starts p r') (h : (join f as).lexemes ++ r = (join f bs).lexemes ++ r') :
    as = bs ∧ r = r' := by
  have open_ne : ∀ {a ls more}, Starts p ls → ls ≠ (f a).lexemes ++ more := by
    rintro a ls more ⟨l, rest, rfl, hl⟩ he
    have := starts_cons.mp (he ▸ (hp a).append)
    simp [hl] at this
  induction as generalizing bs with
  | nil =>
    cases bs with
    | nil => exact ⟨rfl, by simpa using h⟩
    | cons b bs => exact absurd (by simpa using h) (open_ne hr)
  | cons a as ih =>
    cases bs with
    | nil => exact absurd (by simpa using h.symm) (open_ne hr')
    | cons b bs =>
      simp only [join_cons, lexemes_append, List.append_assoc] at h
      obtain ⟨rfl, h₁⟩ := hf h
      obtain ⟨rfl, h₂⟩ := ih h₁
      exact ⟨rfl, h₂⟩

namespace Syntax
open Lexeme

/-! ### Expressions -/

/-- An expression does not start with a symbol that may stand behind one. -/
theorem Term.starts (t : Term) : Starts (fun l => !l.closes) t.phrase.lexemes := by
  cases t with
  | unary op operand => cases op <;> simp [phrase, starts_cons, closes, UnaryOp.symbol, Symbol.closes]
  | _ => simp [phrase, starts_cons, closes, Symbol.closes]

theorem Expression.starts (e : Expression) : Starts (fun l => !l.closes) e.phrase.lexemes := by
  obtain ⟨first, rest⟩ := e
  exact first.starts.append

theorem Operations.starts {ops : Operations} {r : List Lexeme} (hr : Starts closes r) :
    Starts endsTerm (ops.phrase.lexemes ++ r) := by
  cases ops with
  | none => exact hr.mono fun _ => endsTerm_of_closes
  | more op operand rest => simp [Operations.phrase, starts_cons]

theorem Arguments.tail_starts (a : Arguments) (r : List Lexeme) :
    Starts closes (a.tailPhrase.lexemes ++ .symbol .rightParen :: r) := by
  cases a <;> simp [Arguments.tailPhrase, starts_cons, closes, Symbol.closes]

mutual

theorem Term.eq_of_lexemes : (t t' : Term) → {r r' : List Lexeme} → Starts endsTerm r → Starts endsTerm r' →
    t.phrase.lexemes ++ r = t'.phrase.lexemes ++ r' → t = t' ∧ r = r'
  | .integer _, t', _, _, _, _, h => by
    cases t' <;> simp_all [Term.phrase]
  | .string _, t', _, _, _, _, h => by
    cases t' <;> simp_all [Term.phrase]
  | .constant value, t', _, _, _, _, h => by
    cases t' with
    | constant value' =>
      simp only [Term.phrase, Phrase.lexemes_keyword, List.singleton_append, List.cons.injEq,
        Lexeme.keyword.injEq] at h
      exact ⟨by rw [Constant.word_inj h.1], h.2⟩
    | _ => simp [Term.phrase] at h
  | .read x, t', _, _, hr, _, h => by
    -- A bracket, a parenthesis or a dot behind the name cannot stand behind a term.
    cases t' <;> simp_all [Term.phrase, starts_cons, endsTerm, Symbol.closes, Symbol.binaryOp?]
  | .element x index, t', _, _, _, hr', h => by
    cases t' with
    | element x' index' =>
      simp only [Term.phrase, Phrase.lexemes_append, Phrase.lexemes_name, Phrase.lexemes_use,
        Phrase.lexemes_symbol, List.append_nil, List.append_assoc, List.cons_append, List.nil_append,
        List.cons.injEq, Lexeme.identifier.injEq, true_and] at h
      obtain ⟨rfl, h⟩ := h
      obtain ⟨rfl, hrest⟩ := index.eq_of_lexemes index' (starts_cons.mpr rfl) (starts_cons.mpr rfl) h
      exact ⟨rfl, (List.cons.inj hrest).2⟩
    | read y =>
      simp only [Term.phrase, Phrase.lexemes_append, Phrase.lexemes_name, Phrase.lexemes_use,
        Phrase.lexemes_symbol, List.append_nil, List.append_assoc, List.cons_append, List.nil_append,
        List.cons.injEq] at h
      rw [← h.2, starts_cons] at hr'
      exact absurd hr' (by decide)
    | _ => simp [Term.phrase] at h
  | .call f arguments, t', _, _, _, hr', h => by
    cases t' with
    | call f' arguments' =>
      simp only [Term.phrase, Phrase.lexemes_append, Phrase.lexemes_name, Phrase.lexemes_symbol,
        List.append_assoc, List.cons_append, List.nil_append, List.cons.injEq, Lexeme.identifier.injEq,
        true_and] at h
      obtain ⟨rfl, h⟩ := h
      obtain ⟨rfl, hrest⟩ := arguments.eq_of_lexemes arguments' h
      exact ⟨rfl, hrest⟩
    | read y =>
      simp only [Term.phrase, Phrase.lexemes_append, Phrase.lexemes_name, Phrase.lexemes_use,
        Phrase.lexemes_symbol, List.append_nil, List.append_assoc, List.cons_append, List.nil_append,
        List.cons.injEq] at h
      rw [← h.2, starts_cons] at hr'
      exact absurd hr' (by decide)
    | _ => simp [Term.phrase] at h
  | .callOn owner f arguments, t', _, _, _, hr', h => by
    cases t' with
    | callOn owner' f' arguments' =>
      simp only [Term.phrase, Phrase.lexemes_append, Phrase.lexemes_name, Phrase.lexemes_symbol,
        List.append_assoc, List.cons_append, List.nil_append, List.cons.injEq, Lexeme.identifier.injEq,
        true_and] at h
      obtain ⟨rfl, rfl, h⟩ := h
      obtain ⟨rfl, hrest⟩ := arguments.eq_of_lexemes arguments' h
      exact ⟨rfl, hrest⟩
    | read y =>
      simp only [Term.phrase, Phrase.lexemes_append, Phrase.lexemes_name, Phrase.lexemes_use,
        Phrase.lexemes_symbol, List.append_nil, List.append_assoc, List.cons_append, List.nil_append,
        List.cons.injEq] at h
      rw [← h.2, starts_cons] at hr'
      exact absurd hr' (by decide)
    | _ => simp [Term.phrase] at h
  | .group inside, t', _, _, _, _, h => by
    cases t' with
    | group inside' =>
      simp only [Term.phrase, Phrase.lexemes_append, Phrase.lexemes_symbol, List.append_assoc,
        List.cons_append, List.nil_append, List.cons.injEq, true_and] at h
      obtain ⟨rfl, hrest⟩ := inside.eq_of_lexemes inside' (starts_cons.mpr rfl) (starts_cons.mpr rfl) h
      exact ⟨rfl, (List.cons.inj hrest).2⟩
    | unary op operand => cases op <;> simp [Term.phrase, UnaryOp.symbol] at h
    | _ => simp [Term.phrase] at h
  | .unary op operand, t', _, _, hr, hr', h => by
    cases t' with
    | unary op' operand' =>
      simp only [Term.phrase, Phrase.lexemes_append, Phrase.lexemes_symbol, List.cons_append,
        List.nil_append, List.cons.injEq, Lexeme.symbol.injEq] at h
      obtain rfl := UnaryOp.symbol_inj h.1
      obtain ⟨rfl, hrest⟩ := operand.eq_of_lexemes operand' hr hr' h.2
      exact ⟨rfl, hrest⟩
    | group inside => cases op <;> simp [Term.phrase, UnaryOp.symbol] at h
    | _ => simp [Term.phrase] at h

theorem Expression.eq_of_lexemes : (e e' : Expression) → {r r' : List Lexeme} → Starts closes r →
    Starts closes r' → e.phrase.lexemes ++ r = e'.phrase.lexemes ++ r' → e = e' ∧ r = r'
  | .of first rest, .of first' rest', _, _, hr, hr', h => by
    simp only [Expression.phrase, Phrase.lexemes_append, List.append_assoc] at h
    obtain ⟨rfl, h₁⟩ := first.eq_of_lexemes first' (Operations.starts hr) (Operations.starts hr') h
    obtain ⟨rfl, h₂⟩ := rest.eq_of_lexemes rest' hr hr' h₁
    exact ⟨rfl, h₂⟩

theorem Operations.eq_of_lexemes : (o o' : Operations) → {r r' : List Lexeme} → Starts closes r →
    Starts closes r' → o.phrase.lexemes ++ r = o'.phrase.lexemes ++ r' → o = o' ∧ r = r'
  | .none, o', _, _, hr, _, h => by
    cases o' <;> simp_all [Operations.phrase, starts_cons, not_closes_symbol]
  | .more op operand rest, o', _, _, hr, hr', h => by
    cases o' with
    | none =>
      simp only [Operations.phrase, Phrase.lexemes_append, Phrase.lexemes_symbol, List.append_assoc,
        List.cons_append, List.nil_append] at h
      rw [← h, starts_cons, not_closes_symbol] at hr'
      cases hr'
    | more op' operand' rest' =>
      simp only [Operations.phrase, Phrase.lexemes_append, Phrase.lexemes_symbol, List.append_assoc,
        List.cons_append, List.nil_append, List.cons.injEq, Lexeme.symbol.injEq] at h
      obtain rfl := BinaryOp.symbol_inj h.1
      obtain ⟨rfl, h₁⟩ := operand.eq_of_lexemes operand' (Operations.starts hr) (Operations.starts hr') h.2
      obtain ⟨rfl, h₂⟩ := rest.eq_of_lexemes rest' hr hr' h₁
      exact ⟨rfl, h₂⟩

theorem Arguments.eq_of_lexemes : (a a' : Arguments) → {r r' : List Lexeme} →
    a.phrase.lexemes ++ .symbol .rightParen :: r = a'.phrase.lexemes ++ .symbol .rightParen :: r' →
    a = a' ∧ r = r'
  | .none, .none, _, _, h => by simpa [Arguments.phrase] using h
  | .none, .more first' rest', _, _, h => by
    -- An expression does not start with the closing parenthesis.
    simp only [Arguments.phrase, Phrase.lexemes_append, List.append_assoc, List.nil_append] at h
    exact absurd (starts_cons.mp (h ▸ first'.starts.append)) (by decide)
  | .more first rest, .none, _, _, h => by
    simp only [Arguments.phrase, Phrase.lexemes_append, List.append_assoc, List.nil_append] at h
    exact absurd (starts_cons.mp (h.symm ▸ first.starts.append)) (by decide)
  | .more first rest, .more first' rest', _, _, h => by
    simp only [Arguments.phrase, Phrase.lexemes_append, List.append_assoc] at h
    obtain ⟨rfl, h₁⟩ := first.eq_of_lexemes first' (rest.tail_starts _) (rest'.tail_starts _) h
    obtain ⟨rfl, h₂⟩ := rest.eq_of_tail_lexemes rest' h₁
    exact ⟨rfl, h₂⟩

theorem Arguments.eq_of_tail_lexemes : (a a' : Arguments) → {r r' : List Lexeme} →
    a.tailPhrase.lexemes ++ .symbol .rightParen :: r = a'.tailPhrase.lexemes ++ .symbol .rightParen :: r' →
    a = a' ∧ r = r'
  | .none, a', _, _, h => by
    cases a' <;> simp_all [Arguments.tailPhrase]
  | .more first rest, .none, _, _, h => by simp [Arguments.tailPhrase] at h
  | .more first rest, .more first' rest', _, _, h => by
    simp only [Arguments.tailPhrase, Phrase.lexemes_append, Phrase.lexemes_symbol, List.append_assoc,
      List.cons_append, List.nil_append, List.cons.injEq, true_and] at h
    obtain ⟨rfl, h₁⟩ := first.eq_of_lexemes first' (rest.tail_starts _) (rest'.tail_starts _) h
    obtain ⟨rfl, h₂⟩ := rest.eq_of_tail_lexemes rest' h₁
    exact ⟨rfl, h₂⟩

end

/-! ### Statements -/

/-- The lexemes that open a statement. -/
def opensStatement : Lexeme → Bool
  | .keyword .let_ | .keyword .if_ | .keyword .while_ | .keyword .do_ | .keyword .return_ => true
  | _ => false

/-- The lexemes that open a statement or end a block. -/
def inBlock (l : Lexeme) : Bool :=
  opensStatement l || l == .symbol .rightBrace

theorem Statement.starts (s : Statement) : Starts opensStatement s.phrase.lexemes := by
  cases s <;> simp [phrase, starts_cons, opensStatement]

theorem Block.starts (b : Block) (r : List Lexeme) :
    Starts inBlock (b.phrase.lexemes ++ .symbol .rightBrace :: r) := by
  cases b with
  | nil => simp [phrase, starts_cons, inBlock]
  | cons first rest =>
    rw [phrase, Phrase.lexemes_append, List.append_assoc]
    exact first.starts.append.mono fun l hl => by simp [inBlock, hl]

mutual

theorem Statement.eq_of_lexemes : (s s' : Statement) → {r r' : List Lexeme} → Starts inBlock r →
    Starts inBlock r' → s.phrase.lexemes ++ r = s'.phrase.lexemes ++ r' → s = s' ∧ r = r'
  | .assign x value, s', _, _, _, _, h => by
    cases s' with
    | assign x' value' =>
      simp only [Statement.phrase, Phrase.lexemes_append, Phrase.lexemes_keyword, Phrase.lexemes_name,
        Phrase.lexemes_use, Phrase.lexemes_symbol, List.append_nil, List.append_assoc, List.cons_append,
        List.nil_append, List.cons.injEq, Lexeme.identifier.injEq, true_and] at h
      obtain ⟨rfl, h⟩ := h
      obtain ⟨rfl, hrest⟩ := value.eq_of_lexemes value' (starts_cons.mpr rfl) (starts_cons.mpr rfl) h
      exact ⟨rfl, (List.cons.inj hrest).2⟩
    | _ => simp [Statement.phrase] at h
  | .assignElement x index value, s', _, _, _, _, h => by
    cases s' with
    | assignElement x' index' value' =>
      simp only [Statement.phrase, Phrase.lexemes_append, Phrase.lexemes_keyword, Phrase.lexemes_name,
        Phrase.lexemes_use, Phrase.lexemes_symbol, List.append_nil, List.append_assoc, List.cons_append,
        List.nil_append, List.cons.injEq, Lexeme.identifier.injEq, true_and] at h
      obtain ⟨rfl, h⟩ := h
      obtain ⟨rfl, h₁⟩ := index.eq_of_lexemes index' (starts_cons.mpr rfl) (starts_cons.mpr rfl) h
      simp only [List.cons.injEq, true_and] at h₁
      obtain ⟨rfl, h₂⟩ := value.eq_of_lexemes value' (starts_cons.mpr rfl) (starts_cons.mpr rfl) h₁
      exact ⟨rfl, (List.cons.inj h₂).2⟩
    | _ => simp [Statement.phrase] at h
  | .if_ condition body, s', _, _, hr, hr', h => by
    cases s' with
    | if_ condition' body' =>
      simp only [Statement.phrase, Expression.conditionPhrase, Phrase.lexemes_append, Phrase.lexemes_keyword,
        Phrase.lexemes_symbol, List.append_assoc, List.cons_append, List.nil_append, List.cons.injEq,
        true_and] at h
      obtain ⟨rfl, h₁⟩ := condition.eq_of_lexemes condition' (starts_cons.mpr rfl) (starts_cons.mpr rfl) h
      simp only [List.cons.injEq, true_and] at h₁
      obtain ⟨rfl, h₂⟩ := body.eq_of_lexemes body' h₁
      exact ⟨rfl, h₂⟩
    | ifElse condition' body' alternative' =>
      simp only [Statement.phrase, Expression.conditionPhrase, Phrase.lexemes_append, Phrase.lexemes_keyword,
        Phrase.lexemes_symbol, List.append_assoc, List.cons_append, List.nil_append, List.cons.injEq,
        true_and] at h
      obtain ⟨rfl, h₁⟩ := condition.eq_of_lexemes condition' (starts_cons.mpr rfl) (starts_cons.mpr rfl) h
      simp only [List.cons.injEq, true_and] at h₁
      obtain ⟨rfl, h₂⟩ := body.eq_of_lexemes body' h₁
      rw [h₂, starts_cons] at hr
      exact absurd hr (by decide)
    | _ => simp [Statement.phrase] at h
  | .ifElse condition body alternative, s', _, _, hr, hr', h => by
    cases s' with
    | if_ condition' body' =>
      simp only [Statement.phrase, Expression.conditionPhrase, Phrase.lexemes_append, Phrase.lexemes_keyword,
        Phrase.lexemes_symbol, List.append_assoc, List.cons_append, List.nil_append, List.cons.injEq,
        true_and] at h
      obtain ⟨rfl, h₁⟩ := condition.eq_of_lexemes condition' (starts_cons.mpr rfl) (starts_cons.mpr rfl) h
      simp only [List.cons.injEq, true_and] at h₁
      obtain ⟨rfl, h₂⟩ := body.eq_of_lexemes body' h₁
      rw [← h₂, starts_cons] at hr'
      exact absurd hr' (by decide)
    | ifElse condition' body' alternative' =>
      simp only [Statement.phrase, Expression.conditionPhrase, Phrase.lexemes_append, Phrase.lexemes_keyword,
        Phrase.lexemes_symbol, List.append_assoc, List.cons_append, List.nil_append, List.cons.injEq,
        true_and] at h
      obtain ⟨rfl, h₁⟩ := condition.eq_of_lexemes condition' (starts_cons.mpr rfl) (starts_cons.mpr rfl) h
      simp only [List.cons.injEq, true_and] at h₁
      obtain ⟨rfl, h₂⟩ := body.eq_of_lexemes body' h₁
      simp only [List.cons.injEq, true_and] at h₂
      obtain ⟨rfl, h₃⟩ := alternative.eq_of_lexemes alternative' h₂
      exact ⟨rfl, h₃⟩
    | _ => simp [Statement.phrase] at h
  | .while_ condition body, s', _, _, _, _, h => by
    cases s' with
    | while_ condition' body' =>
      simp only [Statement.phrase, Expression.conditionPhrase, Phrase.lexemes_append, Phrase.lexemes_keyword,
        Phrase.lexemes_symbol, List.append_assoc, List.cons_append, List.nil_append, List.cons.injEq,
        true_and] at h
      obtain ⟨rfl, h₁⟩ := condition.eq_of_lexemes condition' (starts_cons.mpr rfl) (starts_cons.mpr rfl) h
      simp only [List.cons.injEq, true_and] at h₁
      obtain ⟨rfl, h₂⟩ := body.eq_of_lexemes body' h₁
      exact ⟨rfl, h₂⟩
    | _ => simp [Statement.phrase] at h
  | .do_ term, s', _, _, _, _, h => by
    cases s' with
    | do_ term' =>
      simp only [Statement.phrase, Phrase.lexemes_append, Phrase.lexemes_keyword, Phrase.lexemes_symbol,
        List.append_assoc, List.cons_append, List.nil_append, List.cons.injEq, true_and] at h
      obtain ⟨rfl, hrest⟩ := term.eq_of_lexemes term' (starts_cons.mpr rfl) (starts_cons.mpr rfl) h
      exact ⟨rfl, (List.cons.inj hrest).2⟩
    | _ => simp [Statement.phrase] at h
  | .return_, s', _, _, _, _, h => by
    cases s' with
    | return_ => simpa [Statement.phrase] using h
    | returnValue value' =>
      simp only [Statement.phrase, Phrase.lexemes_append, Phrase.lexemes_keyword, Phrase.lexemes_symbol,
        List.append_assoc, List.cons_append, List.nil_append, List.cons.injEq, true_and] at h
      exact absurd (starts_cons.mp (h ▸ value'.starts.append)) (by decide)
    | _ => simp [Statement.phrase] at h
  | .returnValue value, s', _, _, _, _, h => by
    cases s' with
    | return_ =>
      simp only [Statement.phrase, Phrase.lexemes_append, Phrase.lexemes_keyword, Phrase.lexemes_symbol,
        List.append_assoc, List.cons_append, List.nil_append, List.cons.injEq, true_and] at h
      exact absurd (starts_cons.mp (h.symm ▸ value.starts.append)) (by decide)
    | returnValue value' =>
      simp only [Statement.phrase, Phrase.lexemes_append, Phrase.lexemes_keyword, Phrase.lexemes_symbol,
        List.append_assoc, List.cons_append, List.nil_append, List.cons.injEq, true_and] at h
      obtain ⟨rfl, hrest⟩ := value.eq_of_lexemes value' (starts_cons.mpr rfl) (starts_cons.mpr rfl) h
      exact ⟨rfl, (List.cons.inj hrest).2⟩
    | _ => simp [Statement.phrase] at h

theorem Block.eq_of_lexemes : (b b' : Block) → {r r' : List Lexeme} →
    b.phrase.lexemes ++ .symbol .rightBrace :: r = b'.phrase.lexemes ++ .symbol .rightBrace :: r' →
    b = b' ∧ r = r'
  | .nil, .nil, _, _, h => by simpa [Block.phrase] using h
  | .nil, .cons first' rest', _, _, h => by
    simp only [Block.phrase, Phrase.lexemes_append, List.append_assoc, List.nil_append] at h
    exact absurd (starts_cons.mp (h ▸ first'.starts.append)) (by decide)
  | .cons first rest, .nil, _, _, h => by
    simp only [Block.phrase, Phrase.lexemes_append, List.append_assoc, List.nil_append] at h
    exact absurd (starts_cons.mp (h.symm ▸ first.starts.append)) (by decide)
  | .cons first rest, .cons first' rest', _, _, h => by
    simp only [Block.phrase, Phrase.lexemes_append, List.append_assoc] at h
    obtain ⟨rfl, h₁⟩ := first.eq_of_lexemes first' (rest.starts _) (rest'.starts _) h
    obtain ⟨rfl, h₂⟩ := rest.eq_of_lexemes rest' h₁
    exact ⟨rfl, h₂⟩

end

/-! ### Declarations -/

theorem Declaration.eq_of_lexemes {d d' : Declaration} {r r' : List Lexeme}
    (h : d.phrase.lexemes ++ r = d'.phrase.lexemes ++ r') : d = d' ∧ r = r' := by
  obtain ⟨type, first, more⟩ := d
  obtain ⟨type', first', more'⟩ := d'
  simp only [phrase, moreNames, Phrase.lexemes_append, Phrase.lexemes_token, Phrase.lexemes_name,
    Phrase.lexemes_symbol, List.append_assoc, List.cons_append, List.nil_append, List.cons.injEq,
    Lexeme.identifier.injEq] at h
  obtain ⟨ht, rfl, h⟩ := h
  obtain rfl := TypeName.lexeme_inj ht
  obtain ⟨rfl, hrest⟩ := Phrase.eq_of_join (p := (· == .symbol .semicolon)) (by simp)
    (fun _ => starts_cons.mpr rfl) (starts_cons.mpr rfl) (starts_cons.mpr rfl) h
  exact ⟨rfl, (List.cons.inj hrest).2⟩

theorem Parameter.eq_of_lexemes {p p' : Parameter} {r r' : List Lexeme}
    (h : p.phrase.lexemes ++ r = p'.phrase.lexemes ++ r') : p = p' ∧ r = r' := by
  obtain ⟨type, name⟩ := p
  obtain ⟨type', name'⟩ := p'
  simp only [phrase, Phrase.lexemes_append, Phrase.lexemes_token, Phrase.lexemes_name, List.cons_append,
    List.nil_append, List.cons.injEq, Lexeme.identifier.injEq] at h
  obtain ⟨ht, rfl, h⟩ := h
  exact ⟨by rw [TypeName.lexeme_inj ht], h⟩

theorem Parameter.eq_of_tail_lexemes {ps ps' : List Parameter} {r r' : List Lexeme}
    (h : (tailPhrase ps).lexemes ++ r = (tailPhrase ps').lexemes ++ r') : ps = ps' ∧ r = r' := by
  simp only [tailPhrase, Phrase.lexemes_append, Phrase.lexemes_symbol, List.append_assoc, List.cons_append,
    List.nil_append] at h
  obtain ⟨rfl, hrest⟩ := Phrase.eq_of_join (f := fun p : Parameter => Phrase.symbol .comma ++ p.phrase)
    (p := (· == .symbol .rightParen)) (fun h => eq_of_lexemes (List.cons.inj h).2)
    (fun _ => starts_cons.mpr rfl) (starts_cons.mpr rfl) (starts_cons.mpr rfl) h
  exact ⟨rfl, (List.cons.inj hrest).2⟩

theorem Parameter.eq_of_list_lexemes {ps ps' : List Parameter} {r r' : List Lexeme}
    (h : (listPhrase ps).lexemes ++ r = (listPhrase ps').lexemes ++ r') : ps = ps' ∧ r = r' := by
  cases ps with
  | nil =>
    cases ps' with
    | nil => simpa [listPhrase] using h
    | cons p' ps' => cases ht : p'.type <;> simp [listPhrase, phrase, TypeName.lexeme, ht] at h
  | cons p ps =>
    cases ps' with
    | nil => cases ht : p.type <;> simp [listPhrase, phrase, TypeName.lexeme, ht] at h
    | cons p' ps' =>
      simp only [listPhrase, Phrase.lexemes_append, List.append_assoc] at h
      obtain ⟨rfl, h₁⟩ := eq_of_lexemes h
      obtain ⟨rfl, h₂⟩ := eq_of_tail_lexemes h₁
      exact ⟨rfl, h₂⟩

namespace Routine

theorem resultLexeme_inj {a b : Option TypeName} (h : resultLexeme a = resultLexeme b) : a = b := by
  cases a with
  | none => cases b with
    | none => rfl
    | some b => cases b <;> simp [resultLexeme, TypeName.lexeme] at h
  | some a => cases b with
    | none => cases a <;> simp [resultLexeme, TypeName.lexeme] at h
    | some b => rw [TypeName.lexeme_inj h]

theorem kindWord_inj {a b : RoutineKind} (h : kindWord a = kindWord b) : a = b := by
  cases a <;> cases b <;> simp_all [kindWord]

theorem eq_of_lexemes {a b : Routine} {r r' : List Lexeme}
    (h : a.phrase.lexemes ++ r = b.phrase.lexemes ++ r') : a = b ∧ r = r' := by
  obtain ⟨kind, result?, name, parameters, locals, body⟩ := a
  obtain ⟨kind', result?', name', parameters', locals', body'⟩ := b
  simp only [phrase, headPhrase, Phrase.lexemes_append, Phrase.lexemes_keyword, Phrase.lexemes_token,
    Phrase.lexemes_name, Phrase.lexemes_symbol, List.append_assoc, List.cons_append, List.nil_append,
    List.cons.injEq, Lexeme.keyword.injEq, Lexeme.identifier.injEq, true_and] at h
  obtain ⟨hk, hres, rfl, h⟩ := h
  obtain rfl := kindWord_inj hk
  obtain rfl := resultLexeme_inj hres
  obtain ⟨rfl, h₁⟩ := Parameter.eq_of_list_lexemes h
  simp only [List.cons.injEq, true_and] at h₁
  -- The local variables end where a statement or the closing brace stands.
  obtain ⟨rfl, h₂⟩ := Phrase.eq_of_join (f := fun d : Declaration => Phrase.keyword .var ++ d.phrase)
    (fun h => Declaration.eq_of_lexemes (List.cons.inj h).2) (fun _ => starts_cons.mpr rfl)
    (body.starts _) (body'.starts _) h₁
  obtain ⟨rfl, h₃⟩ := body.eq_of_lexemes body' h₂
  exact ⟨rfl, h₃⟩

end Routine

/-! ### Classes -/

/-- The lexemes that open a declaration of a class. -/
def opensMember : Lexeme → Bool
  | .keyword .static | .keyword .field | .keyword .constructor_ | .keyword .function | .keyword .method => true
  | _ => false

theorem Member.starts (m : Member) : Starts opensMember m.phrase.lexemes := by
  cases m with
  | routine r =>
    obtain ⟨kind, _, _, _, _, _⟩ := r
    cases kind <;>
      simp [phrase, Routine.phrase, Routine.headPhrase, Routine.kindWord, starts_cons, opensMember]
  | _ => simp [phrase, starts_cons, opensMember]

theorem Member.eq_of_lexemes {m m' : Member} {r r' : List Lexeme}
    (h : m.phrase.lexemes ++ r = m'.phrase.lexemes ++ r') : m = m' ∧ r = r' := by
  have hword : ∀ (a : Routine) {word : Keyword} {ls : List Lexeme}, (∀ k, Routine.kindWord k ≠ word) →
      ∀ rest, a.phrase.lexemes ++ rest ≠ .keyword word :: ls := by
    intro a word ls hne rest he
    simp only [Routine.phrase, Routine.headPhrase, Phrase.lexemes_append, Phrase.lexemes_keyword,
      List.cons_append, List.nil_append, List.cons.injEq, Lexeme.keyword.injEq] at he
    exact hne _ he.1
  cases m with
  | statics d =>
    cases m' with
    | statics d' =>
      simp only [phrase, Phrase.lexemes_append, Phrase.lexemes_keyword, List.cons_append, List.nil_append,
        List.cons.injEq, true_and] at h
      obtain ⟨rfl, hrest⟩ := Declaration.eq_of_lexemes h
      exact ⟨rfl, hrest⟩
    | fields d' => simp [phrase] at h
    | routine a => exact absurd h.symm (hword a (fun k => by cases k <;> decide) r')
  | fields d =>
    cases m' with
    | statics d' => simp [phrase] at h
    | fields d' =>
      simp only [phrase, Phrase.lexemes_append, Phrase.lexemes_keyword, List.cons_append, List.nil_append,
        List.cons.injEq, true_and] at h
      obtain ⟨rfl, hrest⟩ := Declaration.eq_of_lexemes h
      exact ⟨rfl, hrest⟩
    | routine a => exact absurd h.symm (hword a (fun k => by cases k <;> decide) r')
  | routine a =>
    cases m' with
    | statics d' => exact absurd h (hword a (fun k => by cases k <;> decide) r)
    | fields d' => exact absurd h (hword a (fun k => by cases k <;> decide) r)
    | routine b =>
      obtain ⟨rfl, hrest⟩ := Routine.eq_of_lexemes h
      exact ⟨rfl, hrest⟩

/-- No two classes are written with the same lexemes. -/
theorem Class.eq_of_lexemes {c c' : Class} (h : c.lexemes = c'.lexemes) : c = c' := by
  obtain ⟨name, members⟩ := c
  obtain ⟨name', members'⟩ := c'
  simp only [lexemes, phrase, headPhrase, Phrase.lexemes_append, Phrase.lexemes_keyword, Phrase.lexemes_name,
    Phrase.lexemes_symbol, List.cons_append, List.nil_append, List.cons.injEq, Lexeme.identifier.injEq,
    true_and] at h
  obtain ⟨rfl, hm⟩ := h
  have hstart : ∀ m : Member, Starts (fun l => !(l == .symbol .rightBrace)) m.phrase.lexemes := fun m =>
    m.starts.mono fun l hl => by
      cases l with
      | symbol x => cases hl
      | _ => rfl
  rw [(Phrase.eq_of_join Member.eq_of_lexemes hstart (starts_cons.mpr rfl) (starts_cons.mpr rfl) hm).1]

end Syntax

end JackToVm
