import JackToVm.Proofs.Wording

/-!
Sources for given lexemes. What is written as a lexeme is read as it with a blank behind it
(`Piece.spells_of_written`). So lexemes that stand somewhere in sources make a source of their own, in any order
(`exists_source_of_lexemes`).
-/

namespace JackToVm

namespace Piece

/-- A text that is read as a lexeme when a blank stands behind it. -/
def Spells (text : List Char) (l : Lexeme) : Prop :=
  ∃ c more, text = c :: more ∧
    ∀ behind, cut c (more ++ ' ' :: behind) = ({ reading := .lexeme l, text }, ' ' :: behind)

/-! ### One lexeme -/

theorem spells_of_written {text : List Char} {l : Lexeme} (h : l.Written text) : Spells text l := by
  obtain ⟨c, more, rfl, hcut⟩ := h.exists_cut
  refine ⟨c, more, rfl, fun behind => hcut (' ' :: behind) ?_⟩
  rintro d ⟨⟩
  exact l.goesOn_of_isBlank rfl

/-! ### Lexemes in a row -/

theorem Spells.readings {text : List Char} {l : Lexeme} (h : Spells text l) (behind : List Char) :
    readings (text ++ ' ' :: behind) = .lexeme l :: Piece.readings behind := by
  obtain ⟨c, more, htext, hcut⟩ := h
  rw [← Gap.readings_blank (c := ' ') rfl behind, Piece.readings, htext, List.cons_append, split_cons, hcut]
  rfl

end Piece

theorem Item.spells_of_mem_ofSource {source : String} {t : Token} (h : .ok t ∈ Item.ofSource source) :
    ∃ text, Piece.Spells text t.lexeme := by
  obtain ⟨text, htext⟩ := exists_written_of_mem_ofSource h
  exact ⟨text, Piece.spells_of_written htext⟩

theorem Item.exists_tokens_of_reading {items : List Item} {ls : List Lexeme} (h : items.map reading = ls.map .lexeme) :
    ∃ tokens : List Token, items = tokens.map .ok ∧ ls = tokens.map (·.lexeme) := by
  induction items generalizing ls with
  | nil =>
    obtain rfl := List.map_eq_nil_iff.mp h.symm
    exact ⟨[], rfl, rfl⟩
  | cons item items ih =>
    cases ls with
    | nil => cases h
    | cons l ls =>
      obtain ⟨hitem, hitems⟩ := List.cons.inj h
      obtain ⟨tokens, rfl, rfl⟩ := ih hitems
      cases item with
      | ok t => exact ⟨t :: tokens, rfl, congrArg (· :: _) (Reading.lexeme.inj hitem).symm⟩
      | error e => cases hitem

/-- Lexemes that can be spelled are those of a source. -/
theorem exists_source_of_lexemes {ls : List Lexeme} (h : ∀ l ∈ ls, ∃ text, Piece.Spells text l) :
    ∃ (source : String) (tokens : List Token), Item.ofSource source = tokens.map .ok ∧ ls = tokens.map (·.lexeme) := by
  have htext : ∃ text : List Char, Piece.readings text = ls.map .lexeme := by
    induction ls with
    | nil => exact ⟨[], by simp [Piece.readings]⟩
    | cons l ls ih =>
      rw [List.forall_mem_cons] at h
      obtain ⟨⟨text, htext⟩, hrest⟩ := h
      obtain ⟨more, hmore⟩ := ih hrest
      exact ⟨text ++ ' ' :: more, by rw [htext.readings, hmore, List.map_cons]⟩
  obtain ⟨text, htext⟩ := htext
  have hitems : (Item.ofSource (String.ofList text)).map Item.reading = ls.map .lexeme := by
    rw [Item.map_reading_ofSource, String.toList_ofList, htext]
  exact ⟨String.ofList text, Item.exists_tokens_of_reading hitems⟩

end JackToVm
