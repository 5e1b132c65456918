import JackToVm.Proofs.Reach
import JackToVm.Proofs.Unambiguous

/-!
The pass writes what a compiler with a tree would write: when a class compiles, its tokens are those of
a class, and the output is the text of the code of that class, counted in 16 bits.
-/

namespace JackToVm

/-! ### A sink without a limit -/

namespace Compilation
variable (c : Compilation) (labels : Vm.Labels)

/-- A sink without a limit refuses nothing and takes the text of all events. -/
theorem foldl_step_of_unlimited {d : Delivery} (hl : d.sink.limit? = none) (hr : d.refused = false)
    (trace : List Event) :
    (trace.foldl Delivery.step d).refused = false ∧
      (trace.foldl Delivery.step d).sink.bytes = d.sink.bytes ++
        (String.join ((trace.filterMap Event.instruction?).map Vm.Instruction.line)).toUTF8 := by
  induction trace generalizing d with
  | nil => exact ⟨hr, by simp⟩
  | cons event trace ih =>
    obtain ⟨sink, labels, heard, refused⟩ := d
    obtain rfl : refused = false := hr
    have hroom : ∀ n, sink.hasRoom n = true := by
      intro n
      simp [Vm.Sink.hasRoom, show sink.limit? = none from hl]
    cases event with
    | wrote i =>
      have hstep : Delivery.step { sink, labels, heard, refused := false } (.wrote i) =
          { sink := sink.write i.line, labels, heard := heard.push (.wrote i), refused := false } := by
        simp [Delivery.step, hroom]
      obtain ⟨h₁, h₂⟩ := ih (d := { sink := sink.write i.line, labels, heard := heard.push (.wrote i),
                                    refused := false }) (by simpa using hl) rfl
      rw [List.foldl_cons, hstep]
      refine ⟨h₁, ?_⟩
      rw [h₂, Vm.Sink.bytes_write_of_hasRoom (hroom _)]
      simp [String.toByteArray_append, ByteArray.append_assoc]
    | _ => exact ih hl rfl

theorem refused_deliver_none : (c.deliver none labels).refused = false :=
  (foldl_step_of_unlimited rfl rfl c.trace).1

theorem bytes_deliver_none : (c.deliver none labels).sink.bytes = c.text.toUTF8 := by
  rw [deliver, (foldl_step_of_unlimited rfl rfl c.trace).2]
  simp [text, code]

@[simp] theorem resultAfter_deliver_none : c.resultAfter (c.deliver none labels) = c.result := by
  simp [resultAfter, refused_deliver_none]

end Compilation

theorem eq_ok_of_isOk {result : Except CompileError Unit} (h : result.isOk = true) : result = .ok () := by
  cases result with
  | ok => rfl
  | error e => cases h

/-! ### The tree of a class that compiles -/

theorem map_lexeme_of_ok {items : List Item} {tokens : List Token} (h : items = tokens.map .ok) :
    tokens.map (·.lexeme) = items.filterMap fun item => item.toOption.map (·.lexeme) := by
  subst h
  induction tokens with
  | nil => rfl
  | cons t tokens ih => exact congrArg (t.lexeme :: ·) ih

open Syntax

/-- The run over a class that compiles goes over the tokens of a tree in which no name is used as a variable that
is none, and writes the code of the tree. -/
theorem exists_run_of_compile {source : String} {n : Nat} (h : (compile source n).result = .ok ()) :
    ∃ (tokens : List Token) (c : Syntax.Class), Item.ofSource source = tokens.map .ok ∧
      c.lexemes = tokens.map (·.lexeme) ∧ c.unbound.uses = [] ∧ (compile source n).code = c.code .wrapped n ∧
      Goal.Reaches Goal.ofClass { labels := { next := n } } tokens (compile source n).trace []
        (Member.leave c.members { className := c.name, labels := { next := n } }) := by
  obtain ⟨tokens, rest, events, more, agenda, s, hi, hr, he, ht⟩ :=
    Goal.run_cases (.atEnd source) (Item.ofSource source) Goal.ofClass { labels := { next := n } }
  change (compile source n).trace = events ++ more at ht
  change Goal.Ends _ agenda s rest more (compile source n).result at he
  rw [h] at he
  cases he with
  | done ha =>
    subst ha
    rw [List.append_nil] at ht
    subst ht
    obtain ⟨c, hc, rfl⟩ := Goal.meetsAll_ofClass.mp (hr.meetsAll ⟨rfl, rfl⟩)
    simp only [Yield.append_nil, Yield.mk.injEq] at hc
    refine ⟨tokens, c, by simpa using hi, ?_, ?_, hc.2, hr⟩
    · rw [← Class.lexemes_unbound, ← hc.1]
    · rw [← hc.1]

/-- A class that compiles has a tree in which no name is used as a variable that is none. -/
theorem exists_tree_of_compile {source : String} {n : Nat} (h : (compile source n).result = .ok ()) :
    ∃ (tokens : List Token) (c : Syntax.Class), Item.ofSource source = tokens.map .ok ∧
      c.lexemes = tokens.map (·.lexeme) ∧ c.unbound.uses = [] ∧ (compile source n).code = c.code .wrapped n := by
  obtain ⟨tokens, c, hi, hl, hu, hc, -⟩ := exists_run_of_compile h
  exact ⟨tokens, c, hi, hl, hu, hc⟩

end JackToVm
