import JackToVm.Proofs.Lines
import JackToVm.Proofs.Numbering

/-!
The number that labels start with changes nothing but the numbers of labels: two compilations of a source with
different starts come to the same end, and their outputs are the same line for line, except that the labels
count from the one start or from the other (`compileTo_start`).
-/

namespace JackToVm

namespace Vm

/-- The same line, but that a label is numbered from `b` on where it was numbered from `a` on. The label is among
the first `n` ones. -/
inductive Renumbered (a b n : Nat) : String → String → Prop where
  | mention {command sort : String} {k : Nat} (hc : command ∈ ["label ", "goto ", "if-goto "])
      (hs : sort ∈ ["IFLABEL", "WHILELABEL"]) (hk : k < n) :
      Renumbered a b n (command ++ sort ++ toString (a + k)) (command ++ sort ++ toString (b + k))
  | other {line : String} (h : ∀ label, ¬ Mentions line label) : Renumbered a b n line line

variable {a b m n : Nat}

theorem Renumbered.mono {x y : String} (h : Renumbered a b m x y) (hmn : m ≤ n) : Renumbered a b n x y := by
  cases h with
  | mention hc hs hk => exact .mention hc hs (Nat.lt_of_lt_of_le hk hmn)
  | other h => exact .other h

theorem Labels.ifName_eq (number : Nat) : ifName number = "IFLABEL" ++ toString number :=
  show "IF" ++ ("LABEL" ++ toString number) = "IF" ++ "LABEL" ++ toString number from (String.append_assoc ..).symm

theorem Labels.whileName_eq (number : Nat) : whileName number = "WHILELABEL" ++ toString number :=
  show "WHILE" ++ ("LABEL" ++ toString number) = "WHILE" ++ "LABEL" ++ toString number from
    (String.append_assoc ..).symm

/-- A line with a label, from labels that correspond. -/
theorem Labels.Twins.renumbered {x y command : String} (h : Labels.Twins a b m x y)
    (hc : command ∈ ["label ", "goto ", "if-goto "]) : Renumbered a b m (command ++ x) (command ++ y) := by
  have hsort {sort : String} {k : Nat} (hs : sort ∈ ["IFLABEL", "WHILELABEL"]) (hk : k < m) :
      Renumbered a b m (command ++ (sort ++ toString (a + k))) (command ++ (sort ++ toString (b + k))) := by
    rw [← String.append_assoc, ← String.append_assoc]
    exact .mention hc hs hk
  obtain ⟨k, hk, ⟨rfl, rfl⟩ | ⟨rfl, rfl⟩⟩ := h
  · rw [ifName_eq, ifName_eq]
    exact hsort (by decide) hk
  · rw [whileName_eq, whileName_eq]
    exact hsort (by decide) hk

theorem Instruction.Twins.renumbered {i j : Instruction} (h : i.Twins a b m j) :
    Renumbered a b m i.text j.text := by
  cases h with
  | same h =>
    refine .other fun label hlabel => ?_
    rw [Instruction.mentions_text_iff, h] at hlabel
    cases hlabel
  | label h => exact h.renumbered (by decide)
  | goto h => exact h.renumbered (by decide)
  | ifGoto h => exact h.renumbered (by decide)

end Vm

/-- Lines of events that correspond. -/
theorem Event.Twins.renumbered {a b m n : Nat} {events events' : List Event} (h : Event.Twins a b m events events' n) :
    List.Forall₂ (Vm.Renumbered a b n) ((events.filterMap instruction?).map Vm.Instruction.text)
      ((events'.filterMap instruction?).map Vm.Instruction.text) := by
  induction h with
  | nil => exact .nil
  | wrote h next ih => exact .cons (h.renumbered.mono next.le) ih
  | drew _ ih => exact ih
  | enteredClass _ _ ih => exact ih
  | enteredRoutine _ _ _ _ ih => exact ih

/-- The start of the label numbers: with two starts a source compiles with the same result, which is an error in
the same place or none. As many label numbers are drawn. The outputs consist of their lines, and these are the
same but for the numbers of labels, which count from the start. -/
theorem compileTo_start (source : String) (a b : Nat) :
    (compileTo source none { next := a }).result = (compileTo source none { next := b }).result ∧
    ∃ n, (compileTo source none { next := a }).labels.next = a + n ∧
      (compileTo source none { next := b }).labels.next = b + n ∧
      List.Forall₂ (Vm.Renumbered a b n) (Vm.linesOf (compileTo source none { next := a }).output)
        (Vm.linesOf (compileTo source none { next := b }).output) ∧
      ∀ start, (compileTo source none { next := start }).output =
        (String.join ((Vm.linesOf (compileTo source none { next := start }).output).map (· ++ "\n"))).toUTF8 := by
  obtain ⟨⟨n, hn⟩, hresult⟩ := compile_twins source a b
  obtain ⟨hdrawsA, hdrawsB⟩ := hn.eq_add_drawsOf
  have hnext (start : Nat) (h : n = 0 + Event.drawsOf (compile source start).trace) :
      (compileTo source none { next := start }).labels.next = start + n := by
    rw [h, Nat.zero_add]
    exact Compilation.next_deliver_none ..
  refine ⟨?_, n, hnext a hdrawsA, hnext b hdrawsB, ?_, fun start => output_compileTo_none source _⟩
  · simp only [compileTo, Compilation.resultAfter_deliver_none]
    exact hresult
  · rw [linesOf_compileTo_none, linesOf_compileTo_none]
    exact hn.renumbered

-- The name of the class looks like a label, and is none.
example :
    Vm.linesOf (compileTo "class IFLABEL0 { function void f() { while (1) { do IFLABEL0.f(); } } }" none
      { next := 5 }).output =
      ["function IFLABEL0.f 0", "label WHILELABEL5", "push constant 1", "not", "if-goto WHILELABEL6",
        "call IFLABEL0.f 0", "pop temp 0", "goto WHILELABEL5", "label WHILELABEL6", "push constant 0", "return"] := by
  decide +kernel

end JackToVm
