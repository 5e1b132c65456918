import JackToVm.Proofs.Lines
import JackToVm.Proofs.Numbering

/-!
Classes that are compiled one after the other, with one label counter for all. Each class takes the numbers from
where the counter stands in front of it to where it stands behind it, whether it compiles or not, and no label
of one class has a number of another (`labels_of_batch`).
-/

namespace JackToVm
open Vm (Mentions linesOf)
open Vm.Labels (Has)

/-! ### Classes in their turn -/

/-- A class to be compiled, and how many bytes its sink takes. -/
structure Job where
  source : String
  limit? : Option Nat := none
deriving DecidableEq, Repr

/-- A class in its turn, with the label counter in front of it. -/
structure Turn where
  job : Job
  before : Vm.Labels
deriving DecidableEq, Repr

namespace Turn

def outcome (t : Turn) : Outcome :=
  compileTo t.job.source t.job.limit? t.before

/-- The label counter behind a class. -/
def after (t : Turn) : Vm.Labels :=
  t.outcome.labels

end Turn

/-- Compiles classes one after the other. The counter goes from one to the next. -/
def batch : List Job → Vm.Labels → List Turn
  | [], _ => []
  | job :: jobs, labels => { job, before := labels } :: batch jobs (Turn.after { job, before := labels })

/-! ### One class -/

/-- Tells whether an item starts a branch or a loop. -/
def Item.isIfOrWhile : Item → Bool
  | .ok t => t.lexeme.isIfOrWhile
  | .error _ => false

/-- Tells whether a line sets the label with a number. -/
def Vm.defines (number : Nat) (line : String) : Bool :=
  line = "label " ++ Labels.ifName number || line = "label " ++ Labels.whileName number

theorem Vm.defines_text_iff {number : Nat} {i : Vm.Instruction} :
    defines number i.text = true ↔ ∃ x, i = .label x ∧ Has x number := by
  rw [defines, Bool.or_eq_true, decide_eq_true_eq, decide_eq_true_eq]
  constructor
  · rintro (h | h)
    · exact ⟨_, Instruction.eq_of_text_eq (j := .label _) rfl h, Or.inl rfl⟩
    · exact ⟨_, Instruction.eq_of_text_eq (j := .label _) rfl h, Or.inr rfl⟩
  · rintro ⟨x, rfl, rfl | rfl⟩
    · exact Or.inl rfl
    · exact Or.inr rfl

/-- The lines that set a label with a number are counted by the labels of the code. -/
theorem Vm.countP_defines (number : Nat) (code : List Vm.Instruction) :
    (code.map Instruction.text).countP (defines number) = (labelsOf code).countP (Has · number) := by
  rw [List.countP_map, labelsOf, List.countP_filterMap]
  refine List.countP_congr fun i _ => ?_
  rw [Function.comp_apply, defines_text_iff]
  cases i <;> simp [Instruction.label?]

namespace Turn

theorem le (t : Turn) : t.before.next ≤ t.after.next := by
  obtain ⟨front, -, -, hnext, -⟩ := exists_lines_of_compileTo t.job.source t.job.limit? t.before
  exact Nat.le.intro hnext.symm

/-- The labels in the lines of a class have the numbers that were drawn in its turn. -/
theorem has_of_mentions (t : Turn) {line x : String} (hl : line ∈ linesOf t.outcome.output) (hx : Mentions line x) :
    ∃ k, Has x k ∧ t.before.next ≤ k ∧ k < t.after.next := by
  obtain ⟨front, hfront, hlines, hnext, -⟩ := exists_lines_of_compileTo t.job.source t.job.limit? t.before
  rw [show linesOf t.outcome.output = _ from hlines, List.mem_map] at hl
  obtain ⟨i, hi, rfl⟩ := hl
  obtain ⟨event, hevent, heq⟩ := List.mem_filterMap.mp hi
  rw [Vm.Instruction.mentions_text_iff] at hx
  rw [show t.after.next = _ from hnext]
  cases event with
  | wrote j =>
    obtain rfl := Option.some.inj heq
    exact has_of_mention hfront hevent hx
  | _ => cases heq

/-- A class that compiles takes two numbers for each branch and each loop. -/
theorem after_of_ok (t : Turn) (h : t.outcome.result = .ok ()) :
    t.after.next = t.before.next + 2 * (Item.ofSource t.job.source).countP Item.isIfOrWhile := by
  obtain ⟨front, -, -, hnext, hwhole⟩ := exists_lines_of_compileTo t.job.source t.job.limit? t.before
  obtain ⟨rfl, hok⟩ := hwhole h
  obtain ⟨tokens, c, hi, hl, -, hdraws⟩ := exists_numbered_of_compile hok
  rw [show t.after.next = _ from hnext, show Event.drawsOf _ = _ from hdraws, c.draws_eq, hl, hi, List.countP_map,
    List.countP_map]
  rfl

/-- Each number that a class takes is that of one label when the class compiles. -/
theorem countP_defines_of_ok (t : Turn) (h : t.outcome.result = .ok ()) {k : Nat} (hlow : t.before.next ≤ k)
    (hhigh : k < t.after.next) : (linesOf t.outcome.output).countP (Vm.defines k) = 1 := by
  obtain ⟨front, -, hlines, hnext, hwhole⟩ := exists_lines_of_compileTo t.job.source t.job.limit? t.before
  obtain ⟨rfl, hok⟩ := hwhole h
  obtain ⟨-, c, -, -, hc, hdraws⟩ := exists_numbered_of_compile hok
  rw [show t.after.next = _ from hnext, show Event.drawsOf _ = _ from hdraws] at hhigh
  rw [show linesOf t.outcome.output = _ from hlines, Vm.countP_defines, show List.filterMap _ _ = _ from hc]
  exact (c.fills_labelsOf_code .wrapped t.before.next).once k hlow hhigh

end Turn

/-! ### One class after the other -/

theorem map_job_batch (jobs : List Job) (labels : Vm.Labels) : (batch jobs labels).map (·.job) = jobs := by
  induction jobs generalizing labels with
  | nil => rfl
  | cons job jobs ih => rw [batch, List.map_cons, ih]

/-- The counter does not go back. -/
theorem le_of_mem_batch {jobs : List Job} {labels : Vm.Labels} {t : Turn} (h : t ∈ batch jobs labels) :
    labels.next ≤ t.before.next := by
  induction jobs generalizing labels with
  | nil => cases h
  | cons job jobs ih =>
    rcases List.mem_cons.mp h with rfl | h
    · exact Nat.le_refl _
    · exact Nat.le_trans (Turn.le { job, before := labels }) (ih h)

/-- Each class starts where the counter stands behind the class in front of it. -/
theorem isChain_batch (jobs : List Job) (labels : Vm.Labels) :
    (batch jobs labels).IsChain fun t u => u.before = t.after := by
  induction jobs generalizing labels with
  | nil => exact .nil
  | cons job jobs ih =>
    cases jobs with
    | nil => exact .singleton _
    | cons next jobs => exact List.isChain_cons_cons.mpr ⟨rfl, ih _⟩

theorem pairwise_batch (jobs : List Job) (labels : Vm.Labels) :
    (batch jobs labels).Pairwise fun t u => t.after.next ≤ u.before.next := by
  induction jobs generalizing labels with
  | nil => exact .nil
  | cons job jobs ih => exact List.pairwise_cons.mpr ⟨fun u hu => le_of_mem_batch hu, ih _⟩

/-- Labels of classes whose numbers lie apart are different. -/
theorem Turn.not_mentions {t u : Turn} (h : t.after.next ≤ u.before.next) {line line' x : String}
    (hl : line ∈ linesOf t.outcome.output) (hl' : line' ∈ linesOf u.outcome.output) (hx : Mentions line x) :
    ¬ Mentions line' x := by
  intro hx'
  obtain ⟨k, hk, -, hhigh⟩ := t.has_of_mentions hl hx
  obtain ⟨k', hk', hlow, -⟩ := u.has_of_mentions hl' hx'
  have := hk.number_eq hk'
  omega

/-- Label numbers of classes that are compiled one after the other, whatever their sources and limits are and
whether they compile or not. The numbers from the counter in front of a class to the counter behind it are those
of the class: these stretches follow each other, and the labels in the complete lines of its output have numbers
from its stretch. So no label is set or jumped to in the outputs of two classes. A class that compiles takes two
numbers for each branch and each loop in it, and sets one label with each number. -/
theorem labels_of_batch (jobs : List Job) (labels : Vm.Labels) :
    (batch jobs labels).map (·.job) = jobs ∧
    (∀ t ∈ (batch jobs labels).head?, t.before = labels) ∧
    (batch jobs labels).IsChain (fun t u => u.before = t.after) ∧
    (∀ t ∈ batch jobs labels, t.before.next ≤ t.after.next ∧
      ∀ line ∈ linesOf t.outcome.output, ∀ x, Mentions line x →
        ∃ k, Has x k ∧ t.before.next ≤ k ∧ k < t.after.next) ∧
    (batch jobs labels).Pairwise (fun t u => t.after.next ≤ u.before.next ∧
      ∀ line ∈ linesOf t.outcome.output, ∀ line' ∈ linesOf u.outcome.output, ∀ x, Mentions line x →
        ¬ Mentions line' x) ∧
    ∀ t ∈ batch jobs labels, t.outcome.result = .ok () →
      t.after.next = t.before.next + 2 * (Item.ofSource t.job.source).countP Item.isIfOrWhile ∧
      ∀ k, t.before.next ≤ k → k < t.after.next → (linesOf t.outcome.output).countP (Vm.defines k) = 1 := by
  refine ⟨map_job_batch jobs labels, ?_, isChain_batch jobs labels, ?_, ?_, ?_⟩
  · intro t ht
    cases jobs with
    | nil => cases ht
    | cons => cases ht; rfl
  · intro t _
    exact ⟨t.le, fun line hl x hx => t.has_of_mentions hl hx⟩
  · refine (pairwise_batch jobs labels).imp fun {t u} h => ?_
    exact ⟨h, fun line hl line' hl' x hx => Turn.not_mentions h hl hl' hx⟩
  · intro t _ hok
    exact ⟨t.after_of_ok hok, fun k hlow hhigh => t.countP_defines_of_ok hok hlow hhigh⟩

def loopJob : Job :=
  { source := "class A { function void f() { while (1) { } } }" }

/-- A class that compiles, one with an error, and one whose sink is too small. -/
def mixedJobs : List Job :=
  [loopJob, { source := "class A { function void f() { if } }" }, { loopJob with limit? := some 50 }]

def mixedTurns : List Turn :=
  [{ job := mixedJobs[0], before := { next := 3 } }, { job := mixedJobs[1], before := { next := 5 } },
    { job := mixedJobs[2], before := { next := 7 } }]

/-- The first class takes the numbers 3 and 4 and sets a label with each. The class with an error takes two numbers,
and the last one takes two before its sink is full, of which it sets one. -/
theorem labels_of_batch_mixed :
    batch mixedJobs { next := 3 } = mixedTurns ∧ mixedTurns.map (·.after.next) = [5, 7, 9] ∧
      mixedTurns.map (·.outcome.result.isOk) = [true, false, false] ∧
      (linesOf mixedTurns[0].outcome.output).countP (Vm.defines 4) = 1 ∧
      "label WHILELABEL7" ∈ linesOf mixedTurns[2].outcome.output ∧
      ∀ line ∈ linesOf mixedTurns[0].outcome.output, ¬ Mentions line "WHILELABEL7" := by
  have hrun : batch mixedJobs { next := 3 } = mixedTurns ∧ mixedTurns.map (·.after.next) = [5, 7, 9] ∧
      mixedTurns.map (·.outcome.result.isOk) = [true, false, false] ∧
      "label WHILELABEL7" ∈ linesOf mixedTurns[2].outcome.output := by
    decide +kernel
  obtain ⟨hturns, hafter, hoks, hline⟩ := hrun
  have hlabels := labels_of_batch mixedJobs { next := 3 }
  rw [hturns] at hlabels
  obtain ⟨-, -, -, -, hapart, hok⟩ := hlabels
  obtain ⟨-, honce⟩ := hok mixedTurns[0] List.mem_cons_self (eq_ok_of_isOk (List.head_eq_of_cons_eq hoks))
  have hpair := List.rel_of_pairwise_cons hapart (show mixedTurns[2] ∈ mixedTurns.tail by simp [mixedTurns])
  refine ⟨hturns, hafter, hoks, honce 4 (by decide) ?_, hline, fun line hl hx => ?_⟩
  · rw [show mixedTurns[0].after.next = 5 from List.head_eq_of_cons_eq hafter]
    decide
  · exact hpair.2 line hl _ hline "WHILELABEL7" hx (Or.inl rfl)

end JackToVm
