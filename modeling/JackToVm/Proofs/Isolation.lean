import JackToVm.Proofs.Batch
import JackToVm.Proofs.Points
import JackToVm.Proofs.Renumbering
import JackToVm.Proofs.Spelling
import JackToVm.Proofs.Streaming

/-!
Subroutines are compiled each on its own. Nothing that the pass knows of a subroutine is left when the next one
starts, but for the label counter. So the output of a class is that of its subroutines, one after the other, each
compiled in a class without the others (`output_of_solos`).
-/

namespace JackToVm

namespace Vm

/-- What a sink has when it took some code. -/
def bytesOf (code : List Instruction) : ByteArray :=
  (String.join (code.map Instruction.line)).toUTF8

theorem bytesOf_append (a b : List Instruction) : bytesOf (a ++ b) = bytesOf a ++ bytesOf b := by
  rw [bytesOf, List.map_append, String.join_append]
  exact String.toByteArray_append

theorem bytesOf_flatMap {α : Type} (f : α → List Instruction) (as : List α) :
    bytesOf (as.flatMap f) = (as.map fun a => bytesOf (f a)).foldr (· ++ ·) .empty := by
  induction as with
  | nil => rfl
  | cons a as ih => rw [List.flatMap_cons, bytesOf_append, ih, List.map_cons, List.foldr_cons]

end Vm

namespace Syntax

/-! ### A class for each subroutine -/

/-- Tells whether a member declares class variables. -/
def Member.isVariables : Member → Bool
  | .statics _ | .fields _ => true
  | .routine _ => false

/-- The class that has one subroutine of another class, and the class variables that stand in front of it there. -/
def Class.alone (c : Class) (front : List Member) (r : Routine) : Class where
  name := c.name
  members := front.filter Member.isVariables ++ [.routine r]

/-- The subroutines among members, each with all members in front of it. -/
def Member.splits (front : List Member) : List Member → List (List Member × Routine)
  | [] => []
  | .routine r :: ms => (front, r) :: splits (front ++ [.routine r]) ms
  | m :: ms => splits (front ++ [m]) ms

def Class.splits (c : Class) : List (List Member × Routine) :=
  Member.splits [] c.members

/-- A source is a text of a class. -/
def Class.IsText (c : Class) (source : String) : Prop :=
  ∃ tokens : List Token, Item.ofSource source = tokens.map .ok ∧ c.lexemes = tokens.map (·.lexeme)

namespace Member

theorem exists_back_of_mem_splits {front ms f : List Member} {r : Routine} (h : (f, r) ∈ splits front ms) :
    ∃ back, front ++ ms = f ++ .routine r :: back := by
  fun_induction splits front ms with
  | case1 => cases h
  | case2 front r' ms ih =>
    rcases List.mem_cons.mp h with h | h
    · cases h
      exact ⟨ms, rfl⟩
    · obtain ⟨back, hback⟩ := ih h
      exact ⟨back, by simpa using hback⟩
  | case3 front m ms _ ih =>
    obtain ⟨back, hback⟩ := ih h
    exact ⟨back, by simpa using hback⟩

/-- Each subroutine stands behind the members in front of it. -/
theorem place_eq_map_splits (k : Counting) (className : String) (front ms : List Member) (n : Nat) :
    place k className ms (({} : Scope).defineAll k (front.flatMap bindings)) (n + (front.map draws).sum) =
      (splits front ms).map fun p => p.2.behind k className p.1 {} n := by
  fun_induction splits front ms with
  | case1 => rfl
  | case2 front r ms ih =>
    rw [place, List.map_cons, ← ih]
    simp [Routine.behind, bindings, draws, Nat.add_assoc]
  | case3 front m ms hm ih =>
    rw [place, ← ih]
    · simp [draws_eq_zero hm]
    · exact hm

theorem place_filter (k : Counting) (className : String) (ms : List Member) (scope : Scope) (n : Nat) :
    place k className (ms.filter isVariables) scope n = [] := by
  induction ms generalizing scope with
  | nil => rfl
  | cons m ms ih => cases m <;> simp [List.filter_cons, isVariables, place, ih]

theorem flatMap_bindings_filter (ms : List Member) :
    (ms.filter isVariables).flatMap bindings = ms.flatMap bindings := by
  induction ms with
  | nil => rfl
  | cons m ms ih => cases m <;> simp [List.filter_cons, isVariables, bindings, ih]

theorem sum_draws_filter (ms : List Member) : ((ms.filter isVariables).map draws).sum = 0 := by
  induction ms with
  | nil => rfl
  | cons m ms ih => cases m <;> simp [List.filter_cons, isVariables, draws, ih]

end Member

namespace Class
variable {c : Class} {front back : List Member} {r : Routine}

theorem placed_eq_map_splits (c : Class) (k : Counting) (n : Nat) :
    c.placed k n = c.splits.map fun p => p.2.behind k c.name p.1 {} n :=
  Member.place_eq_map_splits k c.name [] c.members n

/-- Alone, a subroutine has the environment that it has in its class. -/
theorem placed_alone (c : Class) (front : List Member) (r : Routine) (k : Counting) (n : Nat) :
    (c.alone front r).placed k (n + (front.map Member.draws).sum) = [r.behind k c.name front {} n] := by
  rw [placed, alone, Member.place_append, Member.place_filter, Member.flatMap_bindings_filter,
    Member.sum_draws_filter]
  rfl

/-- No name is used as a variable that is none when this is so in each subroutine. -/
theorem uses_eq_nil_iff (n : Nat) :
    c.unbound.uses = [] ↔ ∀ u ∈ c.placed .wrapped n, u.routine.body.phrase.Bound u.environment := by
  refine ⟨fun h u hu => bound_of_mem_placed h hu, fun h => List.eq_nil_iff_forall_not_mem.mpr fun u hu => ?_⟩
  obtain ⟨front, r, back, v, hms, hv, hn, -⟩ := mem_uses_unbound.mp hu
  have hsome := Option.isSome_iff_ne_none.mp (h _ (mem_placed_behind hms .wrapped n) v hv)
  exact hsome hn

theorem uses_alone (hc : c.unbound.uses = []) (hms : c.members = front ++ .routine r :: back) :
    (c.alone front r).unbound.uses = [] := by
  rw [uses_eq_nil_iff (0 + (front.map Member.draws).sum), placed_alone]
  intro u hu
  rw [List.mem_singleton.mp hu]
  exact bound_of_mem_placed hc (mem_placed_behind hms .wrapped 0)

/-- The lexemes of a subroutine alone stand in its class too. -/
theorem mem_lexemes_of_alone (hms : c.members = front ++ .routine r :: back) {l : Lexeme}
    (h : l ∈ (c.alone front r).lexemes) : l ∈ c.lexemes := by
  have hjoin {ms : List Member} : l ∈ (Phrase.join Member.phrase ms).lexemes ↔ ∃ m ∈ ms, l ∈ m.phrase.lexemes := by
    induction ms with
    | nil => simp
    | cons m ms ih => simp [ih]
  simp only [lexemes, phrase, Phrase.lexemes_append, List.mem_append, hjoin] at h ⊢
  rcases h with (h | ⟨m, hm, hl⟩) | h
  · exact Or.inl (Or.inl h)
  · refine Or.inl (Or.inr ⟨m, ?_, hl⟩)
    rw [hms]
    rcases List.mem_append.mp hm with hm | hm
    · exact List.mem_append_left _ (List.mem_filter.mp hm).1
    · rw [List.mem_singleton.mp hm]
      exact List.mem_append_right _ List.mem_cons_self
  · exact Or.inr h

end Class

end Syntax

open Syntax

/-- A text is the text of one class. -/
theorem Syntax.Class.IsText.unique {c c' : Syntax.Class} {source : String} {tokens : List Token} (h : c.IsText source)
    (hi : Item.ofSource source = tokens.map .ok) (hl : c'.lexemes = tokens.map (·.lexeme)) : c' = c := by
  obtain ⟨tokens', hi', hl'⟩ := h
  refine Class.eq_of_lexemes ?_
  rw [hl, hl', map_lexeme_of_ok hi, map_lexeme_of_ok hi']

/-- A text of a class in which no name is used as a variable that is none compiles to the code of the class. -/
theorem compile_of_isText {c : Syntax.Class} {source : String} (hw : c.IsText source) (hc : c.unbound.uses = [])
    (n : Nat) : (compile source n).result = .ok () ∧ (compile source n).code = c.code .wrapped n := by
  have hm : Goal.MeetsAll Goal.ofClass { labels := { next := n } } _ _ := Goal.meetsAll_ofClass.mpr ⟨c, rfl, rfl⟩
  have hok : (compile source n).result = .ok () := by
    obtain ⟨tokens, hi, hl⟩ := hw
    rw [compile, hi]
    exact Goal.run_of_meetsAll _ Goal.separated_ofClass hm (by simpa using hl) hc
  obtain ⟨tokens', c', hi', hl', -, hcode⟩ := exists_tree_of_compile hok
  exact ⟨hok, hw.unique hi' hl' ▸ hcode⟩

/-! ### Turns of subroutines -/

/-- A turn in which a subroutine of a class is compiled alone: its source is a text of the class without the other
subroutines and without what stands behind it, and the label counter is where it is in front of the subroutine when
the whole class is compiled. -/
structure Syntax.Class.Solo (c : Syntax.Class) (source : String) (labels : Vm.Labels) (t : Turn) (front : List Member)
    (r : Routine) : Prop where
  split : ∃ back, c.members = front ++ .routine r :: back
  text : (c.alone front r).IsText t.job.source
  unlimited : t.job.limit? = none
  counter : ∃ (before after : List Token) (events : List Event) (s : State),
    Item.ofSource source = (before ++ after).map .ok ∧
    (Class.headPhrase c.name ++ Phrase.join Member.phrase front).lexemes = before.map (·.lexeme) ∧
    events <+: (compile source labels.next).trace ∧
    Goal.Reaches Goal.ofClass { labels } before events [.members] s ∧ t.before = s.labels

namespace Syntax.Class.Solo
variable {c : Syntax.Class} {source : String} {labels : Vm.Labels} {t : Turn} {front : List Member} {r : Routine}

theorem next_eq (h : c.Solo source labels t front r) (hc : c.unbound.uses = []) :
    t.before.next = labels.next + (front.map Member.draws).sum := by
  obtain ⟨back, hms⟩ := h.split
  obtain ⟨before, -, _, s, -, hl, -, hr, hbefore⟩ := h.counter
  obtain ⟨_, hfront⟩ := reaches_front hc hms hl labels.next
  obtain ⟨-, rfl⟩ := hr.unique hfront
  rw [hbefore, Member.next_leave]

/-- Alone, a subroutine compiles to the code that it has in its class. -/
theorem outcome_eq (h : c.Solo source labels t front r) (hc : c.unbound.uses = []) :
    t.outcome.result = .ok () ∧
      t.outcome.output = Vm.bytesOf ((r.behind .wrapped c.name front {} labels.next).code .wrapped) := by
  obtain ⟨back, hms⟩ := h.split
  obtain ⟨hok, hcode⟩ := compile_of_isText h.text (Class.uses_alone hc hms) t.before.next
  rw [Turn.outcome, h.unlimited, compileTo_none]
  refine ⟨hok, ?_⟩
  change Vm.bytesOf (compile t.job.source t.before.next).code = _
  rw [hcode, Class.code, h.next_eq hc, Class.placed_alone, List.flatMap_singleton]

end Syntax.Class.Solo

/-- Each subroutine of a class that compiles has its turn. -/
theorem exists_solo {c : Syntax.Class} {source : String} {labels : Vm.Labels} {front back : List Member} {r : Routine}
    (h : (compile source labels.next).result = .ok ()) (hw : c.IsText source)
    (hms : c.members = front ++ .routine r :: back) : ∃ t, c.Solo source labels t front r := by
  obtain ⟨tokens, c', hi, hl, hc, -, hrun⟩ := exists_run_of_compile h
  obtain ⟨tokens', hi', hl'⟩ := hw
  obtain rfl : c' = c := Class.eq_of_lexemes (by rw [hl, hl', map_lexeme_of_ok hi, map_lexeme_of_ok hi'])
  have hspelled : ∀ l ∈ (c'.alone front r).lexemes, ∃ text, Piece.Spells text l := by
    intro l hmem
    have hmem := Class.mem_lexemes_of_alone hms hmem
    rw [hl] at hmem
    obtain ⟨t, ht, rfl⟩ := List.mem_map.mp hmem
    have hok : .ok t ∈ Item.ofSource source := by
      rw [hi]
      exact List.mem_map_of_mem ht
    exact Item.spells_of_mem_ofSource hok
  obtain ⟨alone, htext⟩ := exists_source_of_lexemes hspelled
  have hlexemes : c'.lexemes = (Class.headPhrase c'.name ++ Phrase.join Member.phrase front).lexemes ++
      (Phrase.join Member.phrase (.routine r :: back) ++ .symbol .rightBrace).lexemes := by
    simp [Class.lexemes, Class.phrase, hms]
  rw [hl] at hlexemes
  obtain ⟨before, after, rfl, hbefore, -⟩ := List.map_eq_append_iff.mp hlexemes
  obtain ⟨agenda, s, events, more, hr, -, htrace⟩ := hrun.split
  obtain ⟨_, hfront⟩ := reaches_front hc hms hbefore.symm labels.next
  obtain ⟨rfl, -⟩ := hr.unique hfront
  exact ⟨{ job := { source := alone }, before := s.labels }, ⟨back, hms⟩, htext, rfl,
    before, after, events, s, hi, hbefore.symm, ⟨more, htrace.symm⟩, hr, rfl⟩

/-- The turns of all subroutines of a class. -/
abbrev Syntax.Class.Solos (c : Syntax.Class) (source : String) (labels : Vm.Labels) (turns : List Turn) : Prop :=
  List.Forall₂ (fun t p => c.Solo source labels t p.1 p.2) turns c.splits

theorem exists_solos {c : Syntax.Class} {source : String} {labels : Vm.Labels}
    (h : (compile source labels.next).result = .ok ()) (hw : c.IsText source) :
    ∃ turns, c.Solos source labels turns := by
  have hsolo : ∀ p ∈ c.splits, ∃ t, c.Solo source labels t p.1 p.2 := by
    intro p hp
    obtain ⟨back, hms⟩ := Member.exists_back_of_mem_splits hp
    exact exists_solo h hw hms
  unfold Class.Solos
  generalize c.splits = ps at hsolo ⊢
  induction ps with
  | nil => exact ⟨[], .nil⟩
  | cons p ps ih =>
    rw [List.forall_mem_cons] at hsolo
    obtain ⟨⟨t, ht⟩, hrest⟩ := hsolo
    obtain ⟨turns, hturns⟩ := ih hrest
    exact ⟨t :: turns, .cons ht hturns⟩

/-- The turns of all subroutines succeed, and each of them gives the code of its subroutine. -/
theorem Syntax.Class.Solos.outcomes {c : Syntax.Class} {source : String} {labels : Vm.Labels} {turns : List Turn}
    (h : c.Solos source labels turns) (hc : c.unbound.uses = []) :
    (∀ t ∈ turns, t.outcome.result = .ok ()) ∧
      turns.map (·.outcome.output) =
        c.splits.map fun p => Vm.bytesOf ((p.2.behind .wrapped c.name p.1 {} labels.next).code .wrapped) := by
  unfold Class.Solos at h
  generalize c.splits = ps at h ⊢
  induction h with
  | nil => exact ⟨List.forall_mem_nil _, rfl⟩
  | cons hsolo _ ih =>
    obtain ⟨hok, houtput⟩ := hsolo.outcome_eq hc
    refine ⟨List.forall_mem_cons.mpr ⟨hok, ih.1⟩, ?_⟩
    rw [List.map_cons, List.map_cons, houtput, ih.2]

/-- Two turns with texts of one class give the same lines, but for the numbers of labels. -/
theorem renumbered_of_isText {c : Syntax.Class} {t t' : Turn} (hc : c.unbound.uses = [])
    (ht : c.IsText t.job.source) (ht' : c.IsText t'.job.source) (hu : t.job.limit? = none)
    (hu' : t'.job.limit? = none) :
    ∃ n, List.Forall₂ (Vm.Renumbered t.before.next t'.before.next n) (Vm.linesOf t.outcome.output)
      (Vm.linesOf t'.outcome.output) := by
  obtain ⟨⟨n, hn⟩, -⟩ := compile_twins t.job.source t.before.next t'.before.next
  have hsame : (compile t'.job.source t'.before.next).code = (compile t.job.source t'.before.next).code := by
    rw [(compile_of_isText ht hc _).2, (compile_of_isText ht' hc _).2]
  rw [Turn.outcome, Turn.outcome, hu, hu', linesOf_compileTo_none, linesOf_compileTo_none, hsame]
  exact ⟨n, hn.renumbered⟩

/-! ### The output of a class -/

/-- Isolation: a class that compiles has one turn for each of its subroutines, in which the subroutine is compiled
alone. In whatever layout this is done, each of the turns succeeds, and the output of the class is the outputs of its
subroutines, one after the other. In another class of that name with the same class variables in front of a subroutine,
whatever else there is in it, the code of the subroutine is the same but for the numbers of its labels. -/
theorem output_of_solos (source : String) (labels : Vm.Labels)
    (h : (compileTo source none labels).result = .ok ()) :
    ∃ c : Syntax.Class, c.IsText source ∧ (∃ turns, c.Solos source labels turns) ∧
      (∀ turns, c.Solos source labels turns →
        (∀ t ∈ turns, t.outcome.result = .ok ()) ∧
        (compileTo source none labels).output = (turns.map (·.outcome.output)).foldr (· ++ ·) .empty) ∧
      ∀ (source' : String) (labels' : Vm.Labels) (c' : Syntax.Class), c'.name = c.name →
        ∀ front front' r t t', front'.filter Member.isVariables = front.filter Member.isVariables →
          c.Solo source labels t front r → c'.Solo source' labels' t' front' r →
          ∃ n, List.Forall₂ (Vm.Renumbered t.before.next t'.before.next n) (Vm.linesOf t.outcome.output)
            (Vm.linesOf t'.outcome.output) := by
  rw [compileTo_none] at h
  obtain ⟨tokens, c, hi, hl, hc, hcode⟩ := exists_tree_of_compile h
  have hw : c.IsText source := ⟨tokens, hi, hl⟩
  refine ⟨c, hw, exists_solos h hw, fun turns hturns => ?_, ?_⟩
  · obtain ⟨hok, houtputs⟩ := hturns.outcomes hc
    refine ⟨hok, ?_⟩
    have hall : c.code .wrapped labels.next =
        c.splits.flatMap fun p => (p.2.behind .wrapped c.name p.1 {} labels.next).code .wrapped := by
      rw [Class.code, c.placed_eq_map_splits, List.flatMap_map]
    rw [houtputs, ← Vm.bytesOf_flatMap, ← hall, ← hcode, compileTo_none]
    rfl
  · intro source' labels' c' hname front front' r t t' hfront hsolo hsolo'
    obtain ⟨back, hms⟩ := hsolo.split
    have halone : c'.alone front' r = c.alone front r := by rw [Class.alone, Class.alone, hname, hfront]
    exact renumbered_of_isText (Class.uses_alone hc hms) hsolo.text (halone ▸ hsolo'.text) hsolo.unlimited
      hsolo'.unlimited

/-- A class in which a variable is declared between two subroutines that both draw label numbers. -/
def pairSource : String :=
  "class P { field int x; method int get() { if (x) { } return x; } static int n; function void f() { while (n) { } } }"

def pairField : Member :=
  .fields { type := .int, first := "x", more := [] }

def pairStatic : Member :=
  .statics { type := .int, first := "n", more := [] }

def pairMethod : Routine where
  kind := .method
  result? := some .int
  name := "get"
  parameters := []
  locals := []
  body := .cons (.if_ (.of (.read "x") .none) .nil) (.cons (.returnValue (.of (.read "x") .none)) .nil)

def pairFunction : Routine where
  kind := .function
  result? := none
  name := "f"
  parameters := []
  locals := []
  body := .cons (.while_ (.of (.read "n") .none) .nil) .nil

def pairClass : Syntax.Class where
  name := "P"
  members := [pairField, .routine pairMethod, pairStatic, .routine pairFunction]

/-- The function is compiled in a class with both variables, and its labels start behind those of the method. -/
theorem output_of_solos_pair :
    (pairClass.alone [pairField, .routine pairMethod, pairStatic] pairFunction).members =
        [pairField, pairStatic, .routine pairFunction] ∧
      ∃ t u : Turn, pairClass.Solo pairSource {} t [pairField] pairMethod ∧
        pairClass.Solo pairSource {} u [pairField, .routine pairMethod, pairStatic] pairFunction ∧
        t.before.next = 0 ∧ u.before.next = 2 ∧ t.outcome.result = .ok () ∧ u.outcome.result = .ok () ∧
        (compileTo pairSource none {}).output = t.outcome.output ++ (u.outcome.output ++ .empty) := by
  have hrun : (compileTo pairSource none {}).result.isOk = true ∧
      (Item.ofSource pairSource).map Item.reading = pairClass.lexemes.map .lexeme ∧ pairClass.unbound.uses = [] := by
    decide +kernel
  obtain ⟨hok, hreadings, hc⟩ := hrun
  obtain ⟨c, ⟨tokens, hi, hl⟩, ⟨turns, hturns⟩, hall, -⟩ := output_of_solos pairSource {} (eq_ok_of_isOk hok)
  obtain ⟨tokens', hi', hl'⟩ := Item.exists_tokens_of_reading hreadings
  obtain rfl : c = pairClass := Class.eq_of_lexemes (by rw [hl, hl', map_lexeme_of_ok hi, map_lexeme_of_ok hi'])
  obtain ⟨hresults, houtput⟩ := hall turns hturns
  rcases hturns with _ | ⟨ht, _ | ⟨hu, _ | _⟩⟩
  simp only [List.forall_mem_cons] at hresults
  exact ⟨rfl, _, _, ht, hu, ht.next_eq hc, hu.next_eq hc, hresults.1, hresults.2.1, houtput⟩

end JackToVm
