import JackToVm.Proofs.Delivery
import JackToVm.Proofs.Lexing
import JackToVm.Proofs.Parallel

/-!
The pass goes forward. What it does on the first items of a source depends on what these items are, not on their
places and not on what follows them. So a source that goes on where another one ends has the output of the other
one at its front (`compileTo_forward`), and blanks and comments do not change the output (`compileTo_layout`).
-/

namespace JackToVm

/-! ### Items without their places -/

namespace Item

/-- The spans of two items, each of which is as far from the start of its list as the other. -/
def Aligned (items items' : List Item) (p q : Span) : Prop :=
  ∃ (k : Nat) (item item' : Item), items[k]? = some item ∧ items'[k]? = some item' ∧ p = item.span ∧ q = item'.span

theorem twins_of_reading {R : Span → Span → Prop} {item item' : Item} (h : item.reading = item'.reading)
    (hR : R item.span item'.span) : item.Twins R item' := by
  cases item with
  | ok t =>
    cases item' with
    | ok u => exact .ok ⟨Reading.lexeme.inj h, hR⟩
    | error e => cases h
  | error e =>
    cases item' with
    | ok u => cases h
    | error f =>
      obtain ⟨cause, p⟩ := e
      obtain ⟨cause', q⟩ := f
      obtain rfl : cause = cause' := Reading.fault.inj h
      exact .error hR

/-- Items that are the first ones of a longer list, but for their places. -/
theorem exists_twins_of_prefix {items items' : List Item} (h : items.map reading <+: items'.map reading) :
    ∃ front back, items' = front ++ back ∧ List.Forall₂ (Twins (Aligned items items')) items front := by
  obtain ⟨rest, hrest⟩ := h
  obtain ⟨front, back, rfl, hfront, -⟩ := List.map_eq_append_iff.mp hrest.symm
  refine ⟨front, back, rfl, List.forall₂_iff_get.mpr ⟨?_, fun k hk hk' => ?_⟩⟩
  · simpa using (congrArg List.length hfront).symm
  · have hreading : (items.map reading)[k]? = (front.map reading)[k]? := by rw [hfront]
    simp only [List.getElem?_map, List.getElem?_eq_getElem hk, List.getElem?_eq_getElem hk', Option.map_some,
      Option.some.injEq] at hreading
    refine twins_of_reading hreading ⟨k, _, _, List.getElem?_eq_getElem hk, ?_, rfl, rfl⟩
    rw [List.getElem?_append_left hk']
    exact List.getElem?_eq_getElem hk'

end Item

/-! ### Two sources -/

theorem Vm.Instruction.Twins.eq {a m : Nat} {i j : Vm.Instruction} (h : i.Twins a a m j) : i = j := by
  have hlabel {x y : String} (hxy : Vm.Labels.Twins a a m x y) : x = y := by
    obtain ⟨k, -, ⟨rfl, rfl⟩ | ⟨rfl, rfl⟩⟩ := hxy <;> rfl
  cases h with
  | same _ => rfl
  | label h => rw [hlabel h]
  | goto h => rw [hlabel h]
  | ifGoto h => rw [hlabel h]

/-- Runs whose labels start with the same number do the same. -/
theorem Event.Twins.eq {a m n : Nat} {events events' : List Event} (h : Event.Twins a a m events events' n) :
    events = events' := by
  induction h with
  | nil => rfl
  | wrote h _ ih => rw [h.eq, ih]
  | drew _ ih => rw [ih]
  | enteredClass _ _ ih => rw [ih]
  | enteredRoutine _ _ _ _ ih => rw [ih]

/-- A run over more items starts with what the run over the first of them does. It is the same run when that one
fails, unless it fails for want of items. -/
theorem Goal.run_append (finish finish' : Span) (items more : List Item) (agenda : List Goal) (s : State) :
    (run finish #[] items agenda s).trace <+: (run finish' #[] (items ++ more) agenda s).trace ∧
      ∀ e, (run finish #[] items agenda s).result = .error e → (∀ span, e ≠ .endOfInput span) →
        run finish' #[] (items ++ more) agenda s = run finish #[] items agenda s := by
  induction items generalizing agenda s with
  | nil =>
    cases agenda with
    | nil =>
      refine ⟨List.nil_prefix, fun e he => ?_⟩
      cases he
    | cons g agenda =>
      refine ⟨List.nil_prefix, fun e he hne => ?_⟩
      cases he
      exact absurd rfl (hne finish)
  | cons item items ih =>
    cases item with
    | error e => exact ⟨List.nil_prefix, fun _ _ _ => rfl⟩
    | ok t =>
      rw [List.cons_append]
      simp only [run]
      cases settle t #[] agenda s with
      | mk outcome events =>
        cases outcome with
        | error e => exact ⟨List.prefix_refl _, fun _ _ _ => rfl⟩
        | ok next =>
          obtain ⟨htrace, hsame⟩ := ih next.1 next.2
          simp only
          rw [run_eq_append finish, run_eq_append finish']
          refine ⟨(List.prefix_append_right_inj _).mpr htrace, fun e he hne => ?_⟩
          rw [hsame e he hne]

/-- The runs over two sources of which the second one goes on where the first one ends: up to there they do the
same, and they both end for want of items or with the same result. -/
theorem exists_run_of_prefix {p s : String}
    (h : (Item.ofSource p).map Item.reading <+: (Item.ofSource s).map Item.reading) (n : Nat) :
    ∃ front back, Item.ofSource s = front ++ back ∧ front.length = (Item.ofSource p).length ∧
      (compile p n).trace =
        (Goal.run (.atEnd s) #[] front Goal.ofClass { labels := { next := n } }).trace ∧
      ((compile p n).result = .error (.endOfInput (.atEnd p)) ∧
          (Goal.run (.atEnd s) #[] front Goal.ofClass { labels := { next := n } }).result =
            .error (.endOfInput (.atEnd s)) ∨
        ResultTwins (Item.Aligned (Item.ofSource p) (Item.ofSource s)) (compile p n).result
          (Goal.run (.atEnd s) #[] front Goal.ofClass { labels := { next := n } }).result) := by
  obtain ⟨front, back, hs, hi⟩ := Item.exists_twins_of_prefix h
  have hagenda : Goal.AllTwins (Item.Aligned (Item.ofSource p) (Item.ofSource s)) n n 0 Goal.ofClass Goal.ofClass :=
    .of_plain (by simp [Goal.ofClass, Goal.isPlain])
  obtain ⟨⟨_, htrace⟩, hresult⟩ :=
    Goal.run_twins (.atEnd p) (.atEnd s) hi hagenda (State.Twins.mk "" {} {})
  exact ⟨front, back, hs, hi.length_eq.symm, htrace.eq, hresult⟩

open Event (textOf drawsOf textOf_append drawsOf_append)

/-- What comes of a class when the sink has no limit. -/
theorem compileTo_none (source : String) (labels : Vm.Labels) :
    compileTo source none labels =
      { output := (textOf (compile source labels.next).trace).toUTF8
        result := (compile source labels.next).result
        labels := { next := labels.next + drawsOf (compile source labels.next).trace } } :=
  Outcome.ext (Compilation.bytes_deliver_none ..) (Compilation.resultAfter_deliver_none ..)
    (congrArg Vm.Labels.mk (Compilation.next_deliver_none ..))

/-! ### Reading on -/

/-- Streaming: when the items of a source are, but for their places, the first items of another one, its output is
the front of the output of the other one, and no more label numbers are drawn. When it fails, and not because it
ends too early, the other source fails with the same error in the corresponding item, and has the same output. -/
theorem compileTo_forward {p s : String}
    (h : (Item.ofSource p).map Item.reading <+: (Item.ofSource s).map Item.reading) (labels : Vm.Labels) :
    (∃ more, (compileTo s none labels).output = (compileTo p none labels).output ++ more) ∧
    (compileTo p none labels).labels.next ≤ (compileTo s none labels).labels.next ∧
    ∀ e, (compileTo p none labels).result = .error e → (∀ span, e ≠ .endOfInput span) →
      (compileTo s none labels).output = (compileTo p none labels).output ∧
      (compileTo s none labels).labels = (compileTo p none labels).labels ∧
      ∃ f, (compileTo s none labels).result = .error f ∧
        e.Twins (Item.Aligned (Item.ofSource p) (Item.ofSource s)) f := by
  simp only [compileTo_none]
  obtain ⟨front, back, hs, -, htrace, hresult⟩ := exists_run_of_prefix h labels.next
  obtain ⟨hfront, hsame⟩ := Goal.run_append (.atEnd s) (.atEnd s) front back Goal.ofClass { labels }
  rw [← hs] at hfront hsame
  change _ <+: (compile s labels.next).trace at hfront
  rw [← htrace] at hfront
  obtain ⟨more, hmore⟩ := hfront
  refine ⟨⟨(textOf more).toUTF8, ?_⟩, ?_, fun e he hne => ?_⟩
  · rw [← hmore, textOf_append]
    exact String.toByteArray_append
  · rw [← hmore, drawsOf_append]
    omega
  · rcases hresult with ⟨hp, -⟩ | hresult
    · rw [hp] at he
      cases he
      exact absurd rfl (hne _)
    · rw [he] at hresult
      generalize hr : (Goal.run (.atEnd s) #[] front Goal.ofClass { labels }).result = r at hresult
      cases hresult with
      | @error _ f hf =>
        have hnot : ∀ span, f ≠ .endOfInput span := by
          rintro span rfl
          cases hf
          exact hne _ rfl
        have hall : compile s labels.next = _ := hsame f hr hnot
        rw [hall, htrace]
        exact ⟨rfl, rfl, f, hr, hf⟩

/-- A class that is read up to a variable that is none, inside a loop. -/
def haltedSource : String :=
  "class A \x7b function void f() \x7b while (1) \x7b let y ="

/-- The same tokens in other places, and the rest of the class. -/
def resumedSource : String :=
  "class A \x7b\n  function void f() \x7b // loops\n    while (1) \x7b let y = 2; \x7d\n  \x7d\n\x7d"

/-- What stands behind the unknown name does not matter: it is reported, and no more than the head of the loop is
written. -/
theorem compileTo_forward_halted :
    (Item.ofSource haltedSource).map Item.reading <+: (Item.ofSource resumedSource).map Item.reading ∧
      (compileTo haltedSource none {}).output =
        "function A.f 0\nlabel WHILELABEL0\npush constant 1\nnot\nif-goto WHILELABEL1\n".toUTF8 ∧
      (compileTo resumedSource none {}).output = (compileTo haltedSource none {}).output ∧
      (compileTo resumedSource none {}).labels.next = 2 ∧
      ∃ f, (compileTo resumedSource none {}).result = .error f ∧
        CompileError.Twins (Item.Aligned (Item.ofSource haltedSource) (Item.ofSource resumedSource))
          (.undefined "y" { start := 46, stop := 47, line := 1, column := 47 }) f := by
  have hrun : (Item.ofSource haltedSource).map Item.reading <+: (Item.ofSource resumedSource).map Item.reading ∧
      (compileTo haltedSource none {}).output =
        "function A.f 0\nlabel WHILELABEL0\npush constant 1\nnot\nif-goto WHILELABEL1\n".toUTF8 ∧
      (compileTo haltedSource none {}).labels.next = 2 ∧
      (compileTo haltedSource none {}).result =
        .error (.undefined "y" { start := 46, stop := 47, line := 1, column := 47 }) := by
    decide +kernel
  obtain ⟨hitems, houtput, hnext, hresult⟩ := hrun
  obtain ⟨-, -, hfails⟩ := compileTo_forward hitems {}
  obtain ⟨hsame, hlabels, herror⟩ := hfails _ hresult nofun
  exact ⟨hitems, houtput, hsame, hlabels ▸ hnext, herror⟩

/-! ### Other places -/

/-- Layout: sources whose pieces are the same but for the gaps, which are blanks and comments, have the same items
in other places. Sources with the same items have the same output and draw as many label numbers. Both compile, or
both end too early, or both fail with the same error in items that correspond. -/
theorem compileTo_layout (p s : String) :
    ((Piece.split p.toList).filter (·.reading ≠ .gap) = (Piece.split s.toList).filter (·.reading ≠ .gap) →
      (Item.ofSource p).map Item.reading = (Item.ofSource s).map Item.reading) ∧
    ((Item.ofSource p).map Item.reading = (Item.ofSource s).map Item.reading → ∀ labels : Vm.Labels,
      (compileTo p none labels).output = (compileTo s none labels).output ∧
      (compileTo p none labels).labels = (compileTo s none labels).labels ∧
      ((compileTo p none labels).result = .ok () ∧ (compileTo s none labels).result = .ok () ∨
        (compileTo p none labels).result = .error (.endOfInput (.atEnd p)) ∧
          (compileTo s none labels).result = .error (.endOfInput (.atEnd s)) ∨
        ∃ e f, (compileTo p none labels).result = .error e ∧ (compileTo s none labels).result = .error f ∧
          e.Twins (Item.Aligned (Item.ofSource p) (Item.ofSource s)) f)) := by
  constructor
  · intro h
    have hmap := congrArg (List.map Piece.reading) h
    rw [Item.map_reading_ofSource, Item.map_reading_ofSource, Piece.readings, Piece.readings, List.filter_map,
      List.filter_map]
    exact hmap
  · intro h labels
    simp only [compileTo_none]
    obtain ⟨front, back, hs, hlength, htrace, hresult⟩ :=
      exists_run_of_prefix (p := p) (s := s) ⟨[], by rw [List.append_nil, h]⟩ labels.next
    -- The second source has no items behind those of the first one.
    have hback : back = [] := by
      have hcount := congrArg List.length h
      rw [List.length_map, List.length_map, hs, List.length_append] at hcount
      exact List.eq_nil_of_length_eq_zero (by omega)
    rw [hback, List.append_nil] at hs
    rw [← hs] at htrace hresult
    have htrace : (compile p labels.next).trace = (compile s labels.next).trace := htrace
    rw [htrace]
    refine ⟨rfl, rfl, ?_⟩
    rcases hresult with ⟨hp, hs⟩ | hresult
    · exact Or.inr (Or.inl ⟨hp, hs⟩)
    · change ResultTwins _ _ (compile s labels.next).result at hresult
      generalize (compile p labels.next).result = x at hresult ⊢
      generalize (compile s labels.next).result = y at hresult ⊢
      cases hresult with
      | ok => exact Or.inl ⟨rfl, rfl⟩
      | error hef => exact Or.inr (Or.inr ⟨_, _, rfl, rfl, hef⟩)

/-- A class with a wrong token in it. -/
def crampedSource : String :=
  "class A{function int f(){return 1+;}}"

/-- The same class with blanks and comments in it. -/
def spaciousSource : String :=
  "/* A\n */ class A \x7b\n  function int f() \x7b // one\n    return 1 + ;\n  \x7d\n\x7d\n"

/-- Both fail in front of the semicolon, which is the thirteenth token of both. -/
theorem compileTo_layout_spacious :
    (Piece.split crampedSource.toList).filter (·.reading ≠ .gap) =
        (Piece.split spaciousSource.toList).filter (·.reading ≠ .gap) ∧
      (compileTo crampedSource none {}).result.isOk = false ∧
      (compileTo crampedSource none {}).output = (compileTo spaciousSource none {}).output ∧
      ∃ e f, (compileTo crampedSource none {}).result = .error e ∧
        (compileTo spaciousSource none {}).result = .error f ∧
        e.Twins (Item.Aligned (Item.ofSource crampedSource) (Item.ofSource spaciousSource)) f := by
  have hrun : (Piece.split crampedSource.toList).filter (·.reading ≠ .gap) =
        (Piece.split spaciousSource.toList).filter (·.reading ≠ .gap) ∧
      (compileTo crampedSource none {}).result.isOk = false ∧
      (compileTo crampedSource none {}).result ≠ .error (.endOfInput (.atEnd crampedSource)) := by
    decide +kernel
  obtain ⟨hpieces, hfails, hend⟩ := hrun
  obtain ⟨hitems, hsame⟩ := compileTo_layout crampedSource spaciousSource
  obtain ⟨houtput, -, hresult⟩ := hsame (hitems hpieces) {}
  refine ⟨hpieces, hfails, houtput, ?_⟩
  rcases hresult with ⟨hok, -⟩ | ⟨hshort, -⟩ | herror
  · rw [hok] at hfails
    cases hfails
  · exact absurd hshort hend
  · exact herror

end JackToVm
