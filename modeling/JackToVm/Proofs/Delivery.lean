import JackToVm.Proofs.Refinement

/-!
What reaches a sink that may be too small. As long as the lines fit, all that the pass does happens. The first
line that does not fit fills the sink, and behind it nothing is written and no label number is drawn
(`Compilation.ends_deliver`). So the sink has the first bytes of the whole output, and it is the output that
fails, unless all of it fits.
-/

namespace JackToVm

/-! ### What comes of a class -/

/-- What comes of compiling a class into a sink: the bytes written, the result and the label counter. -/
@[ext] structure Outcome where
  output : ByteArray
  result : Except CompileError Unit
  labels : Vm.Labels

/-- Compiles a class into a sink of its own. The label numbers start where the counter stands. -/
def compileTo (source : String) (limit? : Option Nat) (labels : Vm.Labels) : Outcome :=
  let c := compile source labels.next
  let d := c.deliver limit? labels
  { output := d.sink.bytes, result := c.resultAfter d, labels := d.labels }

namespace Event

/-- The text that events write. -/
def textOf (events : List Event) : String :=
  String.join ((events.filterMap instruction?).map Vm.Instruction.line)

/-- How many label numbers are drawn in events. -/
def drawsOf (events : List Event) : Nat :=
  events.countP isDraw

@[simp] theorem textOf_nil : textOf [] = "" := rfl

@[simp] theorem drawsOf_nil : drawsOf [] = 0 := rfl

theorem textOf_append (a b : List Event) : textOf (a ++ b) = textOf a ++ textOf b := by
  simp [textOf, String.join_append]

theorem drawsOf_append (a b : List Event) : drawsOf (a ++ b) = drawsOf a + drawsOf b :=
  List.countP_append

theorem textOf_wrote (i : Vm.Instruction) : textOf [.wrote i] = i.line := by
  simp [textOf]

theorem textOf_silent {event : Event} (h : event.instruction? = none) : textOf [event] = "" := by
  rw [textOf, List.filterMap_cons_none h]
  rfl

end Event

namespace Delivery
open Event (textOf textOf_append textOf_wrote textOf_silent drawsOf drawsOf_append)

/-! ### Events that fit -/

/-- From one delivery to the other, all of the events happen and the sink takes what they write. -/
structure Took (d : Delivery) (events : List Event) (d' : Delivery) : Prop where
  refused : d'.refused = false
  limit? : d'.sink.limit? = d.sink.limit?
  bytes : d'.sink.bytes = d.sink.bytes ++ (textOf events).toUTF8
  next : d'.labels.next = d.labels.next + drawsOf events
  fits : ∀ limit, d.sink.limit? = some limit → d.sink.bytes.size ≤ limit → d'.sink.bytes.size ≤ limit

variable {d d' d'' : Delivery}

theorem Took.refl (h : d.refused = false) : Took d [] d :=
  ⟨h, rfl, by simp, rfl, fun _ _ hs => hs⟩

theorem Took.trans {a b : List Event} (ha : Took d a d') (hb : Took d' b d'') : Took d (a ++ b) d'' where
  refused := hb.refused
  limit? := hb.limit?.trans ha.limit?
  bytes := by
    rw [hb.bytes, ha.bytes, textOf_append, ByteArray.append_assoc]
    exact congrArg _ String.toByteArray_append.symm
  next := by rw [hb.next, ha.next, drawsOf_append, Nat.add_assoc]
  fits := fun limit hl hs => hb.fits limit (ha.limit?.trans hl) (ha.fits limit hl hs)

/-- A line that there is room for is taken. -/
theorem took_wrote {i : Vm.Instruction} (hr : d.refused = false)
    (h : d.sink.hasRoom i.line.utf8ByteSize = true) : Took d [.wrote i] (d.step (.wrote i)) := by
  obtain ⟨sink, labels, heard, refused⟩ := d
  obtain rfl : refused = false := hr
  have hstep : Delivery.step { sink, labels, heard, refused := false } (.wrote i) =
      { sink := sink.write i.line, labels, heard := heard.push (.wrote i), refused := false } := by
    simp only [Delivery.step, h, if_true, Bool.false_eq_true, if_false]
  rw [hstep]
  refine ⟨rfl, Vm.Sink.limit?_write .., ?_, rfl, ?_⟩
  · rw [textOf_wrote]
    exact Vm.Sink.bytes_write_of_hasRoom h
  · intro limit hl _
    simp only [Vm.Sink.hasRoom, show sink.limit? = some limit from hl, decide_eq_true_eq] at h
    rw [Vm.Sink.bytes_write_of_hasRoom (by simpa [Vm.Sink.hasRoom, show sink.limit? = some limit from hl] using h),
      ByteArray.size_append]
    exact h

/-- An event happens, unless it is a line without room. -/
theorem took_or_not_hasRoom (hr : d.refused = false) (event : Event) :
    Took d [event] (d.step event) ∨ ∃ i, event = .wrote i ∧ d.sink.hasRoom i.line.utf8ByteSize = false := by
  have hsilent (h : event.instruction? = none) : d.sink.bytes = d.sink.bytes ++ (textOf [event]).toUTF8 := by
    rw [textOf_silent h]
    simp
  cases event with
  | wrote i =>
    cases h : d.sink.hasRoom i.line.utf8ByteSize with
    | true => exact Or.inl (took_wrote hr h)
    | false => exact Or.inr ⟨i, rfl, h⟩
  | _ =>
    obtain ⟨sink, labels, heard, refused⟩ := d
    obtain rfl : refused = false := hr
    exact Or.inl ⟨rfl, rfl, hsilent rfl, rfl, fun _ _ hs => hs⟩

/-- A line that is refused fills the sink up to its limit. -/
theorem step_of_not_hasRoom {i : Vm.Instruction} (hr : d.refused = false)
    (h : d.sink.hasRoom i.line.utf8ByteSize = false) :
    (d.step (.wrote i)).refused = true ∧ (d.step (.wrote i)).labels = d.labels ∧
      (d.step (.wrote i)).sink.bytes = (d.sink.write i.line).bytes := by
  obtain ⟨sink, labels, heard, refused⟩ := d
  obtain rfl : refused = false := hr
  have hstep : Delivery.step { sink, labels, heard, refused := false } (.wrote i) =
      { sink := sink.write i.line, labels, heard := heard.push (.wrote i), refused := true } := by
    simp only [Delivery.step, h, Bool.false_eq_true, if_false]
  rw [hstep]
  exact ⟨rfl, rfl, rfl⟩

/-- Behind a line that was refused nothing happens. -/
theorem foldl_step_of_refused (h : d.refused = true) (events : List Event) : events.foldl step d = d := by
  induction events with
  | nil => rfl
  | cons event events ih =>
    obtain ⟨sink, labels, heard, refused⟩ := d
    obtain rfl : refused = true := h
    exact ih

/-- All of the events fit, or there is no room for a line of them and the events in front of it fit. -/
theorem foldl_step_cases (hr : d.refused = false) (events : List Event) :
    Took d events (events.foldl step d) ∨
      ∃ front i back d', events = front ++ .wrote i :: back ∧ Took d front d' ∧
        d'.sink.hasRoom i.line.utf8ByteSize = false ∧ events.foldl step d = d'.step (.wrote i) := by
  induction events generalizing d with
  | nil => exact Or.inl (.refl hr)
  | cons event events ih =>
    rcases took_or_not_hasRoom hr event with h | ⟨i, rfl, hroom⟩
    · rcases ih h.refused with hrest | ⟨front, i, back, d', hsplit, hfront, hroom, hfold⟩
      · exact Or.inl (h.trans hrest)
      · exact Or.inr ⟨event :: front, i, back, d', by rw [hsplit, List.cons_append], h.trans hfront, hroom, hfold⟩
    · refine Or.inr ⟨[], i, events, d, rfl, .refl hr, hroom, foldl_step_of_refused ?_ events⟩
      exact (step_of_not_hasRoom hr hroom).1

end Delivery

/-! ### Whole and cut outputs -/

open Event (textOf drawsOf drawsOf_append)

/-- How a delivery ends. -/
inductive Delivery.Ends (c : Compilation) (limit? : Option Nat) (labels : Vm.Labels) (d : Delivery) : Prop where
  /-- All that the pass did has happened. -/
  | whole (refused : d.refused = false) (bytes : d.sink.bytes = c.text.toUTF8)
      (next : d.labels.next = labels.next + c.draws)
      (fits : ∀ limit, limit? = some limit → c.text.utf8ByteSize ≤ limit)
  /-- There was no room for a line, and only what the pass did in front of it has happened. -/
  | cut {limit : Nat} {front back : List Event} {i : Vm.Instruction} (limited : limit? = some limit)
      (split : c.trace = front ++ .wrote i :: back) (refused : d.refused = true)
      (bytes : d.sink.bytes = (textOf front ++ i.line).toUTF8.extract 0 limit)
      (next : d.labels.next = labels.next + drawsOf front) (fits : (textOf front).utf8ByteSize ≤ limit)
      (full : limit < (textOf front ++ i.line).utf8ByteSize)

namespace Compilation
variable (c : Compilation) (labels : Vm.Labels)

theorem ends_deliver (limit? : Option Nat) : Delivery.Ends c limit? labels (c.deliver limit? labels) := by
  have hempty : ∀ {d : Delivery} {events : List Event}, Delivery.Took { sink := { limit? }, labels } events d →
      d.sink.bytes = (textOf events).toUTF8 ∧
        ∀ limit, limit? = some limit → (textOf events).utf8ByteSize ≤ limit := by
    intro d events h
    have hbytes : d.sink.bytes = (textOf events).toUTF8 := by simpa using h.bytes
    refine ⟨hbytes, fun limit hl => ?_⟩
    have hfits := h.fits limit hl (Nat.zero_le _)
    rwa [hbytes] at hfits
  rcases Delivery.foldl_step_cases (d := { sink := { limit? }, labels }) rfl c.trace with
    h | ⟨front, i, back, d, hsplit, hfront, hroom, hfold⟩
  · exact .whole h.refused (hempty h).1 h.next (hempty h).2
  · obtain ⟨hbytes, hfits⟩ := hempty hfront
    obtain ⟨hrefused, hlabels, hwrite⟩ := Delivery.step_of_not_hasRoom hfront.refused hroom
    have hd : c.deliver limit? labels = d.step (.wrote i) := hfold
    rw [hd]
    cases hl : limit? with
    | none =>
      have hnone : d.sink.limit? = none := hfront.limit?.trans hl
      simp [Vm.Sink.hasRoom, hnone] at hroom
    | some limit =>
      have hsome : d.sink.limit? = some limit := hfront.limit?.trans hl
      refine .cut rfl hsplit hrefused ?_ ?_ (hfits limit hl) ?_
      · rw [hwrite, Vm.Sink.bytes_write_of_not_hasRoom hsome hroom, hbytes]
        exact congrArg (·.extract 0 limit) String.toByteArray_append.symm
      · rw [hlabels, hfront.next]
      · simp only [Vm.Sink.hasRoom, hsome, hbytes, decide_eq_false_iff_not, Nat.not_le] at hroom
        rw [String.utf8ByteSize_append]
        exact hroom

theorem text_of_split {front back : List Event} {i : Vm.Instruction} (h : c.trace = front ++ .wrote i :: back) :
    c.text = textOf front ++ i.line ++ textOf back := by
  rw [show c.text = textOf c.trace from rfl, h, ← List.singleton_append, Event.textOf_append, Event.textOf_append,
    Event.textOf_wrote, String.append_assoc]

theorem next_deliver_none : (c.deliver none labels).labels.next = labels.next + c.draws := by
  cases c.ends_deliver labels none with
  | whole _ _ next _ => exact next
  | cut limited => cases limited

/-- A sink with room for the whole text is as good as one without a limit. -/
theorem deliver_of_fits {limit : Nat} (h : c.text.utf8ByteSize ≤ limit) :
    (c.deliver (some limit) labels).refused = false ∧
      (c.deliver (some limit) labels).sink.bytes = c.text.toUTF8 ∧
      (c.deliver (some limit) labels).labels = (c.deliver none labels).labels := by
  cases c.ends_deliver labels (some limit) with
  | whole refused bytes next _ =>
    exact ⟨refused, bytes, congrArg Vm.Labels.mk (next.trans (c.next_deliver_none labels).symm)⟩
  | @cut limit' front back i limited split _ _ _ _ full =>
    -- The line that is refused is a line of the text.
    obtain rfl := Option.some.inj limited
    rw [c.text_of_split split, String.utf8ByteSize_append] at h
    omega

/-- A sink without room for the whole text refuses a line and has the first bytes of the text. -/
theorem deliver_of_full {limit : Nat} (h : limit < c.text.utf8ByteSize) :
    (c.deliver (some limit) labels).refused = true ∧
      (c.deliver (some limit) labels).sink.bytes = c.text.toUTF8.extract 0 limit ∧
      labels.next ≤ (c.deliver (some limit) labels).labels.next ∧
      (c.deliver (some limit) labels).labels.next ≤ (c.deliver none labels).labels.next := by
  cases c.ends_deliver labels (some limit) with
  | whole _ _ _ fits =>
    have := fits limit rfl
    omega
  | @cut limit' front back i limited split refused bytes next _ full =>
    obtain rfl := Option.some.inj limited
    refine ⟨refused, ?_, by omega, ?_⟩
    · have hlong : limit - (textOf front ++ i.line).toUTF8.size = 0 := Nat.sub_eq_zero_of_le (Nat.le_of_lt full)
      rw [bytes, c.text_of_split split, show (textOf front ++ i.line ++ textOf back).toUTF8 =
        (textOf front ++ i.line).toUTF8 ++ (textOf back).toUTF8 from String.toByteArray_append,
        ByteArray.extract_append, hlong]
      simp
    · rw [next, next_deliver_none, show c.draws = drawsOf c.trace from rfl, split, drawsOf_append]
      omega

end Compilation

theorem output_compileTo_eq_text (source : String) (labels : Vm.Labels) :
    (compileTo source none labels).output = (compile source labels.next).text.toUTF8 :=
  Compilation.bytes_deliver_none ..

/-- Where the whole output has room, a limit changes nothing. -/
theorem compileTo_of_fits {source : String} {labels : Vm.Labels} {limit : Nat}
    (h : (compileTo source none labels).output.size ≤ limit) :
    compileTo source (some limit) labels = compileTo source none labels := by
  have hwhole := output_compileTo_eq_text source labels
  rw [hwhole] at h
  obtain ⟨hrefused, hbytes, hlabels⟩ := (compile source labels.next).deliver_of_fits labels h
  have hresult : (compileTo source (some limit) labels).result = (compileTo source none labels).result := by
    simp only [compileTo, Compilation.resultAfter, hrefused, Compilation.refused_deliver_none]
  exact Outcome.ext (hbytes.trans hwhole.symm) hresult hlabels

/-- Elsewhere the output fails, and the sink has as many of the first bytes of it as there is room for. -/
theorem compileTo_of_full {source : String} {labels : Vm.Labels} {limit : Nat}
    (h : limit < (compileTo source none labels).output.size) :
    (compileTo source (some limit) labels).result = .error .sinkFull ∧
      (compileTo source (some limit) labels).output = (compileTo source none labels).output.extract 0 limit ∧
      labels.next ≤ (compileTo source (some limit) labels).labels.next ∧
      (compileTo source (some limit) labels).labels.next ≤ (compileTo source none labels).labels.next := by
  rw [output_compileTo_eq_text] at h ⊢
  obtain ⟨hrefused, hbytes, hlow, hhigh⟩ := (compile source labels.next).deliver_of_full labels h
  have hresult : (compileTo source (some limit) labels).result = .error .sinkFull := by
    simp only [compileTo, Compilation.resultAfter, hrefused, if_true]
  exact ⟨hresult, hbytes, hlow, hhigh⟩

end JackToVm
