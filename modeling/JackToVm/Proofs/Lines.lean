import JackToVm.Proofs.Delivery
import JackToVm.Proofs.Naming
import JackToVm.Proofs.Parallel

/-!
The lines of an output. A line counts when its line break is there, so what a limit leaves of a line does not.
Whatever the limit is, the lines are the texts of the first instructions that the pass wrote
(`exists_lines_of_compileTo`).
-/

namespace JackToVm

namespace Vm

/-- The byte of a line break. -/
def lineBreak : UInt8 := 10

/-- The complete lines of an output. -/
def linesOf (bytes : ByteArray) : List String :=
  (bytes.data.toList.splitOn lineBreak).dropLast.filterMap fun line => String.fromUTF8? line.toByteArray

/-! ### Lines put together -/

/-- Tells whether a character may stand in a line. -/
def isLinePart (c : Char) : Bool :=
  isNamePart c || c = ' ' || c = '-'

theorem toNat_of_isLinePart {c : Char} (h : isLinePart c = true) : c.toNat ≠ 10 ∧ c.toNat < 128 := by
  simp only [isLinePart, isNamePart, isWordPart, isWordStart, isDigit, Bool.or_eq_true, Bool.and_eq_true,
    decide_eq_true_eq, Char.le_def, UInt32.le_iff_toNat_le] at h
  rcases h with (((((rfl | h) | h) | h) | rfl) | rfl) | rfl
  · decide
  · change 97 ≤ c.toNat ∧ c.toNat ≤ 122 at h
    omega
  · change 65 ≤ c.toNat ∧ c.toNat ≤ 90 at h
    omega
  · change 48 ≤ c.toNat ∧ c.toNat ≤ 57 at h
    omega
  · decide
  · decide
  · decide

/-- A text without a line break in it. -/
def IsLine (text : String) : Prop :=
  ∀ c ∈ text.toList, isLinePart c = true

instance (text : String) : Decidable (IsLine text) :=
  List.decidableBAll (isLinePart · = true) text.toList

theorem IsLine.append {a b : String} (ha : IsLine a) (hb : IsLine b) : IsLine (a ++ b) := by
  rw [IsLine, String.toList_append, List.forall_mem_append]
  exact ⟨ha, hb⟩

theorem IsName.isLine {x : String} (h : IsName x) : IsLine x := by
  intro c hc
  rw [isLinePart, h c hc, Bool.true_or, Bool.true_or]

/-- In a text of the first 128 characters, each byte is the number of a character. -/
theorem exists_of_mem_toUTF8 {text : String} {b : UInt8} (h : ∀ c ∈ text.toList, c.toNat < 128)
    (hb : b ∈ text.toUTF8.data.toList) : ∃ c ∈ text.toList, b.toNat = c.toNat := by
  rw [String.toUTF8_eq_toByteArray, ← String.utf8Encode_toList, List.utf8Encode, List.toList_data_toByteArray,
    List.mem_flatMap] at hb
  obtain ⟨c, hc, hbyte⟩ := hb
  have hsmall := h c hc
  have hone : c.utf8Size = 1 := Char.utf8Size_eq_one_iff.mpr (UInt32.le_iff_toNat_le.mpr (Nat.le_of_lt_succ hsmall))
  rw [String.utf8EncodeChar_eq_singleton hone, List.mem_singleton] at hbyte
  refine ⟨c, hc, ?_⟩
  rw [hbyte, UInt32.toNat_toUInt8]
  change c.toNat % 256 = c.toNat
  omega

theorem lineBreak_not_mem {text : String} (h : IsLine text) :
    lineBreak ∉ text.toUTF8.data.toList := by
  intro hmem
  obtain ⟨c, hc, hbreak⟩ := exists_of_mem_toUTF8 (fun c hc => (toNat_of_isLinePart (h c hc)).2) hmem
  exact (toNat_of_isLinePart (h c hc)).1 hbreak.symm

theorem fromUTF8?_toUTF8 (text : String) : String.fromUTF8? text.toUTF8 = some text := by
  rw [String.toUTF8_eq_toByteArray, String.fromUTF8?, dif_pos text.isValidUTF8]
  rfl

theorem fromUTF8?_toList_toUTF8 (text : String) :
    String.fromUTF8? text.toUTF8.data.toList.toByteArray = some text := by
  have hbytes : text.toUTF8.data.toList.toByteArray = text.toUTF8 := by
    apply ByteArray.ext
    rw [List.data_toByteArray, Array.toArray_toList]
  rw [hbytes, fromUTF8?_toUTF8]

theorem linesOf_append {text : String} (h : IsLine text) (rest : ByteArray) :
    linesOf ((text ++ "\n").toUTF8 ++ rest) = text :: linesOf rest := by
  have hbreak : "\n".toByteArray.data.toList = [lineBreak] := by decide
  have hbytes : ((text ++ "\n").toUTF8 ++ rest).data.toList =
      text.toUTF8.data.toList ++ lineBreak :: rest.data.toList := by
    rw [ByteArray.toList_data_append, String.toUTF8_eq_toByteArray, String.toByteArray_append,
      ByteArray.toList_data_append, hbreak, List.append_assoc, List.singleton_append, String.toUTF8_eq_toByteArray]
  rw [linesOf, hbytes, List.splitOn_append_cons_self_of_not_mem (lineBreak_not_mem h),
    List.dropLast_cons_of_ne_nil (List.splitOn_ne_nil _ _), List.filterMap_cons, fromUTF8?_toList_toUTF8]
  rfl

theorem linesOf_of_not_mem {bytes : ByteArray} (h : lineBreak ∉ bytes.data.toList) : linesOf bytes = [] := by
  rw [linesOf, List.splitOn_eq_singleton h]
  rfl

/-! ### Lines of instructions -/

theorem Instruction.isLine_text {i : Instruction} (h : ∀ x ∈ i.names, IsName x) : IsLine i.text := by
  have hnumber (n : Nat) : IsLine (" " ++ toString n) := .append (by decide) (IsName.number n).isLine
  have hsegment (segment : Segment) : IsLine segment.text := by cases segment <;> decide
  cases i with
  | push segment index =>
    rw [show (push segment index).text = "push " ++ segment.text ++ (" " ++ toString index) from
      String.append_assoc ..]
    exact .append (.append (by decide) (hsegment segment)) (hnumber index)
  | pop segment index =>
    rw [show (pop segment index).text = "pop " ++ segment.text ++ (" " ++ toString index) from
      String.append_assoc ..]
    exact .append (.append (by decide) (hsegment segment)) (hnumber index)
  | compute command => cases command <;> decide
  | label x => exact .append (by decide) (h x (List.mem_singleton.mpr rfl)).isLine
  | goto x => exact .append (by decide) (h x (List.mem_singleton.mpr rfl)).isLine
  | ifGoto x => exact .append (by decide) (h x (List.mem_singleton.mpr rfl)).isLine
  | call f count =>
    rw [show (call f count).text = "call " ++ f ++ (" " ++ toString count) from String.append_assoc ..]
    exact .append (.append (by decide) (h f (List.mem_singleton.mpr rfl)).isLine) (hnumber count)
  | function f count =>
    rw [show (function f count).text = "function " ++ f ++ (" " ++ toString count) from String.append_assoc ..]
    exact .append (.append (by decide) (h f (List.mem_singleton.mpr rfl)).isLine) (hnumber count)
  | return_ => decide

/-- The line sets a label or jumps to it. -/
def Mentions (line label : String) : Prop :=
  line = "label " ++ label ∨ line = "goto " ++ label ∨ line = "if-goto " ++ label

namespace Instruction
variable {i : Instruction} {x : String}

/-- An instruction with a label is told by its text. -/
theorem eq_of_text_eq {j : Instruction} (hj : j.mention? = some x) (h : i.text = j.text) : i = j := by
  have hchars := congrArg String.toList h
  cases j with
  | label y =>
    cases i with
    | compute command => cases command <;> simp [text, Command.text, toString] at hchars
    | label z => simpa [text, toString, String.toList_inj] using hchars
    | _ => simp [text, toString] at hchars
  | goto y =>
    cases i with
    | compute command => cases command <;> simp [text, Command.text, toString] at hchars
    | goto z => simpa [text, toString, String.toList_inj] using hchars
    | _ => simp [text, toString] at hchars
  | ifGoto y =>
    cases i with
    | compute command => cases command <;> simp [text, Command.text, toString] at hchars
    | ifGoto z => simpa [text, toString, String.toList_inj] using hchars
    | _ => simp [text, toString] at hchars
  | _ => cases hj

theorem mentions_text_iff : Mentions i.text x ↔ i.mention? = some x := by
  constructor
  · rintro (h | h | h)
    · rw [eq_of_text_eq (j := .label x) rfl h, mention?]
    · rw [eq_of_text_eq (j := .goto x) rfl h, mention?]
    · rw [eq_of_text_eq (j := .ifGoto x) rfl h, mention?]
  · intro h
    cases i with
    | label y => cases h; exact Or.inl rfl
    | goto y => cases h; exact Or.inr (Or.inl rfl)
    | ifGoto y => cases h; exact Or.inr (Or.inr rfl)
    | _ => cases h

end Instruction

theorem linesOf_lines {code : List Instruction} (h : ∀ i ∈ code, ∀ x ∈ i.names, IsName x) (rest : ByteArray) :
    linesOf ((String.join (code.map Instruction.line)).toUTF8 ++ rest) = code.map Instruction.text ++ linesOf rest := by
  induction code with
  | nil => simp
  | cons i code ih =>
    rw [List.forall_mem_cons] at h
    rw [List.map_cons, String.join_cons, String.toUTF8_eq_toByteArray, String.toByteArray_append,
      ByteArray.append_assoc]
    refine (linesOf_append (Instruction.isLine_text h.1) _).trans ?_
    rw [List.map_cons, List.cons_append]
    exact congrArg _ (ih h.2)

end Vm

/-! ### Lines of a class -/

namespace Compilation
open Event (textOf drawsOf)
open Vm (IsName linesOf linesOf_lines)

variable {c : Compilation}

/-- What the sink has of a line that does not fit is no line. -/
theorem linesOf_cut {code : List Vm.Instruction} {i : Vm.Instruction} {limit : Nat}
    (hcode : ∀ i ∈ code, ∀ x ∈ i.names, IsName x) (hi : ∀ x ∈ i.names, IsName x)
    (hfits : (String.join (code.map Vm.Instruction.line)).utf8ByteSize ≤ limit)
    (hfull : limit < (String.join (code.map Vm.Instruction.line) ++ i.line).utf8ByteSize) :
    linesOf ((String.join (code.map Vm.Instruction.line) ++ i.line).toUTF8.extract 0 limit) =
      code.map Vm.Instruction.text := by
  have hlines := linesOf_lines hcode (i.line.toUTF8.extract 0
    (limit - (String.join (code.map Vm.Instruction.line)).utf8ByteSize))
  generalize String.join (code.map Vm.Instruction.line) = text at hfits hfull hlines ⊢
  -- The limit is at most at the end of the text of the line, in front of its line break.
  have hroom : limit - text.utf8ByteSize ≤ i.text.utf8ByteSize := by
    have hsize : i.line.utf8ByteSize = i.text.utf8ByteSize + 1 := String.utf8ByteSize_append ..
    rw [String.utf8ByteSize_append, hsize] at hfull
    omega
  have hpart : i.line.toUTF8.extract 0 (limit - text.utf8ByteSize) =
      i.text.toUTF8.extract 0 (limit - text.utf8ByteSize) := by
    rw [show i.line.toUTF8 = i.text.toUTF8 ++ "\n".toUTF8 from String.toByteArray_append, ByteArray.extract_append]
    have hnone : limit - text.utf8ByteSize - i.text.toUTF8.size = 0 := Nat.sub_eq_zero_of_le hroom
    rw [hnone]
    simp
  have hbreak : Vm.lineBreak ∉ (i.line.toUTF8.extract 0 (limit - text.utf8ByteSize)).data.toList := by
    rw [hpart, ByteArray.data_extract, Array.toList_extract]
    intro hmem
    exact Vm.lineBreak_not_mem (Vm.Instruction.isLine_text hi) (List.mem_of_mem_drop (List.mem_of_mem_take hmem))
  have hbytes : (text ++ i.line).toUTF8.extract 0 limit =
      text.toUTF8 ++ i.line.toUTF8.extract 0 (limit - text.utf8ByteSize) := by
    rw [show (text ++ i.line).toUTF8 = text.toUTF8 ++ i.line.toUTF8 from String.toByteArray_append,
      ByteArray.extract_append, Nat.zero_sub]
    congr 1
    apply ByteArray.ext
    rw [ByteArray.data_extract]
    exact Array.extract_eq_self_of_le hfits
  rw [hbytes, hlines, Vm.linesOf_of_not_mem hbreak, List.append_nil]

/-- The complete lines of an output are the texts of the first instructions, up to where the sink is full. -/
theorem exists_lines_of_deliver (hc : ∀ e ∈ c.trace, ∀ x ∈ e.names, IsName x) (limit? : Option Nat)
    (labels : Vm.Labels) :
    ∃ front, front <+: c.trace ∧
      linesOf (c.deliver limit? labels).sink.bytes = (front.filterMap Event.instruction?).map Vm.Instruction.text ∧
      (c.deliver limit? labels).labels.next = labels.next + drawsOf front ∧
      ((c.deliver limit? labels).refused = false → front = c.trace) := by
  have hcode (events : List Event) (h : events <+: c.trace) :
      ∀ i ∈ events.filterMap Event.instruction?, ∀ x ∈ i.names, IsName x :=
    Event.isName_of_mem_filterMap fun e he => hc e (h.subset he)
  cases c.ends_deliver labels limit? with
  | whole refused bytes next =>
    refine ⟨c.trace, List.prefix_refl _, ?_, next, fun _ => rfl⟩
    have hlines := linesOf_lines (hcode _ (List.prefix_refl _)) ByteArray.empty
    rw [ByteArray.append_empty] at hlines
    rw [bytes]
    exact hlines.trans (List.append_nil _)
  | @cut limit front back i limited split refused bytes next fits full =>
    have hfront : front <+: c.trace := ⟨_, split.symm⟩
    have hi : ∀ x ∈ i.names, IsName x := hc (.wrote i) (by rw [split]; simp)
    refine ⟨front, hfront, ?_, next, fun h => absurd h (by rw [refused]; simp)⟩
    rw [bytes]
    exact linesOf_cut (hcode _ hfront) hi fits full

end Compilation

/-- Whatever becomes of a class, the complete lines of its output are the texts of the first instructions that
were written, and the numbers drawn are those up to there. When the class compiles nothing is left out. -/
theorem exists_lines_of_compileTo (source : String) (limit? : Option Nat) (labels : Vm.Labels) :
    ∃ front, front <+: (compile source labels.next).trace ∧
      Vm.linesOf (compileTo source limit? labels).output =
        (front.filterMap Event.instruction?).map Vm.Instruction.text ∧
      (compileTo source limit? labels).labels.next = labels.next + Event.drawsOf front ∧
      ((compileTo source limit? labels).result = .ok () →
        front = (compile source labels.next).trace ∧ (compile source labels.next).result = .ok ()) := by
  obtain ⟨front, hfront, hlines, hnext, hwhole⟩ :=
    Compilation.exists_lines_of_deliver (isName_of_mem_trace source labels.next) limit? labels
  refine ⟨front, hfront, hlines, hnext, fun h => ?_⟩
  simp only [compileTo, Compilation.resultAfter] at h
  split at h
  · cases h
  · rename_i hrefused
    exact ⟨hwhole (Bool.eq_false_iff.mpr hrefused), h⟩

theorem linesOf_compileTo_none (source : String) (labels : Vm.Labels) :
    Vm.linesOf (compileTo source none labels).output =
      (compile source labels.next).code.map Vm.Instruction.text := by
  obtain ⟨front, -, hlines, -, hwhole⟩ :=
    Compilation.exists_lines_of_deliver (isName_of_mem_trace source labels.next) none labels
  rw [hwhole (Compilation.refused_deliver_none ..)] at hlines
  exact hlines

theorem output_compileTo_none (source : String) (labels : Vm.Labels) :
    (compileTo source none labels).output =
      (String.join ((Vm.linesOf (compileTo source none labels).output).map (· ++ "\n"))).toUTF8 := by
  rw [linesOf_compileTo_none, List.map_map]
  exact Compilation.bytes_deliver_none ..

end JackToVm
