import JackToVm.Proofs.Lines

/-!
Reading VM text back. A line is a row of words, and its words tell the instruction (`ofWords?_eq_some_iff`). Names have
no space and no line break in them, whatever the source is, so the lines of an output give back the instructions that
were written, one for one (`mapM_ofText?_linesOf`).
-/

namespace JackToVm

namespace Vm

/-! ### Words of a line -/

/-- The words of a line. One space stands between two of them. -/
def wordsOf (line : String) : List String :=
  (line.toList.splitOn ' ').map String.ofList

theorem intercalate_wordsOf (line : String) : " ".intercalate (wordsOf line) = line := by
  have hid : String.toList ∘ String.ofList = id := funext fun _ => String.toList_ofList
  rw [← String.toList_inj, String.toList_intercalate, wordsOf, List.map_map, hid, List.map_id]
  exact List.intercalate_splitOn ' '

theorem wordsOf_intercalate {words : List String} (h : ∀ word ∈ words, ' ' ∉ word.toList) (hne : words ≠ []) :
    wordsOf (" ".intercalate words) = words := by
  have hsplit : ([' '].intercalate (words.map String.toList)).splitOn ' ' = words.map String.toList :=
    List.splitOn_intercalate ' ' (List.forall_mem_map.mpr h) (by simpa using hne)
  have hid : String.ofList ∘ String.toList = id := funext fun _ => String.ofList_toList
  rw [wordsOf, String.toList_intercalate, show " ".toList = [' '] from rfl, hsplit, List.map_map, hid, List.map_id]

/-- The number that a word stands for. It has no zeros in front. -/
def number? (word : String) : Option Nat :=
  let n := Nat.ofDigitChars 10 word.toList 0
  if word = toString n then some n else none

theorem number?_eq_some_iff {word : String} {n : Nat} : number? word = some n ↔ word = toString n := by
  simp only [number?, Option.ite_none_right_eq_some, Option.some.injEq]
  constructor
  · rintro ⟨h, rfl⟩
    exact h
  · rintro rfl
    have hn : Nat.ofDigitChars 10 (toString n).toList 0 = n := by
      rw [Nat.toString_eq_repr, Nat.toList_repr, Nat.ofDigitChars_toDigits (by decide) (by decide)]
    rw [hn]
    exact ⟨rfl, rfl⟩

@[simp] theorem number?_repr (n : Nat) : number? n.repr = some n :=
  number?_eq_some_iff.mpr rfl

theorem Segment.eq_text_of_ofText? {word : String} {segment : Segment} (h : ofText? word = some segment) :
    word = segment.text := by
  unfold ofText? at h
  split at h <;> cases h <;> rfl

theorem Command.eq_text_of_ofText? {word : String} {command : Command} (h : ofText? word = some command) :
    word = command.text := by
  unfold ofText? at h
  split at h <;> cases h <;> rfl

/-! ### Instructions of words -/

namespace Instruction

/-- The words that an instruction is written with. -/
def words : Instruction → List String
  | push segment index => ["push", segment.text, toString index]
  | pop segment index => ["pop", segment.text, toString index]
  | compute command => [command.text]
  | label name => ["label", name]
  | goto target => ["goto", target]
  | ifGoto target => ["if-goto", target]
  | call name arguments => ["call", name, toString arguments]
  | function name locals => ["function", name, toString locals]
  | return_ => ["return"]

def ofWords? : List String → Option Instruction
  | ["push", segment, index] => do
    let segment ← Segment.ofText? segment
    let index ← number? index
    return push segment index
  | ["pop", segment, index] => do
    let segment ← Segment.ofText? segment
    let index ← number? index
    return pop segment index
  | ["label", name] => some (label name)
  | ["goto", target] => some (goto target)
  | ["if-goto", target] => some (ifGoto target)
  | ["call", name, arguments] => (number? arguments).map (call name)
  | ["function", name, locals] => (number? locals).map (function name)
  | ["return"] => some return_
  | [command] => (Command.ofText? command).map compute
  | _ => none

/-- Reads a line of VM text. -/
def ofText? (line : String) : Option Instruction :=
  ofWords? (wordsOf line)

theorem ofWords?_words (i : Instruction) : ofWords? i.words = some i := by
  cases i with
  | compute command => cases command <;> rfl
  | _ => simp [words, ofWords?]

theorem eq_words_of_ofWords? {ws : List String} {i : Instruction} (h : ofWords? ws = some i) : ws = i.words := by
  unfold ofWords? at h
  split at h
  case h_1 | h_2 =>
    simp only [Option.bind_eq_bind, Option.bind_eq_some_iff, Option.pure_def, Option.some.injEq] at h
    obtain ⟨segment, hs, n, hn, rfl⟩ := h
    rw [Segment.eq_text_of_ofText? hs, number?_eq_some_iff.mp hn]
    rfl
  case h_3 | h_4 | h_5 | h_8 =>
    cases h
    rfl
  case h_6 | h_7 =>
    obtain ⟨n, hn, rfl⟩ := Option.map_eq_some_iff.mp h
    rw [number?_eq_some_iff.mp hn]
    rfl
  case h_9 =>
    obtain ⟨command, hc, rfl⟩ := Option.map_eq_some_iff.mp h
    rw [Command.eq_text_of_ofText? hc]
    rfl
  case h_10 => cases h

/-- Words are read as an instruction when they are its own, and only then. -/
theorem ofWords?_eq_some_iff {ws : List String} {i : Instruction} : ofWords? ws = some i ↔ ws = i.words := by
  constructor
  · exact eq_words_of_ofWords?
  · rintro rfl
    exact ofWords?_words i

theorem intercalate_words (i : Instruction) : " ".intercalate i.words = i.text := by
  cases i <;> rfl

theorem words_ne_nil (i : Instruction) : i.words ≠ [] := by
  cases i <;> simp [words]

theorem text_ne_empty (i : Instruction) : i.text ≠ "" := by
  intro h
  have hchars := congrArg String.toList h
  cases i with
  | compute command => cases command <;> simp [text, Command.text] at hchars
  | _ => simp [text, toString] at hchars

theorem space_not_mem_words {i : Instruction} (h : ∀ x ∈ i.names, IsName x) : ∀ word ∈ i.words, ' ' ∉ word.toList := by
  have hname {x : String} (hx : IsName x) : ' ' ∉ x.toList := by
    intro hmem
    cases hx ' ' hmem
  have hsegment (segment : Segment) : ' ' ∉ segment.text.toList := by cases segment <;> decide
  have hnumber (n : Nat) : ' ' ∉ (toString n).toList := hname (.number n)
  cases i with
  | push segment index | pop segment index =>
    exact List.forall_mem_cons.mpr ⟨by decide, List.forall_mem_cons.mpr
      ⟨hsegment segment, List.forall_mem_singleton.mpr (hnumber index)⟩⟩
  | compute command => cases command <;> decide
  | label x | goto x | ifGoto x =>
    have hx := hname (h x (List.mem_singleton.mpr rfl))
    exact List.forall_mem_cons.mpr ⟨by decide, List.forall_mem_singleton.mpr hx⟩
  | call x n | function x n =>
    have hx := hname (h x (List.mem_singleton.mpr rfl))
    exact List.forall_mem_cons.mpr ⟨by decide, List.forall_mem_cons.mpr
      ⟨hx, List.forall_mem_singleton.mpr (hnumber n)⟩⟩
  | return_ => decide

/-! ### Instructions of lines -/

/-- An instruction is read off its own text. -/
theorem ofText?_text {i : Instruction} (h : ∀ x ∈ i.names, IsName x) : ofText? i.text = some i := by
  rw [ofText?, ← intercalate_words, wordsOf_intercalate (space_not_mem_words h) i.words_ne_nil, ofWords?_words]

/-- And off no other text. -/
theorem text_of_ofText? {line : String} {i : Instruction} (h : ofText? line = some i) : i.text = line := by
  rw [← intercalate_words, ← ofWords?_eq_some_iff.mp h, intercalate_wordsOf]

theorem mapM_ofText?_text {code : List Instruction} (h : ∀ i ∈ code, ∀ x ∈ i.names, IsName x) :
    (code.map text).mapM ofText? = some code := by
  induction code with
  | nil => rfl
  | cons i code ih =>
    rw [List.forall_mem_cons] at h
    simp [ofText?_text h.1, ih h.2]

end Instruction

/-- The bytes are lines of plain characters, each with its line break, that are read as these instructions. -/
structure Decodes (bytes : ByteArray) (code : List Instruction) : Prop where
  plain : ∀ b ∈ bytes.data.toList, b < 128
  lines : bytes = (String.join ((linesOf bytes).map (· ++ "\n"))).toUTF8
  line : ∀ line ∈ linesOf bytes, line ≠ "" ∧ '\n' ∉ line.toList
  read : (linesOf bytes).mapM Instruction.ofText? = some code

theorem Decodes.unique {bytes : ByteArray} {a b : List Instruction} (ha : Decodes bytes a) (hb : Decodes bytes b) :
    a = b :=
  Option.some.inj (ha.read.symm.trans hb.read)

end Vm

/-! ### Outputs, read -/

theorem isName_of_mem_code (source : String) (start : Nat) :
    ∀ i ∈ (compile source start).code, ∀ x ∈ i.names, Vm.IsName x :=
  Event.isName_of_mem_filterMap (isName_of_mem_trace source start)

/-- The lines of an output are read as the instructions that were written. -/
theorem mapM_ofText?_linesOf (source : String) (labels : Vm.Labels) :
    (Vm.linesOf (compileTo source none labels).output).mapM Vm.Instruction.ofText? =
      some (compile source labels.next).code := by
  rw [linesOf_compileTo_none]
  exact Vm.Instruction.mapM_ofText?_text (isName_of_mem_code source labels.next)

theorem isLine_of_mem_linesOf {source line : String} {labels : Vm.Labels}
    (h : line ∈ Vm.linesOf (compileTo source none labels).output) : line ≠ "" ∧ Vm.IsLine line := by
  rw [linesOf_compileTo_none] at h
  obtain ⟨i, hi, rfl⟩ := List.mem_map.mp h
  exact ⟨i.text_ne_empty, Vm.Instruction.isLine_text (isName_of_mem_code source labels.next i hi)⟩

/-- All characters of an output are among the first 128. -/
theorem toNat_lt_of_mem_text {source : String} {start : Nat} {c : Char} (h : c ∈ (compile source start).text.toList) :
    c.toNat < 128 := by
  rw [Compilation.text, String.toList_join, List.mem_flatMap] at h
  obtain ⟨line, hline, hc⟩ := h
  obtain ⟨i, hi, rfl⟩ := List.mem_map.mp hline
  rw [Vm.Instruction.line, String.toList_append, List.mem_append] at hc
  rcases hc with hc | hc
  · exact (Vm.toNat_of_isLinePart (Vm.Instruction.isLine_text (isName_of_mem_code source start i hi) c hc)).2
  · obtain rfl := List.mem_singleton.mp hc
    decide

theorem decodes_compileTo (source : String) (labels : Vm.Labels) :
    Vm.Decodes (compileTo source none labels).output (compile source labels.next).code where
  plain := by
    intro b hb
    have hbytes : (compileTo source none labels).output = (compile source labels.next).text.toUTF8 :=
      Compilation.bytes_deliver_none ..
    rw [hbytes] at hb
    obtain ⟨c, hc, hbyte⟩ := Vm.exists_of_mem_toUTF8 (fun _ => toNat_lt_of_mem_text) hb
    have hsmall := toNat_lt_of_mem_text hc
    rw [UInt8.lt_iff_toNat_lt, hbyte]
    exact hsmall
  lines := output_compileTo_none source labels
  line := by
    intro line hline
    obtain ⟨hne, hparts⟩ := isLine_of_mem_linesOf hline
    refine ⟨hne, fun hbreak => ?_⟩
    cases hparts '\n' hbreak
  read := mapM_ofText?_linesOf source labels

/-- VM text is read in one way only: whether a source compiles or not, its output is lines of plain characters, and a
reader of lines gets the instructions back that were written, each off its own text. So the instructions that are
written for another source, or with other label numbers, are the same whenever the output is. A text of a class by
itself is the output with labels from 0 on, and its bytes are those of the output. -/
theorem output_decodes (source : String) (labels : Vm.Labels) :
    Vm.Decodes (compileTo source none labels).output (compile source labels.next).code ∧
    (∀ line i, Vm.Instruction.ofText? line = some i → i.text = line) ∧
    (∀ (source' : String) (labels' : Vm.Labels),
      (compileTo source' none labels').output = (compileTo source none labels).output →
        (compile source' labels'.next).code = (compile source labels.next).code) ∧
    ∃ text, String.fromUTF8? (compileTo source none {}).output = some text ∧
      text.toUTF8 = (compileTo source none {}).output ∧
      compileText source = (compileTo source none {}).result.map fun _ => text := by
  have hcode := decodes_compileTo source labels
  refine ⟨hcode, fun _ _ => Vm.Instruction.text_of_ofText?, fun source' labels' hsame => ?_, ?_⟩
  · have hcode' := decodes_compileTo source' labels'
    rw [hsame] at hcode'
    exact hcode'.unique hcode
  · have hbytes : (compileTo source none {}).output = (compile source 0).text.toUTF8 :=
      Compilation.bytes_deliver_none ..
    have hresult : (compileTo source none {}).result = (compile source 0).result :=
      Compilation.resultAfter_deliver_none ..
    rw [hbytes, hresult]
    exact ⟨(compile source 0).text, Vm.fromUTF8?_toUTF8 _, rfl, rfl⟩

-- The class stops at its second string, and what is written by then is read.
example :
    (Vm.linesOf (compileTo "class A \x7b function void f() \x7b /* É */ do A.g(\"é\", \"" none {}).output).mapM
      Vm.Instruction.ofText? = some [.function "A.f" 0, .push .constant 1, .call "String.new" 1, .push .constant 233,
        .call "String.appendChar" 2] := by
  decide +kernel

end JackToVm
