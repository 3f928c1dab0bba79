import MmixBackend.Assembly
import MmixBackend.Proofs.ControlFlow
import MmixBackend.Proofs.Label
import MmixBackend.Source.Tree
import Mathlib.Data.List.TakeWhile

/-!
# Reading the assembly text

An assembler reads the text line by line. What stands before the tabulator of a line is a label that
the line defines; behind it stand a mnemonic and operands, and the last operand of a branch, a call
or an address load is a label that the line refers to. `Assembly.definedLabels` and
`Assembly.references` read a text in this way, and know nothing of how it was written.

The text of a program is read back as the lines it was written from, provided that its labels are words:
then the labels of the lines are the labels of the data and the code, and the references are those of the
instructions.

## Main statements

- `Opcode.expand_template`: the text of an operation is its mnemonic and its operands.
- `Assembly.definedLabels_write`: the labels that the text of a program defines.
- `Assembly.references_write`: the labels that it refers to.
-/

namespace MmixBackend

/-! ## §1 Reading -/

namespace Assembly

/-- The lines of a text. -/
def rows (text : String) : List (List Char) := text.toList.splitOn '\n'

/-- The label field of a line: what stands before the tabulator. -/
def labelField (row : List Char) : List Char := row.takeWhile (· ≠ '\t')

/-- The instruction of a line: what stands behind the tabulator. -/
def instrField (row : List Char) : List Char := (row.dropWhile (· ≠ '\t')).tail

/-- The labels that the lines of a text define. -/
def definedLabels (text : String) : List Label :=
  ((rows text).map fun row => String.ofList (labelField row)).filter (· ≠ "")

/-- The instructions whose last operand is a label. -/
def labelMnemonics : List String := ["PUSHJ", "LDA", "JMP", "BNZ"]

/-- The label that an instruction refers to. -/
def reference? (instr : List Char) : Option Label :=
  match instr.splitOn ' ' with
  | [mnemonic, operands] =>
    if String.ofList mnemonic ∈ labelMnemonics then (operands.splitOn ',').getLast?.map String.ofList
    else none
  | _ => none

/-- The labels that the instructions of a text refer to. -/
def references (text : String) : List Label :=
  (rows text).filterMap fun row => reference? (instrField row)

end Assembly

/-! ## §2 Words -/

/-- A label that is read as one word, whatever stands around it. -/
def Label.Legible (l : Label) : Prop :=
  l ≠ "" ∧ ∀ c ∈ l.toList, c.isAlphanum ∨ c = '_' ∨ c = '-'

instance (l : Label) : Decidable l.Legible :=
  @instDecidableAnd (l ≠ "") (∀ c ∈ l.toList, c.isAlphanum ∨ c = '_' ∨ c = '-') inferInstance
    (List.decidableBAll _ _)

/-- A text without the characters that separate the parts of an instruction. -/
def Assembly.IsWord (s : String) : Prop := ∀ c ∈ s.toList, c ≠ '\n' ∧ c ≠ ' ' ∧ c ≠ ','

instance (s : String) : Decidable (Assembly.IsWord s) :=
  List.decidableBAll (fun c => c ≠ '\n' ∧ c ≠ ' ' ∧ c ≠ ',') s.toList

theorem isDigit_or_eq_minus (n : Int) : ∀ c ∈ (toString n).toList, c.isDigit ∨ c = '-' := by
  intro c hc
  cases n with
  | ofNat n =>
    have hc : c ∈ (Nat.repr n).toList := hc
    rw [Nat.toList_repr] at hc
    exact .inl (Nat.isDigit_of_mem_toDigits (by decide) (by decide) hc)
  | negSucc n =>
    have hc : c ∈ ("-" ++ Nat.repr (n + 1)).toList := hc
    rw [String.toList_append, Nat.toList_repr, List.mem_append] at hc
    rcases hc with hc | hc
    · exact .inr (List.mem_singleton.mp hc)
    · exact .inl (Nat.isDigit_of_mem_toDigits (by decide) (by decide) hc)

/-- The characters of labels are none of the separators. -/
theorem Label.Legible.char_ne {l : Label} (h : l.Legible) {c : Char} (hc : c ∈ l.toList) {d : Char}
    (hd : d.isAlphanum = false ∧ d ≠ '_' ∧ d ≠ '-') : c ≠ d := by
  rintro rfl
  rcases h.2 c hc with h | h | h
  · rw [hd.1] at h
    cases h
  · exact hd.2.1 h
  · exact hd.2.2 h

theorem Label.Legible.isWord {l : Label} (h : l.Legible) : Assembly.IsWord l := fun _ hc =>
  ⟨h.char_ne hc (by decide), h.char_ne hc (by decide), h.char_ne hc (by decide)⟩

theorem Label.legible_numbered (n : Int) : (Label.numbered n).Legible := by
  refine ⟨fun h => ?_, fun c hc => ?_⟩
  · have hlength := congrArg (fun s : String => s.toList.length) h
    simp [Label.numbered] at hlength
  · rw [Label.numbered, String.toList_append, List.mem_append] at hc
    rcases hc with hc | hc
    · rw [List.mem_singleton.mp hc]
      decide
    · exact (isDigit_or_eq_minus n c hc).imp (fun h => by simp [Char.isAlphanum, h]) .inr

theorem Label.legible_global {name : String} (h : Source.isIdent name = true) :
    (Label.global name).Legible := by
  refine ⟨fun h => ?_, fun c hc => ?_⟩
  · have hlength := congrArg (fun s : String => s.toList.length) h
    simp [Label.global] at hlength
  · rw [Label.global, String.toList_append, List.mem_append] at hc
    unfold Source.isIdent at h
    rcases hc with hc | hc
    · exact .inr (.inl (List.mem_singleton.mp hc))
    · split at h
      · next heq =>
        rw [heq] at hc
        cases hc
      · next c' cs heq =>
        rw [heq] at hc
        simp only [Bool.and_eq_true, Bool.or_eq_true, decide_eq_true_eq, List.all_eq_true] at h
        rcases List.mem_cons.mp hc with rfl | hc
        · exact h.1.imp (fun h => by simp [Char.isAlphanum, h]) .inl
        · exact (h.2 c hc).imp id .inl

namespace Assembly

theorem IsWord.append {s s' : String} (h : IsWord s) (h' : IsWord s') : IsWord (s ++ s') := by
  intro c hc
  rw [String.toList_append, List.mem_append] at hc
  exact hc.elim (h c) (h' c)

theorem isWord_int (n : Int) : IsWord (toString n) := by
  intro c hc
  rcases isDigit_or_eq_minus n c hc with h | rfl
  · refine ⟨?_, ?_, ?_⟩ <;> rintro rfl <;> revert h <;> decide
  · decide

theorem isWord_nat (n : Nat) : IsWord (toString n) := isWord_int n

theorem isWord_slot (regs : Registers) (kind : String) (hkind : IsWord kind) (temps : List Temp)
    (i : Nat) :
    IsWord (regs.slot kind temps i) := by
  unfold Registers.slot
  split
  · unfold Registers.name
    split
    · exact IsWord.append (by decide) (isWord_int _)
    · exact IsWord.append (by decide) (isWord_int _)
  · exact (((show IsWord _ by decide).append hkind).append (isWord_nat i)).append (by decide)

/-! ## §3 Instructions -/

/-- The text of an instruction. -/
def statement (mnemonic : String) (operands : List String) : String :=
  mnemonic ++ " " ++ String.intercalate "," operands

theorem toList_statement (mnemonic : String) (operands : List String) :
    (statement mnemonic operands).toList
      = mnemonic.toList ++ ' ' :: [','].intercalate (operands.map String.toList) := by
  simp [statement]

theorem not_mem_intercalate {c sep : Char} (hsep : c ≠ sep) : ∀ {ls : List (List Char)},
    (∀ l ∈ ls, c ∉ l) → c ∉ [sep].intercalate ls
  | [], _ => by simp
  | [l], h => by simpa using h
  | l :: l' :: ls, h => by
    obtain ⟨hl, hls⟩ := List.forall_mem_cons.mp h
    rw [List.intercalate_cons_cons]
    simp only [List.mem_append, List.mem_singleton, not_or]
    exact ⟨⟨hl, hsep⟩, not_mem_intercalate hsep hls⟩

section

variable {mnemonic : String} {operands : List String}

/-- The text of an instruction is split into its mnemonic and its operands. -/
theorem splitOn_statement (hmnemonic : IsWord mnemonic) (hoperands : ∀ o ∈ operands, IsWord o) :
    (statement mnemonic operands).toList.splitOn ' '
      = [mnemonic.toList, [','].intercalate (operands.map String.toList)] := by
  have hblank : ' ' ∉ [','].intercalate (operands.map String.toList) := by
    apply not_mem_intercalate (by decide)
    simp only [List.forall_mem_map]
    exact fun o ho hmem => (hoperands o ho ' ' hmem).2.1 rfl
  rw [toList_statement, List.splitOn_append_cons_self_of_not_mem fun h => (hmnemonic _ h).2.1 rfl,
    List.splitOn_eq_singleton hblank]

/-- The operands are separated by commas. -/
theorem splitOn_operands (hoperands : ∀ o ∈ operands, IsWord o) (hne : operands ≠ []) :
    ([','].intercalate (operands.map String.toList)).splitOn ',' = operands.map String.toList := by
  have hcomma : ∀ cs ∈ operands.map String.toList, ',' ∉ cs := by
    simp only [List.forall_mem_map]
    exact fun o ho hmem => (hoperands o ho ',' hmem).2.2 rfl
  exact List.splitOn_intercalate ',' hcomma (by simpa using hne)

/-- An instruction is read as its mnemonic and its operands. -/
theorem reference?_statement (hmnemonic : IsWord mnemonic) (hoperands : ∀ o ∈ operands, IsWord o)
    (hne : operands ≠ []) :
    reference? (statement mnemonic operands).toList
      = if mnemonic ∈ labelMnemonics then operands.getLast? else none := by
  unfold reference?
  rw [splitOn_statement hmnemonic hoperands]
  simp only [String.ofList_toList]
  rw [splitOn_operands hoperands hne]
  simp [Function.comp_def]

theorem newline_not_mem_statement (hmnemonic : IsWord mnemonic) (hoperands : ∀ o ∈ operands, IsWord o) :
    '\n' ∉ (statement mnemonic operands).toList := by
  rw [toList_statement]
  simp only [List.mem_append, List.mem_cons, not_or]
  refine ⟨fun h => (hmnemonic _ h).1 rfl, by decide, not_mem_intercalate (by decide) ?_⟩
  simp only [List.forall_mem_map]
  exact fun o ho hmem => (hoperands o ho _ hmem).1 rfl

end

end Assembly

/-! ## §4 Operations -/

namespace Piece

/-- Characters other than the slot mark stand for themselves. -/
theorem read_text_append {cs : List Char} (h : slotMark ∉ cs) (rest : List Char) :
    read .text (cs ++ rest) = cs.map .char ++ read .text rest := by
  induction cs with
  | nil => rfl
  | cons c cs ih =>
    simp only [List.mem_cons, not_or] at h
    rw [List.cons_append, read, if_neg (Ne.symm h.1), ih h.2]
    rfl

theorem read_text {cs : List Char} (h : slotMark ∉ cs) : read .text cs = cs.map .char := by
  have hread := read_text_append h []
  rwa [List.append_nil, read, List.append_nil] at hread

/-- The pieces of a text without slots. -/
def chars (s : String) : List Piece := s.toList.map .char

/-- A template that ends with a text without slots. -/
theorem ofTemplate_append {start s : String} {ps : List Piece} (hs : slotMark ∉ s.toList)
    (hstart : ∀ rest, read .text (start.toList ++ rest) = ps ++ read .text rest) :
    ofTemplate (start ++ s) = ps ++ chars s := by
  unfold ofTemplate
  rw [String.toList_append, hstart, read_text hs]
  rfl

end Piece

namespace Opcode

open Piece

/-- The mnemonic of an operation. -/
def mnemonic : Opcode → String
  | loadWyde place _ => place.mnemonic
  | arith op => op.mnemonic
  | remainder => "GET"
  | compare => "CMP"
  | setIf test => test.mnemonic
  | negate => "NEG"
  | increment | argAddress => "ADD"
  | loadAt | loadIndexed | loadResult => "LDO"
  | storeAt | storeIndexed | storeArg _ => "STO"
  | loadAddress _ => "LDA"
  | branch _ => "BNZ"
  | goto _ => "JMP"
  | call _ => "PUSHJ"
  | other _ => ""

/-- The operands of an operation, as pieces of its template. -/
def operands : Opcode → List (List Piece)
  | loadWyde _ value => [[.define 0], chars (toString value)]
  | arith _ | compare | loadIndexed => [[.define 0], [.use 0], [.use 1]]
  | remainder => [[.define 0], chars "rR"]
  | setIf _ | increment => [[.define 0], [.use 0], chars "1"]
  | negate => [[.define 0], [.use 0]]
  | loadAt => [[.define 0], [.use 0], chars "0"]
  | storeAt => [[.use 0], [.use 1], chars "0"]
  | storeIndexed => [[.use 0], [.use 1], [.use 2]]
  | storeArg offset => [[.use 0], chars stackPointer, chars offset.text]
  | argAddress => [[.define 0], chars stackPointer, [.use 0]]
  | loadResult => [[.define 0], chars stackPointer, chars "0"]
  | loadAddress label => [[.define 0], chars label]
  | branch label => [[.use 0], chars label]
  | goto label => [chars label]
  | call label => [[.window], chars label]
  | other _ => []

/-- The label in the text of an operation. -/
def label? : Opcode → Option Label
  | loadAddress l | branch l | goto l | call l => some l
  | _ => none

theorem slotMark_not_mem_int (n : Int) : slotMark ∉ (toString n).toList := by
  intro h
  rcases isDigit_or_eq_minus n _ h with h | h <;> revert h <;> decide

/-- **A template** consists of the mnemonic and the operands. -/
theorem ofTemplate_template {op : Opcode} (hop : ∀ template, op ≠ .other template)
    (hlabel : ∀ l ∈ op.label?, l.Legible) :
    ofTemplate op.template = chars op.mnemonic ++ .char ' ' :: [Piece.char ','].intercalate
      op.operands := by
  -- A label that can be read has no mark of an operand in it.
  have hmark : ∀ l ∈ op.label?, slotMark ∉ l.toList := fun l hl hmem =>
    (hlabel l hl).char_ne hmem (by decide) rfl
  cases op with
  | arith op => cases op <;> rfl
  | setIf test => cases test <;> rfl
  | remainder | compare | negate | increment | loadAt | loadIndexed | storeAt | storeIndexed
  | argAddress | loadResult => rfl
  -- The last operand of the others is no literal.
  | loadWyde place value =>
    have h := slotMark_not_mem_int value
    have happend : ofTemplate (place.mnemonic ++ " `d0," ++ toString value)
        = (chars place.mnemonic ++ [.char ' ', .define 0, .char ',']) ++ chars (toString value) :=
      ofTemplate_append h fun rest => by cases place <;> rfl
    simpa [template, mnemonic, operands] using happend
  | storeArg offset =>
    have h := slotMark_not_mem_int offset.toInt
    have happend : ofTemplate ("STO `s0," ++ stackPointer ++ "," ++ offset.text)
        = (chars "STO" ++ [.char ' ', .use 0, .char ','] ++ chars stackPointer ++ [.char ','])
          ++ chars offset.text := ofTemplate_append h fun _ => rfl
    simpa [template, mnemonic, operands] using happend
  | loadAddress label =>
    have happend : ofTemplate ("LDA `d0," ++ label)
        = (chars "LDA" ++ [.char ' ', .define 0, .char ',']) ++ chars label :=
      ofTemplate_append (hmark label rfl) fun _ => rfl
    simpa [template, mnemonic, operands] using happend
  | branch label =>
    have happend : ofTemplate ("BNZ `s0," ++ label)
        = (chars "BNZ" ++ [.char ' ', .use 0, .char ',']) ++ chars label :=
      ofTemplate_append (hmark label rfl) fun _ => rfl
    simpa [template, mnemonic, operands] using happend
  | goto label =>
    have happend : ofTemplate ("JMP " ++ label) = (chars "JMP" ++ [.char ' ']) ++ chars label :=
      ofTemplate_append (hmark label rfl) fun _ => rfl
    simpa [template, mnemonic, operands] using happend
  | call label =>
    have happend : ofTemplate ("PUSHJ `w," ++ label)
        = (chars "PUSHJ" ++ [.char ' ', .window, .char ',']) ++ chars label :=
      ofTemplate_append (hmark label rfl) fun _ => rfl
    simpa [template, mnemonic, operands] using happend
  | other template => exact absurd rfl (hop template)

end Opcode

namespace Registers

variable (regs : Registers) (uses defs : List Temp)

/-- The written form of pieces. -/
def shown (ps : List Piece) : String := String.join (ps.map (regs.piece uses defs))

theorem shown_append (ps ps' : List Piece) :
    regs.shown uses defs (ps ++ ps') = regs.shown uses defs ps ++ regs.shown uses defs ps' := by
  simp [shown]

@[simp] theorem shown_chars (s : String) : regs.shown uses defs (Piece.chars s) = s := by
  apply String.toList_injective
  have hchar : ∀ c : Char, (regs.piece uses defs (.char c)).toList = [c] := fun c => by simp [piece]
  simp [shown, Piece.chars, List.flatMap_map, hchar]

theorem shown_intercalate : ∀ os : List (List Piece),
    regs.shown uses defs ([Piece.char ','].intercalate os)
      = String.intercalate "," (os.map (regs.shown uses defs))
  | [] => rfl
  | [o] => by simp
  | o :: o' :: os => by
    have hcomma : regs.shown uses defs [Piece.char ','] = "," := shown_chars regs uses defs ","
    rw [List.intercalate_cons_cons, shown_append, shown_append, hcomma, shown_intercalate (o' :: os)]
    apply String.toList_injective
    simp

end Registers

namespace Assembly

variable (regs : Registers) (uses defs : List Temp)

theorem isWord_define (i : Nat) : IsWord (regs.shown uses defs [.define i]) := by
  simpa [Registers.shown, Registers.piece] using isWord_slot regs "d" (by decide) defs i

theorem isWord_use (i : Nat) : IsWord (regs.shown uses defs [.use i]) := by
  simpa [Registers.shown, Registers.piece] using isWord_slot regs "s" (by decide) uses i

theorem isWord_window : IsWord (regs.shown uses defs [.window]) := by
  show IsWord (String.join [if regs.window < 0 then _ else _])
  split
  · decide
  · rw [String.join_cons, String.join_nil, String.append_empty]
    exact IsWord.append (by decide) (isWord_int regs.window)

end Assembly

open Assembly

/-- The operands of an operation are words. -/
theorem Opcode.isWord_operands (regs : Registers) (uses defs : List Temp) {op : Opcode}
    (hlabel : ∀ l ∈ op.label?, l.Legible) : ∀ o ∈ op.operands.map (regs.shown uses defs), IsWord o := by
  have hword : ∀ l ∈ op.label?, IsWord l := fun l hl => (hlabel l hl).isWord
  have hliteral : IsWord "rR" ∧ IsWord "1" ∧ IsWord "0" ∧ IsWord stackPointer := by decide
  rw [List.forall_mem_map]
  cases op with
  | loadWyde place value => simpa [operands, isWord_define] using isWord_nat value
  | storeArg offset =>
    have hoffset : IsWord offset.text := isWord_int offset.toInt
    simpa [operands, isWord_use, hliteral] using hoffset
  | loadAddress label => simpa [operands, isWord_define] using hword label rfl
  | branch label => simpa [operands, isWord_use] using hword label rfl
  | goto label => simpa [operands] using hword label rfl
  | call label => simpa [operands, isWord_window] using hword label rfl
  | _ => simp [operands, isWord_define, isWord_use, hliteral]

/-- **The text of an operation** is its mnemonic and its operands. -/
theorem Opcode.expand_template (regs : Registers) (uses defs : List Temp) {op : Opcode}
    (hop : ∀ template, op ≠ .other template) (hlabel : ∀ l ∈ op.label?, l.Legible) :
    regs.expand op.template uses defs
      = statement op.mnemonic (op.operands.map (regs.shown uses defs)) := by
  have hblank : regs.shown uses defs [Piece.char ' '] = " " := Registers.shown_chars regs uses defs " "
  show regs.shown uses defs (Piece.ofTemplate op.template) = _
  rw [Opcode.ofTemplate_template hop hlabel, ← List.singleton_append, Registers.shown_append,
    Registers.shown_append, hblank, Registers.shown_chars, Registers.shown_intercalate, statement,
    String.append_assoc]

theorem Opcode.isWord_mnemonic (op : Opcode) : IsWord op.mnemonic := by
  cases op with
  | loadWyde place _ => cases place <;> simp only [mnemonic, WydePlace.mnemonic] <;> decide
  | arith op => cases op <;> simp only [mnemonic, Arith.mnemonic] <;> decide
  | setIf test => cases test <;> simp only [mnemonic, SignTest.mnemonic] <;> decide
  | _ =>
    simp only [mnemonic]
    decide

/-- **The reference of an operation** is the label in its text. -/
theorem Opcode.reference?_expand (regs : Registers) (uses defs : List Temp) {op : Opcode}
    (hop : ∀ template, op ≠ .other template) (hlabel : ∀ l ∈ op.label?, l.Legible) :
    reference? (regs.expand op.template uses defs).toList = op.label? := by
  have hne : op.operands.map (regs.shown uses defs) ≠ [] := by
    cases op with
    | other template => exact absurd rfl (hop template)
    | _ => simp [operands]
  rw [expand_template regs uses defs hop hlabel,
    reference?_statement op.isWord_mnemonic (isWord_operands regs uses defs hlabel) hne]
  cases op with
  | loadAddress label => simp [mnemonic, labelMnemonics, operands, label?]
  | branch label => simp [mnemonic, labelMnemonics, operands, label?]
  | goto label => simp [mnemonic, labelMnemonics, operands, label?]
  | call label => simp [mnemonic, labelMnemonics, operands, label?]
  | loadWyde place _ => cases place <;> rfl
  | arith op => cases op <;> rfl
  | setIf test => cases test <;> rfl
  | _ => rfl

theorem Opcode.newline_not_mem_expand (regs : Registers) (uses defs : List Temp) {op : Opcode}
    (hop : ∀ template, op ≠ .other template) (hlabel : ∀ l ∈ op.label?, l.Legible) :
    '\n' ∉ (regs.expand op.template uses defs).toList := by
  rw [expand_template regs uses defs hop hlabel]
  exact newline_not_mem_statement op.isWord_mnemonic (isWord_operands regs uses defs hlabel)

/-! ## §5 Lines -/

namespace Assembly

/-- A line whose text can be read back: its label is a word and its instruction has no line breaks.
What the instruction refers to satisfies `refs`. -/
def Line.Written (refs : Label → Prop) (l : Line) : Prop :=
  (l.label = "" ∨ Label.Legible l.label) ∧ '\n' ∉ l.instr.toList ∧ ∀ r ∈ reference? l.instr.toList, refs r

instance (refs : Label → Prop) [DecidablePred refs] (l : Line) : Decidable (l.Written refs) :=
  inferInstanceAs (Decidable ((l.label = "" ∨ Label.Legible l.label) ∧ '\n' ∉ l.instr.toList ∧
    ∀ r ∈ reference? l.instr.toList, refs r))

theorem Line.Written.mono {refs refs' : Label → Prop} {l : Line} (h : l.Written refs)
    (hrefs : ∀ r, refs r → refs' r) : l.Written refs' :=
  ⟨h.1, h.2.1, fun r hr => hrefs r (h.2.2 r hr)⟩

/-- The labels that lines define. -/
def labelsOf (ls : List Line) : List Label := (ls.map Line.label).filter (· ≠ "")

@[simp] theorem labelsOf_nil : labelsOf [] = [] := rfl

@[simp] theorem labelsOf_append (ls ls' : List Line) :
    labelsOf (ls ++ ls') = labelsOf ls ++ labelsOf ls' := by
  simp [labelsOf]

theorem labelsOf_cons_plain (instr : String) (ls : List Line) :
    labelsOf (plain instr :: ls) = labelsOf ls := by
  simp [labelsOf, plain]

theorem labelsOf_cons {l : Label} (h : l.Legible) (instr : String) (ls : List Line) :
    labelsOf (⟨l, instr⟩ :: ls) = l :: labelsOf ls := by
  simp [labelsOf, h.1]

/-- The characters of a line without its line break. -/
def Line.row (l : Line) : List Char :=
  if l.instr.isEmpty then l.label.toList else l.label.toList ++ '\t' :: l.instr.toList

theorem Line.toList_text (l : Line) : l.text.toList = l.row ++ ['\n'] := by
  unfold Line.text Line.row
  split <;> simp

variable {refs : Label → Prop} {l : Line}

/-- The label of a line ends where one of the separators stands. -/
theorem Line.Written.label_char_ne (h : l.Written refs) {c : Char} (hc : c ∈ l.label.toList) :
    c ≠ '\t' ∧ c ≠ '\n' := by
  rcases h.1 with h | h
  · rw [h] at hc
    cases hc
  · exact ⟨h.char_ne hc (by decide), h.char_ne hc (by decide)⟩

theorem Line.Written.newline_not_mem_row (h : l.Written refs) : '\n' ∉ l.row := by
  have hlabel : '\n' ∉ l.label.toList := fun hmem => (h.label_char_ne hmem).2 rfl
  unfold Line.row
  split
  · exact hlabel
  · simp only [List.mem_append, List.mem_cons, not_or]
    exact ⟨hlabel, by decide, h.2.1⟩

/-- The fields of a line are its label and its instruction. -/
theorem Line.Written.fields_row (h : l.Written refs) :
    labelField l.row = l.label.toList ∧ instrField l.row = l.instr.toList := by
  have hall : ∀ c ∈ l.label.toList, decide (c ≠ '\t') = true := fun c hc =>
    decide_eq_true (h.label_char_ne hc).1
  unfold labelField instrField Line.row
  split
  · next hempty =>
    rw [List.dropWhile_eq_nil_iff.mpr hall, String.isEmpty_iff.mp hempty]
    exact ⟨List.takeWhile_eq_self_iff.mpr hall, rfl⟩
  · rw [List.takeWhile_append_of_pos hall, List.dropWhile_append_of_pos hall]
    simp

/-- **A text is read back as the lines it was written from.** -/
theorem rows_join : ∀ {ls : List Line}, (∀ l ∈ ls, l.Written refs) →
    rows (String.join (ls.map Line.text)) = ls.map Line.row ++ [[]]
  | [], _ => rfl
  | l :: ls, h => by
    obtain ⟨hl, hls⟩ := List.forall_mem_cons.mp h
    have ih := rows_join hls
    unfold rows at ih ⊢
    rw [List.map_cons, String.join_cons, String.toList_append, Line.toList_text, List.append_assoc,
      List.singleton_append, List.splitOn_append_cons_self_of_not_mem hl.newline_not_mem_row, ih]
    rfl

/-- The line that stands in a row of a text. -/
def Line.ofRow (row : List Char) : Line :=
    ⟨String.ofList (labelField row), String.ofList (instrField row)⟩

/-- The lines of a text, the last of which is empty. -/
def linesOf (text : String) : List Line := (rows text).map Line.ofRow

theorem linesOf_join {ls : List Line} (h : ∀ l ∈ ls, l.Written refs) :
    linesOf (String.join (ls.map Line.text)) = ls ++ [blank] := by
  have hline : ∀ l ∈ ls, Line.ofRow l.row = l := fun l hl => by
    obtain ⟨hlabel, hinstr⟩ := (h l hl).fields_row
    rw [Line.ofRow, hlabel, hinstr, String.ofList_toList, String.ofList_toList]
  rw [linesOf, rows_join h, List.map_append, List.map_map]
  exact congrArg₂ (· ++ ·) ((List.map_congr_left hline).trans (List.map_id' ls)) rfl

/-- The labels that a written text defines. -/
theorem definedLabels_join {ls : List Line} (h : ∀ l ∈ ls, l.Written refs) :
    definedLabels (String.join (ls.map Line.text)) = labelsOf ls := by
  unfold definedLabels labelsOf
  rw [rows_join h, List.map_append, List.filter_append, List.map_map]
  have hlabels : ls.map ((fun row => String.ofList (labelField row)) ∘ Line.row) = ls.map Line.label :=
    List.map_congr_left fun l hl => by simp [(h l hl).fields_row]
  rw [hlabels]
  simp [labelField]

/-- The labels that a written text refers to. -/
theorem references_join {ls : List Line} (h : ∀ l ∈ ls, l.Written refs) :
    ∀ r ∈ references (String.join (ls.map Line.text)), refs r := by
  intro r hr
  unfold references at hr
  rw [rows_join h, List.mem_filterMap] at hr
  obtain ⟨row, hrow, hreference⟩ := hr
  rcases List.mem_append.mp hrow with hrow | hrow
  · obtain ⟨l, hl, rfl⟩ := List.mem_map.mp hrow
    rw [(h l hl).fields_row.2] at hreference
    exact (h l hl).2.2 r hreference
  · rw [List.mem_singleton.mp hrow] at hreference
    cases hreference

end Assembly

end MmixBackend
