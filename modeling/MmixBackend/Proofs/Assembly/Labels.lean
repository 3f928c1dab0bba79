import MmixBackend.Proofs.Assembly.Reading

/-!
# Labels in the text of a program

The text of a program defines the labels of its data and of its functions, those of the runtime
routines and four fixed symbols. Its instructions refer to the labels that the selected instructions
mention, to the entry points of the functions, and to a few of the fixed ones.

## Main statements

- `Assembly.reads_body`: the lines of an instruction list.
- `Assembly.read_write`: which labels the text of a program defines, and which it refers to.
-/

namespace MmixBackend

open Assembly

/-! ## §1 Instructions -/

/-- The label in the text of an instruction is known. -/
theorem Instr.Linked.refs {refs : Label → Prop} {op : Opcode} {uses defs : List Temp} {jumps : List Label}
    {flow : Flow} (h : (Instr.oper op uses defs jumps flow).Linked refs refs)
    (htargets : ∀ l ∈ Instr.targetsOf [.oper op uses defs jumps flow], refs l) :
    ∀ l ∈ op.label?, refs l := by
  have hjumps : ∀ l, flow ≠ .call ∧ l ∈ jumps → refs l := fun l hl => by
    apply htargets l
    simp [Instr.targetsOf, Instr.flow, Instr.jumps, hl]
  intro l hl
  cases op with
  | loadAddress l' | call l' =>
    cases hl
    exact h
  | branch l' | goto l' =>
    cases hl
    exact hjumps l h
  | _ => cases hl

namespace Assembly

variable {refs : Label → Prop}

/-! ## §2 Lines that can be read back -/

/-- Lines that can be read back and define the given labels. What they refer to satisfies `refs`. -/
structure Reads (refs : Label → Prop) (ls : List Line) (labels : List Label) : Prop where
  written : ∀ l ∈ ls, l.Written refs
  labels : labelsOf ls = labels

namespace Reads

variable {ls ls' : List Line} {labels labels' : List Label}

theorem nil : Reads refs [] [] := ⟨by simp, rfl⟩

theorem append (h : Reads refs ls labels) (h' : Reads refs ls' labels') :
    Reads refs (ls ++ ls') (labels ++ labels') where
  written := List.forall_mem_append.mpr ⟨h.written, h'.written⟩
  labels := by rw [labelsOf_append, h.labels, h'.labels]

/-- Lines without references that are the same for all programs. -/
theorem fixed (h : ∀ l ∈ ls, l.Written fun _ => False) (hlabels : labelsOf ls = labels) :
    Reads refs ls labels := ⟨fun l hl => (h l hl).mono fun _ hr => hr.elim, hlabels⟩

/-- A line behind a label. -/
theorem labelled {l : Label} (h : l.Legible) {instr : String} (hinstr : Line.Written refs ⟨l, instr⟩) :
    Reads refs [⟨l, instr⟩] [l] :=
  ⟨List.forall_mem_singleton.mpr hinstr, labelsOf_cons h _ _⟩

/-- A line without a label. -/
theorem unlabelled {instr : String} (hinstr : Line.Written refs ⟨"", instr⟩) :
    Reads refs [plain instr] [] :=
  ⟨List.forall_mem_singleton.mpr hinstr, labelsOf_cons_plain _ _⟩

end Reads

/-- A line with an instruction and a label that is a word, if there is one. -/
theorem written_statement {label mnemonic : String} {operands : List String}
    (hlabel : label = "" ∨ Label.Legible label) (hmnemonic : IsWord mnemonic)
    (hoperands : ∀ o ∈ operands, IsWord o) (hne : operands ≠ [])
    (hrefs : mnemonic ∈ labelMnemonics → ∀ r ∈ operands.getLast?, refs r) :
    Line.Written refs ⟨label, statement mnemonic operands⟩ := by
  refine ⟨hlabel, newline_not_mem_statement hmnemonic hoperands, fun r hr => ?_⟩
  rw [reference?_statement hmnemonic hoperands hne] at hr
  split at hr
  · exact hrefs ‹_› r hr
  · cases hr

/-- A line that only holds a label. -/
theorem reads_mark {l : Label} (h : l.Legible) : Reads refs [⟨l, "SWYM"⟩] [l] := by
  refine .labelled h ⟨.inr h, show '\n' ∉ "SWYM".toList by decide, ?_⟩
  show ∀ r ∈ reference? "SWYM".toList, refs r
  rw [show reference? "SWYM".toList = none from rfl]
  simp

theorem reads_loadWord {reg : String} (hreg : IsWord reg) (v : Word) :
    Reads refs (loadWord reg v) [] := by
  unfold loadWord
  induction Instr.loadedWydes v with
  | nil => exact .nil
  | cons group groups ih =>
    obtain ⟨place, value⟩ := group
    have hstatement : place.mnemonic ++ " " ++ reg ++ "," ++ toString value
        = statement place.mnemonic [reg, toString value] := by
      apply String.toList_injective
      simp [statement]
    have hline : Line.Written refs ⟨"", place.mnemonic ++ " " ++ reg ++ "," ++ toString value⟩ := by
      rw [hstatement]
      refine written_statement (.inl rfl) (Opcode.isWord_mnemonic (.loadWyde place value)) ?_ (by simp) ?_
      · simp only [List.forall_mem_cons, List.not_mem_nil, false_implies, implies_true, and_true]
        exact ⟨hreg, isWord_nat value⟩
      · cases place <;> simp [WydePlace.mnemonic, labelMnemonics]
    exact (Reads.unlabelled hline).append ih

/-! ## §3 Functions -/

/-- An instruction of a function behind a label or without one. -/
theorem written_instr (hrefs : ∀ l, refs l → Label.Legible l) (regs : Registers) {label : String}
    (hlabel : label = "" ∨ Label.Legible label) {i : Instr} (hi : i.Linked refs refs)
    (htargets : ∀ l ∈ Instr.targetsOf [i], refs l) (hmark : ∀ l, i ≠ .label l) :
    Line.Written refs ⟨label, i.text regs⟩ := by
  cases i with
  | oper op uses defs jumps flow =>
    have hop : ∀ template, op ≠ .other template := by
      rintro template rfl
      exact hi
    have hknown := hi.refs htargets
    have hlegible : ∀ l ∈ op.label?, l.Legible := fun l hl => hrefs l (hknown l hl)
    refine ⟨hlabel, Opcode.newline_not_mem_expand regs uses defs hop hlegible, fun r hr => ?_⟩
    rw [Instr.text, Opcode.reference?_expand regs uses defs hop hlegible] at hr
    exact hknown r hr
  | move src dst =>
    have hname : ∀ t : Temp, IsWord (regs.name t) := fun t => isWord_slot regs "s" (by decide) [t] 0
    have hstatement : Instr.text regs (.move src dst) = statement "SET"
        [regs.name dst, regs.name src] := by
      apply String.toList_injective
      simp [Instr.text, statement]
    rw [hstatement]
    refine written_statement hlabel (by decide) ?_ (by simp) (by simp [labelMnemonics])
    simp [hname]
  | label l => exact absurd rfl (hmark l)

/-- The lines with pending labels and the line behind them. -/
theorem reads_labeled {pending : List Label} (hpending : ∀ l ∈ pending, l.Legible) {instr : String}
    (hinstr : ∀ label, (label = "" ∨ Label.Legible label) → Line.Written refs ⟨label, instr⟩) :
    Reads refs (labeled pending instr) pending := by
  induction pending with
  | nil => exact .unlabelled (hinstr "" (.inl rfl))
  | cons l ls ih =>
    obtain ⟨hl, hls⟩ := List.forall_mem_cons.mp hpending
    cases ls with
    | nil => exact .labelled hl (hinstr l (.inr hl))
    | cons l' ls =>
      rw [labeled]
      · exact (reads_mark hl).append (ih hls)
      · simp

theorem reads_marks {pending : List Label} (hpending : ∀ l ∈ pending, l.Legible) :
    Reads refs (pending.map fun l => ⟨l, "SWYM"⟩) pending := by
  induction pending with
  | nil => exact .nil
  | cons l ls ih =>
    obtain ⟨hl, hls⟩ := List.forall_mem_cons.mp hpending
    exact (reads_mark hl).append (ih hls)

/-- **The lines of an instruction list** define its labels, and refer to what its instructions mention. -/
theorem reads_body (hrefs : ∀ l, refs l → Label.Legible l) (regs : Registers) {is : List Instr}
    {pending : List Label} (hpending : ∀ l ∈ pending, l.Legible)
    (hlabels : ∀ l ∈ Instr.labelsOf is, l.Legible) (hlinked : ∀ i ∈ is, i.Linked refs refs)
    (htargets : ∀ l ∈ Instr.targetsOf is, refs l) :
    Reads refs (body regs pending is) (pending ++ Instr.labelsOf is) := by
  -- The labels that wait for a line change along the list, so the induction is for all of them.
  induction is generalizing pending with
  | nil =>
    rw [body, Instr.labelsOf_nil, List.append_nil]
    exact reads_marks hpending
  | cons i is ih =>
    obtain ⟨hi, his⟩ := List.forall_mem_cons.mp hlinked
    rw [← List.singleton_append, Instr.labelsOf_append, List.forall_mem_append] at hlabels
    rw [← List.singleton_append, Instr.targetsOf_append, List.forall_mem_append] at htargets
    by_cases hmark : ∃ l, i = .label l
    · -- A label waits for the next line.
      obtain ⟨l, rfl⟩ := hmark
      have hl : l.Legible := hlabels.1 l (List.mem_singleton_self l)
      have hbody := ih (List.forall_mem_append.mpr ⟨hpending, List.forall_mem_singleton.mpr hl⟩)
        hlabels.2 his htargets.2
      rw [List.append_assoc] at hbody
      exact hbody
    · push Not at hmark
      have hnone : Instr.labelsOf (i :: is) = Instr.labelsOf is := by
        cases i with
        | label l => exact absurd rfl (hmark l)
        | _ => rfl
      rw [body, hnone]
      -- A move within one register has no line, and the labels wait on.
      · split
        · exact ih hpending hlabels.2 his htargets.2
        · have hline := reads_labeled hpending fun label hlabel =>
            written_instr hrefs regs hlabel hi htargets.1 hmark
          exact hline.append (ih (by simp) hlabels.2 his htargets.2)
      · exact hmark

end Assembly

/-- The labels in the text of a function. -/
def Code.labels (c : Code) : List Label := c.frame.label :: (Instr.labelsOf c.instrs ++ [c.exit])

/-- A function whose labels are words and whose instructions refer to labels that satisfy `refs`. -/
structure Code.Writable (refs : Label → Prop) (c : Code) : Prop where
  legible : ∀ l ∈ c.labels, l.Legible
  entry : refs c.entry
  linked : ∀ i ∈ c.instrs, i.Linked refs refs
  targets : ∀ l ∈ Instr.targetsOf c.instrs, refs l

namespace Assembly

variable {refs : Label → Prop} {c : Code}

theorem reads_prologue (hrefs : ∀ l, refs l → Label.Legible l) (h : c.Writable refs) :
    Reads refs (prologue c) [c.frame.label] := by
  have hentry : Reads refs [plain ("JMP " ++ c.entry)] [] := by
    have hstatement : "JMP " ++ c.entry = statement "JMP" [c.entry] := by
      apply String.toList_injective
      simp [statement]
    rw [hstatement]
    refine .unlabelled (written_statement (.inl rfl) (by decide) ?_ (by simp) fun _ => ?_)
    · exact List.forall_mem_singleton.mpr (hrefs _ h.entry).isWord
    · simpa using h.entry
  have hsub : Reads refs [plain "SUB $254,$254,$0"] [] := .fixed (by decide) rfl
  have hzero : IsWord "$0" := by decide
  have hmark : Reads refs [⟨c.frame.label, "SWYM"⟩] [c.frame.label] :=
    reads_mark (h.legible _ List.mem_cons_self)
  have hstart := hmark.append (reads_loadWord hzero (savedDistance c.frame))
  exact ((hstart.append (.fixed (by decide) rfl)).append (reads_loadWord hzero c.frameSize)).append
    (hsub.append hentry)

theorem reads_epilogue (c : Code) : Reads refs (epilogue c) [] := by
  have hzero : IsWord "$0" := by decide
  exact ((Reads.fixed (by decide) rfl).append (reads_loadWord hzero _)).append (.fixed (by decide) rfl)

theorem reads_storeResult {store : List Line} (h : storeResult c = .ok store) : Reads refs store [] := by
  unfold storeResult at h
  split at h
  · next reg hreg =>
    cases h
    have hstatement : "STO $" ++ toString reg ++ ",$253,0"
        = statement "STO" ["$" ++ toString reg, "$253", "0"] := by
      apply String.toList_injective
      simp [statement]
    rw [hstatement]
    refine .unlabelled (written_statement (.inl rfl) (by decide) ?_ (by simp) (by simp [labelMnemonics]))
    simp only [List.forall_mem_cons, List.not_mem_nil, false_implies, implies_true, and_true]
    exact ⟨IsWord.append (by decide) (isWord_int reg), by decide, by decide⟩
  · split at h
    · cases h
      exact (reads_loadWord (by decide) _).append (.fixed (by decide) rfl)
    · cases h

/-- The lines of a function define its labels. -/
theorem reads_functionHead (hrefs : ∀ l, refs l → Label.Legible l) (k : Int) (h : c.Writable refs) :
    Reads refs (functionHead k c) c.labels := by
  obtain ⟨-, hlegible⟩ := List.forall_mem_cons.mp h.legible
  obtain ⟨hlabels, hexit⟩ := List.forall_mem_append.mp hlegible
  have hbody : Reads refs (body { colors := c.regs, window := k } [] c.instrs)
      (Instr.labelsOf c.instrs) :=
    reads_body hrefs _ (by simp) hlabels h.linked h.targets
  exact ((reads_prologue hrefs h).append hbody).append
    (reads_mark (hexit c.exit (List.mem_singleton_self _)))

theorem reads_functions (hrefs : ∀ l, refs l → Label.Legible l) (k : Int) : ∀ {cs : List Code}
    {ls : List Line}, (∀ c ∈ cs, c.Writable refs) → functions k cs = (ls, none) →
      Reads refs ls (cs.flatMap Code.labels)
  | [], _, _, h => by
    cases h
    exact .nil
  | c :: cs, ls, hcs, h => by
    obtain ⟨hc, hcs⟩ := List.forall_mem_cons.mp hcs
    rw [functions] at h
    split at h
    · cases h
    · next store hstore =>
      rcases hrest : functions k cs with ⟨rest, fault⟩
      rw [hrest] at h
      cases h
      have hblank : Reads refs [blank] [] := .fixed (by decide) rfl
      have hhead := ((reads_functionHead hrefs k hc).append (reads_storeResult hstore)).append
        (reads_epilogue c)
      simp only [List.append_nil] at hhead
      exact hhead.append (hblank.append (reads_functions hrefs k hcs hrest))

/-! ## §4 Programs -/

theorem reads_dataLines {d : StaticData} (h : d.label.Legible) : Reads refs (dataLines d) [d.label] := by
  -- A single octabyte has no operand, so it refers to nothing.
  have hplain : Reads refs [⟨d.label, "OCTA"⟩] [d.label] := by
    refine .labelled h ⟨.inr h, show '\n' ∉ "OCTA".toList by decide, ?_⟩
    show ∀ r ∈ reference? "OCTA".toList, refs r
    rw [show reference? "OCTA".toList = none from rfl]
    simp
  unfold dataLines
  split
  · next text hinit =>
    -- The bytes of a text are numbers, and so is the zero behind them.
    have hbytes : ∀ o ∈ (text.toUTF8.toList.map fun b => toString b.toNat) ++ ["0"], IsWord o := by
      rw [List.forall_mem_append, List.forall_mem_map]
      exact ⟨fun b _ => isWord_nat b.toNat, by decide⟩
    have hstatement : ∀ bytes : List String,
        "OCTA " ++ String.intercalate "," bytes = statement "OCTA" bytes := by
      intro bytes
      apply String.toList_injective
      simp [statement]
    dsimp only
    rw [hstatement]
    exact .labelled h
      (written_statement (.inr h) (by decide) hbytes (by simp) (by simp [labelMnemonics]))
  · split
    · have hstatement : "LOC " ++ d.label ++ "+" ++ d.size.text
          = statement "LOC" [d.label ++ "+" ++ d.size.text] := by
        apply String.toList_injective
        simp [statement]
      -- The space behind the first octabyte is left by a jump to its end, which names the label.
      have hspace : Reads refs [plain ("LOC " ++ d.label ++ "+" ++ d.size.text)] [] := by
        rw [hstatement]
        refine .unlabelled (written_statement (.inl rfl) (by decide) ?_ (by simp)
          (by simp [labelMnemonics]))
        exact List.forall_mem_singleton.mpr ((h.isWord.append (by decide)).append (isWord_int _))
      exact hplain.append hspace
    · exact hplain

theorem reads_data : ∀ {data : List StaticData}, (∀ d ∈ data, d.label.Legible) →
    Reads refs (data.flatMap dataLines) (data.map StaticData.label)
  | [], _ => .nil
  | d :: data, h => by
    obtain ⟨hd, hdata⟩ := List.forall_mem_cons.mp h
    exact (reads_dataLines hd).append (reads_data hdata)

theorem reads_startup (hmain : refs (.global "main")) (k : Int) (size : Word) :
    Reads refs (startup k size) ["Main"] := by
  have hzero : IsWord "$0" := by decide
  have hcall : Reads refs [plain ("PUSHJ $" ++ toString k ++ ",_main")] [] := by
    have hstatement : "PUSHJ $" ++ toString k ++ ",_main"
        = statement "PUSHJ" ["$" ++ toString k, "_main"] := by
      apply String.toList_injective
      simp [statement]
    rw [hstatement]
    refine .unlabelled (written_statement (.inl rfl) (by decide) ?_ (by simp) fun _ => ?_)
    · simp only [List.forall_mem_cons, List.not_mem_nil, false_implies, implies_true, and_true]
      exact ⟨IsWord.append (by decide) (isWord_int k), by decide⟩
    · have hlast : refs "_main" := hmain
      simpa using hlast
  have hhalt : Reads refs [plain "TRAP 0,Halt,0"] [] := .fixed (by decide) rfl
  have hstart : Reads refs ([⟨"Main", "SET $0,252"⟩, plain "PUT rG,$0"]
      ++ List.replicate 4 (plain "GREG 0")) ["Main"] := .fixed (by decide) rfl
  exact ((((hstart.append (reads_loadWord hzero stackTop)).append (.fixed (by decide) rfl)).append
    (reads_loadWord hzero (dataStart + size))).append (.fixed (by decide) rfl)).append
      (hcall.append hhalt)

/-- The labels of the buffers at the start of the data segment. -/
def bufferLabels : List Label := ["OutBuf", "InBuf", "Arg"]

/-- The labels of the runtime routines. -/
def runtimeLabels : List Label := ["_getChar", "_putChar", "_new", "_del", "_exit"]

theorem reads_runtime (hbuffers : ∀ l ∈ bufferLabels, refs l) : Reads refs runtime runtimeLabels := by
  have hruntime : ∀ l ∈ runtime, l.Written (· ∈ bufferLabels) := by decide
  exact ⟨fun l hl => (hruntime l hl).mono hbuffers, rfl⟩

/-- The labels that the text of a program defines. -/
def programLabels (data : List StaticData) (cs : List Code) : List Label :=
  bufferLabels ++ data.map StaticData.label ++ ["Main"] ++ cs.flatMap Code.labels ++ runtimeLabels

/-- **The lines of a program** define the labels of its data and its functions and the fixed ones. -/
theorem reads_lines {k : Int} {data : List StaticData} {cs : List Code} {ls : List Line}
    (hrefs : ∀ l, refs l → Label.Legible l) (hdata : ∀ d ∈ data, d.label.Legible)
    (hcs : ∀ c ∈ cs, c.Writable refs) (hmain : refs (.global "main"))
    (hbuffers : ∀ l ∈ bufferLabels, refs l) (h : lines k data cs = (ls, none)) :
    Reads refs ls (programLabels data cs) := by
  unfold lines at h
  rcases hfunctions : functions k cs with ⟨funs, _ | fault⟩
  · rw [hfunctions] at h
    obtain rfl := (Prod.mk.inj h).1
    have hblank : Reads refs [blank] [] := .fixed (by decide) rfl
    have hsegment : Reads refs (dataSegment data) (bufferLabels ++ data.map StaticData.label) :=
      .append (.fixed (by decide) rfl) (reads_data hdata)
    have horigin : Reads refs [blank, plain "LOC #100"] [] := .fixed (by decide) rfl
    have hhead := ((hsegment.append horigin).append (reads_startup hmain k (dataSize data))).append hblank
    have hall := (hhead.append (reads_functions hrefs k hcs hfunctions)).append (reads_runtime hbuffers)
    simp only [List.append_nil] at hall
    exact hall
  · rw [hfunctions] at h
    cases (Prod.mk.inj h).2

/-- **What is read from the text of a program**: it defines the labels of its data and its functions
and the fixed ones, and it refers to labels that satisfy `refs`. -/
theorem read_write {k : Int} {data : List StaticData} {cs : List Code} {text : String}
    (hrefs : ∀ l, refs l → Label.Legible l) (hdata : ∀ d ∈ data, d.label.Legible)
    (hcs : ∀ c ∈ cs, c.Writable refs) (hmain : refs (.global "main"))
    (hbuffers : ∀ l ∈ bufferLabels, refs l) (h : write k data cs = (text, none)) :
    definedLabels text = programLabels data cs ∧ ∀ r ∈ references text, refs r := by
  unfold write at h
  rcases hlines : lines k data cs with ⟨ls, fault⟩
  rw [hlines] at h
  cases h
  have hreads := reads_lines hrefs hdata hcs hmain hbuffers hlines
  exact ⟨(definedLabels_join hreads.written).trans hreads.labels, references_join hreads.written⟩

end Assembly

end MmixBackend
