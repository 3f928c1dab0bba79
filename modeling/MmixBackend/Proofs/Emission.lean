import MmixBackend.Proofs.Assembly.Templates
import MmixBackend.Proofs.UniqueLabels

/-!
# Emission loses nothing

The text of a function contains its code between the jump to its entry and its exit label. Labels
share a line with the instruction behind them. A label with no instruction behind it gets a line
with `SWYM`, which does nothing, and moves within one register are left out.

Reading these lines back gives the code: each label once, where it stands among the instructions,
and every instruction with the registers of its temps in the slots of its template.

## Main statements

- `Assembly.carries_body`: the lines of an instruction list carry the list.
- `Assembly.codeLines_join`: these lines are found in the text of a program.
- `emission_loses_nothing`: both for accepted programs.
-/

namespace MmixBackend

open Source Assembly Relation

/-! ## §1 Lines that carry code -/

namespace Assembly

/-- The lines of the code of a function in a text: behind the label of the function they stand
between the jump to its entry and its exit label. -/
def codeLines (c : Code) (text : String) : List Line :=
  (((linesOf text).dropWhile fun l => l.label ≠ c.frame.label).dropWhile fun l =>
    l.instr ≠ "JMP " ++ c.entry).tail.takeWhile fun l => l.label ≠ c.exit

/-- What a line can carry. -/
inductive Item where
  | label (l : Label)
  | instr (text : String)
  deriving DecidableEq

/-- What a line carries: its label, if it has one, and its instruction. `SWYM` only fills the line. -/
def Line.items (l : Line) : List Item :=
  (if l.label = "" then [] else [.label l.label]) ++ if l.instr = "SWYM" then [] else [.instr l.instr]

/-- The items are the labels and the instructions of the code in order. The templates of operations
are expanded and moves are written with the registers of their temps, unless both temps have the
same register. -/
inductive Carries (regs : Registers) : List Instr → List Item → Prop
  | nil : Carries regs [] []
  | label {l : Label} {is : List Instr} {items : List Item} : Carries regs is items →
    Carries regs (.label l :: is) (.label l :: items)
  | oper {op : Opcode} {uses defs : List Temp} {jumps : List Label} {flow : Flow} {text : String}
      {is : List Instr} {items : List Item} : regs.Expands uses defs op.template.toList text.toList →
    Carries regs is items → Carries regs (.oper op uses defs jumps flow :: is) (.instr text :: items)
  | move {src dst : Temp} {r r' : Int} {is : List Instr} {items : List Item} :
      regs.colors[src]? = some r →
    regs.colors[dst]? = some r' → r ≠ r' → Carries regs is items →
      Carries regs (.move src dst :: is) (.instr ("SET $" ++ toString r' ++ ",$" ++ toString r) :: items)
  | dropped {src dst : Temp} {r : Int} {is : List Instr} {items : List Item} :
      regs.colors[src]? = some r →
    regs.colors[dst]? = some r → Carries regs is items → Carries regs (.move src dst :: is) items

theorem items_instr {label : Label} {instr : String} (h : ' ' ∈ instr.toList) :
    Line.items ⟨label, instr⟩ = (if label = "" then [] else [.label label]) ++ [.instr instr] := by
  have hne : instr ≠ "SWYM" := by
    rintro rfl
    revert h
    decide
  simp only [Line.items, if_neg hne]

theorem items_mark {l : Label} (hl : l.Legible) : Line.items ⟨l, "SWYM"⟩ = [.label l] := by
  rw [Line.items, if_neg hl.1, if_pos rfl, List.append_nil]

theorem items_labeled {instr : String} (h : ' ' ∈ instr.toList) : ∀ {pending : List Label},
    (∀ l ∈ pending, l.Legible) →
      (labeled pending instr).flatMap Line.items = pending.map Item.label ++ [.instr instr]
  | [], _ => by
    rw [labeled, List.flatMap_singleton, plain, items_instr h]
    rfl
  | [l], hl => by
    rw [labeled, List.flatMap_singleton, items_instr h, if_neg (List.forall_mem_singleton.mp hl).1]
    rfl
  | l :: l' :: ls, hl => by
    obtain ⟨hl, hls⟩ := List.forall_mem_cons.mp hl
    rw [labeled, List.flatMap_cons, items_mark hl, items_labeled h hls]
    · rfl
    · simp

theorem items_marks : ∀ {pending : List Label}, (∀ l ∈ pending, l.Legible) →
    (pending.map fun l => (⟨l, "SWYM"⟩ : Line)).flatMap Line.items = pending.map Item.label
  | [], _ => rfl
  | l :: ls, hl => by
    obtain ⟨hl, hls⟩ := List.forall_mem_cons.mp hl
    rw [List.map_cons, List.flatMap_cons, items_mark hl, items_marks hls]
    rfl

/-- What the lines of an instruction need: labels that are words, temps for all slots, and registers
for all temps. -/
structure Emittable (regs : Registers) (i : Instr) : Prop where
  linked : i.Linked Label.Legible Label.Legible
  targets : ∀ l ∈ Instr.targetsOf [i], l.Legible
  filled : i.Filled
  registers : ∀ t ∈ i.uses ++ i.defs, ∃ r, regs.colors[t]? = some r

theorem Emittable.expands {regs : Registers} (hwindow : 0 ≤ regs.window) {op : Opcode}
    {uses defs : List Temp} {jumps : List Label} {flow : Flow}
    (h : Emittable regs (.oper op uses defs jumps flow)) :
    regs.Expands uses defs op.template.toList (regs.expand op.template uses defs).toList ∧
      ' ' ∈ (regs.expand op.template uses defs).toList := by
  have hop : ∀ template, op ≠ .other template := by
    rintro template rfl
    exact h.linked
  have hlabel := h.linked.refs h.targets
  obtain ⟨huses, hdefs⟩ := h.filled
  have hslots := op.slots_le
  have hholds {temps : List Temp} (htemps : ∀ t ∈ temps, t ∈ uses ++ defs) {i : Nat}
    (hi : i < temps.length)
      (hi' : i < 3) : regs.Holds temps i := by
    obtain ⟨r, hr⟩ := h.registers temps[i] (htemps _ (List.getElem_mem hi))
    exact ⟨Nat.le_trans (Nat.le_of_lt hi') (by decide), temps[i], r, List.getElem?_eq_getElem hi, hr⟩
  refine ⟨Opcode.expands_template hop hlabel hwindow (fun i hi => ?_) fun i hi => ?_, ?_⟩
  · exact hholds (fun t => List.mem_append_left _) (by omega) (by omega)
  · exact hholds (fun t => List.mem_append_right _) (by omega) (by omega)
  · rw [Opcode.expand_template regs uses defs hop hlabel, toList_statement]
    simp

/-- **The lines of an instruction list carry the list**, behind the labels that are still to be placed. -/
theorem carries_body {regs : Registers} (hwindow : 0 ≤ regs.window) :
    ∀ (is : List Instr) {pending : List Label},
    (∀ l ∈ pending, l.Legible) → (∀ l ∈ Instr.labelsOf is, l.Legible) → (∀ i ∈ is, Emittable regs i) →
      ∃ items, Carries regs is items ∧
        (body regs pending is).flatMap Line.items = pending.map Item.label ++ items
  | [], pending, hpending, _, _ => by
    refine ⟨[], .nil, ?_⟩
    rw [body, items_marks hpending, List.append_nil]
  | .label l :: is, pending, hpending, hlabels, his => by
    obtain ⟨hl, hlabels⟩ := List.forall_mem_cons.mp (show ∀ l' ∈ l :: Instr.labelsOf is,
      l'.Legible from hlabels)
    have hpending' : ∀ l' ∈ pending ++ [l], l'.Legible :=
      List.forall_mem_append.mpr ⟨hpending, List.forall_mem_singleton.mpr hl⟩
    -- The label waits with the others for the next line.
    obtain ⟨items, hitems, heq⟩ := carries_body hwindow is hpending' hlabels
      (List.forall_mem_cons.mp his).2
    refine ⟨.label l :: items, .label hitems, ?_⟩
    rw [body, heq, List.map_append, List.append_assoc]
    rfl
  | .oper op uses defs jumps flow :: is, pending, hpending, hlabels, his => by
    obtain ⟨hi, his⟩ := List.forall_mem_cons.mp his
    -- The line takes all labels that have been waiting.
    obtain ⟨items, hitems, heq⟩ := carries_body hwindow is (List.forall_mem_nil _) hlabels his
    obtain ⟨hexpands, hblank⟩ := hi.expands hwindow
    refine ⟨.instr (regs.expand op.template uses defs) :: items, .oper hexpands hitems, ?_⟩
    rw [body, if_neg (by simp [isIdentityMove]), List.flatMap_append, heq, Instr.text,
      items_labeled hblank hpending, List.append_assoc]
    · rfl
    · simp
  | .move src dst :: is, pending, hpending, hlabels, his => by
    obtain ⟨hi, his⟩ := List.forall_mem_cons.mp his
    obtain ⟨r, hr⟩ := hi.registers src (by simp [Instr.uses])
    obtain ⟨r', hr'⟩ := hi.registers dst (by simp [Instr.defs])
    -- A move within one register has no line, and the labels wait on.
    by_cases hsame : r = r'
    · subst hsame
      obtain ⟨items, hitems, heq⟩ := carries_body hwindow is hpending hlabels his
      refine ⟨items, .dropped hr hr' hitems, ?_⟩
      rw [body, if_pos (by simp [isIdentityMove, hr, hr']), heq]
      simp
    · obtain ⟨items, hitems, heq⟩ := carries_body hwindow is (List.forall_mem_nil _) hlabels his
      have htext : Instr.text regs (.move src dst) = "SET $" ++ toString r' ++ ",$" ++ toString r := by
        rw [Instr.text, Registers.name, Registers.name, hr, hr']
        apply String.toList_injective
        simp
      have hblank : ' ' ∈ (Instr.text regs (.move src dst)).toList := by
        rw [htext]
        simp
      refine ⟨.instr (Instr.text regs (.move src dst)) :: items, htext ▸ .move hr hr' hsame hitems, ?_⟩
      rw [body, if_neg (by simp [isIdentityMove, hr, hr', hsame]), List.flatMap_append, heq,
        items_labeled hblank hpending, List.append_assoc]
      · rfl
      · simp

/-! ## §2 Lines of a text -/

/-- Behind its label the prologue of a function does not jump before its end. -/
theorem exists_prologue (c : Code) : ∃ start, prologue c = ⟨c.frame.label, "SWYM"⟩ ::
    (start ++ [plain ("JMP " ++ c.entry)]) ∧ ∀ l ∈ start, l.instr ≠ "JMP " ++ c.entry := by
  -- No line of the prologue before the jump starts with the letter of its mnemonic.
  have hjump : ∀ l : Line, l.instr.toList.head? ≠ some 'J' → l.instr ≠ "JMP " ++ c.entry := by
    intro l hl heq
    rw [heq] at hl
    simp at hl
  have hload (v : Word) : ∀ l ∈ loadWord "$0" v, l.instr ≠ "JMP " ++ c.entry := by
    intro l hl
    obtain ⟨⟨place, value⟩, -, rfl⟩ := List.mem_map.mp hl
    refine hjump _ ?_
    cases place <;> simp [plain, WydePlace.mnemonic]
  have hfixed : ∀ l ∈ [plain "NEG $0,$0", plain "STO $253,$254,$0", plain "ADD $0,$0,8",
    plain "GET $1,rJ",
      plain "STO $1,$254,$0", plain "ADD $253,$254,0", plain "SUB $254,$254,$0"],
      l.instr.toList.head? ≠ some 'J' := by decide
  refine ⟨loadWord "$0" (savedDistance c.frame) ++ [plain "NEG $0,$0", plain "STO $253,$254,$0",
    plain "ADD $0,$0,8", plain "GET $1,rJ", plain "STO $1,$254,$0", plain "ADD $253,$254,0"]
      ++ loadWord "$0" c.frameSize ++ [plain "SUB $254,$254,$0"], by simp [prologue], fun l hl => ?_⟩
  simp only [List.mem_append] at hl
  rcases hl with ((hl | hl) | hl) | hl
  · exact hload _ l hl
  · exact hjump l (hfixed l (List.mem_append_left [plain "SUB $254,$254,$0"] hl))
  · exact hload _ l hl
  · exact hjump l (hfixed l (List.mem_append_right [plain "NEG $0,$0", plain "STO $253,$254,$0",
      plain "ADD $0,$0,8", plain "GET $1,rJ", plain "STO $1,$254,$0", plain "ADD $253,$254,0"] hl))

theorem exists_functions_eq {k : Int} {c : Code} : ∀ {cs : List Code} {ls : List Line}, c ∈ cs →
    functions k cs = (ls, none) → ∃ before after, ls = before ++ functionHead k c ++ after
  | c' :: cs, ls, hc, h => by
    rw [functions] at h
    split at h
    · cases h
    · next store hstore =>
      rcases hrest : functions k cs with ⟨rest, fault⟩
      rw [hrest] at h
      cases h
      rcases List.mem_cons.mp hc with rfl | hc
      · exact ⟨[], store ++ epilogue c ++ blank :: rest, by simp⟩
      · obtain ⟨before, after, rfl⟩ := exists_functions_eq hc hrest
        exact ⟨functionHead k c' ++ store ++ epilogue c' ++ blank :: before, after, by simp⟩

theorem exists_lines_eq {k : Int} {data : List StaticData} {cs : List Code} {ls : List Line} {c : Code}
    (hc : c ∈ cs) (h : lines k data cs = (ls, none)) :
    ∃ before after, ls = before ++ functionHead k c ++ after := by
  unfold lines at h
  rcases hfunctions : functions k cs with ⟨funs, _ | fault⟩
  · rw [hfunctions] at h
    obtain rfl := (Prod.mk.inj h).1
    obtain ⟨before, after, rfl⟩ := exists_functions_eq hc hfunctions
    exact ⟨dataSegment data ++ [blank, plain "LOC #100"] ++ startup k
      (dataSize data) ++ [blank] ++ before,
      after ++ runtime, by simp only [List.append_assoc]⟩
  · rw [hfunctions] at h
    cases (Prod.mk.inj h).2

theorem count_map_label {l : Label} (h : l.Legible) (ls : List Line) :
    (ls.map Line.label).count l = (labelsOf ls).count l :=
  (List.count_filter (by simpa using h.1)).symm

/-- **The lines of the code of a function are found in the text**, if no label stands in the text
twice. -/
theorem codeLines_join {refs : Label → Prop} {ls before after : List Line} {k : Int} {c : Code}
    (hls : ls = before ++ functionHead k c ++ after) (hwritten : ∀ l ∈ ls, l.Written refs)
    (hnodup : (labelsOf ls).Nodup) (hlegible : ∀ l ∈ c.labels, l.Legible) :
    codeLines c (String.join (ls.map Line.text)) = body { colors := c.regs, window := k }
      [] c.instrs := by
  obtain ⟨start, hprologue, hstart⟩ := exists_prologue c
  have hlabel : c.frame.label.Legible := hlegible _ List.mem_cons_self
  have hexit : c.exit.Legible := hlegible _ (by simp [Code.labels])
  have hne {l : Label} (hl : l.Legible) {ls : List Line} (hls : l ∉ labelsOf ls) :
      ∀ line ∈ ls, line.label ≠ l := by
    rintro line hline rfl
    exact hls (List.mem_filter.mpr ⟨List.mem_map_of_mem hline, decide_eq_true hl.1⟩)
  generalize hbody : body { colors := c.regs, window := k } [] c.instrs = inner
  rw [functionHead, hprologue, hbody] at hls
  -- The label of the function and its exit label are not those of other lines.
  have hlabels : labelsOf ls = labelsOf before ++ (c.frame.label :: (labelsOf start ++
      (labelsOf inner ++ c.exit :: labelsOf after))) := by
    rw [hls]
    simp only [labelsOf_append, labelsOf_cons hlabel, labelsOf_cons hexit, labelsOf_cons_plain,
      List.append_assoc, List.cons_append, List.nil_append]
  rw [hlabels] at hnodup
  have hbefore : c.frame.label ∉ labelsOf before := fun hmem =>
    (List.nodup_append.mp hnodup).2.2 _ hmem _ List.mem_cons_self rfl
  have hinner : c.exit ∉ labelsOf inner := by
    have hrest := (List.nodup_append.mp (List.nodup_cons.mp (List.nodup_append.mp hnodup).2.1).2).2.1
    exact fun hmem => (List.nodup_append.mp hrest).2.2 _ hmem _ List.mem_cons_self rfl
  have hrow := linesOf_join hwritten
  rw [hls] at hrow
  rw [codeLines, hls, hrow]
  simp only [List.append_assoc, List.cons_append, List.nil_append]
  rw [List.dropWhile_append_of_pos fun l hl => decide_eq_true (hne hlabel hbefore l hl),
    List.dropWhile_cons_of_neg (by simp), List.dropWhile_cons_of_pos,
        List.dropWhile_append_of_pos fun l hl =>
      decide_eq_true (hstart l hl), List.dropWhile_cons_of_neg (by simp [plain]), List.tail_cons,
    List.takeWhile_append_of_pos fun l hl => decide_eq_true (hne hexit hinner l hl),
    List.takeWhile_cons_of_neg (by simp), List.append_nil]
  refine decide_eq_true fun heq => ?_
  have hhead := congrArg (fun s : String => s.toList.head?) heq
  simp at hhead

/-- No slot is left in an instruction that is carried. -/
theorem Carries.slotMark_not_mem {regs : Registers} {is : List Instr} {items : List Item}
    (h : Carries regs is items) {text : String} (htext : .instr text ∈ items) :
    Piece.slotMark ∉ text.toList := by
  induction h with
  | nil => cases htext
  | label _ ih => exact ih ((List.mem_cons.mp htext).resolve_left Item.noConfusion)
  | oper hexpands _ ih =>
    rcases List.mem_cons.mp htext with heq | htext
    · cases heq
      exact hexpands.slotMark_not_mem
    · exact ih htext
  | @move src dst r r' is items _ _ _ _ ih =>
    rcases List.mem_cons.mp htext with heq | htext
    · cases heq
      have hregisters := And.intro (Opcode.slotMark_not_mem_int r) (Opcode.slotMark_not_mem_int r')
      have hliterals : Piece.slotMark ∉ "SET $".toList ∧ Piece.slotMark ∉ ",$".toList := by decide
      simp only [String.toList_append, List.mem_append, not_or]
      exact ⟨⟨⟨hliterals.1, hregisters.2⟩, hliterals.2⟩, hregisters.1⟩
    · exact ih htext
  | dropped _ _ _ ih => exact ih htext

end Assembly

/-! ## §3 Accepted programs -/

theorem Code.exists_allocated {c c' : Code} {k : Int} {σ σ' : Supply} {a : Allocation}
    (hrun : (c.allocate k).run σ = ((c', .ok a), σ')) :
    minRegisters ≤ k ∧ k ≤ maxRegisters ∧ ∃ s, Allocated k c' s := by
  obtain ⟨hmin, hmax, maxRounds, hrounds⟩ := allocate_eq_ok hrun
  obtain ⟨c₀, avoid, g, coloring, -, hcolor, hspilled, rfl⟩ :=
    allocateRounds_induct (P := fun _ _ => True) (fun _ _ _ _ _ => ⟨trivial, rfl⟩) trivial hrounds
  exact ⟨hmin, hmax, allocated_withColors (Int.le_trans (by decide) hmin) hcolor hspilled⟩

theorem Assembly.exists_lines_of_assembly {c : Compiled} {text : String} (h : c.assembly = .ok text) :
    ∃ ls, lines c.registers c.linear.data (c.units.map CompiledUnit.code) = (ls, none) ∧
      text = String.join (ls.map Line.text) := by
  unfold Compiled.assembly write at h
  rcases hlines : lines c.registers c.linear.data (c.units.map CompiledUnit.code) with ⟨ls, _ | fault⟩
  · rw [hlines] at h
    cases h
    exact ⟨ls, rfl, rfl⟩
  · rw [hlines] at h
    cases h

namespace CompiledFrom

variable {o : Options} {p : Program} {t : Attributes} {laid coded : Workspace} {c : Compiled}

/-- **The code of units can be emitted**: its instructions have temps for all slots, and these have
registers. -/
theorem emittable (h : CompiledFrom o p t laid coded c) {u : CompiledUnit} (hu : u ∈ c.units) :
    ∀ i ∈ u.code.instrs, Emittable { colors := u.code.regs, window := o.registers } i := by
  obtain ⟨chunk, hchunk, hof⟩ := h.exists_chunk hu
  have hwritable := h.writable h.provides_legible u.code (List.mem_map_of_mem hu)
  obtain ⟨σ, code, σ₁, σ₂, hselect, hallocate⟩ := hof.selected
  obtain ⟨-, -, s, hallocated⟩ := Code.exists_allocated hallocate
  obtain ⟨spilled, graph, colors, hspills, heq⟩ := Code.exists_spills_of_allocate hallocate
  have hfilled : Instr.AllFilled u.code.instrs := by
    have hselected := IR.CodeChunk.select_filled o.args chunk σ _ _ hselect
    rw [heq]
    exact (Code.filled_of_spills hspills hselected : Instr.AllFilled spilled.instrs)
  refine fun i hi => ⟨hwritable.linked i hi, fun l hl => ?_, hfilled i hi, fun temp htemp => ?_⟩
  · refine hwritable.targets l (List.mem_flatMap.mpr ⟨i, hi, ?_⟩)
    simpa [Instr.targetsOf] using hl
  · by_cases hfp : temp = u.code.frame.fp
    · exact ⟨_, hfp ▸ hallocated.fp⟩
    · obtain ⟨r, hr, -⟩ := hallocated.register hfp ⟨i, hi, List.mem_append.mp htemp⟩
      exact ⟨r, hr⟩

/-- **The lines of the code of a unit in the text**; the labels of the code are all different. -/
theorem codeLines_eq (h : CompiledFrom o p t laid coded c) {u : CompiledUnit} (hu : u ∈ c.units)
    {text : String} (htext : c.assembly = .ok text) :
    codeLines u.code text = body { colors := u.code.regs, window := c.registers } [] u.code.instrs ∧
      (Instr.labelsOf u.code.instrs).Nodup := by
  have hrefs := h.provides_legible
  have hwritable := h.writable hrefs
  have hdata : ∀ d ∈ c.linear.data, d.label.Legible := fun d hd =>
    h.legible _ (List.mem_append_left _ (List.mem_append_left _ (List.mem_map_of_mem hd)))
  obtain ⟨ls, hlines, rfl⟩ := exists_lines_of_assembly htext
  obtain ⟨before, after, heq⟩ := exists_lines_eq (List.mem_map_of_mem hu) hlines
  have hreads := reads_lines (fun _ hl => hl) hdata hwritable (by decide) (by decide) hlines
  have hnodup : (labelsOf ls).Nodup := by
    rw [hreads.labels, (h.perm_programLabels hrefs).nodup_iff]
    exact h.nodup.sublist (List.Sublist.append (.refl _) (List.sublist_append_left _ _))
  have hhead := (reads_functionHead (fun _ hl => hl) c.registers
    (hwritable _ (List.mem_map_of_mem hu))).labels
  refine ⟨codeLines_join heq hreads.written hnodup (hwritable _ (List.mem_map_of_mem hu)).legible, ?_⟩
  rw [heq, labelsOf_append, labelsOf_append, hhead] at hnodup
  have hlabels := (List.nodup_append.mp (List.nodup_append.mp hnodup).1).2.1
  exact (List.nodup_append.mp (List.nodup_cons.mp hlabels).2).1

end CompiledFrom

/-- A program that has been compiled has a text. -/
theorem exists_text {n : Yaml.Node} {p : Program} {t : Attributes} {o : Options} {σ : Supply}
    {c : Compiled} {listings : Listings} (hread : Program.ofNode n = .ok p)
    (hresolve : p.number.resolve = .ok t)
    (hcompile : compile o p.number { attrs := t, supply := σ } = (.ok c, listings)) :
    ∃ text, c.assembly = .ok text := by
  obtain ⟨laid, coded, -, h⟩ := compiledFrom_of_compile hread hresolve hcompile
  cases hunits : c.units with
  | nil =>
    obtain ⟨text, htext⟩ := exists_write_eq c.registers c.linear.data (List.forall_mem_nil Code.Returns)
    refine ⟨text, ?_⟩
    rw [Compiled.assembly, hunits, List.map_nil, htext]
  | cons u us =>
    -- The registers are enough, because some function has been allocated.
    obtain ⟨chunk, -, hof⟩ := h.exists_chunk (hunits ▸ List.mem_cons_self : u ∈ c.units)
    obtain ⟨σ', code, σ₁, σ₂, -, hallocate⟩ := hof.selected
    obtain ⟨hmin, hmax, -⟩ := Code.exists_allocated hallocate
    obtain ⟨c', listings', text, hcompile', htext⟩ := exists_compiled hread hresolve hmin hmax σ
    rw [hcompile] at hcompile'
    cases hcompile'
    exact ⟨text, htext⟩

/-- **Emission loses nothing.** Let a program be read without diagnostics, resolved without errors
and compiled. Then it has a text. In this text the lines between the jump to the entry of a function
and its exit label carry exactly the code of the function after selection and allocation: its
labels, and its instructions apart from moves within one register, in the order of the code. Every
label of the code stands on one line. The slots of the templates are the registers of the temps,
`$253` for the frame pointer, and the call window, and no slot is left. -/
theorem emission_loses_nothing {n : Yaml.Node} {p : Program} {t : Attributes} {o : Options} {σ : Supply}
    {c : Compiled} {listings : Listings} (hread : Program.ofNode n = .ok p)
    (hresolve : p.number.resolve = .ok t)
    (hcompile : compile o p.number { attrs := t, supply := σ } = (.ok c, listings)) :
    ∃ text, c.assembly = .ok text ∧ ∀ u ∈ c.units,
      Carries { colors := u.code.regs, window := o.registers } u.code.instrs
        ((codeLines u.code text).flatMap Line.items) ∧
      (∀ l ∈ Instr.labelsOf u.code.instrs, ((codeLines u.code text).map Line.label).count l = 1) ∧
      u.code.regs[u.code.frame.fp]? = some 253 ∧
      ∀ line ∈ codeLines u.code text, Piece.slotMark ∉ line.instr.toList := by
  obtain ⟨text, htext⟩ := exists_text hread hresolve hcompile
  refine ⟨text, htext, fun u hu => ?_⟩
  obtain ⟨laid, coded, -, h⟩ := compiledFrom_of_compile hread hresolve hcompile
  obtain ⟨hregisters, -, -⟩ := compile_stages hcompile
  obtain ⟨chunk, -, hof⟩ := h.exists_chunk hu
  obtain ⟨σ', code, σ₁, σ₂, -, hallocate⟩ := hof.selected
  obtain ⟨hmin, -, s, hallocated⟩ := Code.exists_allocated hallocate
  have hwritable := h.writable h.provides_legible u.code (List.mem_map_of_mem hu)
  have hlegible : ∀ l ∈ Instr.labelsOf u.code.instrs, l.Legible := fun l hl =>
    hwritable.legible l (List.mem_cons_of_mem _ (List.mem_append_left _ hl))
  -- Between the jump to the entry and the exit label the text has the lines of the body.
  obtain ⟨hcode, hnodup⟩ := h.codeLines_eq hu htext
  rw [hcode, hregisters]
  obtain ⟨items, hcarries, hitems⟩ := carries_body (Int.le_trans (by decide) hmin) u.code.instrs
    (List.forall_mem_nil _) hlegible (h.emittable hu)
  rw [List.map_nil, List.nil_append] at hitems
  rw [hitems]
  refine ⟨hcarries, fun l hl => ?_, hallocated.fp, fun line hline => ?_⟩
  · have hbody := (reads_body (fun _ hl => hl) { colors := u.code.regs, window := o.registers }
      (List.forall_mem_nil _) hlegible hwritable.linked hwritable.targets).labels
    rw [count_map_label (hlegible l hl), hbody, List.nil_append, List.count_eq_one_of_mem hnodup hl]
  -- A line that has nothing but a label holds `SWYM`, and every other line is an item of the body.
  · by_cases hfiller : line.instr = "SWYM"
    · rw [hfiller]
      decide
    · refine hcarries.slotMark_not_mem (hitems ▸ List.mem_flatMap.mpr ⟨line, hline, ?_⟩)
      rw [Line.items, if_neg hfiller]
      exact List.mem_append_right _ (List.mem_singleton_self _)

theorem emission_loses_nothing_elementOfCaller : ∃ p t c listings text,
    Program.ofNode elementOfCaller = .ok p ∧ p.number.resolve = .ok t ∧
      compile { registers := 2, args := .register } p.number { attrs := t } = (.ok c, listings) ∧
      c.assembly = .ok text ∧ ∀ u ∈ c.units,
        Carries { colors := u.code.regs, window := 2 } u.code.instrs
          ((codeLines u.code text).flatMap Line.items) := by
  have haccepted : (Program.ofNode elementOfCaller >>= fun p => p.number.resolve).isOk = true := by
    decide +kernel
  obtain ⟨p, t, hread, hresolve⟩ := exists_accepted haccepted
  obtain ⟨c, listings, -, hcompile, -⟩ := exists_compiled hread hresolve
    (o := { registers := 2, args := .register }) (by decide) (by decide) {}
  obtain ⟨text, htext, hunits⟩ := emission_loses_nothing hread hresolve hcompile
  exact ⟨p, t, c, listings, text, hread, hresolve, hcompile, htext, fun u hu => (hunits u hu).1⟩

end MmixBackend
