import MmixBackend.Proofs.Assembly.StartUp
import MmixBackend.Proofs.Emission
import MmixBackend.Proofs.FlatPrograms
import MmixBackend.Proofs.Placement
import MmixBackend.Proofs.Source.Attribution

/-!
# Static data of the text and of the machine

The machine lays out the static data of a program on its own, and so does an assembler that reads
the text of the program: the one rounds sizes up while it reserves them, the other goes through
lines of three shapes. In addition the start-up code loads a size that is summed up apart from both.
If the exact sizes are in range, all of these come to the same, except that in the text there are 24
bytes of buffers in front of the data.

## Main statements

- `CompiledFrom.sized`: the data of a program have their exact sizes.
- `CompiledFrom.holds_dataImage`, `CompiledFrom.startRegisters_eq`: the text of a program.
- `static_data_agree`: the text and the machine.
-/

namespace MmixBackend

open Source Assembly StaticData

/-! ## §1 Sections of the text -/

namespace Assembly

/-- The lines of the data section of a text. -/
def dataSection (text : String) : List Line := (linesOf text).takeWhile (· ≠ blank)

/-- The lines of the start-up code, which stands behind the data section. -/
def startSection (text : String) : List Line :=
  ((linesOf text).dropWhile (· ≠ blank)).tail.takeWhile (· ≠ blank)

/-- What an assembler makes of the data section. -/
def dataImage (text : String) : Option Image := (dataSection text).foldlM Image.assemble? .empty

/-- The registers in which the start-up code leaves the machine when it calls the main function. -/
def startRegisters (text : String) (regs : Nat → Word) : Option (Nat → Word) :=
  (beforeCall (startSection text)).foldlM execute? regs

theorem ne_blank_of_head {l : Line} {c : Char} (h : l.instr.toList.head? = some c) :
    decide (l ≠ blank) = true := by
  refine decide_eq_true ?_
  rintro rfl
  cases h

theorem dataSegment_ne_blank (data : List StaticData) :
    ∀ l ∈ dataSegment data, decide (l ≠ blank) = true := by
  refine List.forall_mem_append.mpr ⟨by decide, fun l hl => ?_⟩
  obtain ⟨d, -, hl⟩ := List.mem_flatMap.mp hl
  unfold dataLines at hl
  split at hl
  · rw [List.mem_singleton.mp hl]
    exact ne_blank_of_head (c := 'O') (by simp)
  · split at hl
    · rcases List.mem_cons.mp hl with rfl | hl
      · exact ne_blank_of_head (c := 'O') (by simp)
      · rw [List.mem_singleton.mp hl]
        exact ne_blank_of_head (c := 'L') (by simp [plain])
    · rw [List.mem_singleton.mp hl]
      exact ne_blank_of_head (c := 'O') (by simp)

theorem loadWord_ne_blank (v : Word) : ∀ l ∈ loadWord "$0" v, decide (l ≠ blank) = true := by
  intro l hl
  obtain ⟨⟨place, value⟩, -, rfl⟩ := List.mem_map.mp hl
  cases place with
  | low => exact ne_blank_of_head (c := 'S') (by simp [plain, WydePlace.mnemonic])
  | _ => exact ne_blank_of_head (c := 'I') (by simp [plain, WydePlace.mnemonic])

theorem startup_ne_blank (k : Int) (size : Word) :
    ∀ l ∈ plain "LOC #100" :: startup k size, decide (l ≠ blank) = true := by
  have hcall : decide (plain ("PUSHJ $" ++ toString k ++ ",_main") ≠ blank) = true :=
    ne_blank_of_head (c := 'P') (by simp [plain])
  rw [startup, ← List.singleton_append]
  simp only [List.forall_mem_append, List.forall_mem_cons]
  exact ⟨by decide,
    ⟨⟨⟨⟨⟨by decide, by decide⟩, loadWord_ne_blank _⟩, by decide⟩, loadWord_ne_blank _⟩, by decide⟩,
    hcall, by decide⟩

/-- **The sections of a text** that has been written completely. -/
theorem sections_join {refs : Label → Prop} {k : Int} {data : List StaticData} {code : List Code}
    {ls : List Line} (h : lines k data code = (ls, none)) (hwritten : ∀ l ∈ ls, l.Written refs) :
    dataSection (String.join (ls.map Line.text)) = dataSegment data ∧
      startSection (String.join (ls.map Line.text)) = plain "LOC #100" :: startup k (dataSize data) := by
  obtain ⟨rest, rfl⟩ : ∃ rest, ls = dataSegment data ++
      (blank :: ((plain "LOC #100" :: startup k (dataSize data)) ++ (blank :: rest))) := by
    unfold lines at h
    rcases hfunctions : functions k code with ⟨funs, _ | fault⟩
    · rw [hfunctions] at h
      exact ⟨funs ++ runtime, by rw [← (Prod.mk.inj h).1]; simp⟩
    · rw [hfunctions] at h
      cases (Prod.mk.inj h).2
  rw [dataSection, startSection, linesOf_join hwritten]
  simp only [List.append_assoc, List.cons_append]
  rw [List.takeWhile_append_of_pos (dataSegment_ne_blank data), List.dropWhile_append_of_pos
    (dataSegment_ne_blank data),
    List.takeWhile_cons_of_neg (by simp), List.dropWhile_cons_of_neg (by simp), List.tail_cons,
    ← List.cons_append, List.takeWhile_append_of_pos (startup_ne_blank k _),
      List.takeWhile_cons_of_neg (by simp)]
  simp

end Assembly

/-! ## §2 Blocks -/

/-- The block has the exact size and the initial contents. The size consists of whole words, at
least one. -/
structure StaticData.Is (b : Nat × Option String) (d : StaticData) : Prop where
  size : d.size = .ofNat b.1
  init : d.init = b.2
  pos : 0 < b.1
  dvd : 8 ∣ b.1
  fits : ∀ s, b.2 = some s → b.1 = 8 * (s.toUTF8.toList.length + 1)

namespace StaticData.Is

variable {b : Nat × Option String} {d : StaticData}

theorem toInt_size (h : d.Is b) (hb : b.1 < 2 ^ 63) : d.size.toInt = b.1 := by
  rw [h.size, Int64.toInt_ofNat_of_lt hb]

theorem wellSized (h : d.Is b) (hb : b.1 < 2 ^ 63) : d.WellSized := by
  have hextent : d.extent = b.1 := by rw [extent, h.toInt_size hb, Int.toNat_natCast]
  exact ⟨hextent ▸ h.pos, hextent ▸ h.dvd, fun s hs => hextent.trans (h.fits s (h.init ▸ hs))⟩

/-- The data of a string constant. -/
theorem of_isString {s : String} (h : d.IsString s) : d.Is (8 * (s.utf8ByteSize + 1), some s) where
  size := by
    rw [h.1, stringSize, Nat.mul_comm, Int64.ofNat_mul]
    rfl
  init := h.2
  pos := Nat.mul_pos (by decide) (Nat.succ_pos _)
  dvd := Nat.dvd_mul_right 8 _
  fits s' hs' := by
    cases hs'
    rw [Generation.length_toList, String.toUTF8_eq_toByteArray, String.size_toByteArray]

end StaticData.Is

namespace Source

/-- The exact sizes and the initial contents of the static data of a program: global variables have
the sizes of their types, and string constants a word for every byte and one for the end mark. -/
def Program.dataBlocks (t : Attributes) (p : Program) : List (Nat × Option String) :=
  (p.globals.map fun id => (t.exactBytes id, none))
    ++ ((Decl.walkAll everywhere p.decls).filterMap Node.string?).map fun s =>
      (8 * (s.utf8ByteSize + 1), some s)

/-- **Every variable takes whole words**, at least one. -/
theorem Program.exactBytes_of_resolve {p : Program} {t : Attributes}
    (hcomplete : Decl.CompleteAll p.number.decls) (hresolve : p.number.resolve = .ok t)
    (id : NodeId) : 0 < t.exactBytes id ∧ 8 ∣ t.exactBytes id := by
  obtain ⟨-, -, hpositive, hdefs⟩ := Program.resolved_of_resolve hcomplete hresolve
  obtain ⟨s, hrun, -, rfl⟩ := Program.exists_run_of_resolve hresolve
  obtain ⟨⟨hgo, -⟩, -, -⟩ := Resolve.program_resolves p
  rw [hrun] at hgo
  refine ⟨?_, Ty.dvd_exactSize ..⟩
  have hclosed : s.attrs.typeDefs.Closed := fun d ty hty => hgo.sound.names ty (.typeDefs hty)
  unfold Attributes.exactBytes
  cases hty : s.attrs.declType[id]? with
  | none => exact Nat.succ_pos 7
  | some ty =>
    exact Ty.exactSize_pos hgo.guarded hclosed hdefs (hgo.sound.names ty (.declType hty))
      (hpositive id ty hty)

end Source

/-- **The data of a program** are those of its global variables and of its string constants. -/
theorem Stages.data_are {p : Program} {t : Attributes} {laid coded : Workspace}
    (h : Stages p t laid coded) {l : IR.LinearProgram} (hlinear : Linear.Describes coded.attrs p l)
    (hstrings : coded.HoldsStrings (Decl.walkAll everywhere p.decls))
    (hbytes : ∀ id, 0 < t.exactBytes id ∧ 8 ∣ t.exactBytes id) :
    List.Forall₂ (fun b d => d.Is b) (p.dataBlocks t) l.data := by
  obtain ⟨globals, hglobals, hdata⟩ := hlinear.data
  rw [hdata, Linear.strings_eq]
  refine List.rel_append ?_ (List.forall₂_map_left_iff.mpr (hstrings.imp fun s d hd => .of_isString hd))
  have haccess := Linear.globals_access hglobals
  rw [h.generates.accesses] at haccess
  refine List.forall₂_map_left_iff.mpr (List.forall₂_iff_get.mpr ⟨haccess.length_eq, fun i hi hi' => ?_⟩)
  obtain ⟨name, hplace⟩ := h.access_of_mem_globals (List.getElem_mem hi)
  have heq := Access.static.inj (Option.some.inj (hplace.symm.trans (haccess.get hi hi')))
  obtain ⟨hpos, hdvd⟩ := hbytes p.globals[i]
  rw [← heq]
  exact ⟨Attributes.sized h.positive h.definitions _, rfl, hpos, hdvd, fun s hs => by cases hs⟩

/-- Blocks whose exact sizes are in range have these sizes. -/
theorem StaticData.sized_of_are {bs : List (Nat × Option String)} {data : List StaticData}
    (h : List.Forall₂ (fun b d => d.Is b) bs data) (hsum : (bs.map Prod.fst).sum < 2 ^ 63) :
    (data.map fun d => (d.size.toInt, d.init)) = bs.map (fun b => ((b.1 : Int), b.2)) ∧
      (∀ d ∈ data, d.WellSized) ∧ total data = (bs.map Prod.fst).sum := by
  induction h with
  | nil => exact ⟨rfl, List.forall_mem_nil _, rfl⟩
  | @cons b d bs data hd _ ih =>
    rw [List.map_cons, List.sum_cons] at hsum
    obtain ⟨hsizes, hwell, htotal⟩ := ih (by omega)
    have hsize := hd.toInt_size (by omega)
    refine ⟨?_, List.forall_mem_cons.mpr ⟨hd.wellSized (by omega), hwell⟩, ?_⟩
    · rw [List.map_cons, List.map_cons, hsizes, hsize, hd.init]
    · rw [List.map_cons, List.sum_cons, total_cons, htotal, extent, hsize, Int.toNat_natCast]

/-- The size that is summed up for the start-up code is that of the buffers and the blocks. -/
theorem Assembly.dataSize_eq {data : List StaticData} (h : ∀ d ∈ data, d.WellSized) :
    dataSize data = .ofNat (24 + total data) := by
  suffices hfold : ∀ n : Nat, data.foldl (fun size d => size + d.size) (.ofNat n) = Int64.ofNat
    (n + total data) from
    hfold 24
  induction data with
  | nil => exact fun n => rfl
  | cons d data ih =>
    obtain ⟨hd, hdata⟩ := List.forall_mem_cons.mp h
    intro n
    have hsize : d.size = .ofNat d.extent := by
      rw [← Int64.ofInt_eq_ofNat, ← hd.toInt_size, Int64.ofInt_toInt]
    rw [List.foldl_cons, hsize, ← Int64.ofNat_add, ih hdata, total_cons, Nat.add_assoc]

/-! ## §3 Accepted programs -/

namespace CompiledFrom

variable {o : Options} {p : Program} {t : Attributes} {laid coded : Workspace} {c : Compiled}

/-- Labels of the program start with an underscore or with an `L`. -/
theorem head?_label (h : CompiledFrom o p t laid coded c) :
    ∀ l ∈ c.linear.labels ++ p.nestedRoutines coded.attrs,
    l.toList.head? = some '_' ∨ l.toList.head? = some 'L' := by
  obtain ⟨first, last, taken, htaken, hlabels⟩ := h.labels
  intro l hl
  rw [← Multiset.mem_coe, hlabels, Multiset.mem_add] at hl
  rcases hl with hl | hl
  · obtain ⟨d, -, rfl⟩ := List.mem_map.mp (p.globalLabels_sublist.subset (Multiset.mem_coe.mp hl))
    exact .inl (Label.head?_global d.name)
  · obtain ⟨n, -, -, rfl⟩ := htaken.mem_iff.mp hl
    exact .inr (Label.head?_numbered n)

/-- The labels of blocks are different. -/
theorem nodup_labels (h : CompiledFrom o p t laid coded c) : (c.linear.data.map StaticData.label).Nodup :=
  (List.nodup_append.mp (List.nodup_append.mp (List.nodup_append.mp h.nodup).2.1).1).1

/-- **The data of a compiled program can be assembled.** -/
theorem placeable (h : CompiledFrom o p t laid coded c) (hsized : ∀ d ∈ c.linear.data, d.WellSized)
    (htotal : total c.linear.data < 2 ^ 62) : Placeable c.linear.data := by
  have hmem {d : StaticData} (hd : d ∈ c.linear.data) :
      d.label ∈ c.linear.labels ++ p.nestedRoutines coded.attrs :=
    List.mem_append_left _ (List.mem_append_left _ (List.mem_map_of_mem hd))
  have hnodup := h.nodup
  refine ⟨hsized, h.nodup_labels, fun d hd => ⟨h.legible _ (hmem hd), fun c hc => ?_⟩,
    fun d hd hfixed => ?_, htotal⟩
  · rcases h.head?_label _ (hmem hd) with hhead | hhead <;> (rw [hhead] at hc; cases hc; decide)
  · rcases List.mem_cons.mp hfixed with heq | hfixed
    · have hhead := h.head?_label _ (hmem hd)
      rw [heq] at hhead
      revert hhead
      decide
    · have hbuffer : d.label ∈ fixedLabels ++ runtimeLabels :=
        List.mem_append_left _ (List.mem_append_left _ hfixed)
      exact (List.nodup_append.mp hnodup).2.2 _ hbuffer _ (hmem hd) rfl

/-- **The sections of the text** of a compiled program. -/
theorem sections_eq (h : CompiledFrom o p t laid coded c) {text : String}
    (htext : c.assembly = .ok text) :
    dataSection text = dataSegment c.linear.data ∧
      startSection text = plain "LOC #100" :: startup c.registers (dataSize c.linear.data) := by
  have hdata : ∀ d ∈ c.linear.data, d.label.Legible := fun d hd =>
    h.legible _ (List.mem_append_left _ (List.mem_append_left _ (List.mem_map_of_mem hd)))
  obtain ⟨ls, hlines, rfl⟩ := exists_lines_of_assembly htext
  exact sections_join hlines (reads_lines (fun _ hl => hl) hdata (h.writable h.provides_legible)
    (by decide) (by decide)
    hlines).written

end CompiledFrom

/-- Where the static data of a program end, if their sizes are counted without bounds. -/
def Source.Program.staticEnd (p : Program) (t : Attributes) : Int :=
  dataStart.toInt + ((p.dataBlocks t).map Prod.fst).sum

section

variable {o : Options} {p : Program} {t : Attributes} {laid coded : Workspace} {c : Compiled}

/-- The block of a global variable stands among the others at the place of its declaration. -/
theorem CompiledFrom.data_of_global (h : CompiledFrom o p t laid coded c) {i : Nat} {id : NodeId}
    (hi : p.globals[i]? = some id) :
    ∃ d, c.linear.data[i]? = some d ∧ laid.attrs.accesses[id]? = some (.static d) := by
  obtain ⟨globals, hglobals, hdata⟩ := h.linear.data
  have haccess : List.Forall₂ (fun id d => coded.attrs.accesses[id]? = some (.static d))
      p.globals globals :=
    Linear.globals_access hglobals
  obtain ⟨hlt, rfl⟩ := List.getElem?_eq_some_iff.mp hi
  have hlt' : i < globals.length := haccess.length_eq ▸ hlt
  refine ⟨globals[i], ?_, ?_⟩
  · rw [hdata, List.getElem?_append_left hlt', List.getElem?_eq_getElem hlt']
  · rw [← h.stages.generates.accesses]
    exact haccess.get hlt hlt'

/-- While the trees of a program run, its data stand one after the other. -/
theorem CompiledFrom.holds_treeMachine (h : CompiledFrom o p t laid coded c)
    (hsized : ∀ d ∈ c.linear.data, d.WellSized) (hbound : dataStart.toInt + total c.linear.data < 2 ^ 63)
    (input : Option ByteReader) {i : Nat} {d : StaticData} (hi : c.linear.data[i]? = some d) :
    (c.treeMachine coded.attrs p input).labels[d.label]?
      = some (.ofInt (dataStart.toInt + total (c.linear.data.take i))) := by
  have hempty : ({ state := { input } } : Machine).placement.Holds dataStart.toInt [] := by
    refine ⟨rfl, fun i d hi => (by cases hi), fun off _ _ => ?_⟩
    simp [Machine.placement, Memory.read, contents]
  have hholds := Machine.holds_foldl_loadData (by decide) hempty (List.forall_mem_nil _) hsized
    h.nodup_labels hbound
  rw [List.nil_append] at hholds
  obtain ⟨w, hw, heq⟩ := Option.map_eq_some_iff.mp (hholds.address i d hi)
  rw [Stages.treeMachine_eq, (Machine.functions_addFunctions _ _ _ _).1, hw, ← heq, Int64.ofInt_toInt]

/-- **Where global variables lie** while the trees of a program run: inside of the static data. -/
theorem CompiledFrom.label_of_global (h : CompiledFrom o p t laid coded c)
    (hare : List.Forall₂ (fun b d => d.Is b) (p.dataBlocks t) c.linear.data)
    (hend : p.staticEnd t < 2 ^ 63) (input : Option ByteReader) {m : Mark} {name : String}
    {type : TypeExpr} (hvar : .var m name type ∈ p.decls) :
    ∃ data a, laid.attrs.accesses[m.id]? = some (.static data) ∧
      (c.treeMachine coded.attrs p input).labels[data.label]? = some (.ofInt a) ∧ dataStart.toInt ≤ a ∧
        a + t.exactBytes m.id ≤ p.staticEnd t := by
  have hstart := toInt_dataStart
  rw [Program.staticEnd] at hend ⊢
  obtain ⟨-, hsized, htotal⟩ := sized_of_are hare (by omega)
  obtain ⟨i, hi⟩ := List.getElem?_of_mem (l := p.globals) (a := m.id)
    (List.mem_filterMap.mpr ⟨_, List.mem_map_of_mem hvar, rfl⟩)
  obtain ⟨d, hd, haccess⟩ := h.data_of_global hi
  -- The block has the size of the variable.
  have hblock : (p.dataBlocks t)[i]? = some (t.exactBytes m.id, none) := by
    have hlt := (List.getElem?_eq_some_iff.mp hi).1
    rw [Program.dataBlocks, List.getElem?_append_left (by rwa [List.length_map]), List.getElem?_map, hi]
    rfl
  have his : d.Is (t.exactBytes m.id, none) := by
    obtain ⟨hlt, hget⟩ := List.getElem?_eq_some_iff.mp hblock
    obtain ⟨hlt', rfl⟩ := List.getElem?_eq_some_iff.mp hd
    exact hget ▸ hare.get hlt hlt'
  have hle : t.exactBytes m.id ≤ ((p.dataBlocks t).map Prod.fst).sum :=
    List.single_le_sum (fun _ _ => Nat.zero_le _) _
      (List.mem_map_of_mem (f := Prod.fst) (List.mem_of_getElem? hblock))
  have hextent : d.extent = t.exactBytes m.id := by
    rw [extent, his.toInt_size (by show t.exactBytes m.id < _; omega), Int.toNat_natCast]
  have hfits := total_take_add_le hd
  rw [hextent, htotal] at hfits
  exact ⟨d, _, haccess, h.holds_treeMachine hsized (htotal ▸ hend) input hd, by omega, by omega⟩

end

/-- Nothing lies on the stack before the program is run. -/
theorem sp_treeMachine (c : Compiled) (t : Attributes) (p : Program) (input : Option ByteReader) :
    (c.treeMachine t p input).state.sp = stackTop := by
  have hload (data : List StaticData) (m : Machine) :
      (data.foldl Machine.loadData m).state.sp = m.state.sp := by
    induction data generalizing m with
    | nil => rfl
    | cons d data ih => exact ih (m.loadData d)
  rw [Stages.treeMachine_eq, Machine.state_addFunctions, hload]

/-- Loading functions leaves what can be seen of the data alone. -/
theorem placement_machine (c : Compiled) (input : Option ByteReader) : (c.machine input).placement
    = (c.linear.data.foldl Machine.loadData { state := { input } }).placement := by
  rw [Stages.machine_eq, Machine.placement, Machine.state_addFunctions,
    (Machine.functions_addFunctions _ _ _ _).1]
  rfl

/-- **The static data of the text and of the machine agree.** Let a program be read without
diagnostics, resolved without errors and compiled, and let the exact sizes of its global variables
and string constants add up to less than `2 ^ 62`. Then it has a text, and an assembler makes an
image of the data section of this text. The blocks have their exact sizes. They stand in the image,
apart from each other, 24 bytes behind the addresses that the machine has loaded them to, with the
same words in memory. The start-up code takes the end of the last block for the start of the heap.
-/
theorem static_data_agree {n : Yaml.Node} {p : Program} {t : Attributes} {o : Options} {σ : Supply}
    {c : Compiled} {listings : Listings} (hread : Program.ofNode n = .ok p)
    (hresolve : p.number.resolve = .ok t)
    (hcompile : compile o p.number { attrs := t, supply := σ } = (.ok c, listings))
    (hsize : ((p.number.dataBlocks t).map Prod.fst).sum < 2 ^ 62) (input : Option ByteReader) :
    ∃ text img, c.assembly = .ok text ∧ dataImage text = some img ∧
      (c.linear.data.map fun d => (d.size.toInt, d.init)) = (p.number.dataBlocks t).map
      (fun b => ((b.1 : Int), b.2)) ∧
      DataAgree c.linear.data (c.machine input) img ∧
      ∀ regs, ∃ regs', startRegisters text regs = some regs' ∧ (regs' 252).toInt = img.loc ∧
        (regs' 252).toInt = (c.machine input).state.heap.toInt + 24 := by
  obtain ⟨text, htext⟩ := exists_text hread hresolve hcompile
  obtain ⟨laid, coded, htranslated, h⟩ := compiledFrom_of_compile hread hresolve hcompile
  have hcomplete := p.number_spec.2 (Program.complete_of_ofNode hread)
  have hstrings := h.stages.holdsStrings (Program.wellNamed_of_resolve hcomplete hresolve).2
    htranslated.layout
  have hare := h.stages.data_are h.linear hstrings (Program.exactBytes_of_resolve hcomplete hresolve)
  obtain ⟨hsizes, hsized, htotal⟩ := sized_of_are hare (by omega)
  have hplaceable := h.placeable hsized (htotal ▸ hsize)
  obtain ⟨hdata, hstart⟩ := h.sections_eq htext
  obtain ⟨img, himage, himg⟩ := hplaceable.holds_image
  have hm := hplaceable.holds_machine input
  rw [← placement_machine] at hm
  have hagree := DataAgree.of_holds hplaceable.total_lt hsized hm himg
  refine ⟨text, img, htext, ?_, hsizes, hagree, fun regs => ?_⟩
  · rw [dataImage, hdata, himage]
  · obtain ⟨regs', hrun, hheap, -⟩ := execute_startup c.registers (dataSize c.linear.data) regs
    have hlt := hplaceable.total_lt
    have hloc := hagree.loc
    -- The start-up code adds the size of the data to their start.
    have hvalue : (regs' 252).toInt = img.loc := by
      rw [hheap, dataSize_eq hsized, show dataStart = .ofNat 0x2000000000000000 from
        rfl, ← Int64.ofNat_add,
        Int64.toInt_ofNat_of_lt (by omega)]
      omega
    refine ⟨regs', ?_, hvalue, hvalue.trans hagree.heap⟩
    rw [startRegisters, hstart, hrun]

/-- A document with a global array, a global variable and a string constant. -/
def arrayAndText : Yaml.Node :=
  sequenceNode [
    mappingNode [("var", scalarNode .str "table"), ("type", scalarNode .str "[3]int")],
    mappingNode [("var", scalarNode .str "count"), ("type", scalarNode .str "int")],
    mappingNode [("fun", scalarNode .str "main"), ("type", scalarNode .str "int"),
      ("body", sequenceNode [mappingNode [("str", scalarNode .str "hi")], scalarNode .str "count"])]]

theorem static_data_agree_arrayAndText : ∃ p t c listings text img,
    Program.ofNode arrayAndText = .ok p ∧ p.number.resolve = .ok t ∧
      compile { registers := 2 } p.number { attrs := t } = (.ok c, listings) ∧ c.assembly = .ok text ∧
      dataImage text = some img ∧
      (c.linear.data.map fun d => (d.size.toInt, d.init)) = [(24, none), (8, none), (24, some "hi")] ∧
      DataAgree c.linear.data (c.machine none) img := by
  have haccepted : (Program.ofNode arrayAndText >>= fun p => p.number.resolve.map fun t =>
    p.number.dataBlocks t)
      = .ok [(24, none), (8, none), (24, some "hi")] := by
    decide +kernel
  rcases hread : Program.ofNode arrayAndText with diagnostics | p
  · rw [hread] at haccepted
    cases haccepted
  rw [hread] at haccepted
  change (p.number.resolve.map fun t => p.number.dataBlocks t) = _ at haccepted
  rcases hresolve : p.number.resolve with diagnostics | t
  · rw [hresolve] at haccepted
    cases haccepted
  rw [hresolve] at haccepted
  have hblocks : p.number.dataBlocks t = [(24, none), (8, none), (24, some "hi")] :=
    Except.ok.inj haccepted
  obtain ⟨c, listings, -, hcompile, -⟩ := exists_compiled hread hresolve (o := { registers := 2 })
    (by decide)
    (by decide) {}
  obtain ⟨text, img, htext, himage, hsizes, hagree, -⟩ :=
    static_data_agree hread hresolve hcompile (by rw [hblocks]; decide) none
  rw [hblocks] at hsizes
  exact ⟨p, t, c, listings, text, img, rfl, hresolve, hcompile, htext, himage, hsizes, hagree⟩

end MmixBackend
