import MmixBackend.Proofs.FrameAreas

/-!
# Sizes and offsets wrap around

The layout adds and multiplies in words, and nothing bounds the lengths of arrays from above. So
every size and offset that it computes is the remainder of an exact one, and it is the exact one
just as long as that is a word. Two local variables get the same address exactly if the exact sizes
between them add up to a multiple of the range of words.

## Main statements

- `compOffsets_eq`: the components of a record.
- `sizes_exact_iff_in_range`: the types, records, variables and frames of an accepted program.
-/

namespace MmixBackend

/-! ## §1 Words and exact numbers -/

theorem Word.toInt_ofNat_eq_bmod (n : Nat) : (Int64.ofNat n).toInt = (n : Int).bmod (2 ^ 64) :=
  Int64.toInt_ofNat'

/-- A number is the word made from it if it is in the range of words. -/
theorem Word.toInt_ofNat_eq_iff (n : Nat) : (Int64.ofNat n).toInt = n ↔ n < 2 ^ 63 := by
  rw [Word.toInt_ofNat_eq_bmod, Int.bmod_def]
  split <;> omega

theorem Word.toInt_neg_ofNat_eq_iff (n : Nat) : (-Int64.ofNat n).toInt = -n ↔ n ≤ 2 ^ 63 := by
  have hbmod : (-Int64.ofNat n).toInt = (-(n : Int)).bmod (2 ^ 64) := by
    rw [← Int64.ofInt_eq_ofNat, ← Int64.ofInt_neg, Int64.toInt_ofInt]
    rfl
  rw [hbmod, Int.bmod_def]
  split <;> omega

/-- Two sums of which one contains the other are the same word if what is added is a multiple of the
range. -/
theorem Word.neg_ofNat_add_eq_iff (a b : Nat) :
    -Int64.ofNat (a + b) = -Int64.ofNat a ↔ 2 ^ 64 ∣ b := by
  rw [Int64.neg_inj, ← Int64.toInt_inj, Word.toInt_ofNat_eq_bmod, Word.toInt_ofNat_eq_bmod,
    Int.bmod_def, Int.bmod_def]
  split <;> split <;> omega

namespace Source

open Layout

/-! ## §2 Records -/

/-- The offsets and sizes of components without bounds, from a start offset on. -/
def Attributes.exactOffsets (t : Attributes) : (offset : Nat) → List (Decl × String × Ty) →
    List (Decl × Nat × Nat)
  | _, [] => []
  | offset, (d, _, ty) :: rest =>
    (d, offset, ty.exactSize t.typeDefs) :: t.exactOffsets (offset + ty.exactSize t.typeDefs) rest

/-- **The components of a record** get their exact offsets and sizes modulo the range of words. -/
theorem compOffsets_eq {t : Attributes} (hdefs : t.typeDefs.Positive) {comps : List (Decl × String × Ty)}
    (h : ∀ c ∈ comps, c.2.2.Positive) (b : Nat) :
    compOffsets t (.ofNat b) comps
      = (t.exactOffsets b comps).map fun c => (c.1, Int64.ofNat c.2.1, Int64.ofNat c.2.2) := by
  induction comps generalizing b with
  | nil => rfl
  | cons c comps ih =>
    obtain ⟨d, name, ty⟩ := c
    obtain ⟨hty, hcomps⟩ := List.forall_mem_cons.mp h
    have hsize : t.sizeOf ty = .ofNat (ty.exactSize t.typeDefs) := Ty.size_eq_exactSize hdefs hty
    rw [compOffsets, Attributes.exactOffsets, List.map_cons, hsize, ← Int64.ofNat_add, ih hcomps]

/-! ## §3 Frames -/

variable {t t' : Attributes} {depth : Word} {ids : List NodeId} {b : Nat}

theorem Attributes.exactSum_take_succ {i : Nat} {id : NodeId} (hi : ids[i]? = some id) :
    t.exactSum (ids.take (i + 1)) = t.exactSum (ids.take i) + t.exactBytes id := by
  rw [List.take_add_one, hi, exactSum_append]
  rfl

theorem Attributes.exactSum_take_le (i : Nat) : t.exactSum (ids.take i) ≤ t.exactSum ids := by
  conv_rhs => rw [← List.take_append_drop i ids, exactSum_append]
  exact Nat.le_add_right _ _

/-- The place of a single local variable. -/
theorem LocalsAt.access (h : LocalsAt t t' depth ids b) {i : Nat} {id : NodeId} (hi : ids[i]? = some id) :
    t'.accesses[id]? = some (.relative (.ofNat (t.exactBytes id))
      (-.ofNat (b + t.exactSum (ids.take (i + 1)))) depth) := by
  induction ids generalizing b i with
  | nil => cases hi
  | cons id' ids ih =>
    cases i with
    | zero =>
      cases hi
      simpa [Attributes.exactSum] using h.1
    | succ i =>
      rw [ih h.2 hi, List.take_succ_cons, Nat.add_assoc]
      rfl

/-- What the layout computes for a function, modulo the range of words: `ids` are its local variables. -/
structure ExactModulo (t t' : Attributes) (f : Frame) (ids : List NodeId) : Prop where
  locals : ∀ (i : Nat) (id : NodeId), ids[i]? = some id →
    t'.accesses[id]? = some (.relative (.ofNat (t.exactBytes id))
    (-.ofNat (t.exactSum (ids.take (i + 1)))) (f.depth + 1))
  locsSize : f.locsSize = .ofNat (t.exactSum ids)
  size : f.size = .ofNat (t.exactSum ids + 16) + f.argsSize

/-- Two variables have the same place in a frame. -/
def Attributes.ShareAddress (t : Attributes) (id id' : NodeId) : Prop :=
  ∃ size size' offset depth, t.accesses[id]? = some (.relative size offset depth) ∧
    t.accesses[id']? = some (.relative size' offset depth)

/-- **Which variables share an address.** -/
theorem ExactModulo.shareAddress_iff {f : Frame} (h : ExactModulo t t' f ids) {i j : Nat}
    {id id' : NodeId} (hi : ids[i]? = some id) (hj : ids[j]? = some id') (hij : i < j) :
    t'.ShareAddress id id' ↔ 2 ^ 64 ∣ t.exactSum ((ids.take (j + 1)).drop (i + 1)) := by
  have hsplit : t.exactSum (ids.take (j + 1))
      = t.exactSum (ids.take (i + 1)) + t.exactSum ((ids.take (j + 1)).drop (i + 1)) := by
    have htake : (ids.take (j + 1)).take (i + 1) = ids.take (i + 1) := by
      rw [List.take_take, Nat.min_eq_left (by omega)]
    rw [← htake, ← Attributes.exactSum_append, List.take_append_drop]
  have hplace := h.locals i id hi
  have hplace' := h.locals j id' hj
  rw [hsplit] at hplace'
  rw [← Word.neg_ofNat_add_eq_iff (t.exactSum (ids.take (i + 1)))]
  constructor
  · rintro ⟨size, size', offset, depth, hid, hid'⟩
    obtain ⟨-, hoffset, -⟩ := Access.relative.inj (Option.some.inj (hid.symm.trans hplace))
    obtain ⟨-, hoffset', -⟩ := Access.relative.inj (Option.some.inj (hid'.symm.trans hplace'))
    exact hoffset'.symm.trans hoffset
  · intro heq
    rw [heq] at hplace'
    exact ⟨_, _, _, _, hplace, hplace'⟩

end Source

open Source

/-- The frame of a function is exact modulo the range of words. -/
theorem Stages.exactModulo {p : Program} {t : Attributes} {laid coded : Workspace}
    (h : Stages p t laid coded) {m : Mark} {name : String} {params : List Param} {type : TypeExpr}
    {body : Expr} (hfn : .fn m name params type body ∈ p.functions) :
    ∃ f, laid.attrs.frames[m.id]? = some f ∧ ExactModulo t laid.attrs f body.locals := by
  have hmem := (Linear.mem_walk_of_mem_functions hfn).2
  obtain ⟨n, ⟨label, fp, rv, -, hframe⟩, -, hbody⟩ := h.arranged_function hmem
  have hsized := Attributes.sized h.positive h.definitions
  have hfills := body.fills_of_arranged hsized hbody (b := 0) ⟨rfl, rfl, rfl⟩
  have hlocals : LocalsAt t laid.attrs (n.depth + 1) body.locals 0 := hfills.locals
  have hlocs : (body.needs t { depth := n.depth + 1 }).locsSize = .ofNat (t.exactSum body.locals) := by
    rw [hfills.needs.locsSize, Nat.zero_add]
    rfl
  refine ⟨_, hframe, fun i id hi => ?_, hlocs, ?_⟩
  · rw [hlocals.access hi, Nat.zero_add]
  · rw [Frame.size, Int64.ofNat_add, hlocs]
    rfl

/-- **Sizes and offsets are exact as long as they are in the range of words.** Let a program have
been read without diagnostics and resolved without errors. The sizes of the types of its
declarations, the offsets and sizes of the components of its records and, in each function, the
sizes and offsets of local variables and the size of their area are the exact ones modulo the range
of words. They are the exact ones if and only if these are in the range. Two local variables of a
function share an address exactly if the exact sizes from the one to the other add up to a multiple
of the range. -/
theorem sizes_exact_iff_in_range {n : Yaml.Node} {p : Program} {t : Attributes}
    (hread : Program.ofNode n = .ok p) (hresolve : p.number.resolve = .ok t) (σ : Supply) :
    (∀ (id : NodeId) ty, t.declType[id]? = some ty →
      ty.size t.typeDefs = .ofNat (ty.exactSize t.typeDefs) ∧
        ((ty.size t.typeDefs).toInt = ty.exactSize t.typeDefs ↔ ty.exactSize t.typeDefs < 2 ^ 63)) ∧
    (∀ (id : NodeId) info, t.records[id]? = some info →
      Layout.compOffsets t 0 (info.comps.zip info.fields.toList)
        = (t.exactOffsets 0 (info.comps.zip info.fields.toList)).map fun c =>
            (c.1, Int64.ofNat c.2.1, Int64.ofNat c.2.2)) ∧
    ∃ laid, (Layout.program p.number).run.run { attrs := t, supply := σ } = (.ok (), laid) ∧
      ∀ m name params type body, .fn m name params type body ∈ p.number.functions →
        ∃ f, laid.attrs.frames[m.id]? = some f ∧ ExactModulo t laid.attrs f body.locals ∧
          (f.locsSize.toInt = t.exactSum body.locals ↔ t.exactSum body.locals < 2 ^ 63) ∧
          (∀ (i : Nat) (id : NodeId), body.locals[i]? = some id → ∃ size offset,
            laid.attrs.accesses[id]? = some (.relative size offset (f.depth + 1)) ∧
              (size.toInt = t.exactBytes id ↔ t.exactBytes id < 2 ^ 63) ∧
              (offset.toInt = -t.exactSum (body.locals.take (i + 1))
                ↔ t.exactSum (body.locals.take (i + 1)) ≤ 2 ^ 63)) ∧
          ∀ (i j : Nat) (id id' : NodeId), body.locals[i]? = some id → body.locals[j]? = some id' →
            i < j →
            (laid.attrs.ShareAddress id id'
              ↔ 2 ^ 64 ∣ t.exactSum ((body.locals.take (j + 1)).drop (i + 1))) := by
  obtain ⟨laid, coded, l, htranslated, h, -⟩ := translated_of_accepted hread hresolve σ
  refine ⟨fun id ty hty => ?_, fun id info hinfo => ?_, laid, htranslated.layout,
    fun m name params type body hfn => ?_⟩
  -- A size is computed modulo the range of words, so it is exact if it lies in the range.
  · have hsize := Ty.size_eq_exactSize h.definitions (h.positive id ty hty)
    rw [hsize]
    exact ⟨rfl, Word.toInt_ofNat_eq_iff _⟩
  · have hrecords := (Program.resolved_of_resolve h.complete hresolve).2.1 id info hinfo
    refine compOffsets_eq h.definitions (fun c hc => ?_) 0
    exact Fields.positive_of_mem hrecords.positive _ (List.of_mem_zip hc).2
  · obtain ⟨f, hframe, hexact⟩ := h.exactModulo hfn
    refine ⟨f, hframe, hexact, ?_, fun i id hi => ?_, fun i j id id' hi hj hij =>
      hexact.shareAddress_iff hi hj hij⟩
    · rw [hexact.locsSize]
      exact Word.toInt_ofNat_eq_iff _
    · exact ⟨_, _, hexact.locals i id hi, Word.toInt_ofNat_eq_iff _, Word.toInt_neg_ofNat_eq_iff _⟩

/-- A document whose function has an array of as many bytes as there are words, behind another
variable. -/
def hugeArray : Yaml.Node :=
  sequenceNode [
    mappingNode [("fun", scalarNode .str "main"), ("type", scalarNode .str "int"),
      ("body", mappingNode [("where", mappingNode [
        ("decls", sequenceNode [
          mappingNode [("var", scalarNode .str "x"), ("type", scalarNode .str "int")],
          mappingNode [("var", scalarNode .str "b"),
            ("type", scalarNode .str "[2305843009213693952]int")]]),
        ("expr", scalarNode .str "x")])])]]

/-- The program of this document. -/
def hugeArrayProgram : Program where
  mark := ⟨0, 1, 1⟩
  decls := [
    .fn ⟨0, 1, 1⟩ "main" [] ⟨⟨0, 1, 1⟩, "int"⟩
      (.scope ⟨0, 1, 1⟩ [.var ⟨0, 1, 1⟩ "x" ⟨⟨0, 1, 1⟩, "int"⟩,
          .var ⟨0, 1, 1⟩ "b" ⟨⟨0, 1, 1⟩, "[2305843009213693952]int"⟩]
        (.name ⟨0, 1, 1⟩ "x"))]

/-- The body of its function with its numbers. -/
def hugeArrayBody : Expr :=
  .scope ⟨3, 1, 1⟩ [.var ⟨4, 1, 1⟩ "x" ⟨⟨5, 1, 1⟩, "int"⟩,
      .var ⟨6, 1, 1⟩ "b" ⟨⟨7, 1, 1⟩, "[2305843009213693952]int"⟩]
    (.name ⟨8, 1, 1⟩ "x")

/-- The array has no bytes and lies where the other variable is. -/
theorem sizes_exact_iff_in_range_hugeArray : ∃ t laid,
    hugeArrayProgram.number.resolve = .ok t ∧ t.exactBytes 6 = 2 ^ 64 ∧
      (Layout.program hugeArrayProgram.number).run.run { attrs := t } = (.ok (), laid) ∧
      (∃ depth, laid.attrs.accesses[6]? = some (.relative 0 (-8) depth)) ∧
      laid.attrs.ShareAddress 4 6 := by
  have hbytes : hugeArrayProgram.number.resolve.toOption.map (fun t => (t.exactBytes 4, t.exactBytes 6))
      = some (8, 2 ^ 64) := by decide +kernel
  obtain ⟨t, ht, hbytes⟩ := Option.map_eq_some_iff.mp hbytes
  obtain ⟨hx, hb⟩ := Prod.mk.inj hbytes
  have hresolve := toOption_eq_some ht
  have hfn : .fn ⟨1, 1, 1⟩ "main" [] ⟨⟨2, 1, 1⟩, "int"⟩
      hugeArrayBody ∈ hugeArrayProgram.number.functions :=
    List.mem_of_getElem? (i := 0) rfl
  have hread : Program.ofNode hugeArray = .ok hugeArrayProgram := rfl
  obtain ⟨-, -, laid, hlayout, hall⟩ := sizes_exact_iff_in_range hread hresolve {}
  obtain ⟨f, hframe, hexact, -, -, hshare⟩ := hall _ _ _ _ _ hfn
  have hlocals : hugeArrayBody.locals = [4, 6] := rfl
  rw [hlocals] at hexact hshare
  have hplace := hexact.locals 1 6 rfl
  have hsum : t.exactSum (([4, 6] : List NodeId).take 2) = 8 + 2 ^ 64 := by
    simp [Attributes.exactSum, hx, hb]
  rw [hb, hsum] at hplace
  refine ⟨t, laid, hresolve, hb, hlayout, ⟨_, hplace⟩, (hshare 0 1 4 6 rfl rfl (by decide)).mpr ?_⟩
  simp [Attributes.exactSum, hb]

end MmixBackend
