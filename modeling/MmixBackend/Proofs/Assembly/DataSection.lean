import MmixBackend.Proofs.Assembly.Labels

/-!
# Assembling the data section

An assembler goes through the lines of a section with a location counter. `BYTE` and `OCTA` put the
values of their operands at the location, an octabyte at the next multiple of eight and with its
high end first; `LOC` sets the location; and a label has the location of its line as its value.
`Image.assemble?` does this for one line and knows nothing of how lines are written.

A block of static data is assembled to the words that it starts with, at the location where the
block before it has ended, and the location behind it is farther by the bytes of the block.

## Main statements

- `Image.octa_octas`: the words of an image behind a line with octabytes.
- `Image.assemble_dataLines`: the lines of a block of static data.
- `Image.assemble_buffers`: the lines of the buffers in front of them.
-/

namespace MmixBackend

/-! ## §1 Images -/

namespace StaticData

/-- The number of bytes of the block. -/
def extent (d : StaticData) : Nat := d.size.toInt.toNat

/-- The bytes of the string constant in the block, if there is one. -/
def bytes (d : StaticData) : List UInt8 := d.init.elim [] fun s => s.toUTF8.toList

/-- The words with which the block starts: one for each byte of a string constant, and a zero. -/
def words (d : StaticData) : List Nat := d.bytes.map UInt8.toNat ++ [0]

/-- The block consists of whole words, at least one, and a string constant has just the words that
it needs. -/
structure WellSized (d : StaticData) : Prop where
  pos : 0 < d.extent
  dvd : 8 ∣ d.extent
  init : ∀ s, d.init = some s → d.extent = 8 * (s.toUTF8.toList.length + 1)

end StaticData

namespace Assembly

/-- What an assembler has made so far: the location, the values of symbols and the bytes in memory. -/
structure Image where
  loc : Nat
  symbols : Label → Option Nat
  bytes : Nat → Nat

/-- The bytes of an octabyte, the high end first. -/
def octaBytes (v : Nat) : List Nat := (List.range 8).map fun i => v / 256 ^ (7 - i) % 256

/-- The mnemonic and the operands of a line. A missing operand is zero. -/
def Line.fields (l : Line) : String × List (List Char) :=
  match l.instr.toList.splitOn ' ' with
  | [] => ("", [])
  | [mnemonic] => (String.ofList mnemonic, [['0']])
  | mnemonic :: operands :: _ => (String.ofList mnemonic, operands.splitOn ',')

namespace Image

variable (img : Image)

/-- The octabyte at an address. -/
def octa (a : Nat) : Nat := ((List.range 8).map fun i => img.bytes (a + i)).foldl
    (fun v b => 256 * v + b) 0

/-- Puts bytes at the location. -/
def emit (bs : List Nat) : Image :=
  { img with
    loc := img.loc + bs.length
    bytes := fun a => if img.loc ≤ a then (bs[a - img.loc]?).getD (img.bytes a) else img.bytes a }

/-- Goes on to the next multiple of eight. -/
def align : Image := { img with loc := (img.loc + 7) / 8 * 8 }

/-- Gives the label of a line the location as its value, unless it has one. -/
def define (l : Label) : Option Image :=
  if l = "" then some img
  else if img.symbols l = none then some
    { img with symbols := Function.update img.symbols l (some img.loc) }
  else none

/-- The value of a decimal number or of a symbol. -/
def term? : List Char → Option Nat
  | [] => none
  | c :: cs =>
    if c.isDigit then if cs.all Char.isDigit then some (Nat.ofDigitChars 10 (c :: cs) 0) else none
    else img.symbols (String.ofList (c :: cs))

/-- The value of a sum. -/
def value? (cs : List Char) : Option Nat := ((cs.splitOn '+').mapM img.term?).map fun vs =>
    vs.sum % 2 ^ 64

/-- Assembles a line of data. -/
def assemble? (img : Image) (l : Line) : Option Image :=
  let (mnemonic, operands) := l.fields
  if mnemonic = "LOC" then do
    let img ← img.define l.label
    let vs ← operands.mapM img.value?
    return { img with loc := vs.headD 0 }
  else if mnemonic = "BYTE" then do
    let img ← img.define l.label
    let vs ← operands.mapM img.value?
    return img.emit (vs.map (· % 256))
  else if mnemonic = "OCTA" then do
    let img ← img.align.define l.label
    let vs ← operands.mapM img.value?
    return img.emit (vs.flatMap octaBytes)
  else none

/-- An empty image, with the symbol for the start of the data segment. -/
def empty : Image where
  loc := 0
  symbols := Function.update (fun _ => none) "Data_Segment" (some 0x2000000000000000)
  bytes := fun _ => 0

/-! ## §2 Octabytes -/

theorem bytes_emit_of_lt {a : Nat} (h : a < img.loc) (bs : List Nat) :
    (img.emit bs).bytes a = img.bytes a :=
  if_neg (Nat.not_le.mpr h)

theorem bytes_emit_of_le {a : Nat} (h : img.loc ≤ a) (bs : List Nat) :
    (img.emit bs).bytes a = (bs[a - img.loc]?).getD (img.bytes a) :=
  if_pos h

theorem length_octaBytes (v : Nat) : (octaBytes v).length = 8 := by simp [octaBytes]

/-- An octabyte depends on its eight bytes. -/
theorem octa_congr {img img' : Image} {a : Nat} (h : ∀ i < 8, img'.bytes (a + i) = img.bytes (a + i)) :
    img'.octa a = img.octa a := by
  have hbytes : (List.range 8).map (fun i => img'.bytes (a + i)) = (List.range 8).map fun i =>
      img.bytes (a + i) :=
    List.map_congr_left fun i hi => h i (List.mem_range.mp hi)
  rw [octa, octa, hbytes]

/-- The last bytes of a number make up what is left of it. -/
theorem foldl_bytes (n v : Nat) :
    ((List.range n).map fun i => v / 256 ^ (n - 1 - i) % 256).foldl (fun v b => 256 * v + b) 0 = v
    % 256 ^ n := by
  induction n generalizing v with
  | zero => simp [Nat.mod_one]
  | succ n ih =>
    -- The bytes before the last one are those of the number without it.
    have hbefore : (List.range n).map (fun i => v / 256 ^ (n + 1 - 1 - i) % 256)
        = (List.range n).map fun i => v / 256 / 256 ^ (n - 1 - i) % 256 := by
      refine List.map_congr_left fun i hi => ?_
      have hexp : n + 1 - 1 - i = n - 1 - i + 1 := by
        have := List.mem_range.mp hi
        omega
      rw [hexp, Nat.pow_succ', Nat.div_div_eq_div_mul]
    have hlast : v / 256 ^ (n + 1 - 1 - n) % 256 = v % 256 := by simp
    rw [List.range_succ, List.map_append, List.map_singleton, List.foldl_append, List.foldl_cons,
      List.foldl_nil,
      hbefore, ih, hlast, Nat.pow_succ', Nat.mod_mul, Nat.add_comm]

/-- The bytes of an octabyte make it up again. -/
theorem foldl_octaBytes {v : Nat} (hv : v < 2 ^ 64) :
    (octaBytes v).foldl (fun v b => 256 * v + b) 0 = v :=
  (foldl_bytes 8 v).trans (Nat.mod_eq_of_lt hv)

theorem octa_emit_octaBytes {v : Nat} (hv : v < 2 ^ 64) (bs : List Nat) :
    (img.emit (octaBytes v ++ bs)).octa img.loc = v := by
  have hbytes : (List.range 8).map (fun i => (img.emit (octaBytes v ++ bs)).bytes (img.loc + i)) =
      octaBytes v := by
    refine List.map_congr_left fun i hi => ?_
    have hget : (octaBytes v)[i]? = some (v / 256 ^ (7 - i) % 256) := by
      rw [octaBytes, List.getElem?_map, List.getElem?_range (List.mem_range.mp hi)]
      rfl
    have hlength : i < (octaBytes v).length := by
      rw [length_octaBytes]
      exact List.mem_range.mp hi
    rw [bytes_emit_of_le img (Nat.le_add_right _ i), Nat.add_sub_cancel_left,
      List.getElem?_append_left hlength, hget,
      Option.getD_some]
  rw [octa, hbytes, foldl_octaBytes hv]

/-- What is put into memory leaves the octabytes before and behind it. -/
theorem octa_emit_of_apart {a : Nat} {bs : List Nat} (h : a + 8 ≤ img.loc ∨ img.loc + bs.length ≤ a) :
    (img.emit bs).octa a = img.octa a := by
  refine octa_congr fun i hi => ?_
  rcases h with h | h
  · exact img.bytes_emit_of_lt (by omega) bs
  · rw [bytes_emit_of_le img (by omega), List.getElem?_eq_none (by omega), Option.getD_none]

theorem emit_append (bs bs' : List Nat) : img.emit (bs ++ bs') = (img.emit bs).emit bs' := by
  have hlater : (img.emit bs).loc = img.loc + bs.length := rfl
  have hbytes (a : Nat) : (img.emit (bs ++ bs')).bytes a = ((img.emit bs).emit bs').bytes a := by
    by_cases hbefore : a < img.loc
    · rw [bytes_emit_of_lt _ hbefore, bytes_emit_of_lt _ (by omega), bytes_emit_of_lt _ hbefore]
    · rw [bytes_emit_of_le _ (Nat.not_lt.mp hbefore)]
      by_cases hfirst : a < img.loc + bs.length
      · rw [bytes_emit_of_lt _ (hlater ▸ hfirst), bytes_emit_of_le _ (Nat.not_lt.mp hbefore),
          List.getElem?_append_left (by omega)]
      · rw [bytes_emit_of_le _ (hlater ▸ Nat.not_lt.mp hfirst), bytes_emit_of_le _
          (Nat.not_lt.mp hbefore),
          List.getElem?_append_right (by omega), List.getElem?_eq_none
            (show bs.length ≤ a - img.loc by omega),
          Option.getD_none, hlater, Nat.sub_add_eq]
  have hloc : img.loc + (bs ++ bs').length = img.loc + bs.length + bs'.length := by
    rw [List.length_append, Nat.add_assoc]
  exact congrArg₂ (fun loc bytes => (⟨loc, img.symbols, bytes⟩ : Image)) hloc (funext hbytes)

theorem length_flatMap_octaBytes (vs : List Nat) : (vs.flatMap octaBytes).length = 8 * vs.length := by
  simp [List.length_flatMap, length_octaBytes, Nat.mul_comm]

/-- **The words behind a line with octabytes** are their values. -/
theorem octa_octas {vs : List Nat} (hvs : ∀ v ∈ vs, v < 2 ^ 64) {k v : Nat} (hk : vs[k]? = some v) :
    (img.emit (vs.flatMap octaBytes)).octa (img.loc + 8 * k) = v := by
  induction vs generalizing img k with
  | nil => cases hk
  | cons w ws ih =>
    obtain ⟨hw, hws⟩ := List.forall_mem_cons.mp hvs
    rw [List.flatMap_cons]
    cases k with
    | zero =>
      cases hk
      exact img.octa_emit_octaBytes hw _
    | succ k =>
      have hloc : img.loc + 8 * (k + 1) = (img.emit (octaBytes w)).loc + 8 * k := by
        simp only [emit, length_octaBytes]
        omega
      rw [emit_append, hloc]
      exact ih (img.emit (octaBytes w)) hws hk

/-! ## §3 Lines -/

/-- Digits have the value of their number, whatever the symbols are. -/
theorem term?_digits {cs : List Char} (hne : cs ≠ []) (h : ∀ c ∈ cs, c.isDigit) :
    img.term? cs = some (Nat.ofDigitChars 10 cs 0) := by
  obtain ⟨c, cs, rfl⟩ := List.exists_cons_of_ne_nil hne
  obtain ⟨hc, hcs⟩ := List.forall_mem_cons.mp h
  rw [term?, if_pos hc, if_pos (List.all_eq_true.mpr hcs)]

theorem term?_toString (n : Nat) : img.term? (toString n).toList = some n := by
  have hdigits : (toString n).toList = Nat.toDigits 10 n := Nat.toList_repr
  rw [hdigits, term?_digits img Nat.toDigits_ne_nil fun c hc =>
    Nat.isDigit_of_mem_toDigits (by decide) (by decide) hc, Nat.ofDigitChars_toDigits
      (by decide) (by decide)]

/-- A label that does not start with a digit is a symbol. -/
theorem term?_label {l : Label} (hl : l.Legible) (hdigit : ∀ c ∈ l.toList.head?, c.isDigit = false) :
    img.term? l.toList = img.symbols l := by
  cases hcs : l.toList with
  | nil => exact absurd (String.toList_eq_nil_iff.mp hcs) hl.1
  | cons c cs =>
    have hc : ¬c.isDigit = true := Bool.eq_false_iff.mp (hdigit c (by rw [hcs]; rfl))
    rw [term?, if_neg hc, ← hcs, String.ofList_toList]

theorem value?_of_term {cs : List Char} {v : Nat} (hplus : '+' ∉ cs) (hv : img.term? cs = some v) :
    img.value? cs = some (v % 2 ^ 64) := by
  rw [value?, List.splitOn_eq_singleton hplus]
  simp [hv]

theorem plus_not_mem_toString (n : Nat) : '+' ∉ (toString n).toList := fun h => by
  rcases isDigit_or_eq_minus n _ h with h | h <;> revert h <;> decide

theorem value?_toString (n : Nat) : img.value? (toString n).toList = some (n % 2 ^ 64) :=
  value?_of_term img (plus_not_mem_toString n) (img.term?_toString n)

theorem value?_sum {l : Label} (hl : l.Legible) (hdigit : ∀ c ∈ l.toList.head?, c.isDigit = false)
    {a n : Nat} (ha : img.symbols l = some a) :
    img.value? (l ++ "+" ++ toString n).toList = some ((a + n) % 2 ^ 64) := by
  have hplus : '+' ∉ l.toList := fun h => hl.char_ne h (by decide) rfl
  have hsplit : (l ++ "+" ++ toString n).toList.splitOn '+' = [l.toList, (toString n).toList] := by
    rw [String.toList_append, String.toList_append, List.append_assoc]
    exact (List.splitOn_append_cons_self_of_not_mem hplus _).trans
      (congrArg _ (List.splitOn_eq_singleton (plus_not_mem_toString n)))
  rw [value?, hsplit]
  simp only [List.mapM_cons, List.mapM_nil, term?_label img hl hdigit, ha, term?_toString]
  rfl

end Image

theorem fields_statement {label mnemonic : String} {operands : List String} (hmnemonic : IsWord mnemonic)
    (hoperands : ∀ o ∈ operands, IsWord o) (hne : operands ≠ []) :
    Line.fields ⟨label, statement mnemonic operands⟩ = (mnemonic, operands.map String.toList) := by
  simp only [Line.fields]
  rw [splitOn_statement hmnemonic hoperands]
  simp only [String.ofList_toList, splitOn_operands hoperands hne]

theorem fields_mnemonic {label mnemonic : String} (hmnemonic : IsWord mnemonic) :
    Line.fields ⟨label, mnemonic⟩ = (mnemonic, [['0']]) := by
  simp only [Line.fields]
  rw [List.splitOn_eq_singleton fun h => (hmnemonic _ h).2.1 rfl]
  simp only [String.ofList_toList]

namespace Image

variable {img : Image}

/-- The image with a value for a label. -/
def defining (img : Image) (l : Label) : Image :=
  { img with symbols := Function.update img.symbols l (some img.loc) }

theorem define_eq {l : Label} (hl : l ≠ "") (hnew : img.symbols l = none) :
    img.define l = some (img.defining l) := by
  rw [define, if_neg hl, if_pos hnew]
  rfl

theorem align_eq (h : 8 ∣ img.loc) : img.align = img := by
  have hloc : (img.loc + 7) / 8 * 8 = img.loc := by omega
  rw [align, hloc]

/-- A line with octabytes. -/
theorem assemble?_octa {l : Line} {operands : List (List Char)} {vs : List Nat}
    (hfields : l.fields = ("OCTA", operands)) (hloc : 8 ∣ img.loc) (hl : l.label ≠ "")
    (hnew : img.symbols l.label = none) (hvs : operands.mapM (img.defining l.label).value? = some vs) :
    img.assemble? l = some ((img.defining l.label).emit (vs.flatMap octaBytes)) := by
  rw [assemble?, hfields]
  simp only [align_eq hloc, define_eq hl hnew, Option.bind_eq_bind, Option.bind_some, hvs]
  rfl

/-- A line that sets the location. -/
theorem assemble?_loc {l : Line} {operand : List Char} {v : Nat} (hfields : l.fields = ("LOC", [operand]))
    (hl : l.label = "") (hv : img.value? operand = some v) :
    img.assemble? l = some { img with loc := v } := by
  rw [assemble?, hfields]
  simp [define, hl, hv]

theorem mapM_value?_toString (img : Image) {vs : List Nat} (h : ∀ v ∈ vs, v < 2 ^ 64) :
    ((vs.map fun v => toString v).map String.toList).mapM img.value? = some vs := by
  induction vs with
  | nil => rfl
  | cons v vs ih =>
    obtain ⟨hv, hvs⟩ := List.forall_mem_cons.mp h
    simp only [List.map_cons, List.mapM_cons, value?_toString, Nat.mod_eq_of_lt hv, ih hvs]
    rfl

end Image

end Assembly

namespace StaticData

variable {d : StaticData}

theorem words_lt (d : StaticData) : ∀ v ∈ d.words, v < 2 ^ 64 := by
  refine List.forall_mem_append.mpr ⟨fun v hv => ?_, by simp⟩
  obtain ⟨b, -, rfl⟩ := List.mem_map.mp hv
  have hb := b.toNat_lt
  omega

/-- The words of a block are those of its bytes. -/
theorem getD_words_of_getElem {k : Nat} {b : UInt8} (h : d.bytes[k]? = some b) :
    d.words.getD k 0 = b.toNat := by
  obtain ⟨hk, rfl⟩ := List.getElem?_eq_some_iff.mp h
  rw [words, List.getD_eq_getElem?_getD, List.getElem?_append_left (by rwa [List.length_map]),
    List.getElem?_map, h]
  rfl

/-- Behind its bytes a block has zeros. -/
theorem getD_words_of_le {k : Nat} (h : d.bytes.length ≤ k) : d.words.getD k 0 = 0 := by
  rw [words, List.getD_eq_getElem?_getD, List.getElem?_append_right (by rwa [List.length_map])]
  cases k - (d.bytes.map UInt8.toNat).length <;> rfl

/-- The words of a string constant fill its block. -/
theorem WellSized.length_words (h : d.WellSized) {s : String} (hs : d.init = some s) :
    8 * d.words.length = d.extent := by
  rw [h.init s hs, words, bytes, hs, List.length_append, List.length_map]
  rfl

/-- The block has room for its words. -/
theorem WellSized.length_words_le (h : d.WellSized) : 8 * d.words.length ≤ d.extent := by
  cases hinit : d.init with
  | some s => exact Nat.le_of_eq (h.length_words hinit)
  | none =>
    have hpos := h.pos
    have hdvd := h.dvd
    rw [words, bytes, hinit]
    show 8 * 1 ≤ _
    omega

theorem WellSized.toInt_size (h : d.WellSized) : d.size.toInt = d.extent := by
  have hpos := h.pos
  rw [extent] at hpos ⊢
  omega

theorem WellSized.text_size (h : d.WellSized) : d.size.text = toString d.extent := by
  rw [Word.text, h.toInt_size]
  rfl

theorem WellSized.byteSize_lt_iff (h : d.WellSized) : Word.byteSize < d.size ↔ 8 < d.extent := by
  rw [Int64.lt_iff_toInt_lt, h.toInt_size]
  exact Int.ofNat_lt

end StaticData

namespace Assembly

namespace Image

variable {img : Image}

theorem loc_emit_words (d : StaticData) :
    ((img.defining d.label).emit (d.words.flatMap octaBytes)).loc = img.loc + 8 * d.words.length := by
  rw [← length_flatMap_octaBytes]
  rfl

/-- A text is one line with its bytes. -/
theorem assemble_text {d : StaticData} {s : String} (hinit : d.init = some s) (hd : d.WellSized)
    (hl : d.label.Legible) (hloc : 8 ∣ img.loc) (hnew : img.symbols d.label = none) :
    (dataLines d).foldlM assemble? img
      = some { (img.defining d.label).emit (d.words.flatMap octaBytes) with
          loc := img.loc + d.extent } := by
  have hwords : d.words.map (fun v => toString v) = (s.toUTF8.toList.map fun b =>
      toString b.toNat) ++ ["0"] := by
    rw [StaticData.words, StaticData.bytes, hinit, List.map_append, List.map_map]
    rfl
  have hword : ∀ o ∈ d.words.map (fun v => toString v), IsWord o := by
    simp only [List.forall_mem_map]
    exact fun v _ => isWord_nat v
  have hne : d.words.map (fun v => toString v) ≠ [] := by
    rw [hwords]
    simp
  have hlines : dataLines d = [⟨d.label, statement "OCTA" (d.words.map fun v => toString v)⟩] := by
    have hstatement : "OCTA " ++ String.intercalate "," (d.words.map fun v => toString v)
        = statement "OCTA" (d.words.map fun v => toString v) := by
      apply String.toList_injective
      simp [statement]
    rw [← hstatement, hwords, dataLines, hinit]
  have hfields : Line.fields ⟨d.label, _⟩ = _ := fields_statement (show IsWord "OCTA" by decide) hword hne
  rw [hlines, List.foldlM_cons, assemble?_octa hfields hloc hl.1 hnew (mapM_value?_toString _ d.words_lt)]
  rw [← hd.length_words hinit, ← loc_emit_words]
  rfl

/-- Memory that is zero at first is one word, and behind it the location is moved on if there is more. -/
theorem assemble_zeroed {d : StaticData} (hinit : d.init = none) (hd : d.WellSized) (hl : d.label.Legible)
    (hdigit : ∀ c ∈ d.label.toList.head?, c.isDigit = false) (hloc : 8 ∣ img.loc)
    (hnew : img.symbols d.label = none) (hbound : img.loc + d.extent < 2 ^ 64) :
    (dataLines d).foldlM assemble? img
      = some { (img.defining d.label).emit (d.words.flatMap octaBytes) with
          loc := img.loc + d.extent } := by
  -- A block without initial contents is written as one zero word.
  have hwords : d.words = [0] := by
    rw [StaticData.words, StaticData.bytes, hinit]
    rfl
  have hfields : Line.fields ⟨d.label, "OCTA"⟩ = _ := fields_mnemonic (by decide)
  have hocta : img.assemble? ⟨d.label, "OCTA"⟩
      = some ((img.defining d.label).emit (d.words.flatMap octaBytes)) := by
    rw [hwords]
    exact assemble?_octa hfields hloc hl.1 hnew rfl
  rw [dataLines, hinit]
  dsimp only
  -- A longer block has a second line, which moves the location and counts from the label.
  by_cases hsize : Word.byteSize < d.size
  · have hstatement : "LOC " ++ d.label ++ "+" ++ d.size.text
        = statement "LOC" [d.label ++ "+" ++ toString d.extent] := by
      rw [hd.text_size]
      apply String.toList_injective
      simp [statement]
    have hword : ∀ o ∈ [d.label ++ "+" ++ toString d.extent], IsWord o :=
      List.forall_mem_singleton.mpr ((hl.isWord.append (by decide)).append (isWord_nat _))
    have hvalue := value?_sum ((img.defining d.label).emit (d.words.flatMap octaBytes)) hl hdigit
      (n := d.extent)
      (show Function.update img.symbols d.label (some img.loc) d.label = some img.loc from
        Function.update_self ..)
    rw [Nat.mod_eq_of_lt hbound] at hvalue
    have hskip : Line.fields ⟨"", _⟩ = _ := fields_statement (show IsWord "LOC" by decide) hword (by simp)
    rw [if_pos hsize, List.foldlM_cons, hocta, hstatement]
    exact congrArg (· >>= _) (assemble?_loc hskip rfl hvalue)
  · -- Sizes are multiples of a word, so the block is the one word that is there already.
    have hextent : d.extent = 8 := by
      have hle := mt hd.byteSize_lt_iff.mpr hsize
      have hpos := hd.pos
      have hdvd := hd.dvd
      omega
    have hloc' : ((img.defining d.label).emit (d.words.flatMap octaBytes)).loc = img.loc + 8 *
        d.words.length :=
      loc_emit_words d
    rw [if_neg hsize, List.foldlM_cons, hocta, hextent]
    rw [hwords] at hloc' ⊢
    rw [← show _ = img.loc + 8 from hloc']
    rfl

/-- **A block of static data** is assembled to its words. Behind it the location is farther by its
bytes. -/
theorem assemble_dataLines {d : StaticData} (hd : d.WellSized) (hl : d.label.Legible)
    (hdigit : ∀ c ∈ d.label.toList.head?, c.isDigit = false) (hloc : 8 ∣ img.loc)
    (hnew : img.symbols d.label = none) (hbound : img.loc + d.extent < 2 ^ 64) :
    (dataLines d).foldlM assemble? img
      = some { (img.defining d.label).emit (d.words.flatMap octaBytes) with
          loc := img.loc + d.extent } := by
  cases hinit : d.init with
  | some s => exact assemble_text hinit hd hl hloc hnew
  | none => exact assemble_zeroed hinit hd hl hdigit hloc hnew hbound

/-! ## §4 Buffers -/

/-- The image of the buffers in front of the data. -/
def buffers : Image :=
  let output := (defining { empty with loc := 0x2000000000000000 } "OutBuf").emit [0, 0]
  let input := (output.defining "InBuf").emit [0]
  (input.align.defining "Arg").emit ([0x2000000000000002, 1].flatMap octaBytes)

/-- The lines of the buffers. -/
theorem assemble_buffers : [plain "LOC Data_Segment", ⟨"OutBuf", "BYTE 0,0"⟩, ⟨"InBuf", "BYTE 0"⟩,
    ⟨"Arg", "OCTA InBuf,1"⟩].foldlM assemble? empty = some buffers := rfl

theorem loc_buffers : buffers.loc = 0x2000000000000018 := rfl

/-- Behind the buffers there is nothing yet. -/
theorem octa_buffers {a : Nat} (ha : buffers.loc ≤ a) : buffers.octa a = 0 := by
  rw [loc_buffers] at ha
  refine (octa_emit_of_apart _ (.inr ha)).trans ?_
  refine (octa_emit_of_apart _ (.inr ?_)).trans ((octa_emit_of_apart _ (.inr ?_)).trans rfl)
  · exact Nat.le_trans (by decide) ha
  · exact Nat.le_trans (by decide) ha

theorem symbols_buffers {l : Label} (hl : l ∉ "Data_Segment" :: bufferLabels) :
    buffers.symbols l = none := by
  simp only [bufferLabels, List.mem_cons, List.not_mem_nil, or_false, not_or] at hl
  obtain ⟨hsegment, hout, hin, harg⟩ := hl
  have hempty : Function.update (fun _ : Label => (none : Option Nat)) "Data_Segment"
    (some 0x2000000000000000) l
      = none := Function.update_of_ne hsegment ..
  exact (Function.update_of_ne harg ..).trans ((Function.update_of_ne hin ..).trans
    ((Function.update_of_ne hout ..).trans hempty))

end Image

end Assembly

end MmixBackend
