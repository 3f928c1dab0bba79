import MmixBackend.Proofs.Assembly.DataSection
import MmixBackend.Proofs.Safety
import MmixBackend.Proofs.Source.Activation

/-!
# Placements of static data

The machine reserves blocks of static data on its heap. An assembler puts them into the data
segment, line by line. Both put each block behind the one before it, give its label the address
where it starts, and leave the words behind its initial contents zero. `Placement` is what can be
seen of this in either of them, and `Placement.Puts` says what a single block does. Whatever puts
blocks in this way holds all of them from one address on.

## Main statements

- `Placement.Holds.put`: one block more.
- `Machine.puts_loadData`, `Machine.holds_foldl_loadData`: the machine.
- `Assembly.Image.puts_dataLines`, `Assembly.Image.holds_dataLines`: the assembler.
- `DataAgree.of_holds`: the two against each other.
-/

namespace MmixBackend

/-! ## §1 Blocks one after the other -/

namespace StaticData

variable {d : StaticData} {data data' : List StaticData}

/-- The number of bytes of blocks. -/
def total (data : List StaticData) : Nat := (data.map extent).sum

/-- The word at an offset in blocks that stand one after the other; it is zero behind them. -/
def contents : List StaticData → Nat → Nat
  | [], _ => 0
  | d :: data, off => if off < d.extent then d.words.getD (off / 8) 0 else contents data (off - d.extent)

@[simp] theorem total_nil : total [] = 0 := rfl

@[simp] theorem total_cons (d : StaticData) (data : List StaticData) :
    total (d :: data) = d.extent + total data :=
  List.sum_cons

@[simp] theorem total_append (data data' : List StaticData) :
    total (data ++ data') = total data + total data' := by
  simp [total]

theorem dvd_total (h : ∀ d ∈ data, d.WellSized) : 8 ∣ total data := by
  induction data with
  | nil => exact Nat.dvd_zero 8
  | cons d data ih =>
    obtain ⟨hd, hdata⟩ := List.forall_mem_cons.mp h
    exact Nat.dvd_add hd.dvd (ih hdata)

theorem total_take_add_le {i : Nat} (h : data[i]? = some d) :
    total (data.take i) + d.extent ≤ total data := by
  obtain ⟨hi, rfl⟩ := List.getElem?_eq_some_iff.mp h
  have hsplit := congrArg total (List.take_append_drop (i + 1) data)
  rw [List.take_add_one, List.getElem?_eq_getElem hi, total_append, total_append] at hsplit
  simp only [Option.toList_some, total_cons, total_nil] at hsplit
  omega

/-- A block ends before a later one starts. -/
theorem total_take_add_le_take {i j : Nat} (h : data[i]? = some d) (hij : i < j) :
    total (data.take i) + d.extent ≤ total (data.take j) := by
  have hi : (data.take j)[i]? = some d := by rw [List.getElem?_take, if_pos hij, h]
  have hle := total_take_add_le hi
  rwa [List.take_take, Nat.min_eq_left (Nat.le_of_lt hij)] at hle

theorem contents_append_of_lt {off : Nat} (h : off < total data) :
    contents (data ++ data') off = contents data off := by
  induction data generalizing off with
  | nil => exact absurd h (Nat.not_lt_zero off)
  | cons d data ih =>
    rw [List.cons_append, contents, contents]
    split
    · rfl
    · rw [total_cons] at h
      exact ih (by omega)

theorem contents_append_of_le {off : Nat} (h : total data ≤ off) :
    contents (data ++ data') off = contents data' (off - total data) := by
  induction data generalizing off with
  | nil => rfl
  | cons d data ih =>
    rw [total_cons] at h
    rw [List.cons_append, contents, if_neg (by omega), ih (by omega), total_cons, Nat.sub_sub]

theorem contents_of_le {off : Nat} (h : total data ≤ off) : contents data off = 0 := by
  have hnil : contents (data ++ []) off = _ := contents_append_of_le h
  rwa [List.append_nil] at hnil

/-- **The words of a block** among the others. -/
theorem contents_take_add {i k : Nat} (h : data[i]? = some d) (hk : 8 * k < d.extent) :
    contents data (total (data.take i) + 8 * k) = d.words.getD k 0 := by
  obtain ⟨hi, rfl⟩ := List.getElem?_eq_some_iff.mp h
  conv_lhs => arg 1; rw [← List.take_append_drop i data]
  rw [contents_append_of_le (Nat.le_add_right _ _), List.drop_eq_getElem_cons hi, contents,
    Nat.add_sub_cancel_left, if_pos hk, Nat.mul_div_cancel_left k (by decide)]

end StaticData

open StaticData

/-! ## §2 Placements -/

/-- Where static data have been put: the first free address, the addresses of labels, and the words
at addresses from which the free address is some words away. -/
structure Placement where
  next : Int
  address : Label → Option Int
  word : Int → Int

namespace Placement

variable {v v' : Placement} {d : StaticData} {data : List StaticData} {start : Int}

/-- From the free address on all words are zero. -/
def Free (v : Placement) : Prop := ∀ a : Int, 8 ∣ v.next - a → v.next ≤ a → a < 2 ^ 63 → v.word a = 0

/-- A block has been put at the free address. -/
structure Puts (d : StaticData) (v v' : Placement) : Prop where
  next : v'.next = v.next + d.extent
  address : ∀ l, v'.address l = if d.label = l then some v.next else v.address l
  inside : ∀ k : Nat, 8 * k < d.extent → v'.word (v.next + 8 * k) = d.words.getD k 0
  outside : ∀ a : Int, 8 ∣ v.next - a → 0 ≤ a → a < 2 ^ 63 → a < v.next ∨ v.next + d.extent ≤ a →
    v'.word a = v.word a

/-- Blocks stand one after the other from an address on. -/
structure Holds (start : Int) (data : List StaticData) (v : Placement) : Prop where
  next : v.next = start + total data
  address : ∀ (i : Nat) (d : StaticData), data[i]? = some d →
    v.address d.label = some (start + total (data.take i))
  word : ∀ off : Nat, 8 ∣ off → start + off < 2 ^ 63 → v.word (start + off) = contents data off

theorem Holds.free (h : Holds start data v) (hdata : ∀ d ∈ data, d.WellSized) : v.Free := by
  intro a hdvd hle hlt
  have hnext := h.next
  have htotal := dvd_total hdata
  obtain ⟨off, rfl⟩ : ∃ off : Nat, a = start + off := ⟨(a - start).toNat, by omega⟩
  rw [h.word off (by omega) hlt, contents_of_le (by omega)]
  rfl

/-- **One block more.** -/
theorem Holds.put (h : Holds start data v) (hdata : ∀ d ∈ data, d.WellSized) (hstart : 0 ≤ start)
    (hnew : d.label ∉ data.map label) (hput : v.Puts d v') : Holds start (data ++ [d]) v' := by
  have hnext := h.next
  have htotal := dvd_total hdata
  refine ⟨?_, fun i d' hi => ?_, fun off hdvd hlt => ?_⟩
  · rw [hput.next, hnext, total_append, total_cons, total_nil]
    omega
  · rw [hput.address]
    rcases Nat.lt_or_ge i data.length with hlt | hge
    · rw [List.getElem?_append_left hlt] at hi
      have hne : d.label ≠ d'.label := fun heq =>
        hnew (heq ▸ List.mem_map_of_mem (List.mem_of_getElem? hi))
      rw [if_neg hne, h.address i d' hi, List.take_append_of_le_length (Nat.le_of_lt hlt)]
    · rw [List.getElem?_append_right hge] at hi
      obtain ⟨hzero, rfl⟩ : i - data.length = 0 ∧ d = d' := by
        simpa [List.getElem?_singleton, eq_comm] using hi
      have hi : i = data.length := by omega
      rw [if_pos rfl, hnext, hi, List.take_left]
  -- Words before the block are kept, those in it are its contents, and those behind it are still zero.
  · rcases Nat.lt_or_ge off (total data) with hbefore | hbehind
    · rw [hput.outside _ (by omega) (by omega) hlt (.inl (by omega)), h.word off hdvd hlt,
        contents_append_of_lt hbefore]
    · rw [contents_append_of_le hbehind, contents]
      split
      · next hinside =>
        obtain ⟨k, hk⟩ : ∃ k : Nat, off = total data + 8 * k := ⟨(off - total data) / 8, by omega⟩
        have hplace : start + off = v.next + 8 * k := by omega
        have hindex : (off - total data) / 8 = k := by omega
        rw [hplace, hput.inside k (by omega), hindex]
      · next houtside =>
        rw [hput.outside _ (by omega) (by omega) hlt (.inr (by omega)), contents, h.word off hdvd hlt,
          contents_of_le hbehind]

end Placement

/-! ## §3 The machine -/

/-- Rounding up to whole words leaves a size that consists of whole words. -/
theorem Word.round_ofNat {n : Nat} (hdvd : 8 ∣ n) (hn : n < 2 ^ 63) :
    (Int64.ofNat n + Word.byteSize - 1) / Word.byteSize * Word.byteSize = .ofNat n := by
  have hsum : Int64.ofNat n + Word.byteSize - 1 = .ofInt (n + 7 : Nat) := by
    rw [show Word.byteSize = .ofNat 8 from rfl, show (1 : Int64) = .ofNat 1 from rfl, ← Int64.ofNat_add,
      ← Int64.ofNat_sub _ _ (by omega), Int64.ofInt_eq_ofNat]
    rfl
  have hquotient : Int64.ofInt (n + 7 : Nat) / Word.byteSize = .ofNat ((n + 7) / 8) := by
    have hmin : Int64.minValue.toInt = -2 ^ 63 := rfl
    have hmax : Int64.maxValue.toInt = 2 ^ 63 - 1 := rfl
    rw [show Word.byteSize = .ofInt (8 : Nat) from rfl, ← Int64.ofInt_tdiv (by omega) (by omega)
      (by omega) (by omega),
      ← Int64.ofInt_eq_ofNat]
    rfl
  have hround : (n + 7) / 8 * 8 = n := by omega
  rw [hsum, hquotient, show Word.byteSize = .ofNat 8 from rfl, ← Int64.ofNat_mul, hround]

namespace Memory

theorem read_writeBytes_of_ne {addr : Word} : ∀ {bs : List UInt8} {mem : Memory} {base : Word},
    (∀ k < bs.length, addr ≠ base + .ofNat (8 * k)) → (mem.writeBytes base bs).read addr = mem.read addr
  | [], _, _, _ => rfl
  | b :: bs, mem, base, h => by
    have hfirst : base ≠ addr := by
      have := h 0 (Nat.succ_pos _)
      rw [Nat.mul_zero, show Int64.ofNat 0 = 0 from rfl, Int64.add_zero] at this
      exact Ne.symm this
    rw [writeBytes, read_writeBytes_of_ne fun k hk => ?_, read_write, if_neg hfirst]
    have hlater := h (k + 1) (Nat.succ_lt_succ hk)
    rwa [Nat.mul_succ, Nat.add_comm, Int64.ofNat_add, ← Int64.add_assoc] at hlater

/-- **Bytes are read back** from the words to which they have been written. -/
theorem read_writeBytes_of_lt : ∀ {bs : List UInt8} {mem : Memory} {base k : Nat} {b : UInt8},
    bs[k]? = some b → base + 8 * bs.length ≤ 2 ^ 63 →
      (mem.writeBytes (.ofNat base) bs).read (.ofNat (base + 8 * k)) = .ofNat b.toNat
  | [], _, _, _, _, h, _ => by cases h
  | b' :: bs, mem, base, k, b, h, hbound => by
    rw [List.length_cons] at hbound
    have hnext : Int64.ofNat base + Word.byteSize = .ofNat (base + 8) := (Int64.ofNat_add base 8).symm
    rw [writeBytes, hnext]
    cases k with
    | zero =>
      cases h
      rw [read_writeBytes_of_ne fun k hk heq => ?_, Nat.mul_zero, Nat.add_zero, read_write_self]
      rw [← Int64.ofNat_add, ← Int64.toInt_inj, Int64.toInt_ofNat_of_lt (by omega),
        Int64.toInt_ofNat_of_lt (by omega)] at heq
      omega
    | succ k =>
      rw [Nat.mul_succ, Nat.add_comm (8 * k), ← Nat.add_assoc]
      exact read_writeBytes_of_lt h (by omega)

end Memory

namespace Machine

variable {m : Machine} {d : StaticData} {data before : List StaticData} {start : Int}

/-- What can be seen of the static data of a machine. -/
def placement (m : Machine) : Placement where
  next := m.state.heap.toInt
  address l := m.labels[l]?.map Int64.toInt
  word a := (m.state.memory.read (.ofInt a)).toInt

/-- The address behind a block is in the range of words. -/
theorem heap_loadData (hd : d.WellSized) (hheap : 0 ≤ m.state.heap.toInt)
    (hbound : m.state.heap.toInt + d.extent < 2 ^ 63) :
    (m.loadData d).state.heap.toInt = m.state.heap.toInt + d.extent := by
  obtain ⟨base, hbase, htoInt⟩ := Word.exists_ofNat_of_nonneg hheap
  have hsize : d.size = .ofNat d.extent := by
    rw [← Int64.toInt_inj, hd.toInt_size, Int64.toInt_ofNat_of_lt (by omega)]
  show (m.state.heap + (d.size + Word.byteSize - 1) / Word.byteSize * Word.byteSize).toInt = _
  rw [hsize, Word.round_ofNat hd.dvd (by omega), hbase, ← Int64.ofNat_add,
    Int64.toInt_ofNat_of_lt (by omega),
    Int64.toInt_ofNat_of_lt (by omega)]
  omega

/-- Loading a block writes the bytes of a string constant and nothing else. -/
theorem memory_loadData (m : Machine) (d : StaticData) : (m.loadData d).state.memory
    = m.state.memory.writeBytes m.state.heap d.bytes := by
  unfold loadData bytes
  cases d.init <;> rfl

/-- **The machine puts a block** at the start of its heap. -/
theorem puts_loadData (hd : d.WellSized) (hfree : m.placement.Free) (hheap : 0 ≤ m.state.heap.toInt)
    (hbound : m.state.heap.toInt + d.extent < 2 ^ 63) : m.placement.Puts d (m.loadData d).placement := by
  obtain ⟨base, hbase, htoInt⟩ := Word.exists_ofNat_of_nonneg hheap
  have hnext : m.placement.next = base := htoInt
  have hread (a : Int) : (m.loadData d).placement.word a
      = ((m.state.memory.writeBytes (.ofNat base) d.bytes).read (.ofInt a)).toInt := by
    rw [← hbase, ← memory_loadData]
    rfl
  have hlength : 8 * d.bytes.length < d.extent := by
    have hwords := hd.length_words_le
    rw [words, List.length_append, List.length_map, List.length_singleton] at hwords
    omega
  -- Words to which nothing is written keep their value.
  have hkeep {a : Int} (h0 : 0 ≤ a) (hlt : a < 2 ^ 63) (ha : ∀ k < d.bytes.length, a ≠ base + 8 * k) :
      (m.loadData d).placement.word a = m.placement.word a := by
    rw [hread, Memory.read_writeBytes_of_ne fun k hk heq => ?_]
    · rfl
    · rw [← Int64.ofNat_add, ← Int64.toInt_inj, Int64.toInt_ofInt_of_le (by omega) hlt,
        Int64.toInt_ofNat_of_lt (by omega)] at heq
      exact ha k hk (by omega)
  refine ⟨heap_loadData hd hheap hbound, fun l => ?_, fun k hk => ?_, fun a hdvd h0 hlt ha => ?_⟩
  · show (m.loadData d).labels[l]?.map Int64.toInt = _
    rw [labels_loadData]
    split <;> rfl
  · rw [hnext]
    rcases hbyte : d.bytes[k]? with _ | b
    · rw [List.getElem?_eq_none_iff] at hbyte
      have hzero : m.placement.word ((base : Int) + 8 * k) = 0 :=
        hfree _ (by rw [hnext]; omega) (by rw [hnext]; omega) (by omega)
      rw [hkeep (by omega) (by omega) fun j hj => by omega, hzero, getD_words_of_le hbyte]
      rfl
    · have hplace : Int64.ofInt ((base : Int) + 8 * k) = .ofNat (base + 8 * k) := by
        rw [← Int64.ofInt_eq_ofNat]
        rfl
      have hlt := b.toNat_lt
      rw [hread, getD_words_of_getElem hbyte, hplace, Memory.read_writeBytes_of_lt hbyte (by omega),
        Int64.toInt_ofNat_of_lt (by omega)]
  · rw [hnext] at hdvd ha
    exact hkeep h0 hlt fun k hk => by omega

/-- **The machine puts blocks one after the other.** -/
theorem holds_foldl_loadData (hstart : 0 ≤ start) (hm : m.placement.Holds start before)
    (hbefore : ∀ d ∈ before, d.WellSized) (hdata : ∀ d ∈ data, d.WellSized)
    (hlabels : ((before ++ data).map label).Nodup) (hbound : start + total (before ++ data) < 2 ^ 63) :
    (data.foldl loadData m).placement.Holds start (before ++ data) := by
  induction data generalizing m before with
  | nil =>
    rw [List.append_nil]
    exact hm
  | cons d data ih =>
    obtain ⟨hd, hdata⟩ := List.forall_mem_cons.mp hdata
    rw [List.append_cons] at hlabels hbound ⊢
    have hnew : d.label ∉ before.map label := by
      rw [List.map_append, List.map_append] at hlabels
      exact fun hmem => (List.nodup_append.mp (List.nodup_append.mp hlabels).1).2.2 _ hmem _
        (List.mem_singleton_self _) rfl
    have hheap : m.state.heap.toInt = start + total before := hm.next
    simp only [total_append, total_cons, total_nil] at hbound
    have hput := puts_loadData hd (hm.free hbefore) (by omega) (by omega)
    refine ih (hm.put hbefore hstart hnew hput) ?_ hdata hlabels ?_
    · exact List.forall_mem_append.mpr ⟨hbefore, List.forall_mem_singleton.mpr hd⟩
    · simp only [total_append, total_cons, total_nil]
      omega

end Machine

/-! ## §4 The assembler -/

namespace Assembly.Image

variable {img : Image} {d : StaticData} {data before : List StaticData} {start : Int}

/-- What can be seen of the static data of an image. -/
def placement (img : Image) : Placement where
  next := img.loc
  address l := (img.symbols l).map Nat.cast
  word a := img.octa a.toNat

/-- **The assembler puts a block** at its location. -/
theorem puts_dataLines (hd : d.WellSized) (hfree : img.placement.Free)
    (hbound : img.loc + d.extent < 2 ^ 63) :
    img.placement.Puts d { (img.defining d.label).emit (d.words.flatMap octaBytes) with
      loc := img.loc + d.extent }.placement := by
  have hlength : (d.words.flatMap octaBytes).length ≤ d.extent := by
    rw [length_flatMap_octaBytes]
    exact hd.length_words_le
  -- Only the words of the block are written.
  have hkeep {a : Nat} (ha : a + 8 ≤ img.loc ∨ img.loc + (d.words.flatMap octaBytes).length ≤ a) :
      ((img.defining d.label).emit (d.words.flatMap octaBytes)).octa a = img.octa a :=
    octa_emit_of_apart (img.defining d.label) ha
  refine ⟨Nat.cast_add .., fun l => ?_, fun k hk => ?_, fun a hdvd h0 hlt ha => ?_⟩
  · show (Function.update img.symbols d.label (some img.loc) l).map Nat.cast = _
    rw [Function.update_apply]
    split
    · next heq => rw [if_pos heq.symm]; rfl
    · next hne => rw [if_neg (Ne.symm hne)]; rfl
  · show ((((img.defining d.label).emit (d.words.flatMap octaBytes)).octa
      (img.loc + 8 * k : Nat) : Nat) : Int) = _
    rcases hword : d.words[k]? with _ | w
    · rw [List.getElem?_eq_none_iff] at hword
      have hzero : img.placement.word (img.loc + 8 * k : Nat) = 0 :=
        hfree _ (by show (8 : Int) ∣ img.loc - _; omega) (by show (img.loc : Int) ≤ _; omega) (by omega)
      rw [hkeep (.inr (by rw [length_flatMap_octaBytes]; omega)), List.getD_eq_default _ _ hword]
      exact hzero
    · have hocta := octa_octas (img.defining d.label) d.words_lt hword
      rw [List.getD_eq_getElem?_getD, hword]
      exact congrArg Nat.cast hocta
  · have hdvd : (8 : Int) ∣ img.loc - a := hdvd
    have ha : a < img.loc ∨ img.loc + d.extent ≤ a := ha
    exact congrArg Nat.cast (hkeep (by omega))

/-- **The assembler puts blocks one after the other.** -/
theorem holds_dataLines (hstart : 0 ≤ start) (hdvd : 8 ∣ start) (himg : img.placement.Holds start before)
    (hbefore : ∀ d ∈ before, d.WellSized) (hdata : ∀ d ∈ data, d.WellSized)
    (hlegible : ∀ d ∈ data, d.label.Legible ∧ ∀ c ∈ d.label.toList.head?, c.isDigit = false)
    (hlabels : ((before ++ data).map label).Nodup) (hnew : ∀ d ∈ data, img.symbols d.label = none)
    (hbound : start + total (before ++ data) < 2 ^ 63) :
    ∃ img', (data.flatMap dataLines).foldlM assemble? img = some img' ∧
      img'.placement.Holds start (before ++ data) := by
  induction data generalizing img before with
  | nil =>
    rw [List.append_nil]
    exact ⟨img, rfl, himg⟩
  | cons d data ih =>
    obtain ⟨hd, hdata⟩ := List.forall_mem_cons.mp hdata
    obtain ⟨⟨hlabel, hdigit⟩, hlegible⟩ := List.forall_mem_cons.mp hlegible
    obtain ⟨hnone, hnew⟩ := List.forall_mem_cons.mp hnew
    rw [List.append_cons] at hlabels hbound ⊢
    rw [List.map_append, List.map_append] at hlabels
    -- The labels are distinct, so no block before or behind has the new one.
    have hdistinct : d.label ∉ before.map label := fun hmem =>
      (List.nodup_append.mp (List.nodup_append.mp hlabels).1).2.2 _ hmem _ (List.mem_singleton_self _) rfl
    have hlater : ∀ d' ∈ data, d'.label ≠ d.label := fun d' hd' heq =>
      (List.nodup_append.mp hlabels).2.2 _
      (List.mem_append_right _ (List.mem_singleton_self _)) _ (List.mem_map_of_mem hd') heq.symm
    rw [← List.map_append, ← List.map_append] at hlabels
    have hloc : (img.loc : Int) = start + total before := himg.next
    have htotal := dvd_total hbefore
    simp only [total_append, total_cons, total_nil] at hbound
    have hput := puts_dataLines hd (himg.free hbefore) (by omega)
    rw [List.flatMap_cons, List.foldlM_append,
      assemble_dataLines hd hlabel hdigit (by omega) hnone (by omega)]
    refine ih (himg.put hbefore hstart hdistinct hput) ?_ hdata hlegible hlabels (fun d' hd' => ?_) ?_
    · exact List.forall_mem_append.mpr ⟨hbefore, List.forall_mem_singleton.mpr hd⟩
    · exact (Function.update_of_ne (hlater d' hd') ..).trans (hnew d' hd')
    · simp only [total_append, total_cons, total_nil]
      omega

end Assembly.Image

/-! ## §5 Both -/

/-- Blocks that can be assembled: they have sizes in range, and labels that are new and different. -/
structure StaticData.Placeable (data : List StaticData) : Prop where
  wellSized : ∀ d ∈ data, d.WellSized
  labels : (data.map label).Nodup
  legible : ∀ d ∈ data, d.label.Legible ∧ ∀ c ∈ d.label.toList.head?, c.isDigit = false
  fresh : ∀ d ∈ data, d.label ∉ "Data_Segment" :: Assembly.bufferLabels
  total_lt : total data < 2 ^ 62

/-- A machine and an assembled image have the same static data, in the image 24 bytes farther. -/
structure DataAgree (data : List StaticData) (m : Machine) (img : Assembly.Image) : Prop where
  /-- Labels have addresses 24 bytes apart, and the words of blocks are the same. -/
  blocks : ∀ d ∈ data, ∃ (w : Word) (a : Nat), m.labels[d.label]? = some w ∧
    img.symbols d.label = some a ∧
    (a : Int) = w.toInt + 24 ∧ ∀ k : Nat, 8 * k < d.extent →
      img.octa (a + 8 * k) = d.words.getD k 0 ∧ m.state.memory.read (w + .ofNat (8 * k)) = .ofNat
        (d.words.getD k 0)
  /-- All words are the same, also those that belong to no block. -/
  memory : ∀ a : Nat, 8 ∣ a → 0x2000000000000000 ≤ a → a + 24 < 2 ^ 63 →
    (m.state.memory.read (.ofNat a)).toInt = img.octa (a + 24)
  /-- Blocks do not overlap. -/
  disjoint : data.Pairwise fun d d' => ∀ a a', img.symbols d.label = some a →
    img.symbols d'.label = some a' →
    Disjoint (Set.Ico a (a + d.extent)) (Set.Ico a' (a' + d'.extent))
  /-- The heap starts behind the blocks. -/
  loc : img.loc = 0x2000000000000018 + total data
  last : ∀ d ∈ data.getLast?, ∃ a, img.symbols d.label = some a ∧ a + d.extent = img.loc
  heap : (img.loc : Int) = m.state.heap.toInt + 24

namespace StaticData.Placeable

variable {data : List StaticData}

/-- Blocks in an empty machine. -/
theorem holds_machine (h : Placeable data) (input : Option ByteReader) :
    (data.foldl Machine.loadData { state := { input } }).placement.Holds 0x2000000000000000 data := by
  have hempty : ({ state := { input } } : Machine).placement.Holds 0x2000000000000000 [] := by
    refine ⟨rfl, fun i d hi => (by cases hi), fun off _ _ => ?_⟩
    simp [Machine.placement, Memory.read, contents]
  have hbound := h.total_lt
  exact Machine.holds_foldl_loadData (by decide) hempty (List.forall_mem_nil _) h.wellSized h.labels
    (by rw [List.nil_append]; omega)

/-- Blocks behind the buffers. -/
theorem holds_image (h : Placeable data) : ∃ img,
    (Assembly.dataSegment data).foldlM Assembly.Image.assemble? .empty = some img ∧
      img.placement.Holds 0x2000000000000018 data := by
  have hempty : Assembly.Image.buffers.placement.Holds 0x2000000000000018 [] := by
    refine ⟨rfl, fun i d hi => (by cases hi), fun off _ _ => ?_⟩
    have hzero := Assembly.Image.octa_buffers (a := 0x2000000000000018 + off) (Nat.le_add_right _ off)
    exact congrArg Nat.cast hzero
  have hbound := h.total_lt
  rw [Assembly.dataSegment, List.foldlM_append, Assembly.Image.assemble_buffers]
  exact Assembly.Image.holds_dataLines (by decide) (by decide) hempty (List.forall_mem_nil _)
    h.wellSized h.legible
    h.labels (fun d hd => Assembly.Image.symbols_buffers (h.fresh d hd)) (by rw [List.nil_append]; omega)

end StaticData.Placeable

variable {data : List StaticData}

/-- A block in an image. -/
theorem Placement.Holds.symbols {start : Nat} {img : Assembly.Image}
    (h : img.placement.Holds start data) {i : Nat} {d : StaticData} (hi : data[i]? = some d) :
    img.symbols d.label = some (start + total (data.take i)) := by
  obtain ⟨a, ha, heq⟩ := Option.map_eq_some_iff.mp (h.address i d hi)
  rw [ha]
  exact congrArg some (by omega)

/-- **The machine and the assembler agree** if they hold the same blocks. -/
theorem DataAgree.of_holds (hbound : total data < 2 ^ 62) (hdata : ∀ d ∈ data, d.WellSized) {m : Machine}
    {img : Assembly.Image} (hm : m.placement.Holds 0x2000000000000000 data)
    (himg : img.placement.Holds (0x2000000000000018 : Nat) data) : DataAgree data m img where
  blocks d hd := by
    obtain ⟨i, hi⟩ := List.mem_iff_getElem?.mp hd
    obtain ⟨w, hw, hplace⟩ := Option.map_eq_some_iff.mp (hm.address i d hi)
    have hfits := total_take_add_le hi
    refine ⟨w, _, hw, himg.symbols hi, by omega, fun k hk => ?_⟩
    have hdvd : 8 ∣ total (data.take i) := dvd_total fun d hd => hdata d (List.mem_of_mem_take hd)
    have hoff : 8 ∣ total (data.take i) + 8 * k := Nat.dvd_add hdvd (Nat.dvd_mul_right 8 k)
    -- The assembler's word first, which is at an address, and then the machine's.
    constructor
    · have hword := himg.word _ hoff (by omega)
      rw [contents_take_add hi hk, ← Nat.cast_add, ← Nat.add_assoc] at hword
      exact Int.ofNat_inj.mp hword
    · have hword := hm.word _ hoff (by omega)
      rw [contents_take_add hi hk] at hword
      -- The address is computed with words, and the sum of the sizes keeps it in their range.
      have haddr : w + .ofNat (8 * k) = .ofInt
          (0x2000000000000000 + (total (data.take i) + 8 * k : Nat)) := by
        rw [← Int64.ofInt_toInt w, Word.ofInt_add_ofNat, hplace]
        congr 1
        omega
      rw [haddr, ← Int64.ofInt_toInt (Memory.read _ _), ← Int64.ofInt_eq_ofNat]
      exact congrArg Int64.ofInt hword
  memory a hdvd hle hlt := by
    -- A word of the section is at some offset from its start, where both hold the same.
    obtain ⟨off, rfl⟩ : ∃ off, a = 0x2000000000000000 + off := ⟨a - 0x2000000000000000, by omega⟩
    have hword := hm.word off (by omega) (by omega)
    have hword' := himg.word off (by omega) (by omega)
    have hplace : 0x2000000000000000 + off + 24 = 0x2000000000000018 + off := by omega
    rw [← Int64.ofInt_eq_ofNat, hplace]
    exact hword.trans hword'.symm
  disjoint := by
    refine List.pairwise_iff_getElem.mpr fun i j hi hj hij a a' ha ha' => ?_
    have hi := List.getElem?_eq_getElem hi
    have hj := List.getElem?_eq_getElem hj
    cases ha.symm.trans (himg.symbols hi)
    cases ha'.symm.trans (himg.symbols hj)
    -- The blocks lie one after the other, so the earlier ends before the later begins.
    have hle := total_take_add_le_take hi hij
    refine Set.disjoint_left.mpr fun x hx hx' => ?_
    obtain ⟨-, hx⟩ := hx
    obtain ⟨hx', -⟩ := hx'
    omega
  loc := by
    have hnext : (img.loc : Int) = (0x2000000000000018 : Nat) + total data := himg.next
    omega
  last d hd := by
    obtain ⟨front, rfl⟩ := List.getLast?_eq_some_iff.mp hd
    have hnext : (img.loc : Int) = (0x2000000000000018 : Nat) + total (front ++ [d]) := himg.next
    have hplace := himg.symbols (i := front.length) (d := d) (by simp)
    rw [List.take_left] at hplace
    refine ⟨_, hplace, ?_⟩
    rw [total_append, total_cons, total_nil] at hnext
    omega
  heap := by
    have hnext : (img.loc : Int) = (0x2000000000000018 : Nat) + total data := himg.next
    have hheap : m.state.heap.toInt = 0x2000000000000000 + total data := hm.next
    omega

end MmixBackend
