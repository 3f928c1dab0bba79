import Mathlib.Data.List.TakeWhile
import MmixBackend.Proofs.Text.Numeral
import MmixBackend.Proofs.Types.Rereading

/-!
# The grammar of types

With `b` for any run of blanks and tabs, types are written as

    type   ::= b "^" type | b "[" b digits b "]" type | b "{" field (b "," field)* b "}" | b ident
    field  ::= b ident b ":" type

`Ty.Spelled` is this grammar together with the type that a text denotes. A text says nothing about
the numbers of records, so it denotes a type up to these numbers.

* Whatever the reader takes from the front of a text derives from the grammar (§3).
* In a text that derives from the grammar nothing that stands behind a name can continue it, so
  reading names as far as they go reads the names of the derivation. Where the derivation has a
  character, the reader finds it (§4).

So the reader accepts exactly the texts of the grammar, and each of them denotes one type.

## Main statements

- `TypeReader.type_consumes`: what has been read derives from the grammar, and all its records are
  recorded.
- `TypeReader.type_accepts`: a text of the grammar is read to its end.
- `readTypeExpr_of_spelled`, `spelled_of_readTypeExpr`: both for whole texts.
-/

namespace MmixBackend

open Source (NodeId Decl TypeExpr Mark)

/-! ## §1 The grammar -/

/-- A run of blanks and tabs. -/
def Text.Blanks (cs : List Char) : Prop := ∀ c ∈ cs, c = ' ' ∨ c = '\t'

/-- The decimal digits denote the word, and it is positive. -/
structure Text.Numbers (digits : List Char) (n : Word) : Prop where
  isDigit : ∀ c ∈ digits, c.isDigit
  pos : 1 ≤ Nat.ofDigitChars 10 digits 0
  lt : Nat.ofDigitChars 10 digits 0 < Word.bound
  value : n = Int64.ofNat (Nat.ofDigitChars 10 digits 0)

/-- What a name stands for where a type is expected. The four names of the basic types cannot be
declared anew. -/
inductive TypeNamed (lookup : String → Option Decl) : String → Ty → Prop
  | int : TypeNamed lookup "int" .int
  | char : TypeNamed lookup "char" .char
  | bool : TypeNamed lookup "bool" .bool
  | void : TypeNamed lookup "void" .void
  | declared {name ident : String} {m : Mark} {te : TypeExpr} : name ∉ ["int", "char", "bool", "void"] →
    lookup name = some (.typ m ident te) → TypeNamed lookup name (.named m.id ident)

open Text (Blanks Numbers)

mutual

/-- The text is one of the type. -/
inductive Ty.Spelled (lookup : String → Option Decl) : List Char → Ty → Prop
  | ptr {b cs : List Char} {base : Ty} : Blanks b → Ty.Spelled lookup cs base →
    Ty.Spelled lookup (b ++ '^' :: cs) (.ptr base)
  | arr {b b' digits b'' cs : List Char} {len : Word} {elem : Ty} : Blanks b → Blanks b' →
      Numbers digits len →
    Blanks b'' → Ty.Spelled lookup cs elem →
      Ty.Spelled lookup (b ++ '[' :: (b' ++ (digits ++ (b'' ++ ']' :: cs)))) (.arr len elem)
  | record {b cs b' : List Char} {id : NodeId} {fields : Fields} :
      Blanks b → Fields.Spelled lookup cs fields →
    (fields.toList.map Prod.fst).Nodup → Blanks b' →
      Ty.Spelled lookup (b ++ '{' :: (cs ++ (b' ++ ['}']))) (.record id fields)
  | name {b : List Char} {name : String} {t : Ty} : Blanks b → Source.isIdent name = true →
    TypeNamed lookup name t → Ty.Spelled lookup (b ++ name.toList) t

/-- The text is one of the components of a record. -/
inductive Fields.Spelled (lookup : String → Option Decl) : List Char → Fields → Prop
  | last {b b' cs : List Char} {name : String} {t : Ty} : Blanks b → Source.isIdent name = true →
    Blanks b' →
    Ty.Spelled lookup cs t → Fields.Spelled lookup (b ++ (name.toList ++ (b' ++ ':' :: cs)))
      (.cons name t .nil)
  | more {b b' cs b'' rest : List Char} {name : String} {t : Ty} {fields : Fields} : Blanks b →
    Source.isIdent name = true → Blanks b' → Ty.Spelled lookup cs t → Blanks b'' →
      Fields.Spelled lookup rest fields →
        Fields.Spelled lookup (b ++ (name.toList ++ (b' ++ ':' :: (cs ++ (b'' ++ ',' :: rest)))))
          (.cons name t fields)

end

/-- The text of components starts with one of them. It ends behind it or goes on behind a comma. -/
theorem Fields.Spelled.first {lookup : String → Option Decl} {cs : List Char} {fields : Fields}
    (h : fields.Spelled lookup cs) :
    ∃ b name b' cs' t fields' tail, fields = .cons name t fields' ∧
      cs = b ++ (name.toList ++ (b' ++ ':' :: (cs' ++ tail))) ∧ Blanks b ∧
        Source.isIdent name = true ∧ Blanks b' ∧
        t.Spelled lookup cs' ∧ (fields' = .nil ∧ tail = [] ∨
          ∃ b'' rest, tail = b'' ++ ',' :: rest ∧ Blanks b'' ∧ fields'.Spelled lookup rest) := by
  cases h with
  | @last b b' cs name t hb hname hb' ht =>
    exact ⟨b, name, b', cs, t, .nil,
      [], rfl, by rw [List.append_nil], hb, hname, hb', ht, .inl ⟨rfl, rfl⟩⟩
  | @more b b' cs b'' rest name t fields hb hname hb' ht hb'' hfields =>
    exact ⟨b, name, b', cs, t, fields, b'' ++ ',' :: rest, rfl, rfl, hb, hname, hb', ht,
      .inr ⟨b'', rest, rfl, hb'', hfields⟩⟩

mutual

/-- The records in a type with their numbers; those in the components of a record come before it. -/
def Ty.recordParts : Ty → List (NodeId × Fields)
  | .void | .char | .int | .bool | .named _ _ => []
  | .ptr base => base.recordParts
  | .arr _ elem => elem.recordParts
  | .record id fields => fields.recordParts ++ [(id, fields)]

/-- The records in the components of a record with their numbers. -/
def Fields.recordParts : Fields → List (NodeId × Fields)
  | .nil => []
  | .cons _ type rest => type.recordParts ++ rest.recordParts

end

/-- A declaration of a component with a text of its type. -/
def Source.Decl.Spells (lookup : String → Option Decl) (d : Decl) (field : String × Ty) : Prop :=
  ∃ m te, d = .comp m field.1 te ∧ field.2.Spelled lookup te.text.toList

/-- The declarations of a record are those of its components in order, with texts of their types. -/
def RecordInfo.Spelled (lookup : String → Option Decl) (info : RecordInfo) : Prop :=
  List.Forall₂ (Decl.Spells lookup) info.comps info.fields.toList

/-! ## §2 Texts -/

theorem Text.Blanks.nil : Blanks [] := List.forall_mem_nil _

theorem Text.blanks_takeWhile (cs : List Char) :
    Blanks (cs.takeWhile fun c => c = ' ' ∨ c = '\t') := fun _ hc =>
  of_decide_eq_true (List.mem_takeWhile_imp (p := fun c => c = ' ' ∨ c = '\t') hc)

theorem Text.Blanks.dropWhile {b : List Char} (h : Blanks b) {cs : List Char}
    (hcs : ∀ c ∈ cs.head?, c ≠ ' ' ∧ c ≠ '\t') :
    ((b ++ cs).dropWhile fun c => c = ' ' ∨ c = '\t') = cs := by
  rw [List.dropWhile_append_of_pos fun c hc => decide_eq_true (h c hc)]
  cases cs with
  | nil => rfl
  | cons c cs =>
    obtain ⟨hblank, htab⟩ := hcs c rfl
    rw [List.dropWhile_cons, if_neg]
    simpa using ⟨hblank, htab⟩

theorem Source.exists_of_isIdent {name : String} (h : Source.isIdent name = true) :
    ∃ c cs, name.toList = c :: cs ∧ (c.isAlpha = true ∨ c = '_') ∧
      ∀ c ∈ cs, TypeReader.isNameChar c = true := by
  unfold Source.isIdent at h
  split at h
  · cases h
  · next c cs heq =>
    simp only [Bool.and_eq_true, Bool.or_eq_true, decide_eq_true_eq, List.all_eq_true] at h
    exact ⟨c, cs, heq, h.1, fun c hc => by simpa [TypeReader.isNameChar] using h.2 c hc⟩

theorem Source.isNameChar_of_isIdent {name : String} (h : Source.isIdent name = true) :
    ∀ c ∈ name.toList, TypeReader.isNameChar c = true := by
  obtain ⟨c, cs, heq, hc, hcs⟩ := Source.exists_of_isIdent h
  rw [heq]
  refine List.forall_mem_cons.mpr ⟨?_, hcs⟩
  rcases hc with hc | hc <;> simp [TypeReader.isNameChar, Char.isAlphanum, hc]

namespace TypeReader

/-- Nothing at the front of the text continues a name. -/
def Closed (cs : List Char) : Prop := ∀ c ∈ cs.head?, isNameChar c = false

theorem Closed.nil : Closed [] := fun _ h => by cases h

theorem Closed.cons {c : Char} {cs : List Char} (h : isNameChar c = false) :
    Closed (c :: cs) := fun _ hc =>
  Option.some.inj hc ▸ h

theorem Closed.blanks {b cs : List Char} (hb : Blanks b) (hcs : Closed cs) : Closed (b ++ cs) := by
  cases b with
  | nil => exact hcs
  | cons c b =>
    rcases hb c List.mem_cons_self with rfl | rfl <;> exact .cons (by decide)

end TypeReader

/-! ## §3 What has been read derives from the grammar -/

/-- A step of the reader takes the text `cs` and adds the records `new`. -/
structure TypeReading.Advances (s : TypeReading) (cs : List Char) (new : List (NodeId × RecordInfo))
    (s' : TypeReading) : Prop where
  rest : s.rest = cs ++ s'.rest
  records : s'.records = s.records ++ new

namespace TypeReading.Advances

variable {s s' s'' : TypeReading} {cs cs' : List Char} {new new' : List (NodeId × RecordInfo)}

theorem refl (s : TypeReading) : s.Advances [] [] s := ⟨rfl, (List.append_nil _).symm⟩

theorem trans (h : s.Advances cs new s') (h' : s'.Advances cs' new' s'') :
    s.Advances (cs ++ cs') (new ++ new') s'' where
  rest := by rw [h.rest, h'.rest, List.append_assoc]
  records := by rw [h'.records, h.records, List.append_assoc]

end TypeReading.Advances

namespace TypeReader

/-- If the reader `x` succeeds from the state `s`, then its result, the text that it has taken and
the records that it has added satisfy `Q`, together with the state behind it. -/
def Consumes {α : Type} (s : TypeReading) (x : TypeReader α)
    (Q : α → List Char → List (NodeId × RecordInfo) → TypeReading → Prop) : Prop :=
  ∀ a s', x.run s = .ok (a, s') → ∃ cs new, s.Advances cs new s' ∧ Q a cs new s'

namespace Consumes

variable {α β : Type} {s : TypeReading} {x y : TypeReader α}
  {Q R : α → List Char → List (NodeId × RecordInfo) → TypeReading → Prop}

theorem pure {a : α} (h : Q a [] [] s) : Consumes s (pure a) Q := fun _ _ hrun => by
  cases hrun
  exact ⟨[], [], .refl s, h⟩

theorem fail (fault : TypeFault) : Consumes s (fail fault) Q := fun _ _ h => by cases h

theorem fail_bind (fault : TypeFault) (f : α → TypeReader β)
    {Q : β → List Char → List (NodeId × RecordInfo) → TypeReading → Prop} :
    Consumes s ((TypeReader.fail fault : TypeReader α) >>= f) Q := fun _ _ h => by cases h

/-- The text of two readers one after the other is that of the first one and then that of the second
one. -/
theorem bind {f : α → TypeReader β} {Q : β → List Char → List (NodeId × RecordInfo) → TypeReading → Prop}
    (hx : Consumes s x R) (hf : ∀ a cs new s', s.Advances cs new s' → R a cs new s' →
      Consumes s' (f a) fun b cs' new' => Q b (cs ++ cs') (new ++ new')) : Consumes s (x >>= f) Q := by
  intro b s'' h
  rw [StateT.run_bind] at h
  cases hrun : x.run s with
  | error fault =>
    rw [hrun] at h
    cases h
  | ok r =>
    rw [hrun] at h
    obtain ⟨cs, new, hfirst, hR⟩ := hx r.1 r.2 hrun
    obtain ⟨cs', new', hrest, hQ⟩ := hf r.1 cs new r.2 hfirst hR b s'' h
    exact ⟨cs ++ cs', new ++ new', hfirst.trans hrest, hQ⟩

theorem ite {c : Prop} [Decidable c] (hx : c → Consumes s x Q) (hy : ¬c → Consumes s y Q) :
    Consumes s (if c then x else y) Q := by
  split
  · exact hx ‹_›
  · exact hy ‹_›

theorem imp (h : Consumes s x R) (hQ : ∀ a cs new s', R a cs new s' → Q a cs new s') : Consumes s x Q :=
  fun a s' hrun => by
    obtain ⟨cs, new, hadvances, hR⟩ := h a s' hrun
    exact ⟨cs, new, hadvances, hQ a cs new s' hR⟩

theorem get : Consumes s get fun a cs new s' => a = s ∧ cs = [] ∧ new = [] ∧ s' = s := fun _ _ h => by
  cases h
  exact ⟨[], [], .refl s, rfl, rfl, rfl, rfl⟩

/-- A step that takes text and changes nothing but the last name besides. -/
theorem modifyGet {f : TypeReading → α × TypeReading} (cs : List Char)
    (hrest : s.rest = cs ++ (f s).2.rest) (hrecords : (f s).2.records = s.records)
    (hQ : Q (f s).1 cs [] (f s).2) : Consumes s (modifyGet f) Q := by
  intro a s' h
  have hs' : f s = (a, s') := Except.ok.inj h
  rw [hs'] at hrest hrecords hQ
  exact ⟨cs, [], ⟨hrest, by rw [hrecords, List.append_nil]⟩, hQ⟩

end Consumes

variable {lookup : String → Option Decl} {s : TypeReading}

theorem skipBlanks_consumes : Consumes s skipBlanks fun _ cs new _ => Blanks cs ∧ new = [] :=
  .modifyGet _ List.takeWhile_append_dropWhile.symm rfl ⟨Text.blanks_takeWhile _, rfl⟩

theorem peek_consumes : Consumes s peek fun c cs new s' =>
    Blanks cs ∧ new = [] ∧ ∀ c' ∈ c, s'.rest.head? = some c' := by
  refine skipBlanks_consumes.bind fun _ cs new s' _ ⟨hb, hnew⟩ => Consumes.get.bind ?_
  rintro _ _ _ _ - ⟨rfl, rfl, rfl, rfl⟩
  subst hnew
  split
  · exact .pure ⟨by simpa using hb, rfl, by simp⟩
  · next c _ hrest =>
    refine .pure ⟨by simpa using hb, rfl, fun c' hc' => ?_⟩
    split at hc'
    · cases hc'
    · rw [hrest, List.head?_cons]
      exact hc'

theorem advance_consumes {c : Char} (h : s.rest.head? = some c) :
    Consumes s advance fun _ cs new _ => cs = [c] ∧ new = [] := by
  obtain ⟨rest, hrest⟩ := List.head?_eq_some_iff.mp h
  refine .modifyGet [c] ?_ rfl ⟨rfl, rfl⟩
  show s.rest = [c] ++ s.rest.tail
  rw [hrest]
  rfl

theorem expect_consumes (c : Char) :
    Consumes s (expect c) fun _ cs new _ => (∃ b, Blanks b ∧ cs = b ++ [c]) ∧ new = [] := by
  refine peek_consumes.bind fun c' b _ _ _ ⟨hb, hnew, hhead⟩ => .ite (fun hc => ?_) fun _ => .fail _
  refine (advance_consumes (hhead c (hc ▸ rfl))).imp ?_
  rintro _ _ _ _ ⟨rfl, rfl⟩
  exact ⟨⟨b, hb, rfl⟩, by rw [hnew]; rfl⟩

theorem word_consumes (belongs : Char → Bool) : Consumes s (word belongs) fun w cs new _ =>
    (∃ b, Blanks b ∧ cs = b ++ w.toList) ∧ (∀ c ∈ w.toList, belongs c = true) ∧ new = [] := by
  refine skipBlanks_consumes.bind fun _ b _ s' _ ⟨hb, hnew⟩ => ?_
  refine Consumes.modifyGet (s'.rest.takeWhile belongs) List.takeWhile_append_dropWhile.symm rfl
    ⟨⟨b, hb, ?_⟩, ?_, ?_⟩
  · rw [String.toList_ofList]
  · rw [String.toList_ofList]
    exact fun c hc => List.mem_takeWhile_imp hc
  · rw [hnew]
    rfl

theorem arrayLength_consumes : Consumes s arrayLength fun n cs new _ =>
    (∃ b digits, Blanks b ∧ Numbers digits n ∧ cs = b ++ digits) ∧ new = [] := by
  refine (word_consumes _).bind fun w cs _ s' _ ⟨⟨b, hb, hcs⟩, hdigits, hnew⟩ => ?_
  subst hcs hnew
  split
  · next n hread =>
    refine .ite (fun hpos => .pure ⟨⟨b, w.toList, hb, ?_, List.append_nil _⟩, rfl⟩) fun _ => .fail _
    rw [← String.ofList_toList (s := w), Text.readWord_eq_ok_iff hdigits] at hread
    obtain ⟨-, hlt, rfl⟩ := hread
    refine ⟨hdigits, Nat.pos_of_ne_zero fun hzero => ?_, hlt, rfl⟩
    rw [hzero] at hpos
    exact absurd hpos (by decide)
  · exact .fail _

theorem namedType_consumes (name : String) : Consumes s (namedType lookup name) fun t cs new _ =>
    TypeNamed lookup name t ∧ cs = [] ∧ new = [] := by
  unfold namedType
  split
  · exact .pure ⟨.int, rfl, rfl⟩
  · exact .pure ⟨.char, rfl, rfl⟩
  · exact .pure ⟨.bool, rfl, rfl⟩
  · exact .pure ⟨.void, rfl, rfl⟩
  · next hint hchar hbool hvoid =>
    split
    · next m ident te hfind =>
      refine Consumes.bind (R := fun _ cs new _ => cs = [] ∧ new = [])
        (.modifyGet [] rfl rfl ⟨rfl, rfl⟩) ?_
      rintro _ _ _ _ - ⟨rfl, rfl⟩
      refine .pure ⟨.declared ?_ hfind, rfl, rfl⟩
      simp only [List.mem_cons, List.not_mem_nil, or_false, not_or]
      exact ⟨hint, hchar, hbool, hvoid⟩
    · exact .fail _

/-- What the reader finds out about a part of a text: the records that it adds are those of `parts`,
and their declarations spell their components. -/
def Records (lookup : String → Option Decl) (new : List (NodeId × RecordInfo))
    (parts : List (NodeId × Fields)) :
    Prop := (new.map fun r => (r.1, r.2.fields)) = parts ∧ ∀ r ∈ new, r.2.Spelled lookup

theorem Records.append {new new' : List (NodeId × RecordInfo)} {parts parts' : List (NodeId × Fields)}
    (h : Records lookup new parts) (h' : Records lookup new' parts') :
    Records lookup (new ++ new') (parts ++ parts') :=
  ⟨by rw [List.map_append, h.1, h'.1], List.forall_mem_append.mpr ⟨h.2, h'.2⟩⟩

/-- The components of a record as fields. -/
def fieldsOf (comps : List Component) : Fields := Fields.ofList (comps.map fun c => (c.name, c.type))

theorem names_fieldsOf (comps : List Component) :
    (fieldsOf comps).toList.map Prod.fst = comps.map Component.name := by
  rw [fieldsOf, Fields.toList_ofList, List.map_map]
  rfl

theorem spells_componentDecls (mark : Mark) : ∀ {comps : List Component} (n : NodeId),
    (∀ c ∈ comps, c.type.Spelled lookup c.text.toList) →
      List.Forall₂ (Decl.Spells lookup) (componentDecls mark n comps)
        (comps.map fun c => (c.name, c.type))
  | [], _, _ => .nil
  | _ :: _, n, h =>
    .cons ⟨_, _, rfl, (List.forall_mem_cons.mp h).1⟩
      (spells_componentDecls mark (n + 2) (List.forall_mem_cons.mp h).2)

theorem finishRecord_consumes (mark : Mark) {comps : List Component}
    (hcomps : ∀ c ∈ comps, c.type.Spelled lookup c.text.toList) :
    Consumes s (finishRecord mark comps) fun t cs new _ =>
      ∃ id, t = .record id (fieldsOf comps) ∧ cs = [] ∧
      Records lookup new [(id, fieldsOf comps)] := by
  intro t s' h
  rw [finishRecord_run] at h
  cases h
  refine ⟨[], _, ⟨rfl, rfl⟩, s.nextId, rfl, rfl, rfl, List.forall_mem_singleton.mpr ?_⟩
  rw [RecordInfo.Spelled, Fields.toList_ofList]
  exact spells_componentDecls mark _ hcomps

mutual

/-- **What has been read as a type derives from the grammar**, and its records have been added. -/
theorem type_consumes (mark : Mark) : ∀ (fuel : Nat) {s : TypeReading},
    Consumes s (type lookup mark fuel) fun t cs new _ => t.Spelled lookup cs ∧
      Records lookup new t.recordParts
  | 0, _ => .fail _
  | fuel + 1, s => by
    unfold type
    refine peek_consumes.bind fun c b _ s₁ _ ⟨hb, hnew, hhead⟩ => ?_
    subst hnew
    -- The cases of the reader, one for each sign that a type can open with, and names last.
    split
    · exact .fail _
    · refine (advance_consumes (hhead _ rfl)).bind ?_
      rintro _ _ _ s₂ - ⟨rfl, rfl⟩
      refine (type_consumes mark fuel).bind fun base cs new s₃ _ ⟨hbase, hrecords⟩ => .pure ?_
      simpa using ⟨Ty.Spelled.ptr hb hbase, hrecords⟩
    · refine (advance_consumes (hhead _ rfl)).bind ?_
      rintro _ _ _ s₂ - ⟨rfl, rfl⟩
      refine arrayLength_consumes.bind ?_
      rintro len _ _ s₃ - ⟨⟨b', digits, hb', hlen, rfl⟩, rfl⟩
      refine (expect_consumes _).bind ?_
      rintro _ _ _ s₄ - ⟨⟨b'', hb'', rfl⟩, rfl⟩
      refine (type_consumes mark fuel).bind fun elem cs new s₅ _ ⟨helem, hrecords⟩ => .pure ?_
      simpa using ⟨Ty.Spelled.arr hb hb' hlen hb'' helem, hrecords⟩
    · refine (advance_consumes (hhead _ rfl)).bind ?_
      rintro _ _ _ s₂ - ⟨rfl, rfl⟩
      -- The record comes last in the list: it is finished when its components have been read.
      refine (components_consumes mark fuel [] .nil).bind fun comps cs new s₃ _ hcomps => ?_
      obtain ⟨_, rfl, hdistinct, ⟨cs, b', rfl, hfields, hb'⟩, htexts, hrecords⟩ := hcomps
      refine (finishRecord_consumes mark htexts).imp ?_
      rintro _ _ new' _ ⟨id, rfl, rfl, hrecord⟩
      have hspelled : Ty.Spelled lookup _ (.record id (fieldsOf comps)) :=
        .record hb hfields (names_fieldsOf comps ▸ hdistinct) hb'
      simpa using ⟨hspelled, hrecords.append hrecord⟩
    · refine (word_consumes _).bind ?_
      rintro name _ _ s₂ - ⟨⟨b', hb', rfl⟩, -, rfl⟩
      refine .ite (fun hname => ?_) fun _ => .fail _
      refine (namedType_consumes name).imp ?_
      rintro t _ _ _ ⟨ht, rfl, rfl⟩
      have hspelled := Ty.Spelled.name (List.forall_mem_append.mpr ⟨hb, hb'⟩) hname ht
      rw [List.append_nil, ← List.append_assoc]
      -- A named type adds no record: its parts were read where it was declared.
      refine ⟨hspelled, ?_, List.forall_mem_nil _⟩
      cases ht <;> rfl

/-- The same for components behind those in `before`, up to the closing brace. -/
theorem components_consumes (mark : Mark) : ∀ (fuel : Nat) (before : List Component) {s : TypeReading},
    (before.map Component.name).Nodup → Consumes s (components lookup mark fuel before)
    fun comps cs new _ =>
      ∃ more, comps = before ++ more ∧ (comps.map Component.name).Nodup ∧
        (∃ cs' b, cs = cs' ++ (b ++ ['}']) ∧ (fieldsOf more).Spelled lookup cs' ∧ Blanks b) ∧
          (∀ c ∈ more, c.type.Spelled lookup c.text.toList) ∧
            Records lookup new (fieldsOf more).recordParts
  | 0, _, _, _ => .fail _
  | fuel + 1, before, s, hbefore => by
    unfold components
    refine (word_consumes _).bind ?_
    rintro name _ _ s₁ - ⟨⟨b, hb, rfl⟩, -, rfl⟩
    refine .ite (fun _ => .fail_bind _ _) fun hname => .ite (fun _ => .fail_bind _ _) fun hnew => ?_
    rw [Bool.not_eq_true', Bool.not_eq_false] at hname
    refine (expect_consumes _).bind ?_
    rintro _ _ _ s₂ - ⟨⟨b', hb', rfl⟩, rfl⟩
    refine Consumes.get.bind ?_
    rintro _ _ _ s₂ - ⟨rfl, rfl, rfl, rfl⟩
    refine (type_consumes mark fuel).bind fun ty cs new s₃ hty ⟨hspelled, hrecords⟩ =>
      Consumes.get.bind ?_
    rintro _ _ _ s₃ - ⟨rfl, rfl, rfl, rfl⟩
    -- The text of the component is what reading its type has taken.
    have htext : s₂.rest.take (s₂.rest.length - s₃.rest.length) = cs := by
      rw [hty.rest, List.length_append, Nat.add_sub_cancel, List.take_left']
      rfl
    rw [htext]
    -- The reader has rejected names that it knows, so the names stay distinct.
    have hdistinct : ((before ++ [Component.mk name ty (String.ofList cs)]).map
        Component.name).Nodup := by
      rw [List.map_append]
      refine List.nodup_append'.mpr ⟨hbefore, List.nodup_singleton _, List.disjoint_singleton.mpr
        fun hmem => ?_⟩
      obtain ⟨c, hc, heq⟩ := List.mem_map.mp hmem
      exact hnew (List.any_eq_true.mpr ⟨c, hc, decide_eq_true heq⟩)
    have hcomp : ty.Spelled lookup (String.ofList cs).toList := by rwa [String.toList_ofList]
    refine peek_consumes.bind fun c b'' _ s₅ _ ⟨hb'', hnil, hhead⟩ => ?_
    subst hnil
    -- Behind a component stands the closing brace, or a comma and another one.
    refine .ite (fun hc => ?_) fun _ => ?_
    · refine (advance_consumes (hhead '}' (hc ▸ rfl))).bind ?_
      rintro _ _ _ s₆ - ⟨rfl, rfl⟩
      refine .pure ⟨[⟨name, ty, String.ofList cs⟩], rfl, hdistinct,
        ⟨_, b'', ?_, .last hb hname hb' hspelled, hb''⟩,
        List.forall_mem_singleton.mpr hcomp, ?_⟩
      · simp
      · simpa [fieldsOf, Fields.ofList, Fields.recordParts] using hrecords
    · refine (expect_consumes _).bind ?_
      rintro _ _ _ s₆ - ⟨⟨b₃, hb₃, rfl⟩, rfl⟩
      refine (components_consumes mark fuel _ hdistinct).imp ?_
      rintro _ _ new' _ ⟨more, rfl, hall, ⟨cs', b₄, rfl, hfields, hb₄⟩, htexts, hrecords'⟩
      refine ⟨⟨name, ty, String.ofList cs⟩ :: more, by simp, hall, ⟨_, b₄, ?_,
        .more hb hname hb' hspelled (List.forall_mem_append.mpr ⟨hb'', hb₃⟩) hfields, hb₄⟩,
        List.forall_mem_cons.mpr ⟨hcomp, htexts⟩, ?_⟩
      · simp
      · simpa [fieldsOf, Fields.ofList, Fields.recordParts] using hrecords.append hrecords'

end

/-! ## §4 Texts of the grammar are read -/

/-- The reader `x` succeeds from the state `s`, and its result and the state behind it satisfy `Q`. -/
def Accepts {α : Type} (s : TypeReading) (x : TypeReader α) (Q : α → TypeReading → Prop) : Prop :=
  ∃ a s', x.run s = .ok (a, s') ∧ Q a s'

namespace Accepts

variable {α β : Type} {x : TypeReader α} {Q R : α → TypeReading → Prop}

theorem pure {a : α} (h : Q a s) : Accepts s (pure a) Q := ⟨a, s, rfl, h⟩

theorem bind {f : α → TypeReader β} {Q : β → TypeReading → Prop} (hx : Accepts s x R)
    (hf : ∀ a s', R a s' → Accepts s' (f a) Q) : Accepts s (x >>= f) Q := by
  obtain ⟨a, s', hrun, hR⟩ := hx
  obtain ⟨b, s'', hrun', hQ⟩ := hf a s' hR
  refine ⟨b, s'', ?_, hQ⟩
  rw [StateT.run_bind, hrun]
  exact hrun'

theorem imp (h : Accepts s x R) (hQ : ∀ a s', R a s' → Q a s') : Accepts s x Q := by
  obtain ⟨a, s', hrun, hR⟩ := h
  exact ⟨a, s', hrun, hQ a s' hR⟩

theorem get : Accepts s get fun a s' => a = s ∧ s' = s := ⟨s, s, rfl, rfl, rfl⟩

end Accepts

variable {b cs rest : List Char}

/-- Blanks are skipped, and nothing else. -/
theorem skipBlanks_accepts (hb : Blanks b) (hcs : ∀ c ∈ cs.head?, c ≠ ' ' ∧ c ≠ '\t')
    (hs : s.rest = b ++ cs) :
    Accepts s skipBlanks fun _ s' => s'.rest = cs := by
  refine ⟨(), _, rfl, ?_⟩
  show (s.rest.dropWhile fun c => c = ' ' ∨ c = '\t') = cs
  rw [hs]
  exact hb.dropWhile hcs

/-- A character that can be seen: neither skipped nor taken for the end of the text. -/
def Visible (c : Char) : Prop := c ≠ ' ' ∧ c ≠ '\t' ∧ c.toNat ≠ 0

theorem visible_of_isNameChar {c : Char} (h : isNameChar c = true) : Visible c := by
  refine ⟨?_, ?_, fun hzero => ?_⟩
  · rintro rfl
    exact absurd h (by decide)
  · rintro rfl
    exact absurd h (by decide)
  · have hc : c = Char.ofNat 0 := by rw [← hzero, Char.ofNat_toNat]
    rw [hc] at h
    exact absurd h (by decide)

theorem peek_accepts {c : Char} (hc : Visible c) (hb : Blanks b) (hs : s.rest = b ++ c :: rest) :
    Accepts s peek fun c' s' => c' = some c ∧ s'.rest = c :: rest := by
  refine (skipBlanks_accepts hb (by simpa using ⟨hc.1, hc.2.1⟩) hs).bind fun _ s' hs' =>
    Accepts.get.bind ?_
  rintro _ _ ⟨rfl, rfl⟩
  rw [hs']
  dsimp only
  rw [if_neg hc.2.2]
  exact .pure ⟨rfl, hs'⟩

theorem advance_accepts {c : Char} (hs : s.rest = c :: rest) : Accepts s advance fun _ s' =>
    s'.rest = rest :=
  ⟨(), _, rfl, congrArg List.tail hs⟩

theorem expect_accepts {c : Char} (hc : Visible c) (hb : Blanks b) (hs : s.rest = b ++ c :: rest) :
    Accepts s (expect c) fun _ s' => s'.rest = rest := by
  refine (peek_accepts hc hb hs).bind fun c' s' ⟨hc', hs'⟩ => ?_
  rw [if_pos hc']
  exact advance_accepts hs'

/-- A word is read as far as its characters belong to it. -/
theorem word_accepts {belongs : Char → Bool} {w : List Char} (hb : Blanks b)
    (hw : ∀ c ∈ w, belongs c = true) (hrest : ∀ c ∈ rest.head?, belongs c = false)
    (hvisible : ∀ c ∈ (w ++ rest).head?, c ≠ ' ' ∧ c ≠ '\t') (hs : s.rest = b ++ (w ++ rest)) :
    Accepts s (word belongs) fun a s' => a = String.ofList w ∧ s'.rest = rest := by
  refine (skipBlanks_accepts hb hvisible hs).bind fun _ s' hs' => ⟨_, _, rfl, ?_⟩
  have hstop : rest.takeWhile belongs = [] ∧ rest.dropWhile belongs = rest := by
    cases rest with
    | nil => exact ⟨rfl, rfl⟩
    | cons c rest => simp [hrest c rfl]
  rw [hs', List.takeWhile_append_of_pos hw, List.dropWhile_append_of_pos hw, hstop.1, hstop.2,
    List.append_nil]
  exact ⟨rfl, rfl⟩

/-- The name of a derivation is read in full. -/
theorem name_accepts {name : String} (hb : Blanks b) (hname : Source.isIdent name = true)
    (hrest : Closed rest) (hs : s.rest = b ++ (name.toList ++ rest)) :
    Accepts s (word isNameChar) fun a s' => a = name ∧ s'.rest = rest := by
  have hchars := Source.isNameChar_of_isIdent hname
  obtain ⟨c, cs, heq, -⟩ := Source.exists_of_isIdent hname
  refine (word_accepts hb hchars hrest ?_ hs).imp fun a s' ⟨ha, hs'⟩ =>
    ⟨ha.trans String.ofList_toList, hs'⟩
  have hc := visible_of_isNameChar (hchars c (heq ▸ List.mem_cons_self))
  rw [heq]
  simpa using ⟨hc.1, hc.2.1⟩

theorem arrayLength_accepts {digits b' : List Char} {n : Word} (hb : Blanks b) (hn : Numbers digits n)
    (hb' : Blanks b') (hs : s.rest = b ++ (digits ++ (b' ++ ']' :: rest))) :
    Accepts s arrayLength fun a s' => a = n ∧ s'.rest = b' ++ ']' :: rest := by
  have hne : digits ≠ [] := by
    rintro rfl
    exact absurd hn.pos (by decide)
  obtain ⟨d, ds, rfl⟩ := List.exists_cons_of_ne_nil hne
  have hd : d.isDigit := hn.isDigit d List.mem_cons_self
  have hstop : ∀ c ∈ (b' ++ ']' :: rest).head?, c.isDigit = false := by
    cases b' with
    | nil => simp
    | cons c b' =>
      have hc := hb' c List.mem_cons_self
      rcases hc with rfl | rfl <;> simp
  refine (word_accepts hb hn.isDigit hstop ?_ hs).bind fun w s' ⟨hw, hs'⟩ => ?_
  · have hvisible : d ≠ ' ' ∧ d ≠ '\t' := by
      constructor <;> rintro rfl <;> exact absurd hd (by decide)
    simpa using hvisible
  · have hread := (Text.readWord_eq_ok_iff hn.isDigit).mpr ⟨hne, hn.lt, hn.value⟩
    rw [hw, hread]
    dsimp only
    rw [if_pos]
    · exact .pure ⟨rfl, hs'⟩
    · rw [hn.value, Int64.lt_iff_toInt_lt, Int64.toInt_ofNat_of_lt hn.lt]
      exact Int.ofNat_lt.mpr hn.pos

theorem namedType_accepts {name : String} {t : Ty} (h : TypeNamed lookup name t) :
    Accepts s (namedType lookup name) fun t' s' => t' = t ∧ s'.rest = s.rest := by
  cases h with
  | declared hname hfind =>
    simp only [List.mem_cons, List.not_mem_nil, or_false, not_or] at hname
    obtain ⟨hint, hchar, hbool, hvoid⟩ := hname
    unfold namedType
    split
    · contradiction
    · contradiction
    · contradiction
    · contradiction
    · rw [hfind]
      exact ⟨_, _, rfl, rfl, rfl⟩
  | _ => exact .pure ⟨rfl, rfl⟩

/-- The components that have been read are those of the text, up to the numbers of records in their
types. -/
def Reread (fields : Fields) (comps : List Component) : Prop := fields.Renumbered (fun _ _ => True)
    (fieldsOf comps)

theorem visible_of_ne {c : Char} (h : c ≠ ' ' ∧ c ≠ '\t' ∧ c.toNat ≠ 0 := by decide) : Visible c := h

mutual

/-- **A text of the grammar is read as the type that it denotes**, up to the numbers of records. -/
theorem type_accepts (mark : Mark) : ∀ {cs rest : List Char} {t : Ty}, t.Spelled lookup cs →
    ∀ {fuel : Nat} {s : TypeReading}, cs.length < fuel → Closed rest → s.rest = cs ++ rest →
      Accepts s (type lookup mark fuel) fun t' s' => t.Renumbered (fun _ _ => True) t' ∧ s'.rest = rest
  | _, rest, _, h, fuel + 1, s, hfuel, hrest, hs => by
    unfold type
    -- The derivation says which case the reader is in: the character that it looks at decides.
    cases h with
    | @ptr b cs base hb hbase =>
      simp only [List.length_append, List.length_cons, List.append_assoc, List.cons_append] at hfuel hs
      refine (peek_accepts visible_of_ne hb hs).bind ?_
      rintro _ s₁ ⟨rfl, hs₁⟩
      refine (advance_accepts hs₁).bind fun _ s₂ hs₂ => ?_
      refine (type_accepts mark hbase (by omega) hrest hs₂).bind fun t' s₃ ⟨ht', hs₃⟩ => ?_
      exact .pure ⟨.ptr ht', hs₃⟩
    | @arr b b' digits b'' cs len elem hb hb' hlen hb'' helem =>
      simp only [List.length_append, List.length_cons, List.append_assoc, List.cons_append] at hfuel hs
      refine (peek_accepts visible_of_ne hb hs).bind ?_
      rintro _ s₁ ⟨rfl, hs₁⟩
      refine (advance_accepts hs₁).bind fun _ s₂ hs₂ => ?_
      refine (arrayLength_accepts hb' hlen hb'' hs₂).bind ?_
      rintro _ s₃ ⟨rfl, hs₃⟩
      refine (expect_accepts visible_of_ne hb'' hs₃).bind fun _ s₄ hs₄ => ?_
      refine (type_accepts mark helem (by omega) hrest hs₄).bind fun t' s₅ ⟨ht', hs₅⟩ => ?_
      exact .pure ⟨.arr ht', hs₅⟩
    | @record b cs b' id fields hb hfields hdistinct hb' =>
      simp only [List.length_append, List.length_cons, List.append_assoc, List.cons_append,
        List.nil_append] at hfuel hs
      refine (peek_accepts visible_of_ne hb hs).bind ?_
      rintro _ s₁ ⟨rfl, hs₁⟩
      refine (advance_accepts hs₁).bind fun _ s₂ hs₂ => ?_
      -- No component has been read yet, so the names are those of the fields.
      have hnames : (([] : List Component).map Component.name ++ fields.toList.map
        Prod.fst).Nodup := hdistinct
      refine (components_accepts mark hfields (by omega) hnames hb' hs₂).bind ?_
      rintro _ s₃ ⟨comps, rfl, hcomps, hs₃⟩
      exact ⟨_, _, finishRecord_run mark _ s₃, .record trivial hcomps, hs₃⟩
    | @name b name t hb hname ht =>
      -- The first character of a name is none of the three signs that open another type.
      obtain ⟨c, cs, heq, hc, -⟩ := Source.exists_of_isIdent hname
      have hchars := Source.isNameChar_of_isIdent hname
      have hvisible := visible_of_isNameChar (hchars c (heq ▸ List.mem_cons_self))
      rw [List.append_assoc] at hs
      have hs' := hs
      rw [heq] at hs'
      refine (peek_accepts hvisible hb hs').bind ?_
      rintro _ s₁ ⟨rfl, hs₁⟩
      split
      · contradiction
      · next heq => exact absurd (Option.some.inj heq ▸ hc) (by decide)
      · next heq => exact absurd (Option.some.inj heq ▸ hc) (by decide)
      · next heq => exact absurd (Option.some.inj heq ▸ hc) (by decide)
      · refine (name_accepts .nil hname hrest (by rw [hs₁, heq]; rfl)).bind ?_
        rintro _ s₂ ⟨rfl, hs₂⟩
        rw [if_pos hname]
        refine (namedType_accepts ht).imp ?_
        rintro _ s₃ ⟨rfl, hs₃⟩
        exact ⟨.refl (fun _ => trivial) _, hs₃.trans hs₂⟩

/-- The same for the components of a record and the brace behind them. -/
theorem components_accepts (mark : Mark) : ∀ {cs b' rest : List Char} {fields : Fields},
    fields.Spelled lookup cs →
    ∀ {fuel : Nat} {before : List Component} {s : TypeReading}, cs.length < fuel →
      (before.map Component.name ++ fields.toList.map Prod.fst).Nodup → Blanks b' →
        s.rest = cs ++ (b' ++ '}' :: rest) → Accepts s (components lookup mark fuel before)
          fun comps s' =>
          ∃ more, comps = before ++ more ∧ Reread fields more ∧ s'.rest = rest
  | _, b', rest, _, h, fuel + 1, before, s, hfuel, hdistinct, hb', hs => by
    obtain ⟨b, name, b₁, cs, t, fields, tail, rfl, rfl, hb, hname, hb₁, ht, htail⟩ := h.first
    -- The names in the text are distinct, so the reader has not seen this one.
    have hnew : ¬(before.any fun c => c.name = name) = true := fun hany => by
      obtain ⟨c, hc, heq⟩ := List.any_eq_true.mp hany
      refine (List.nodup_append'.mp hdistinct).2.2 (List.mem_map.mpr ⟨c, hc, of_decide_eq_true heq⟩) ?_
      exact List.mem_cons_self
    simp only [List.length_append, List.length_cons, List.append_assoc, List.cons_append] at hfuel hs
    -- What follows the type is a brace or a comma, so no name in it runs on.
    have hclosed : Closed (tail ++ (b' ++ '}' :: rest)) := by
      rcases htail with ⟨-, rfl⟩ | ⟨b₂, rest', rfl, hb₂, -⟩
      · have hbrace : Closed ('}' :: rest) := .cons (by decide)
        rw [List.nil_append]
        exact .blanks hb' hbrace
      · rw [List.append_assoc]
        exact .blanks hb₂ (.cons (by decide))
    unfold components
    refine (name_accepts hb hname (.blanks hb₁ (.cons (by decide))) hs).bind ?_
    rintro name s₁ ⟨rfl, hs₁⟩
    rw [hname, if_neg (by simp), if_neg hnew]
    refine (expect_accepts visible_of_ne hb₁ hs₁).bind fun _ s₂ hs₂ => Accepts.get.bind ?_
    rintro _ s₂ ⟨rfl, rfl⟩
    refine (type_accepts mark ht (by omega) hclosed hs₂).bind fun t' s₃ ⟨ht', hs₃⟩ => Accepts.get.bind ?_
    rintro _ s₃ ⟨rfl, rfl⟩
    rcases htail with ⟨rfl, rfl⟩ | ⟨b₂, rest', rfl, hb₂, hfields⟩
    · -- The record ends here.
      refine (peek_accepts visible_of_ne hb' hs₃).bind ?_
      rintro _ s₄ ⟨rfl, hs₄⟩
      rw [if_pos rfl]
      refine (advance_accepts hs₄).bind fun _ s₅ hs₅ => .pure ⟨_, rfl, .cons ht' .nil, hs₅⟩
    -- A comma: the rest is read with this component among those before.
    · simp only [List.length_append, List.length_cons, List.append_assoc, List.cons_append] at hs₃ hfuel
      refine (peek_accepts visible_of_ne hb₂ hs₃).bind ?_
      rintro _ s₄ ⟨rfl, hs₄⟩
      rw [if_neg (by decide)]
      refine (expect_accepts visible_of_ne .nil hs₄).bind fun _ s₅ hs₅ => ?_
      have hdistinct' {text : String} : ((before ++ [Component.mk name t' text]).map Component.name ++
          fields.toList.map Prod.fst).Nodup := by
        rw [List.map_append, List.append_assoc]
        exact hdistinct
      have hfuel' : rest'.length < fuel := by omega
      refine (components_accepts mark hfields hfuel' hdistinct' hb' hs₅).imp ?_
      rintro _ s₆ ⟨more, rfl, hmore, hs₆⟩
      exact ⟨_ :: more, List.append_assoc _ _ _, .cons ht' hmore, hs₆⟩

end

end TypeReader

/-- **What has been read derives from the grammar**, and every record in it has been recorded with
declarations of its components. -/
theorem spelled_of_readTypeExpr {lookup : String → Option Decl} {n : NodeId} {te : TypeExpr}
    {r : TypeResult} (h : readTypeExpr lookup n te = .ok r) : r.type.Spelled lookup te.text.toList ∧
      (r.records.map fun r => (r.1, r.2.fields)) = r.type.recordParts ∧
      ∀ x ∈ r.records, x.2.Spelled lookup := by
  obtain ⟨s, hrun, hrest, hparts⟩ := exists_run_of_readTypeExpr h
  obtain ⟨cs, new, hadvances, hspelled, hrecords⟩ := TypeReader.type_consumes te.mark _ _ _ hrun
  have hcs : te.text.toList = cs := by
    have htext := hadvances.rest
    rwa [hrest, List.append_nil] at htext
  have hnew : r.records = new := by
    rw [← hparts]
    exact hadvances.records
  rw [← hnew] at hrecords
  exact ⟨hcs ▸ hspelled, hrecords⟩

/-- **A text of the grammar is read**, as the type that it denotes. -/
theorem readTypeExpr_of_spelled {lookup : String → Option Decl} {te : TypeExpr} {t : Ty}
    (h : t.Spelled lookup te.text.toList) (n : NodeId) :
    ∃ r, readTypeExpr lookup n te = .ok r ∧ t.Renumbered (fun _ _ => True) r.type := by
  obtain ⟨t', s', hrun, ht', hrest⟩ := TypeReader.type_accepts te.mark h (Nat.lt_succ_self _)
    TypeReader.Closed.nil
    (s := { rest := te.text.toList, nextId := n }) (List.append_nil _).symm
  unfold readTypeExpr
  dsimp only
  rw [hrun]
  refine ⟨{ s'.toTypeParts with type := t' }, ?_, ht'⟩
  show (if s'.rest.isEmpty then _ else _) = _
  rw [hrest]
  rfl

end MmixBackend
