import MmixBackend.Settings.Basic
import MmixBackend.Toml.Definitions
import MmixBackend.Yaml.Document

/-!
# Settings files

Settings can be read from YAML and TOML files. Entries that name no setting are ignored; an entry of
the wrong type makes the file malformed, and then no setting changes.
-/

namespace MmixBackend

/-! ### Floating-point numbers as integers -/

/-- The quotient of two numbers, rounded to the nearest integer and from half-way to the even one. -/
def divNearest (n k : Nat) : Nat :=
  let q := n / k
  let twice := 2 * (n % k)
  if twice < k then q
  else if k < twice then q + 1
  else if q % 2 = 0 then q
  else q + 1

/-- The integer part of the floating-point number with 53 binary digits nearest to `n / k`. -/
def floatPart (n k : Nat) : Nat :=
  if n = 0 then 0
  else
    let exponent : Int := (n.log2 : Int) - k.log2 - 53
    -- The significand in units of a power of two; it has 53 or 54 digits.
    let scaled (e : Int) : Nat × Nat :=
      if 0 ≤ e then (n, k <<< e.toNat) else (n <<< (-e).toNat, k)
    let (num, den) := scaled exponent
    let e := if num / den < 1 <<< 53 then exponent else exponent + 1
    let (num, den) := scaled e
    let significand := divNearest num den
    if 0 ≤ e then significand <<< e.toNat else significand >>> (-e).toNat

/-- The least word. -/
def leastWord : Int := -Word.bound

/-- The integer that a floating-point number is cut off to. Numbers too large for a word have none;
the first one beyond the largest word and all below the least one give the least word. -/
def Yaml.FloatText.truncate? : Yaml.FloatText → Option Int
  | .nan => none
  | .infinity negative => if negative then some leastWord else none
  | .decimal d =>
    let (n, k) := d.fraction
    let m : Int := floatPart n k
    let v := if d.negative then -m else m
    if Word.bound < v then none
    else if v < leastWord ∨ v = Word.bound then some leastWord
    else some v

/-! ### YAML -/

/-- A scalar of a settings file. -/
inductive SettingValue where
  | null
  | bool (b : Bool)
  | int (n : Int)
  | float (f : Yaml.FloatText)
  | str (s : String)

namespace SettingValue

/-- The value of a scalar, if its tag fits its text. -/
def ofScalar? (tag : Yaml.Tag) (text : String) : Option SettingValue :=
  if tag = .str then some (.str text)
  else
    let implied := Yaml.implicitTag text
    let value := match implied with
      | .null => some null
      | .bool => some (bool (text.toLower = "true"))
      | .int => (Yaml.readInteger? text).map int
      | .float => (Yaml.readFloat? text).map float
      | _ => some (str text)
    if tag = implied then value
    else if tag = .float ∧ implied = .int then
      (Yaml.readInteger? text).map fun n => float (.decimal ⟨n < 0, n.natAbs, 0⟩)
    else none

/-- A number setting after a value; a null leaves it. -/
def toInt? (old : Int) : SettingValue → Option Int
  | null => some old
  | int n => if leastWord ≤ n ∧ n < Word.bound then some n else none
  | float f => f.truncate?
  | bool _ => none
  | str _ => none

/-- A switch after a value; a null leaves it. -/
def toBool? (old : Bool) : SettingValue → Option Bool
  | null => some old
  | bool b => some b
  | str s =>
    if s ∈ ["y", "Y", "yes", "Yes", "YES", "on", "On", "ON"] then some true
    else if s ∈ ["n", "N", "no", "No", "NO", "off", "Off", "OFF"] then some false
    else none
  | int _ => none
  | float _ => none

/-- The value of a node, if it is a scalar or refers to one. -/
def ofNode? : Yaml.Node → Option SettingValue
  | .scalar _ tag _ text => ofScalar? tag text
  | .reference _ _ (some n) => ofNode? n
  | _ => none

end SettingValue

namespace Settings

/-- The settings by their names in files. -/
inductive Field where
  | registers
  | jobs
  | argsViaRegister
  | verbose
  deriving DecidableEq

/-- The setting with a name. -/
def Field.ofName? : String → Option Field
  | "nregs" => some .registers
  | "jobs" => some .jobs
  | "args_via_register" => some .argsViaRegister
  | "verbose" => some .verbose
  | _ => none

/-- Sets a setting to a value of a YAML file. -/
def setYaml (s : Settings) (v : SettingValue) : Field → Option Settings
  | .registers => (v.toInt? s.registers).map fun n => { s with registers := n }
  | .jobs => (v.toInt? s.jobs).map fun n => { s with jobs := n }
  | .argsViaRegister => (v.toBool? s.argsViaRegister).map fun b => { s with argsViaRegister := b }
  | .verbose => (v.toBool? s.verbose).map fun b => { s with verbose := b }

/-- Whether two keys count as the same. -/
def sameKey : Yaml.Node → Yaml.Node → Bool
  | .scalar _ _ _ a, .scalar _ _ _ b => a = b
  | .reference _ a _, .reference _ b _ => a = b
  | .sequence .., .sequence .. => true
  | .mapping .., .mapping .. => true
  | _, _ => false

/-- Whether some key occurs twice. -/
def hasDuplicates : List Yaml.Entry → Bool
  | [] => false
  | e :: rest => (rest.any fun r => sameKey e.key r.key) || hasDuplicates rest

/-- Whether a key asks to take over the entries of another mapping. -/
def isMerge : Yaml.Node → Bool
  | .scalar _ tag _ text => text = "<<" && tag = .merge
  | _ => false

/-- The text of a key: nothing for a null, no value at all for what cannot be a key. -/
def keyText? : Yaml.Node → Option (Option String)
  | .scalar _ tag _ text =>
    match SettingValue.ofScalar? tag text with
    | none => none
    | some .null => some none
    | some _ => some (some text)
  | .reference _ _ (some n) => keyText? n
  | _ => none

/-- Sets what the entries of a mapping say. `taken` are the keys that count no more because an entry
before had them; it is `none` if this cannot be. -/
def setEntries (s : Settings) (taken : List String) (merging : Bool) :
    List Yaml.Entry → Option (Settings × List String)
  | [] => some (s, taken)
  | .mk k v :: rest =>
    if isMerge k then setEntries s taken merging rest
    else match keyText? k with
      | none => none
      | some none => setEntries s taken merging rest
      | some (some name) =>
        if taken.contains name then
          if merging then setEntries s taken merging rest
          else if (Field.ofName? name).isSome then none
          else setEntries s taken merging rest
        else match Field.ofName? name with
          | none => setEntries s (name :: taken) merging rest
          | some field =>
            match SettingValue.ofNode? v with
            | none => none
            | some value =>
              match s.setYaml value field with
              | none => none
              | some s => setEntries s (name :: taken) merging rest

mutual

/-- Sets what a mapping says, and then what a mapping says that it takes over. -/
def setMapping (s : Settings) (taken : List String) (merging : Bool) :
    Yaml.Node → Option (Settings × List String)
  | .mapping _ _ entries =>
    if hasDuplicates entries then none
    else match setEntries s taken merging entries with
      | none => none
      | some (s, taken) => setMerged s taken entries
  | .reference _ _ (some n) => setMapping s taken merging n
  | _ => none

/-- Sets what the mappings say that entries take over. -/
def setMerged (s : Settings) (taken : List String) :
    List Yaml.Entry → Option (Settings × List String)
  | [] => some (s, taken)
  | .mk k (.sequence _ _ items) :: rest =>
    if isMerge k then setAll s taken items
    else setMerged s taken rest
  | .mk k v :: rest =>
    if isMerge k then setMapping s taken true v
    else setMerged s taken rest

/-- Sets what mappings say, the earlier ones first. -/
def setAll (s : Settings) (taken : List String) :
    List Yaml.Node → Option (Settings × List String)
  | [] => some (s, taken)
  | n :: ns =>
    match setMapping s taken true n with
    | none => none
    | some (s, taken) => setAll s taken ns

end

/-- The settings with the root of a document over them. -/
def applyRoot (s : Settings) : Yaml.Node → Option Settings
  | .scalar _ tag _ text =>
    match SettingValue.ofScalar? tag text with
    | some .null => some s
    | _ => none
  | n => (setMapping s [] false n).map Prod.fst

/-- The settings with a YAML file over them. -/
def applyYaml (s : Settings) (content : String) : Option Settings :=
  match Yaml.readDocument? content with
  | .error _ => none
  | .ok none => some s
  | .ok (some root) => s.applyRoot root

/-! ### TOML -/

/-- Sets a setting to a value of a TOML file. -/
def setToml (s : Settings) (v : Toml.Value) (field : Field) : Option Settings :=
  match field, v with
  | .registers, .integer cs => (Toml.readInteger? cs).map fun n => { s with registers := n }
  | .jobs, .integer cs => (Toml.readInteger? cs).map fun n => { s with jobs := n }
  | .argsViaRegister, .boolean b => some { s with argsViaRegister := b }
  | .verbose, .boolean b => some { s with verbose := b }
  | _, _ => none

/-- The setting that a name in a TOML file selects, in large or small letters. -/
def Field.ofAnyCase? (name : String) : Option Field := Field.ofName? name.toLower

/-- What the pairs of a table are for. -/
inductive TomlTable where
  /-- They are settings. -/
  | root
  /-- They are ignored. -/
  | ignored
  /-- There must not be any: the table stands where a setting should be. -/
  | forbidden

/-- Sets what items say whose pairs are in a certain table. -/
def setItems (s : Settings) (table : TomlTable) : List Toml.Item → Option Settings
  | [] => some s
  | .pair (.mk key value) :: rest =>
    match table with
    | .ignored => setItems s table rest
    | .forbidden => none
    | .root =>
      match key with
      | [] => setItems s table rest
      | name :: below =>
        match Field.ofAnyCase? name, below with
        | none, _ => setItems s table rest
        | some _, _ :: _ => none
        | some field, [] =>
          match s.setToml value field with
          | none => none
          | some s => setItems s table rest
  | .table key :: rest =>
    match key with
    | name :: below =>
      match Field.ofAnyCase? name, below with
      | none, _ => setItems s .ignored rest
      | some _, [] => setItems s .forbidden rest
      | some _, _ :: _ => none
    | [] => setItems s .ignored rest
  | .element key :: rest =>
    match key.head?.bind Field.ofAnyCase? with
    | none => setItems s .ignored rest
    | some _ => none

/-- The settings with a TOML file over them. -/
def applyToml (s : Settings) (content : String) : Option Settings :=
  match Toml.items? content with
  | none => none
  | some items => if Toml.wellDefined items then s.setItems .root items else none

/-! ### Files -/

/-- What a file name ends in, from the last point of its last part on, in small letters. -/
def extension (path : String) : String :=
  let last := (path.toList.reverse.takeWhile (· ≠ '/'))
  if last.contains '.' then (String.ofList (last.takeWhile (· ≠ '.') ++ ['.']).reverse).toLower else ""

/-- Why a settings file cannot be used. -/
inductive FileFault where
  | format (path ext : String)
  | malformed (path : String)
  deriving DecidableEq

/-- The wording of a fault. -/
def FileFault.message : FileFault → String
  | format path ext => "config " ++ path ++ ": unsupported format " ++ Text.quoted ext
  | malformed path => "parse config " ++ path ++ ": malformed settings"

/-- The settings with a file over them. -/
def applyFile (s : Settings) (path content : String) : Except FileFault Settings :=
  let result (r : Option Settings) : Except FileFault Settings :=
    match r with
    | some s => .ok s
    | none => .error (.malformed path)
  match extension path with
  | ".yaml" => result (s.applyYaml content)
  | ".yml" => result (s.applyYaml content)
  | ".toml" => result (s.applyToml content)
  | ext => .error (.format path ext)

end Settings

end MmixBackend
