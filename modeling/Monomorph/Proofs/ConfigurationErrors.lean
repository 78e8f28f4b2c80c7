import Monomorph.Configuration
import Monomorph.Proofs.LongIntegers
import Monomorph.Proofs.PathLaws
import Monomorph.Proofs.Utf8Laws

/-!
# Which configuration files are answered

A file with the right shape gives a configuration, and its forced instantiations are the lists of
strings in the file. A file that cannot be opened, is no JSON or has another shape is blamed on its
path (`load_answers_iff`). Two kinds of files escape: octets that are no UTF-8, and an integer with
too many digits in the place of a value.
-/

namespace Monomorph

namespace Configuration

variable {c : Configuration} {json options : Json} {key field : Text}
  {classes methods table : Table Text (List Text)}

-- ---------------------------------------------------------------------------
-- The shape of a configuration file
-- ---------------------------------------------------------------------------

def IsMethodKey (key : Text) : Prop :=
  ∃ owner method, key = owner ++ '.' :: method ∧ owner ≠ [] ∧ method ≠ [] ∧ '.' ∉ owner ∧
    '.' ∉ method

theorem isMethodKey_iff : isMethodKey key = true ↔ IsMethodKey key := by
  constructor
  · intro h
    unfold isMethodKey at h
    split at h
    · rename_i owner method hsplit
      simp only [Bool.and_eq_true, Bool.not_eq_true', List.isEmpty_eq_false_iff] at h
      obtain ⟨rfl, howner, hmethod⟩ := Text.eq_of_splitAt_eq_pair hsplit
      exact ⟨owner, method, rfl, h.1, h.2, howner, hmethod⟩
    · cases h
  · rintro ⟨owner, method, rfl, howner, hmethod, hdot, hdot'⟩
    have hsplit : Text.splitAt '.' (owner ++ '.' :: method) = [owner, method] := by
      rw [Text.splitAt_append, Text.splitAt_of_not_mem hdot, Text.splitAt_of_not_mem hdot']
      rfl
    simp only [isMethodKey, hsplit]
    simp [howner, hmethod]

/-- Lists of strings under names, as a table of texts. -/
inductive ListsTexts : Option Json → Table Text (List Text) → Prop where
  | absent : ListsTexts none ∅
  | listed (lists : List (List Json.Letter × List (List Json.Letter))) :
      ListsTexts (some (.object (lists.map fun l => (l.1, .array (l.2.map .string)))))
        ⟨lists.map fun l => (nameText l.1, l.2.map nameText)⟩

theorem texts?_eq_some_iff {items : List Json} {ts : List Text} :
    texts? items = some ts ↔
      ∃ lss : List (List Json.Letter), items = lss.map .string ∧ ts = lss.map nameText := by
  constructor
  · intro h
    fun_induction texts? items generalizing ts with
    | case1 =>
      cases h
      exact ⟨[], rfl, rfl⟩
    | case2 ls items ih =>
      obtain ⟨us, hus, rfl⟩ := Option.map_eq_some_iff.mp h
      obtain ⟨lss, rfl, rfl⟩ := ih hus
      exact ⟨ls :: lss, rfl, rfl⟩
    | case3 => cases h
  · rintro ⟨lss, rfl, rfl⟩
    induction lss with
    | nil => rfl
    | cons ls lss ih =>
      rw [List.map_cons, texts?, ih]
      rfl

theorem textLists_eq_ok_iff {fields : List (List Json.Letter × Json)} :
    textLists field fields = .ok table ↔
      ∃ lists : List (List Json.Letter × List (List Json.Letter)),
        fields = lists.map (fun l => (l.1, .array (l.2.map .string))) ∧
        table = ⟨lists.map fun l => (nameText l.1, l.2.map nameText)⟩ := by
  constructor
  · intro h
    fun_induction textLists field fields generalizing table with
    | case1 =>
      cases h
      exact ⟨[], rfl, rfl⟩
    | case4 key items fields ts hts more hmore ih =>
      cases h
      obtain ⟨lss, rfl, rfl⟩ := texts?_eq_some_iff.mp hts
      obtain ⟨lists, rfl, rfl⟩ := ih hmore
      exact ⟨(key, lss) :: lists, rfl, rfl⟩
    | _ => cases h
  · rintro ⟨lists, rfl, rfl⟩
    induction lists with
    | nil => rfl
    | cons l lists ih =>
      rw [List.map_cons, textLists, texts?_eq_some_iff.mpr ⟨l.2, rfl, rfl⟩, ih]
      rfl

theorem forced_eq_ok_iff {instantiate : Json} :
    forced instantiate key field = .ok table ↔ ListsTexts (instantiate.field? key) table := by
  unfold forced
  cases instantiate.field? key with
  | none =>
    constructor
    · rintro ⟨⟩
      exact .absent
    · rintro ⟨⟩
      rfl
  | some v =>
    constructor
    · intro h
      split at h
      · cases ‹some v = none›
      · rename_i hv
        cases hv
        obtain ⟨lists, rfl, rfl⟩ := textLists_eq_ok_iff.mp h
        exact .listed lists
      · cases h
    · rintro (_ | lists)
      exact textLists_eq_ok_iff.mpr ⟨lists, rfl, rfl⟩

def IsObject (json : Json) : Prop :=
  ∃ fields, json = .object fields

def forcedBy? (options : Json) (key : Text) : Option Json :=
  (options.field? "instantiate").bind (·.field? key)

/-- The options have the right types, and force the instantiations in the tables. -/
structure ShapedOptions (options : Json) (classes methods : Table Text (List Text)) : Prop where
  texts : ∀ key ∈ ["rootDir".toList, "outDir".toList, "apiVersion".toList], ∀ v,
    options.field? key = some v → ∃ ls, v = .string ls
  verbose : ∀ v, options.field? "verbose" = some v → ∃ b, v = .bool b
  instantiate : ∀ v, options.field? "instantiate" = some v → IsObject v
  classLists : ListsTexts (forcedBy? options "classes") classes
  methodLists : ListsTexts (forcedBy? options "methods") methods
  methodKeys : ∀ key ∈ methods.keys, IsMethodKey key

/-- A value of the shape that a configuration file has to have. -/
structure Shaped (json : Json) (classes methods : Table Text (List Text)) : Prop where
  object : IsObject json
  optionsObject : ∀ v, json.field? "compilerOptions" = some v → IsObject v
  options : ShapedOptions ((json.field? "compilerOptions").getD (.object [])) classes methods

theorem lettersAt_ok_iff : (∃ ls, lettersAt options key = .ok ls) ↔
    ∀ v, options.field? key = some v → ∃ ls, v = .string ls := by
  unfold lettersAt
  cases options.field? key with
  | none => simp
  | some v => cases v <;> simp

theorem flag_ok_iff : (∃ b, flag options key = .ok b) ↔
    ∀ v, options.field? key = some v → ∃ b, v = .bool b := by
  unfold flag
  cases options.field? key with
  | none => simp
  | some v => cases v <;> simp

theorem bind_eq_ok_iff {ε α β : Type} {x : Except ε α} {f : α → Except ε β} {b : β} :
    x >>= f = .ok b ↔ ∃ a, x = .ok a ∧ f a = .ok b := by
  cases x <;> simp [bind, Except.bind]

theorem forcedBy?_eq (options : Json) (key : Text) : forcedBy? options key =
    ((options.field? "instantiate").getD (.object [])).field? key := by
  unfold forcedBy?
  cases options.field? "instantiate" <;> rfl

theorem apply_ok_iff : (∃ c', c.apply options = .ok c' ∧ c'.forcedClasses = classes ∧
    c'.forcedMethods = methods) ↔ ShapedOptions options classes methods := by
  constructor
  · rintro ⟨c', h, rfl, rfl⟩
    simp only [apply, bind_eq_ok_iff] at h
    obtain ⟨rootDir, hrootDir, outDir, houtDir, apiVersion, hapiVersion, verbose, hverbose, h⟩ := h
    split at h
    · rename_i fields hobject
      simp only [bind_eq_ok_iff] at h
      obtain ⟨classes, hclasses, methods, hmethods, h⟩ := h
      split at h
      · cases h
      · rename_i hkeys
        cases h
        refine ⟨?_, flag_ok_iff.mp ⟨verbose, hverbose⟩, fun v hv => ⟨fields, ?_⟩, ?_, ?_,
          fun key hkey => ?_⟩
        · simp only [List.forall_mem_cons]
          exact ⟨lettersAt_ok_iff.mp ⟨_, hrootDir⟩, lettersAt_ok_iff.mp ⟨_, houtDir⟩,
            lettersAt_ok_iff.mp ⟨_, hapiVersion⟩, nofun⟩
        · rwa [hv] at hobject
        · exact forcedBy?_eq .. ▸ forced_eq_ok_iff.mp hclasses
        · exact forcedBy?_eq .. ▸ forced_eq_ok_iff.mp hmethods
        · refine isMethodKey_iff.mp ?_
          simpa using List.find?_eq_none.mp hkeys key hkey
    · cases h
  · intro h
    obtain ⟨rootDir, hrootDir⟩ := lettersAt_ok_iff.mpr (h.texts "rootDir".toList (by simp))
    obtain ⟨outDir, houtDir⟩ := lettersAt_ok_iff.mpr (h.texts "outDir".toList (by simp))
    obtain ⟨apiVersion, hapiVersion⟩ := lettersAt_ok_iff.mpr (h.texts "apiVersion".toList (by simp))
    obtain ⟨verbose, hverbose⟩ := flag_ok_iff.mpr h.verbose
    have hobject : IsObject ((options.field? "instantiate").getD (.object [])) := by
      cases hv : options.field? "instantiate" with
      | none => exact ⟨[], rfl⟩
      | some v => exact h.instantiate v hv
    obtain ⟨fields, hfields⟩ := hobject
    have hclasses : forced (.object fields) "classes" "instantiate.classes" = .ok classes :=
      forced_eq_ok_iff.mpr (hfields ▸ forcedBy?_eq options _ ▸ h.classLists)
    have hmethods : forced (.object fields) "methods" "instantiate.methods" = .ok methods :=
      forced_eq_ok_iff.mpr (hfields ▸ forcedBy?_eq options _ ▸ h.methodLists)
    have hkeys : methods.keys.find? (!isMethodKey ·) = none := by
      refine List.find?_eq_none.mpr fun key hkey => ?_
      simp [isMethodKey_iff.mpr (h.methodKeys key hkey)]
    simp only [apply, hrootDir, houtDir, hapiVersion, hverbose, hfields, hclasses, hmethods, hkeys,
      bind, Except.bind]
    exact ⟨_, rfl, rfl, rfl⟩

theorem applyJson_object {fields : List (List Json.Letter × Json)}
    (h : ∀ v, (Json.object fields).field? "compilerOptions" = some v → IsObject v) :
    c.applyJson (.object fields) =
      c.apply (((Json.object fields).field? "compilerOptions").getD (.object [])) := by
  simp only [applyJson]
  cases hv : (Json.object fields).field? "compilerOptions" with
  | none => rfl
  | some v =>
    obtain ⟨options, rfl⟩ := h v hv
    rfl

theorem applyJson_ok_iff : (∃ c', c.applyJson json = .ok c' ∧ c'.forcedClasses = classes ∧
    c'.forcedMethods = methods) ↔ Shaped json classes methods := by
  constructor
  · intro h
    cases json with
    | object fields =>
      have hobject (v : Json) (hv : (Json.object fields).field? "compilerOptions" = some v) :
          IsObject v := by
        cases v with
        | object options => exact ⟨options, rfl⟩
        | _ =>
          simp only [applyJson, hv] at h
          obtain ⟨c', ⟨⟩, -⟩ := h
      rw [applyJson_object hobject] at h
      exact ⟨⟨fields, rfl⟩, hobject, apply_ok_iff.mp h⟩
    | _ => obtain ⟨c', ⟨⟩, -⟩ := h
  · rintro ⟨⟨fields, rfl⟩, hobject, hoptions⟩
    rw [applyJson_object hobject]
    exact apply_ok_iff.mpr hoptions

-- ---------------------------------------------------------------------------
-- The answers
-- ---------------------------------------------------------------------------

/-- The value in a configuration file. No file is as good as an empty object. -/
inductive File.Holds : File → Json → Prop where
  | absent : Holds .absent (.object [])
  | contents {text : Text} {json : Json} (h : Json.parse text.unifyNewlines = .ok json) :
      Holds (.contents (Utf8.encode text)) json

theorem shaped_nil : Shaped (.object []) ∅ ∅ where
  object := ⟨[], rfl⟩
  optionsObject := nofun
  options := {
    texts := fun _ _ => nofun
    verbose := nofun
    instantiate := nofun
    classLists := .absent
    methodLists := .absent
    methodKeys := nofun }

theorem holds_contents_iff {text : Text} :
    (File.contents (Utf8.encode text)).Holds json ↔ Json.parse text.unifyNewlines = .ok json := by
  refine ⟨fun h => ?_, .contents⟩
  generalize hfound : File.contents (Utf8.encode text) = found at h
  cases h with
  | absent => cases hfound
  | contents hparse =>
    obtain rfl := Utf8.encode_injective (File.contents.inj hfound)
    exact hparse

/-- The octets of a file are UTF-8, and no integer in it is too long. -/
def File.IsReadable (found : File) : Prop :=
  ∀ bytes, found = .contents bytes →
    ∃ text, bytes = Utf8.encode text ∧ ∀ n, ¬Json.HasLongInteger text.unifyNewlines n

theorem applyFile_of_isReadable (hclasses : c.forcedClasses = ∅) (hmethods : c.forcedMethods = ∅)
    (path : Text) {found : File} (h : found.IsReadable) :
    (∃ c' json, c.applyFile path found = .ok c' ∧ found.Holds json ∧
      Shaped json c'.forcedClasses c'.forcedMethods) ∨
    (∃ cause, c.applyFile path found = .error (.badFile path cause)) ∧
      ∀ json classes methods, found.Holds json → ¬Shaped json classes methods := by
  cases found with
  | absent =>
    refine .inl ⟨c, .object [], rfl, .absent, ?_⟩
    rw [hclasses, hmethods]
    exact shaped_nil
  | closed failure => exact .inr ⟨⟨_, rfl⟩, nofun⟩
  | contents bytes =>
    obtain ⟨text, rfl, hshort⟩ := h bytes rfl
    have hdecode : Utf8.decode (Utf8.encode text) = .ok text := Utf8.decode_eq_ok_iff.mpr rfl
    simp only [applyFile, hdecode, holds_contents_iff]
    cases hparse : Json.parse text.unifyNewlines with
    | ok json =>
      simp only
      cases happly : c.applyJson json with
      | ok c' => exact .inl ⟨c', json, rfl, rfl, applyJson_ok_iff.mp ⟨c', happly, rfl, rfl⟩⟩
      | error cause =>
        refine .inr ⟨⟨cause, rfl⟩, ?_⟩
        rintro _ classes methods ⟨⟩ hshaped
        obtain ⟨c', hok, -⟩ := applyJson_ok_iff.mpr hshaped
        rw [happly] at hok
        cases hok
    | error e =>
      cases e with
      | malformed cause place => exact .inr ⟨⟨_, rfl⟩, nofun⟩
      | oversized n => exact absurd (Json.parse_eq_oversized_iff.mp hparse) (hshort n)

theorem applyFile_of_not_isReadable (c : Configuration) (path : Text) {found : File}
    (h : ¬found.IsReadable) :
    ∃ e, c.applyFile path found = .error e ∧ ∀ cause, e ≠ .badFile path cause := by
  cases found with
  | absent => exact absurd nofun h
  | closed => exact absurd nofun h
  | contents bytes =>
    cases hdecode : Utf8.decode bytes with
    | error e => exact ⟨.undecodable e, by simp only [applyFile, hdecode], nofun⟩
    | ok text =>
      obtain rfl := Utf8.decode_eq_ok_iff.mp hdecode
      have hlong : ∃ n, Json.HasLongInteger text.unifyNewlines n := by
        refine Classical.byContradiction fun hnone => h ?_
        rintro _ ⟨⟩
        exact ⟨text, rfl, not_exists.mp hnone⟩
      obtain ⟨n, hn⟩ := hlong
      refine ⟨.oversizedInteger n, ?_, nofun⟩
      simp only [applyFile, hdecode, Json.parse_eq_oversized_iff.mpr hn]

/-- Every configuration file is answered, by a configuration that reflects it or by an error that
names it, unless its octets are no UTF-8 or an integer in it is too long. -/
theorem load_answers_iff (cwd dir : Text) (flags : Flags) (file : Text → File) :
    ((∃ c json, load cwd dir flags file = .ok c ∧ (file (filePath cwd dir)).Holds json ∧
        Shaped json c.forcedClasses c.forcedMethods) ∨
      (∃ cause, load cwd dir flags file = .error (.badFile (filePath cwd dir) cause)) ∧
        ∀ json classes methods, (file (filePath cwd dir)).Holds json →
          ¬Shaped json classes methods) ↔
    (file (filePath cwd dir)).IsReadable := by
  constructor
  · intro h
    refine Classical.byContradiction fun hno => ?_
    obtain ⟨e, herror, hne⟩ :=
      applyFile_of_not_isReadable { sourceDir := Path.absolute cwd dir } (filePath cwd dir) hno
    have hload : load cwd dir flags file = .error e := by
      simp only [load, herror]
      rfl
    rw [hload] at h
    obtain ⟨c, json, ⟨⟩, -⟩ | ⟨⟨cause, heq⟩, -⟩ := h
    exact hne cause (Except.error.inj heq)
  · intro h
    obtain ⟨c, json, hok, hholds, hshaped⟩ | ⟨⟨cause, herror⟩, hno⟩ :=
      applyFile_of_isReadable (c := { sourceDir := Path.absolute cwd dir }) rfl rfl
        (filePath cwd dir) h
    · -- Flags change no forced instantiation, and neither do absolute directories.
      refine .inl ⟨(c.applyFlags flags).anchor, json, ?_, hholds, hshaped⟩
      simp only [load, hok]
      rfl
    · refine .inr ⟨⟨cause, ?_⟩, hno⟩
      simp only [load, herror]
      rfl

/-- A file that forces one instance of a method. -/
def methodsFile : Text :=
  "\x7b\"compilerOptions\": \x7b\"instantiate\": \x7b\"methods\": " ++
  "\x7b\"Util.pick\": [\"Integer\"]\x7d\x7d\x7d\x7d"

theorem parse_methodsFile : Json.parse methodsFile =
    .ok (.object [("compilerOptions".toList.map .char, .object [("instantiate".toList.map .char,
      .object [("methods".toList.map .char, .object [("Util.pick".toList.map .char,
        .array [.string ("Integer".toList.map .char)])])])])]) := by
  have hitem := Json.takeValue_item (t := "\"Integer\"]\x7d\x7d\x7d\x7d") (by decide)
    (Json.takeValue_spells (Json.spellsString_plain (w := "Integer") (by decide +kernel)) _)
  have hpick := Json.takeValue_field "Util.pick" (by decide +kernel) hitem
  have hmethods := Json.takeValue_field "methods" (by decide +kernel) hpick
  have hinstantiate := Json.takeValue_field "instantiate" (by decide +kernel) hmethods
  have hoptions := Json.takeValue_field "compilerOptions" (by decide +kernel) hinstantiate
  exact Json.parse_of_takeValue (by decide) hoptions

theorem load_answers_iff_methods :
    ∃ c json, load "/work" "proj" {} (fun _ => .contents (Utf8.encode methodsFile)) = .ok c ∧
      (File.contents (Utf8.encode methodsFile)).Holds json ∧
      Shaped json c.forcedClasses c.forcedMethods := by
  have hreadable : (File.contents (Utf8.encode methodsFile)).IsReadable := by
    rintro _ ⟨⟩
    refine ⟨methodsFile, rfl, fun n hlong => absurd hlong.length_lt ?_⟩
    decide
  have hok : load "/work" "proj" {} (fun _ => .contents (Utf8.encode methodsFile)) =
      .ok { sourceDir := "/work/proj", forcedMethods := ⟨[("Util.pick", ["Integer"])]⟩ } := by
    have hdecode : Utf8.decode (Utf8.encode methodsFile) = .ok methodsFile :=
      Utf8.decode_eq_ok_iff.mpr rfl
    have hbreaks : methodsFile.unifyNewlines = methodsFile :=
      Utf8.unifyNewlines_of_not_mem (by decide)
    simp only [load, applyFile, hdecode, hbreaks, parse_methodsFile]
    rfl
  obtain h | ⟨⟨cause, herror⟩, -⟩ := (load_answers_iff "/work" "proj" {}
    fun _ => .contents (Utf8.encode methodsFile)).mpr hreadable
  · exact h
  · rw [hok] at herror
    cases herror

theorem isInteger_ones {n : Nat} (hn : n ≠ 0) : Json.IsInteger (List.replicate n '1') := by
  refine .positive ⟨by simpa using hn, by simp, fun hzero => ?_⟩
  rw [List.head?_replicate, if_neg hn] at hzero
  cases hzero

theorem load_ones (cwd dir : Text) (flags : Flags) {n : Nat} (hn : Json.maxDigits < n) :
    load cwd dir flags (fun _ => .contents (Utf8.encode (List.replicate n '1'))) =
      .error (.oversizedInteger n) := by
  have hdecode : Utf8.decode (Utf8.encode (List.replicate n '1')) = .ok (List.replicate n '1') :=
    Utf8.decode_eq_ok_iff.mpr rfl
  have hcount : (List.replicate n '1').countP Char.isDigit = n := by
    rw [List.countP_replicate]
    rfl
  have hbreaks : Text.unifyNewlines (List.replicate n '1') = List.replicate n '1' :=
    Utf8.unifyNewlines_of_not_mem (by simp)
  have hlong := Json.hasLongInteger_of_isInteger
    (isInteger_ones (Nat.ne_of_gt (Nat.zero_lt_of_lt hn))) (hcount.symm ▸ hn)
  rw [hcount] at hlong
  simp only [load, applyFile, hdecode, hbreaks, Json.parse_eq_oversized_iff.mpr hlong]
  rfl

/-- An octet that begins no character, and an integer of 4301 digits. -/
theorem load_escapes :
    load "/work" "proj" {} (fun _ => .contents [0xFF]) =
      .error (.undecodable ⟨.invalidStart, 0, 1, 0xFF⟩) ∧
    load "/work" "proj" {} (fun _ => .contents (Utf8.encode (List.replicate 4301 '1'))) =
      .error (.oversizedInteger 4301) :=
  ⟨rfl, load_ones "/work" "proj" {} (by decide)⟩

end Configuration

end Monomorph
