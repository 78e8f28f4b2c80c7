import Monomorph.Proofs.JsonNumbers
import Monomorph.Proofs.JsonStrings

/-!
# The readers of JSON

The readers of values, items and fields, with the spaces in front of what they read and without the
bounds on what they leave. Arrays and objects are read alike: members in commas (`IsSequence`)
between two brackets (`IsBracketed`).
-/

namespace Monomorph.Json

variable {c : Char} {a r s t w : Text} {ls : List Letter} {v : Json} {e : Error}

-- ---------------------------------------------------------------------------
-- The readers, from the spaces in front
-- ---------------------------------------------------------------------------

theorem map_ok {α β : Type} (f : α → β) (x : α) : (Except.ok x : Except Error α).map f = .ok (f x) :=
  rfl

/-- Reads a value from the spaces in front of it: the value, and what follows it. -/
def takeValue (s : Text) : Except Error (Json × Text) :=
  (readValue (skipSpace s)).map fun p => (p.1, p.2.1)

def takeItems (s : Text) : Except Error (List Json × Text) :=
  (readItems (skipSpace s)).map fun p => (p.1, p.2.1)

def takeFields (s : Text) : Except Error (List (List Letter × Json) × Text) :=
  (readFields (skipSpace s)).map fun p => (p.1, p.2.1)

def isCloser (c : Char) : Bool :=
  c == ']' || c == '\x7d'

theorem takeValue_string (h : skipSpace s = '"' :: r) :
    takeValue s = (takeString ('"' :: r) r).map fun p => (.string p.1, p.2) := by
  unfold takeValue takeString
  rw [h, readValue]
  cases readString ('"' :: r) r <;> rfl

theorem takeValue_plain (hstring : (skipSpace s).head? ≠ some '"')
    (harray : (skipSpace s).head? ≠ some '[') (hobject : (skipSpace s).head? ≠ some '\x7b') :
    takeValue s = readPlain (skipSpace s) := by
  unfold takeValue
  generalize skipSpace s = t at *
  rw [readValue]
  · cases h : readPlain t with
    | error e => rfl
    | ok p =>
      simp only [shorter, dif_pos (length_lt_of_readPlain h)]
      rfl
  · rintro r rfl
    exact hstring rfl
  · rintro r rfl
    exact harray rfl
  · rintro r rfl
    exact hobject rfl

/-- An opening bracket, items in commas and a closing bracket are a value. -/
structure IsBracketed {α : Type} (opening closing : Char) (wrap : List α → Json)
    (read : Text → Except Error (List α × Text)) : Prop where
  closer : isCloser closing = true
  empty {s r t : Text} : skipSpace s = opening :: r → skipSpace r = closing :: t →
    takeValue s = .ok (wrap [], t)
  filled {s r : Text} : skipSpace s = opening :: r → (skipSpace r).head? ≠ some closing →
    takeValue s = (read r).map fun p => (wrap p.1, p.2)

theorem isBracketed_array : IsBracketed '[' ']' .array takeItems where
  closer := rfl
  empty {s r t} h hr := by
    unfold takeValue
    rw [h, readValue]
    split
    · rename_i heq
      rw [hr] at heq
      cases heq
      rfl
    · rename_i hne
      exact absurd hr (hne _)
  filled {s r} h hr := by
    unfold takeValue takeItems
    rw [h, readValue]
    split
    · rename_i heq
      exact absurd (heq ▸ rfl) hr
    · cases readItems (skipSpace r) <;> rfl

theorem isBracketed_object :
    IsBracketed '\x7b' '\x7d' (fun fs => .object (Table.ofList fs).entries) takeFields where
  closer := rfl
  empty {s r t} h hr := by
    unfold takeValue
    rw [h, readValue]
    split
    · rename_i heq
      rw [hr] at heq
      cases heq
      rfl
    · rename_i hne
      exact absurd hr (hne _)
  filled {s r} h hr := by
    unfold takeValue takeFields
    rw [h, readValue]
    split
    · rename_i heq
      exact absurd (heq ▸ rfl) hr
    · cases readFields (skipSpace r) <;> rfl

def takeName (s : Text) : Except Error (List Letter × Text) :=
  match skipSpace s with
  | '"' :: q =>
    match takeString ('"' :: q) q with
    | .error e => .error e
    | .ok (name, r) =>
      match skipSpace r with
      | ':' :: t => .ok (name, t)
      | t => .error (.malformed .expectedColon t)
  | t => .error (.malformed .expectedName t)

theorem takeName_eq_ok_iff : takeName s = .ok (ls, t) ↔
    ∃ q r, skipSpace s = '"' :: q ∧ takeString ('"' :: q) q = .ok (ls, r) ∧
      skipSpace r = ':' :: t := by
  constructor
  · intro h
    unfold takeName at h
    split at h
    · rename_i q hq
      split at h
      · cases h
      · rename_i r hr
        split at h
        · rename_i ht
          cases h
          exact ⟨q, r, hq, hr, ht⟩
        · cases h
    · cases h
  · rintro ⟨q, r, hq, hr, ht⟩
    simp only [takeName, hq, hr, ht]

def takeField (s : Text) : Except Error ((List Letter × Json) × Text) :=
  match takeName s with
  | .error e => .error e
  | .ok (name, t) => (takeValue t).map fun p => ((name, p.1), p.2)

/-- The members of an array or an object through its closing bracket. -/
structure IsSequence {α : Type} (closing : Char) (member : Text → Except Error (α × Text))
    (read : Text → Except Error (List α × Text)) : Prop where
  error {s : Text} {e : Error} : member s = .error e → read s = .error e
  last {s r t : Text} {x : α} : member s = .ok (x, r) → skipSpace r = closing :: t →
    read s = .ok ([x], t)
  more {s r t : Text} {x : α} : member s = .ok (x, r) → skipSpace r = ',' :: t →
    read s = (read t).map fun p => (x :: p.1, p.2)
  other {s r : Text} {x : α} : member s = .ok (x, r) → (skipSpace r).head? ≠ some closing →
    (skipSpace r).head? ≠ some ',' → read s = .error (.malformed .expectedComma (skipSpace r))

theorem takeItems_eq (s : Text) : takeItems s =
    match takeValue s with
    | .error e => .error e
    | .ok (v, r) =>
      match skipSpace r with
      | ']' :: t => .ok ([v], t)
      | ',' :: t => (takeItems t).map fun p => (v :: p.1, p.2)
      | t => .error (.malformed .expectedComma t) := by
  unfold takeItems takeValue
  rw [readItems]
  cases readValue (skipSpace s) with
  | error e => rfl
  | ok p =>
    simp only [map_ok]
    split
    · rename_i heq
      simp only [heq]
      rfl
    · rename_i t heq
      simp only [heq]
      cases readItems (skipSpace t) <;> rfl
    · rename_i hlast hmore
      split
      · exact absurd ‹_› (hlast _)
      · exact absurd ‹_› (hmore _)
      · rfl

theorem isSequence_items : IsSequence ']' takeValue takeItems where
  error h := by simp only [takeItems_eq, h]
  last h hr := by simp only [takeItems_eq, h, hr]
  more {s r t v} h hr := by rw [takeItems_eq s]; simp only [h, hr]
  other {s r v} h hlast hmore := by
    rw [takeItems_eq s]
    simp only [h]
    split
    · simp_all
    · simp_all
    · rfl

theorem takeFields_of_name_error (h : takeName s = .error e) : takeFields s = .error e := by
  unfold takeName at h
  unfold takeFields
  split at h
  · rename_i q hq
    rw [hq, readFields]
    split at h
    · rename_i hstring
      cases h
      rw [takeString_eq_error_iff.mp hstring]
      rfl
    · rename_i r hstring
      obtain ⟨_, hread⟩ := readString_of_takeString hstring
      split at h
      · cases h
      · rename_i hcolon
        cases h
        rw [hread]
        simp only
        rfl
  · rename_i hquote
    cases h
    rw [readFields]
    · rfl
    · exact hquote

theorem takeFields_of_name (h : takeName s = .ok (ls, t)) : takeFields s =
    match takeValue t with
    | .error e => .error e
    | .ok (v, r) =>
      match skipSpace r with
      | '\x7d' :: u => .ok ([(ls, v)], u)
      | ',' :: u => (takeFields u).map fun p => ((ls, v) :: p.1, p.2)
      | u => .error (.malformed .expectedComma u) := by
  obtain ⟨q, r, hq, hstring, hcolon⟩ := takeName_eq_ok_iff.mp h
  obtain ⟨_, hread⟩ := readString_of_takeString hstring
  unfold takeFields takeValue
  rw [hq, readFields, hread]
  simp only
  split
  · rename_i heq
    rw [hcolon] at heq
    cases heq
    cases readValue (skipSpace t) with
    | error e => rfl
    | ok p =>
      simp only [map_ok]
      split
      · rename_i heq
        simp only [heq]
        rfl
      · rename_i w heq
        simp only [heq]
        cases readFields (skipSpace w) <;> rfl
      · rename_i hlast hmore
        split
        · exact absurd ‹_› (hlast _)
        · exact absurd ‹_› (hmore _)
        · rfl
  · rename_i hne
    exact absurd hcolon (hne _)

theorem takeFields_eq (s : Text) : takeFields s =
    match takeField s with
    | .error e => .error e
    | .ok (f, r) =>
      match skipSpace r with
      | '\x7d' :: t => .ok ([f], t)
      | ',' :: t => (takeFields t).map fun p => (f :: p.1, p.2)
      | t => .error (.malformed .expectedComma t) := by
  unfold takeField
  cases h : takeName s with
  | error e => exact takeFields_of_name_error h
  | ok p =>
    rw [takeFields_of_name h]
    simp only
    cases takeValue p.2 <;> rfl

theorem isSequence_fields : IsSequence '\x7d' takeField takeFields where
  error h := by simp only [takeFields_eq, h]
  last h hr := by simp only [takeFields_eq, h, hr]
  more {s r t v} h hr := by rw [takeFields_eq s]; simp only [h, hr]
  other {s r v} h hlast hmore := by
    rw [takeFields_eq s]
    simp only [h]
    split
    · simp_all
    · simp_all
    · rfl

-- ---------------------------------------------------------------------------
-- Spaces
-- ---------------------------------------------------------------------------

theorem skipSpace_append (a t : Text) :
    skipSpace (a ++ t) = if (skipSpace a).isEmpty then skipSpace t else skipSpace a ++ t :=
  List.dropWhile_append

theorem exists_skipped (s : Text) : ∃ x, s = x ++ skipSpace s ∧ skipSpace x = [] := by
  refine ⟨s.takeWhile isSpace, List.takeWhile_append_dropWhile.symm, ?_⟩
  have hrun := Text.dropWhile_run (p := isSpace) (s := []) (List.all_takeWhile (l := s)) rfl
  rwa [List.append_nil] at hrun

theorem exists_spaces (h : skipSpace s = c :: r) :
    ∃ x, s = x ++ c :: r ∧ ∀ r', skipSpace (x ++ c :: r') = c :: r' := by
  have hc : isSpace c = false := by
    have hhead := Text.head_dropWhile isSpace s
    rw [← skipSpace, h] at hhead
    exact hhead
  refine ⟨s.takeWhile isSpace, ?_, fun r' => ?_⟩
  · rw [← h]
    exact List.takeWhile_append_dropWhile.symm
  · exact Text.dropWhile_run List.all_takeWhile hc

theorem endsValue_of_skipSpace (h : skipSpace s = c :: r) (hc : isDelimiter c = true) :
    EndsValue s := by
  cases s with
  | nil => cases h
  | cons d s =>
    by_cases hd : isSpace d = true
    · simp [EndsValue, isDelimiter, hd]
    · rw [skipSpace, List.dropWhile_cons_of_neg hd] at h
      cases h
      exact hc

theorem head_skipSpace_append {t' : Text} (h : (skipSpace (a ++ t)).head? ≠ some c)
    (ht' : (skipSpace t').head? ≠ some c) : (skipSpace (a ++ t')).head? ≠ some c := by
  rw [skipSpace_append] at h ⊢
  cases hspace : skipSpace a with
  | nil => exact ht'
  | cons d x =>
    rw [hspace] at h
    exact h

-- ---------------------------------------------------------------------------
-- Values with one member
-- ---------------------------------------------------------------------------

/-- Every character of a text stands for itself in a string. -/
def IsPlain (w : Text) : Prop :=
  ∀ c ∈ w, c ≠ '"' ∧ c ≠ '\\' ∧ ¬c.toNat < 0x20

instance : DecidablePred IsPlain :=
  List.decidableBAll fun c => c ≠ '"' ∧ c ≠ '\\' ∧ ¬c.toNat < 0x20

theorem spellsString_plain (h : IsPlain w) : SpellsString (w ++ ['"']) (w.map .char) := by
  induction w with
  | nil => exact takeString_quote
  | cons c w ih =>
    obtain ⟨⟨hquote, hslash, hc⟩, hw⟩ := List.forall_mem_cons.mp h
    exact SpellsString.cons (x := [c]) (ih hw) fun start r => takeString_char hquote hslash hc

theorem takeValue_spells (hw : SpellsString w ls) (r : Text) :
    takeValue ('"' :: (w ++ r)) = .ok (.string ls, r) := by
  rw [takeValue_string rfl, hw]
  rfl

theorem takeValue_item (hopen : (skipSpace t).head? ≠ some ']')
    (hv : takeValue t = .ok (v, ']' :: r)) : takeValue ('[' :: t) = .ok (.array [v], r) := by
  rw [isBracketed_array.filled rfl hopen, isSequence_items.last hv rfl]
  rfl

theorem takeValue_field (w : Text) (hw : IsPlain w) (hv : takeValue t = .ok (v, '\x7d' :: r)) :
    takeValue ('\x7b' :: '"' :: (w ++ ['"'] ++ ':' :: ' ' :: t)) =
      .ok (.object [(w.map .char, v)], r) := by
  have hname : takeName ('"' :: (w ++ ['"'] ++ ':' :: ' ' :: t)) = .ok (w.map .char, ' ' :: t) :=
    takeName_eq_ok_iff.mpr ⟨_, _, rfl, spellsString_plain hw _ _, rfl⟩
  have hspaced : takeValue (' ' :: t) = .ok (v, '\x7d' :: r) := hv
  rw [isBracketed_object.filled rfl (by simp [skipSpace, isSpace]), takeFields_of_name hname,
    hspaced]
  rfl

theorem parse_of_takeValue (hmark : s.head? ≠ some '\ufeff') (h : takeValue s = .ok (v, [])) :
    parse s = .ok v := by
  unfold takeValue at h
  rw [parse, if_neg hmark]
  cases hread : readValue (skipSpace s) with
  | error e =>
    rw [hread] at h
    cases h
  | ok p =>
    rw [hread, map_ok] at h
    obtain ⟨rfl, hrest⟩ := Prod.mk.inj (Except.ok.inj h)
    simp only [hrest]
    rfl

end Monomorph.Json
