import Monomorph.Proofs.JsonReaders

/-!
# Where an integer is too long

The reader gives up on an integer with too many digits when it meets one in the place of a value,
and what stands before it decides whether it does (`parse_eq_oversized_iff`). The reason is that the
readers are local: what they take they take before every other end, and where they miss a value they
come to any other text that stands there (`isLocal`).
-/

namespace Monomorph.Json

variable {c : Char} {a r s t w : Text} {ls : List Letter} {n : Nat} {e : Error}

-- ---------------------------------------------------------------------------
-- What a reader depends on
-- ---------------------------------------------------------------------------

/-- An error that a reader raises where it looks for a value and finds none that it takes. -/
def Error.AtValue : Error → Prop
  | .malformed cause _ => cause = .expectedValue
  | .oversized _ => True

theorem atValue_oversized (n : Nat) : (Error.oversized n).AtValue :=
  trivial

theorem atValue_expectedValue (place : Text) : (Error.malformed .expectedValue place).AtValue :=
  rfl

theorem not_atValue_malformed {cause : Cause} (h : cause ≠ .expectedValue) (place : Text) :
    ¬(Error.malformed cause place).AtValue :=
  h

/-- A text that does not close an array or an object. -/
def Opens (s : Text) : Prop :=
  ∀ c, isCloser c = true → (skipSpace s).head? ≠ some c

/-- What a reader takes from `s` it takes before every other end, and where it misses a value in `s` it
comes to any other text that stands there. -/
structure IsLocal {α : Type} (read : Text → Except Error (α × Text)) (ends : Text → Prop) (s : Text) :
    Prop where
  spells : ∀ x r, read s = .ok (x, r) → ends r →
    ∃ w, s = w ++ r ∧ ∀ r', ends r' → read (w ++ r') = .ok (x, r')
  leads : ∀ e, e.AtValue → read s = .error e →
    ∃ a t, s = a ++ t ∧ readPlain (skipSpace t) = .error e ∧
      ∀ t' e', Opens t' → takeValue t' = .error e' → read (a ++ t') = .error e'

theorem map_eq_ok_iff {α β : Type} {f : α → β} {x : Except Error α} {b : β} :
    x.map f = .ok b ↔ ∃ a, x = .ok a ∧ f a = b := by
  cases x <;> simp [Except.map]

theorem map_eq_error_iff {α β : Type} {f : α → β} {x : Except Error α} :
    x.map f = .error e ↔ x = .error e := by
  cases x <;> simp [Except.map]

namespace IsLocal

variable {α β : Type} {x : α} {read : Text → Except Error (α × Text)} {ends : Text → Prop}

theorem of_error (h : read s = .error e) (he : ¬e.AtValue) : IsLocal read ends s := by
  refine ⟨fun x r hread _ => ?_, fun e' he' hread => ?_⟩
  · rw [h] at hread
    cases hread
  · rw [h] at hread
    cases hread
    exact absurd he' he

theorem of_ok (h : ∀ r', read (w ++ r') = .ok (x, r')) : IsLocal read ends (w ++ r) := by
  refine ⟨fun y u hread _ => ?_, fun e _ hread => ?_⟩
  · rw [h r] at hread
    cases hread
    exact ⟨w, rfl, fun r' _ => h r'⟩
  · rw [h r] at hread
    cases hread

/-- A reader that leaves to another one what stands behind `w`. -/
theorem of_append {inner : Text → Except Error (β × Text)} {stops : Text → Prop} {f : β → α}
    (hinner : IsLocal inner stops t) (hends : ∀ r, ends r → stops r)
    (h : read (w ++ t) = (inner t).map fun p => (f p.1, p.2))
    (hok : ∀ t' y r, inner t' = .ok (y, r) → read (w ++ t') = .ok (f y, r))
    (herror : ∀ a u t' e, t = a ++ u → Opens t' → inner (a ++ t') = .error e →
      read (w ++ (a ++ t')) = .error e) : IsLocal read ends (w ++ t) := by
  refine ⟨fun x r hread hr => ?_, fun e he hread => ?_⟩
  · obtain ⟨⟨y, r⟩, hy, ⟨⟩⟩ := map_eq_ok_iff.mp (h ▸ hread)
    obtain ⟨z, rfl, hz⟩ := hinner.spells y r hy (hends r hr)
    refine ⟨w ++ z, (List.append_assoc ..).symm, fun r' hr' => ?_⟩
    rw [List.append_assoc]
    exact hok _ _ _ (hz r' (hends r' hr'))
  · rw [h, map_eq_error_iff] at hread
    obtain ⟨a, u, rfl, hu, ha⟩ := hinner.leads e he hread
    refine ⟨w ++ a, u, (List.append_assoc ..).symm, hu, fun t' e' hopens ht' => ?_⟩
    rw [List.append_assoc]
    exact herror a u t' e' rfl hopens (ha t' e' hopens ht')

theorem of_map {inner : Text → Except Error (β × Text)} {f : β → α} (hinner : IsLocal inner ends t)
    (h : ∀ t', read (w ++ t') = (inner t').map fun p => (f p.1, p.2)) : IsLocal read ends (w ++ t) := by
  refine hinner.of_append (fun _ => id) (h t) (fun t' y r hy => ?_) fun a u t' e _ _ he => ?_
  · rw [h, hy]
    rfl
  · rw [h, he]
    rfl

theorem delimited (h : IsLocal read EndsValue s) (hread : read s = .ok (x, r))
    (hr : skipSpace r = c :: t) (hc : isDelimiter c = true) :
    ∃ w, s = w ++ c :: t ∧ ∀ t', ∃ r', read (w ++ c :: t') = .ok (x, r') ∧ skipSpace r' = c :: t' := by
  obtain ⟨w, rfl, hw⟩ := h.spells x r hread (endsValue_of_skipSpace hr hc)
  obtain ⟨y, rfl, hy⟩ := exists_spaces hr
  refine ⟨w ++ y, (List.append_assoc ..).symm, fun t' => ⟨y ++ c :: t', ?_, hy t'⟩⟩
  rw [List.append_assoc]
  exact hw _ (endsValue_of_skipSpace (hy t') hc)

end IsLocal

theorem IsSequence.isLocal {α : Type} {closing : Char} {member : Text → Except Error (α × Text)}
    {read : Text → Except Error (List α × Text)} (h : IsSequence closing member read)
    (hclosing : isDelimiter closing = true) (hmember : IsLocal member EndsValue s)
    (ih : ∀ t, t.length < s.length → IsLocal read (fun _ => True) t) :
    IsLocal read (fun _ => True) s := by
  cases hx : member s with
  | error e =>
    -- The list fails where its member does.
    refine ⟨fun xs r hread _ => ?_, fun e' he hread => ?_⟩
    · rw [h.error hx] at hread
      cases hread
    · rw [h.error hx] at hread
      cases hread
      obtain ⟨a, t, rfl, ht, ha⟩ := hmember.leads e he hx
      exact ⟨a, t, rfl, ht, fun t' e' hopens ht' => h.error (ha t' e' hopens ht')⟩
  | ok p =>
    obtain ⟨x, r⟩ := p
    by_cases hlast : (skipSpace r).head? = some closing
    · obtain ⟨t, ht⟩ := List.head?_eq_some_iff.mp hlast
      obtain ⟨w, rfl, hw⟩ := hmember.delimited hx ht hclosing
      rw [List.append_cons]
      refine .of_ok (x := [x]) fun t' => ?_
      obtain ⟨r', hx', hr'⟩ := hw t'
      rw [← List.append_cons]
      exact h.last hx' hr'
    · by_cases hmore : (skipSpace r).head? = some ','
      · obtain ⟨t, ht⟩ := List.head?_eq_some_iff.mp hmore
        obtain ⟨w, rfl, hw⟩ := hmember.delimited hx ht rfl
        rw [List.append_cons]
        refine (ih t (by simp; omega)).of_map (f := (x :: ·)) fun t' => ?_
        obtain ⟨r', hx', hr'⟩ := hw t'
        rw [← List.append_cons]
        exact h.more hx' hr'
      · exact .of_error (h.other hx hlast hmore) (not_atValue_malformed (by decide) _)

theorem IsBracketed.isLocal {α : Type} {opening closing : Char} {wrap : List α → Json}
    {read : Text → Except Error (List α × Text)} (h : IsBracketed opening closing wrap read)
    (hopened : ∀ {t p}, read t = .ok p → (skipSpace t).head? ≠ some closing)
    (hs : skipSpace s = opening :: r) (hr : IsLocal read (fun _ => True) r) :
    IsLocal takeValue EndsValue s := by
  obtain ⟨x, rfl, hx⟩ := exists_spaces hs
  by_cases hclosed : (skipSpace r).head? = some closing
  · obtain ⟨t, ht⟩ := List.head?_eq_some_iff.mp hclosed
    obtain ⟨y, rfl, hy⟩ := exists_spaces ht
    have happend (t' : Text) : x ++ opening :: (y ++ closing :: t') =
        x ++ opening :: (y ++ [closing]) ++ t' := by simp
    rw [happend]
    refine .of_ok (x := wrap []) fun t' => ?_
    rw [← happend]
    exact h.empty (hx _) (hy _)
  · -- A list that is not empty stays so: its first member begins in `a`, or with a text that opens.
    rw [List.append_cons]
    refine hr.of_append (f := wrap) (fun _ _ => trivial) ?_ (fun t' vs u hvs => ?_)
      fun a u t' e ha hopens he => ?_
    · rw [← List.append_cons, h.filled hs hclosed]
    · rw [← List.append_cons, h.filled (hx _) (hopened hvs), hvs]
      rfl
    · subst ha
      have hclosed' := head_skipSpace_append hclosed (hopens closing h.closer)
      rw [← List.append_cons, h.filled (hx _) hclosed', he]
      rfl

theorem head_of_takeItems {p : List Json × Text} (h : takeItems s = .ok p) :
    (skipSpace s).head? ≠ some ']' := by
  intro hhead
  obtain ⟨r, hr⟩ := List.head?_eq_some_iff.mp hhead
  have hvalue : takeValue s = .error (.malformed .expectedValue (']' :: r)) := by
    rw [takeValue_plain, hr]
    · rfl
    all_goals simp [hr]
  rw [isSequence_items.error hvalue] at h
  cases h

theorem head_of_takeFields {p : List (List Letter × Json) × Text} (h : takeFields s = .ok p) :
    (skipSpace s).head? ≠ some '\x7d' := by
  intro hhead
  obtain ⟨r, hr⟩ := List.head?_eq_some_iff.mp hhead
  have hfield : takeField s = .error (.malformed .expectedName ('\x7d' :: r)) := by
    unfold takeField takeName
    rw [hr]
    rfl
  rw [isSequence_fields.error hfield] at h
  cases h

theorem not_atValue_of_readUnit {place : Text} (h : readUnit place s = .error e) : ¬e.AtValue := by
  unfold readUnit at h
  repeat' split at h
  all_goals cases h
  all_goals exact not_atValue_malformed (by decide) _

theorem not_atValue_of_takeString {start : Text} (h : takeString start s = .error e) :
    ¬e.AtValue := by
  rw [takeString_eq_error_iff] at h
  fun_induction readString start s with
  | case4 r e' hunit =>
    cases h
    exact not_atValue_of_readUnit hunit
  | case5 r l n hunit e' hread ih =>
    cases h
    exact ih hread
  | case8 c r hc d hd e' hread ih =>
    cases h
    exact ih hread
  | case11 c r _ _ _ _ hc e' hread ih =>
    cases h
    exact ih hread
  | case2 | case6 | case9 | case12 => cases h
  | _ =>
    cases h
    exact not_atValue_malformed (by decide) _

theorem not_atValue_of_takeName (h : takeName s = .error e) : ¬e.AtValue := by
  unfold takeName at h
  split at h
  · split at h
    · rename_i hstring
      cases h
      exact not_atValue_of_takeString hstring
    · split at h
      · cases h
      · cases h
        exact not_atValue_malformed (by decide) _
  · cases h
    exact not_atValue_malformed (by decide) _

theorem exists_name (h : takeName s = .ok (ls, t)) :
    ∃ w, w ≠ [] ∧ s = w ++ t ∧ ∀ t', takeName (w ++ t') = .ok (ls, t') := by
  obtain ⟨q, r, hq, hstring, hcolon⟩ := takeName_eq_ok_iff.mp h
  obtain ⟨w, rfl, hw⟩ := exists_spellsString hstring
  obtain ⟨x, rfl, hx⟩ := exists_spaces hq
  obtain ⟨y, rfl, hy⟩ := exists_spaces hcolon
  refine ⟨x ++ '"' :: (w ++ (y ++ [':'])), by simp, by simp, fun t' => ?_⟩
  have happend : x ++ '"' :: (w ++ (y ++ [':'])) ++ t' = x ++ '"' :: (w ++ (y ++ ':' :: t')) := by
    simp
  rw [happend]
  exact takeName_eq_ok_iff.mpr ⟨_, _, hx _, hw _ _, hy t'⟩

theorem isLocal_takeField (ih : ∀ t, t.length < s.length → IsLocal takeValue EndsValue t) :
    IsLocal takeField EndsValue s := by
  cases hname : takeName s with
  | error e =>
    have herror : takeField s = .error e := by simp only [takeField, hname]
    exact .of_error herror (not_atValue_of_takeName hname)
  | ok p =>
    obtain ⟨ls, t⟩ := p
    obtain ⟨w, hne, rfl, hw⟩ := exists_name hname
    have hlength := List.length_pos_iff.mpr hne
    refine (ih t (by rw [List.length_append]; omega)).of_map (f := (ls, ·)) fun t' => ?_
    simp only [takeField, hw]

theorem isLocal_string (h : skipSpace s = '"' :: r) : IsLocal takeValue EndsValue s := by
  cases hstring : takeString ('"' :: r) r with
  | error e =>
    refine .of_error (e := e) ?_ (not_atValue_of_takeString hstring)
    rw [takeValue_string h, hstring]
    rfl
  | ok p =>
    obtain ⟨w, hw, hspells⟩ := exists_spellsString hstring
    obtain ⟨x, rfl, hx⟩ := exists_spaces h
    rw [hw, List.append_cons, ← List.append_assoc]
    refine .of_ok (x := .string p.1) fun t' => ?_
    rw [List.append_assoc, ← List.append_cons, takeValue_string (hx _), hspells]
    rfl

theorem isLocal_plain (hstring : (skipSpace s).head? ≠ some '"')
    (harray : (skipSpace s).head? ≠ some '[') (hobject : (skipSpace s).head? ≠ some '\x7b') :
    IsLocal takeValue EndsValue s := by
  refine ⟨fun v r hread hr => ?_, fun e he hread => ?_⟩
  · rw [takeValue_plain hstring harray hobject] at hread
    obtain ⟨w, hs, hw⟩ := exists_plain hread hr
    cases w with
    | nil =>
      have hlt := length_lt_of_readPlain hread
      rw [hs] at hlt
      exact absurd hlt (Nat.lt_irrefl _)
    | cons c w =>
      obtain ⟨x, rfl, hx⟩ := exists_spaces hs
      refine ⟨x ++ c :: w, by simp, fun r' hr' => ?_⟩
      rw [hs] at hstring harray hobject
      rw [List.append_assoc, List.cons_append, takeValue_plain, hx]
      · exact hw r' hr'
      all_goals
        rw [hx]
        assumption
  · rw [takeValue_plain hstring harray hobject] at hread
    exact ⟨[], s, rfl, hread, fun t' e' _ ht' => ht'⟩

theorem isLocal_takeValue (hitems : ∀ t, t.length < s.length → IsLocal takeItems (fun _ => True) t)
    (hfields : ∀ t, t.length < s.length → IsLocal takeFields (fun _ => True) t) :
    IsLocal takeValue EndsValue s := by
  have hlength {c : Char} {r : Text} (h : skipSpace s = c :: r) : r.length < s.length := by
    have hle := length_skipSpace_le s
    rw [h, List.length_cons] at hle
    omega
  by_cases hstring : (skipSpace s).head? = some '"'
  · obtain ⟨r, hr⟩ := List.head?_eq_some_iff.mp hstring
    exact isLocal_string hr
  · by_cases harray : (skipSpace s).head? = some '['
    · obtain ⟨r, hr⟩ := List.head?_eq_some_iff.mp harray
      exact isBracketed_array.isLocal head_of_takeItems hr (hitems r (hlength hr))
    · by_cases hobject : (skipSpace s).head? = some '\x7b'
      · obtain ⟨r, hr⟩ := List.head?_eq_some_iff.mp hobject
        exact isBracketed_object.isLocal head_of_takeFields hr (hfields r (hlength hr))
      · exact isLocal_plain hstring harray hobject

theorem isLocal (s : Text) : IsLocal takeValue EndsValue s ∧ IsLocal takeItems (fun _ => True) s ∧
    IsLocal takeFields (fun _ => True) s := by
  -- On the length: what stands behind a bracket, a name or a comma is shorter than `s`.
  have hvalue := isLocal_takeValue (s := s) (fun t _ => (isLocal t).2.1) fun t _ => (isLocal t).2.2
  have hfield := isLocal_takeField (s := s) fun t _ => (isLocal t).1
  exact ⟨hvalue, isSequence_items.isLocal rfl hvalue fun t _ => (isLocal t).2.1,
    isSequence_fields.isLocal rfl hfield fun t _ => (isLocal t).2.2⟩
termination_by s.length

-- ---------------------------------------------------------------------------
-- The whole text
-- ---------------------------------------------------------------------------

theorem parse_eq_error_iff (he : e.AtValue) : parse s = .error e ↔
    s.head? ≠ some '\ufeff' ∧ takeValue s = .error e := by
  unfold parse takeValue
  split
  · rename_i hmark
    refine ⟨fun h => ?_, fun h => absurd hmark h.1⟩
    cases h
    cases he
  · rename_i hmark
    cases readValue (skipSpace s) with
    | error e' => simp [hmark, Except.map]
    | ok p =>
      simp only [map_ok]
      refine ⟨fun h => ?_, fun h => nomatch h.2⟩
      split at h
      · cases h
      · cases h
        cases he

theorem readNumber_of_readPlain (h : readPlain s = .error e) : readNumber s = .error e := by
  unfold readPlain at h
  split at h
  · cases h
  · exact h

theorem eq_nil_of_readPlain (h : readPlain s = .error (.malformed .expectedValue [])) : s = [] := by
  have hnumber := readNumber_of_readPlain h
  obtain hnone | ⟨w, t, rfl, -, hwhole, -⟩ := readNumber_cases s
  · rw [hnone] at hnumber
    cases hnumber
    rfl
  · rw [readNumber_of_whole hwhole] at hnumber
    split at hnumber <;> cases hnumber

theorem takeValue_of_skipSpace_eq_nil (h : skipSpace s = []) :
    takeValue s = .error (.malformed .expectedValue []) := by
  rw [takeValue_plain, h]
  · rfl
  all_goals simp [h]

theorem IsInteger.head_ne (h : IsInteger w) (hminus : c ≠ '-') (hc : c.isDigit = false) (r : Text) :
    (w ++ r).head? ≠ some c := by
  cases h with
  | positive h => exact h.head?_ne hc r
  | negative h =>
    rintro ⟨⟩
    exact hminus rfl

theorem IsInteger.skipSpace_append (h : IsInteger w) (r : Text) : skipSpace (w ++ r) = w ++ r := by
  cases hw : w ++ r with
  | nil => rfl
  | cons c t =>
    have hne {d : Char} (hminus : d ≠ '-') (hd : d.isDigit = false) : c ≠ d := by
      rintro rfl
      exact h.head_ne hminus hd r (hw ▸ rfl)
    have hspace : isSpace c = false := by
      simp only [isSpace, Bool.or_eq_false_iff, beq_eq_false_iff_ne]
      exact ⟨⟨⟨hne (by decide) rfl, hne (by decide) rfl⟩, hne (by decide) rfl⟩, hne (by decide) rfl⟩
    exact List.dropWhile_cons_of_neg (by simp [hspace])

theorem takeValue_integer (hw : IsInteger w) (hr : EndsInteger r)
    (hlong : maxDigits < w.countP Char.isDigit) (ht : skipSpace t = []) :
    takeValue (t ++ (w ++ r)) = .error (.oversized (w.countP Char.isDigit)) ∧
      Opens (t ++ (w ++ r)) := by
  have hskip : skipSpace (t ++ (w ++ r)) = w ++ r := by
    rw [skipSpace_append, ht]
    exact hw.skipSpace_append r
  have hhead {c : Char} (hminus : c ≠ '-') (hc : c.isDigit = false) :
      (skipSpace (t ++ (w ++ r))).head? ≠ some c := by
    rw [hskip]
    exact hw.head_ne hminus hc r
  constructor
  · rw [takeValue_plain (hhead (by decide) rfl) (hhead (by decide) rfl) (hhead (by decide) rfl), hskip,
      readPlain_integer hw]
    exact readNumber_eq_oversized_iff.mpr ⟨w, r, rfl, hw, hr, rfl, hlong⟩
  · intro c hc
    obtain rfl | rfl : c = ']' ∨ c = '\x7d' := by simpa [isCloser] using hc
    · exact hhead (by decide) rfl
    · exact hhead (by decide) rfl

/-- An integer with `n` digits, more than `maxDigits`, stands in the place of a value: what stands
before it is refused, and only because it has no value at its end. -/
def HasLongInteger (s : Text) (n : Nat) : Prop :=
  ∃ a w r, s = a ++ (w ++ r) ∧ IsInteger w ∧ EndsInteger r ∧ w.countP Char.isDigit = n ∧
    maxDigits < n ∧ parse a = .error (.malformed .expectedValue [])

theorem parse_eq_oversized_iff : parse s = .error (.oversized n) ↔ HasLongInteger s n := by
  rw [parse_eq_error_iff (atValue_oversized n)]
  constructor
  · rintro ⟨hmark, hvalue⟩
    obtain ⟨a, t, rfl, ht, ha⟩ := (isLocal s).1.leads _ (atValue_oversized n) hvalue
    obtain ⟨w, r, hskip, hw, hr, hn, hlong⟩ :=
      readNumber_eq_oversized_iff.mp (readNumber_of_readPlain ht)
    -- The spaces in front of the integer belong to what stands before it.
    obtain ⟨x, hx, hspaces⟩ := exists_skipped t
    rw [hskip] at hx
    subst hx
    refine ⟨a ++ x, w, r, by simp, hw, hr, hn, hlong, ?_⟩
    rw [parse_eq_error_iff (atValue_expectedValue [])]
    constructor
    · intro hhead
      rw [← List.append_assoc, List.head?_append, hhead] at hmark
      exact hmark rfl
    · refine ha x _ ?_ (takeValue_of_skipSpace_eq_nil hspaces)
      intro c _
      rw [hspaces]
      exact nofun
  · rintro ⟨a, w, r, rfl, hw, hr, rfl, hlong, ha⟩
    rw [parse_eq_error_iff (atValue_expectedValue [])] at ha
    obtain ⟨hmark, hvalue⟩ := ha
    obtain ⟨a, t, rfl, ht, hleads⟩ := (isLocal a).1.leads _ (atValue_expectedValue []) hvalue
    obtain ⟨hlongValue, hopens⟩ := takeValue_integer hw hr hlong (eq_nil_of_readPlain ht)
    constructor
    · rw [List.head?_append]
      cases hhead : (a ++ t).head? with
      | none => exact hw.head_ne (by decide) (by decide) r
      | some c =>
        rw [hhead] at hmark
        exact hmark
    · rw [List.append_assoc]
      exact hleads _ _ hopens hlongValue

theorem hasLongInteger_of_isInteger (hw : IsInteger w) (hlong : maxDigits < w.countP Char.isDigit) :
    HasLongInteger w (w.countP Char.isDigit) := by
  refine ⟨[], w, [], by simp, hw, ⟨rfl, ?_, ?_⟩, rfl, hlong, ?_⟩
  · exact fun x _ => List.prefix_nil.mp
  · exact fun x _ => List.prefix_nil.mp
  · rw [parse_eq_error_iff (atValue_expectedValue [])]
    exact ⟨nofun, takeValue_of_skipSpace_eq_nil rfl⟩

theorem HasLongInteger.length_lt (h : HasLongInteger s n) : maxDigits < s.length := by
  obtain ⟨a, w, r, rfl, -, -, rfl, hlong, -⟩ := h
  have hle := List.countP_le_length (p := Char.isDigit) (l := w)
  simp only [List.length_append]
  omega

end Monomorph.Json
