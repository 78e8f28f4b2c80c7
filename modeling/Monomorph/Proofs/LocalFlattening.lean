import Monomorph.Instance
import Monomorph.Proofs.ReplacementLaws
import Monomorph.Proofs.UsagePlaces

/-!
# Flattening part by part

A semicolon in code divides a text. The usages of the whole are those of the parts, but each is
replaced wherever its literal stands. A usage whose bracket reads like a comparison is found only
inside another usage and replaced everywhere, so one part can change what becomes of the other.
Flattening goes part by part exactly when no such literal is found in one part only and stands in
the other (`Instance.flatten_append_iff`).
-/

namespace Monomorph

open Text

namespace Usage

-- ---------------------------------------------------------------------------
-- Rules for usages
-- ---------------------------------------------------------------------------

/-- Rules for usages, with one text for each to put in its place. -/
structure ForUsages (rules : List (Text × Text)) : Prop where
  isUsage : ∀ rule ∈ rules, ∃ e, IsUsage rule.1 e
  singleValued : Table.SingleValued rules

variable {R Q : List (Text × Text)} {rule : Text × Text} {joined : Bool} {a b s : Text} {c : Char}

/-- At most one rule fits, so the order of rules makes no difference. -/
theorem ForUsages.match?_iff (h : ForUsages R) :
    match? R s = some rule ↔ rule ∈ R ∧ rule.1 <+: s := by
  constructor
  · intro hm
    obtain ⟨hmem, -, t, ht⟩ := mem_of_match? hm
    exact ⟨hmem, t, ht.symm⟩
  · rintro ⟨hmem, hfit⟩
    obtain ⟨e, he⟩ := h.isUsage rule hmem
    cases hm : match? R s with
    | none =>
      have hhead := he.head
      have hnone := List.find?_eq_none.mp hm rule hmem
      cases hk : rule.1 with
      | nil =>
        rw [hk] at hhead
        cases hhead
      | cons d k =>
        rw [hk] at hfit
        simp [hk, hfit] at hnone
    | some found =>
      obtain ⟨hmem', -, t, ht⟩ := mem_of_match? hm
      obtain ⟨e', he'⟩ := h.isUsage found hmem'
      obtain ⟨hk, -⟩ := he'.eq_of_isPrefix he ⟨t, ht.symm⟩ hfit
      have hvalue : found.2 = rule.2 := h.singleValued rule.1 found.2 rule.2 (hk ▸ hmem') hmem
      rw [Prod.ext hk hvalue]

theorem ForUsages.plain (h : ForUsages R) (hmem : rule ∈ R) :
    ∀ c ∈ rule.1, opensInert c = false := by
  obtain ⟨e, he⟩ := h.isUsage rule hmem
  exact he.spells.not_opensInert

theorem ForUsages.getLast? (h : ForUsages R) (hmem : rule ∈ R) : rule.1.getLast? = some '>' := by
  obtain ⟨e, he⟩ := h.isUsage rule hmem
  exact he.getLast?

theorem ForUsages.replaceFrom_congr (hR : ForUsages R)
    (h : ∀ p ∈ places joined s, match? R p = match? Q p) :
    replaceFrom R joined s = replaceFrom Q joined s := by
  fun_induction replaceFrom R joined s with
  | case1 joined s r hi ih =>
    rw [places_inert hi] at h
    rw [replaceFrom_inert hi, ih h]
  | case2 joined hi => rw [replaceFrom_empty]
  | case3 joined c r hi rule hm ih =>
    obtain ⟨hc, rfl, hrule⟩ := rule_of_found hm
    have hhere : match? Q (c :: r) = some rule := by
      rw [← h (c :: r) (by rw [places_cons hi, hc]; exact List.mem_cons_self ..), hrule]
    obtain ⟨hmem, -, t, ht⟩ := mem_of_match? hrule
    rw [replaceFrom_put hc hhere, ih fun p hp => h p ?_]
    rw [ht, List.drop_left] at hp
    rw [ht]
    refine mem_places_append (hR.plain hmem) ?_
    rw [hR.getLast? hmem] at hp ⊢
    exact hp
  | case4 joined c r hi hm ih =>
    have hskip : (isNameStart c && !joined) = false ∨ match? Q (c :: r) = none := by
      by_cases hc : (isNameStart c && !joined) = true
      · have hnone := (no_rule_of_not_found hm).resolve_left (by simp [hc])
        rw [h (c :: r) (by rw [places_cons hi, if_pos hc]; exact List.mem_cons_self ..)] at hnone
        exact .inr hnone
      · exact .inl (Bool.eq_false_iff.mpr hc)
    rw [replaceFrom_skip hi hskip, ih fun p hp => h p ?_]
    rw [places_cons hi]
    split
    · exact List.mem_cons_of_mem _ hp
    · exact hp

theorem ForUsages.replaceFrom_perm (h : ForUsages R) (hQ : Q.Perm R) (joined : Bool) (s : Text) :
    replaceFrom Q joined s = replaceFrom R joined s := by
  have hsame : ForUsages Q :=
    ⟨fun rule hrule => h.isUsage rule (hQ.mem_iff.mp hrule),
      fun k v w hv hw => h.singleValued k v w (hQ.mem_iff.mp hv) (hQ.mem_iff.mp hw)⟩
  refine hsame.replaceFrom_congr fun p _ => Option.ext fun rule => ?_
  rw [hsame.match?_iff, h.match?_iff, hQ.mem_iff]

/-- Rules that put concrete names in place of usages. -/
def Renames (rules : List (Text × Text)) : Prop :=
  ∀ rule ∈ rules, ∃ e, IsUsage rule.1 e ∧ rule.2 = e.mangle

theorem Renames.forUsages (h : Renames R) : ForUsages R where
  isUsage rule hrule := (h rule hrule).imp fun _ he => he.1
  singleValued k v w hv hw := by
    obtain ⟨e, he, rfl⟩ := h (k, v) hv
    obtain ⟨f, hf, rfl⟩ := h (k, w) hw
    rw [he.spells.unique hf.spells]

theorem Renames.match?_iff (h : Renames R) :
    match? R s = some rule ↔ rule ∈ R ∧ rule.1 <+: s :=
  h.forUsages.match?_iff

theorem Renames.replaceFrom_literal (h : Renames R) (hmem : rule ∈ R) (s : Text) :
    replaceFrom R false (rule.1 ++ s) = rule.2 ++ replaceFrom R false s := by
  have hm : match? R (rule.1 ++ s) = some rule := h.match?_iff.mpr ⟨hmem, List.prefix_append ..⟩
  have hlast := h.forUsages.getLast? hmem
  obtain ⟨e, he, -⟩ := h rule hmem
  obtain ⟨n, gap, args, htext, -⟩ := he.exists_applied
  obtain ⟨d, r, hn, hd, -⟩ := isName_iff.mp n.2
  obtain ⟨t, ht⟩ : ∃ t, rule.1 = d :: t := ⟨_, by rw [← htext, Spelling.text, hn]; rfl⟩
  rw [ht, List.cons_append] at hm ⊢
  rw [replaceFrom_put hd hm, ← List.cons_append, ← ht, List.drop_left, hlast]
  rfl

-- ---------------------------------------------------------------------------
-- Replacement across a semicolon
-- ---------------------------------------------------------------------------

theorem replaceFrom_stretch {k : Bool} {t : Text} (h : afterStretch? (t ++ s) = some (k, s)) :
    replaceFrom R joined (t ++ s) = t ++ replaceFrom R false s := by
  obtain hi | ⟨-, u, -, hr, hs⟩ := afterInert?_of_afterStretch? h
  · rw [replaceFrom_inert hi, upTo_append]
  · rw [replaceFrom_inert hs, replaceFrom_inert hr]
    obtain ⟨v, hv⟩ := suffix_of_afterInert? hr
    rw [← hv, upTo_append, ← List.append_assoc, upTo_append, List.append_assoc]

theorem isPrefix_of_semicolon {k : Text} (hk : ';' ∉ k) : k <+: a ++ ';' :: b ↔ k <+: a := by
  constructor
  · intro h
    rcases List.prefix_or_prefix_of_prefix h (List.prefix_append a (';' :: b)) with h' | ⟨t, rfl⟩
    · exact h'
    · cases t with
      | nil => simp
      | cons d t =>
        rw [List.prefix_append_right_inj, List.cons_prefix_cons] at h
        simp [h.1] at hk
  · exact fun h => h.trans (List.prefix_append ..)

theorem Renames.match?_semicolon (h : Renames R) : match? R (a ++ ';' :: b) = match? R a := by
  refine Option.ext fun rule => ?_
  simp only [h.match?_iff]
  refine and_congr_right fun hmem => isPrefix_of_semicolon fun hsemi => ?_
  obtain ⟨e, he, -⟩ := h rule hmem
  obtain ⟨sp, hsp, -⟩ := he.spells
  rw [← hsp] at hsemi
  exact absurd (sp.forall_mem spellingChars_inReference _ hsemi) (by decide)

theorem codeBefore_of_plain {k : Text} (hk : ∀ c ∈ k, opensInert c = false) (r : Text) :
    CodeBefore r k := by
  induction k with
  | nil => trivial
  | cons c k ih =>
    obtain ⟨hc, hk⟩ := List.forall_mem_cons.mp hk
    exact ⟨afterInert?_eq_none hc, ih hk⟩

theorem replaceFrom_append {a : Text} {joined : Bool} (hR : Renames R) (ha : Closed a) (b : Text) :
    replaceFrom R joined (a ++ ';' :: b) =
      replaceFrom R joined a ++ ';' :: replaceFrom R false b := by
  cases ha with
  | nil =>
    rw [replaceFrom_empty, List.nil_append, replaceFrom_skip (afterInert?_eq_none rfl) (.inl rfl)]
    rfl
  | @stretch k t a ht ha =>
    have hlt := length_lt_of_afterStretch? (ht a)
    rw [List.append_assoc, replaceFrom_stretch (ht _), replaceFrom_stretch (ht a),
      replaceFrom_append hR ha b, List.append_assoc]
  | @code c a hc ha =>
    have hi := afterInert?_eq_none_iff.mpr hc
    have hi' : afterInert? (c :: (a ++ ';' :: b)) = none :=
      afterInert?_eq_none_iff.mpr (afterStretch?_append_eq_none hc (slashMeets_semicolon ..))
    have hmatch : match? R (c :: (a ++ ';' :: b)) = match? R (c :: a) :=
      hR.match?_semicolon (a := c :: a)
    rw [List.cons_append]
    by_cases hfits : (isNameStart c && !joined) = false ∨ match? R (c :: a) = none
    · rw [replaceFrom_skip hi hfits, replaceFrom_skip hi' (hmatch ▸ hfits),
        replaceFrom_append hR ha b, List.cons_append]
    · simp only [not_or, Bool.not_eq_false, Bool.and_eq_true, Bool.not_eq_true'] at hfits
      obtain ⟨⟨-, rfl⟩, hfits⟩ := hfits
      obtain ⟨rule, hrule⟩ := Option.ne_none_iff_exists'.mp hfits
      obtain ⟨hmem, hne, t, ht⟩ := mem_of_match? hrule
      have hclosed : Closed t := by
        have hall : Closed (rule.1 ++ t) := ht ▸ Closed.code hc ha
        exact hall.of_code (codeBefore_of_plain (hR.forUsages.plain hmem) t)
      have hlt : t.length < (c :: a).length := by
        have := List.length_pos_iff.mpr hne
        rw [ht, List.length_append]
        omega
      rw [← List.cons_append, ht, List.append_assoc, hR.replaceFrom_literal hmem,
        hR.replaceFrom_literal hmem, replaceFrom_append hR hclosed b, List.append_assoc]
termination_by a.length
decreasing_by
  · exact hlt
  · exact Nat.lt_succ_self _
  · exact hlt

-- ---------------------------------------------------------------------------
-- Replacement inside a reference
-- ---------------------------------------------------------------------------

theorem replaceFrom_blanks {w : Text} (hw : w.allBlank = true) :
    replaceFrom R false (w ++ s) = w ++ replaceFrom R false s := by
  induction w with
  | nil => rfl
  | cons c w ih =>
    simp only [allBlank, List.all_cons, Bool.and_eq_true] at hw
    have hc := not_isNameChar_of_isBlank hw.1
    have hi := afterInert?_eq_none (s := c :: (w ++ s)) (not_opensInert_of_isBlank hw.1)
    have hstart : isNameStart c = false :=
      Bool.eq_false_iff.mpr fun h => Bool.eq_false_iff.mp hc (isNameChar_of_isNameStart h)
    rw [List.cons_append, replaceFrom_skip hi (.inl (by rw [hstart]; rfl)), hc, ih hw.2,
      List.cons_append]

theorem replaceFrom_mark (hc : c ∈ ['<', ',', '>']) :
    replaceFrom R false (c :: s) = c :: replaceFrom R false s := by
  simp only [List.mem_cons, List.not_mem_nil, or_false] at hc
  rcases hc with rfl | rfl | rfl <;> exact replaceFrom_skip (afterInert?_eq_none rfl) (.inl rfl)

theorem replaceFrom_open {n : Name} {gap : Blanks} {args : Arguments}
    (h : match? R ((Spelling.applied n gap args).text ++ s) = none) :
    replaceFrom R false ((Spelling.applied n gap args).text ++ s) =
      n.1 ++ (gap.1 ++ '<' :: replaceFrom R false (args.text ++ s)) := by
  have hsplit : (Spelling.applied n gap args).text ++ s =
      n.1 ++ (gap.1 ++ '<' :: (args.text ++ s)) := by
    simp only [Spelling.text, List.append_assoc, List.cons_append]
  rw [hsplit] at h ⊢
  rw [replaceFrom_name n.2 h, replaceFrom_joined (head_blanks_append gap rfl),
    replaceFrom_blanks gap.2, replaceFrom_mark (by simp)]

mutual
theorem Renames.exists_spelling (hR : Renames R) : (sp : Spelling) → (s : Text) → EndsName s →
    ∃ y, replaceFrom R false (sp.text ++ s) = y ++ replaceFrom R false s
  | .simple n, s, hs => by
    have hnone : match? R (n.1 ++ s) = none := by
      refine Option.eq_none_iff_forall_ne_some.mpr fun rule hrule => ?_
      obtain ⟨hmem, hfit⟩ := hR.match?_iff.mp hrule
      obtain ⟨e, he, -⟩ := hR rule hmem
      obtain ⟨-, rfl⟩ := he.eq_spelling (b := .simple n) hs hfit
      cases he.compound
    exact ⟨n.1, by rw [Spelling.text, replaceFrom_name n.2 hnone, replaceFrom_joined hs.noName]⟩
  | .applied n gap args, s, hs => by
    cases hrule : match? R ((Spelling.applied n gap args).text ++ s) with
    | some rule =>
      obtain ⟨hmem, hfit⟩ := hR.match?_iff.mp hrule
      obtain ⟨e, he, -⟩ := hR rule hmem
      rw [(he.eq_spelling hs hfit).1]
      exact ⟨rule.2, hR.replaceFrom_literal hmem s⟩
    | none =>
      obtain ⟨y, hy⟩ := hR.exists_arguments args s
      exact ⟨n.1 ++ (gap.1 ++ '<' :: y), by rw [replaceFrom_open hrule, hy]; simp⟩
theorem Renames.exists_arguments (hR : Renames R) : (args : Arguments) → (s : Text) →
    ∃ y, replaceFrom R false (args.text ++ s) = y ++ replaceFrom R false s
  | .last before arg after, s => by
    obtain ⟨y, hy⟩ := hR.exists_spelling arg _ (endsName_mark after (.inr rfl) s)
    refine ⟨before.1 ++ (y ++ (after.1 ++ ['>'])), ?_⟩
    simp only [Arguments.text, List.append_assoc, List.cons_append, List.nil_append]
    rw [replaceFrom_blanks before.2, hy, replaceFrom_blanks after.2, replaceFrom_mark (by simp)]
  | .more before arg after others, s => by
    obtain ⟨y, hy⟩ := hR.exists_spelling arg _ (endsName_mark after (.inl rfl) (others.text ++ s))
    obtain ⟨z, hz⟩ := hR.exists_arguments others s
    refine ⟨before.1 ++ (y ++ (after.1 ++ ',' :: z)), ?_⟩
    simp only [Arguments.text, List.append_assoc, List.cons_append]
    rw [replaceFrom_blanks before.2, hy, replaceFrom_blanks after.2, replaceFrom_mark (by simp), hz]
end

-- ---------------------------------------------------------------------------
-- Brackets that are left
-- ---------------------------------------------------------------------------

theorem Renames.count_name (h : Renames R) (hmem : rule ∈ R) : rule.2.count '<' = 0 := by
  obtain ⟨e, he, hname⟩ := h rule hmem
  have hall := all_isNameChar_of_isName he.spells.wellFormed.isName_mangle
  rw [hname]
  refine List.count_eq_zero.mpr fun hlt => ?_
  exact absurd (List.all_eq_true.mp hall _ hlt) (by decide)

/-- More rules leave fewer brackets: a literal with a rule of its own leaves none, and without one
at least its first. -/
theorem Renames.count_lt_of_put (hR : Renames R) (hQ : Renames Q) (hmem : rule ∈ R)
    (hnone : match? Q (rule.1 ++ s) = none)
    (hle : (replaceFrom R false s).count '<' ≤ (replaceFrom Q false s).count '<') :
    (replaceFrom R false (rule.1 ++ s)).count '<' <
      (replaceFrom Q false (rule.1 ++ s)).count '<' := by
  have hput := hR.replaceFrom_literal hmem s
  have hname := hR.count_name hmem
  obtain ⟨e, he, -⟩ := hR rule hmem
  obtain ⟨n, gap, args, htext, -⟩ := he.exists_applied
  obtain ⟨y, hy⟩ := hQ.exists_arguments args s
  rw [← htext] at hput hnone ⊢
  rw [hput, replaceFrom_open hnone, hy]
  simp only [List.count_append, List.count_cons_self, hname]
  omega

/-- Among its usages a set of rules has all those inside that a larger one has. -/
def Inherits (R Q : List (Text × Text)) : Prop :=
  ∀ rule ∈ Q, ∃ n gap args, (Spelling.applied n gap args).text = rule.1 ∧
    ∀ b ∈ args.nested, ∀ v, (b.text, v) ∈ R → (b.text, v) ∈ Q

theorem Inherits.mem_places (h : Inherits R Q) (hR : Renames R) (hQ : Renames Q) (hQR : Q ⊆ R)
    (hmem : rule ∈ Q) {p : Text} (hp : p ∈ places false (rule.1 ++ s))
    (hdiff : match? R p ≠ match? Q p) : p ∈ places false s := by
  have hsub {rule : Text × Text} (hrule : match? Q p = some rule) : match? R p = some rule := by
    obtain ⟨hmem, hfit⟩ := hQ.match?_iff.mp hrule
    exact hR.match?_iff.mpr ⟨hQR hmem, hfit⟩
  obtain ⟨found, hfound⟩ : ∃ found, match? R p = some found := by
    refine Option.ne_none_iff_exists'.mp fun hnone => ?_
    cases hQp : match? Q p with
    | none => exact hdiff (hnone.trans hQp.symm)
    | some rule => exact hdiff ((hsub hQp).trans hQp.symm)
  obtain ⟨hfoundR, hfit⟩ := hR.match?_iff.mp hfound
  have hfoundQ : found ∉ Q := fun hq =>
    hdiff (hfound.trans (hQ.match?_iff.mpr ⟨hq, hfit⟩).symm)
  obtain ⟨n, gap, args, htext, hnested⟩ := h rule hmem
  rw [← htext, Spelling.places_applied] at hp
  rcases List.mem_cons.mp hp with rfl | hp
  · -- at the literal itself its own rule fits
    have hown : match? Q ((Spelling.applied n gap args).text ++ s) = some rule :=
      hQ.match?_iff.mpr ⟨hmem, htext ▸ List.prefix_append ..⟩
    exact absurd ((hsub hown).trans hown.symm) hdiff
  · obtain ⟨e, he, -⟩ := hR found hfoundR
    rcases Arguments.exists_nested_of_place he hp hfit with hp | ⟨b, hb, hbtext, -⟩
    · exact hp
    · have hin := hnested b hb found.2 (by rw [hbtext]; exact hfoundR)
      rw [hbtext] at hin
      exact absurd hin hfoundQ

theorem count_replaceFrom (hR : Renames R) (hQ : Renames Q) (hQR : Q ⊆ R)
    (hinherits : Inherits R Q) (joined : Bool) (s : Text) :
    (replaceFrom R joined s).count '<' ≤ (replaceFrom Q joined s).count '<' ∧
      ((∃ p ∈ places joined s, match? R p ≠ match? Q p) →
        (replaceFrom R joined s).count '<' < (replaceFrom Q joined s).count '<') := by
  cases hi : afterInert? s with
  | some r =>
    have hlt := length_lt_of_afterInert? hi
    rw [replaceFrom_inert hi, replaceFrom_inert hi, places_inert hi]
    simpa only [List.count_append, Nat.add_le_add_iff_left, Nat.add_lt_add_iff_left] using
      count_replaceFrom hR hQ hQR hinherits false r
  | none =>
    cases s with
    | nil => simp [replaceFrom_empty, places_nil]
    | cons c r =>
      by_cases hfits : (isNameStart c && !joined) = false ∨ match? R (c :: r) = none
      · -- no rule fits here
        have hfitsQ : (isNameStart c && !joined) = false ∨ match? Q (c :: r) = none := by
          refine hfits.imp_right fun hnone => Option.eq_none_iff_forall_ne_some.mpr ?_
          intro rule hrule
          obtain ⟨hmem, hfit⟩ := hQ.match?_iff.mp hrule
          rw [hR.match?_iff.mpr ⟨hQR hmem, hfit⟩] at hnone
          cases hnone
        have ih := count_replaceFrom hR hQ hQR hinherits (isNameChar c) r
        rw [replaceFrom_skip hi hfits, replaceFrom_skip hi hfitsQ]
        simp only [List.count_cons, Nat.add_le_add_iff_right, Nat.add_lt_add_iff_right]
        refine ⟨ih.1, fun ⟨p, hp, hdiff⟩ => ih.2 ⟨p, ?_, hdiff⟩⟩
        rw [places_cons hi] at hp
        split at hp
        · rename_i hc
          rcases List.mem_cons.mp hp with rfl | hp
          · rw [hfits.resolve_left (by simp [hc]), hfitsQ.resolve_left (by simp [hc])] at hdiff
            exact absurd rfl hdiff
          · exact hp
        · exact hp
      · simp only [not_or, Bool.not_eq_false, Bool.and_eq_true, Bool.not_eq_true'] at hfits
        obtain ⟨⟨-, rfl⟩, hfits⟩ := hfits
        obtain ⟨rule, hrule⟩ := Option.ne_none_iff_exists'.mp hfits
        obtain ⟨hmem, hne, t, ht⟩ := mem_of_match? hrule
        have hlt : t.length < (c :: r).length := by
          have := List.length_pos_iff.mpr hne
          rw [ht, List.length_append]
          omega
        have ih := count_replaceFrom hR hQ hQR hinherits false t
        rw [ht]
        by_cases hmemQ : rule ∈ Q
        · rw [hR.replaceFrom_literal hmem, hQ.replaceFrom_literal hmemQ]
          simp only [List.count_append, Nat.add_le_add_iff_left, Nat.add_lt_add_iff_left]
          exact ⟨ih.1, fun ⟨p, hp, hdiff⟩ =>
            ih.2 ⟨p, hinherits.mem_places hR hQ hQR hmemQ hp hdiff, hdiff⟩⟩
        · have hnone : match? Q (rule.1 ++ t) = none := by
            refine Option.eq_none_iff_forall_ne_some.mpr fun found hfound => hmemQ ?_
            obtain ⟨hfoundQ, hfit⟩ := hQ.match?_iff.mp hfound
            have hsame := hR.match?_iff.mpr ⟨hQR hfoundQ, hfit⟩
            rw [← ht, hrule] at hsame
            exact Option.some.inj hsame ▸ hfoundQ
          have hlt := hR.count_lt_of_put hQ hmem hnone ih.1
          exact ⟨Nat.le_of_lt hlt, fun _ => hlt⟩
termination_by s.length
decreasing_by
  · exact Nat.lt_succ_self _
  · exact hlt
  · exact hlt

-- ---------------------------------------------------------------------------
-- Usages that one part has from the other
-- ---------------------------------------------------------------------------

def stands (k s : Text) : Bool :=
  (places false s).any k.isPrefixOf

theorem stands_iff {k : Text} : stands k s = true ↔ ∃ p ∈ places false s, k <+: p := by
  simp only [stands, List.any_eq_true, List.isPrefixOf_iff_prefix]

/-- Usages of `b` whose bracket reads like a comparison are found in `a` if they stand there. -/
def Covers (known : Text → Bool) (a b : Text) : Prop :=
  ∀ k ∈ (findKnown known b).keys, spaced k = true → stands k a = true →
    k ∈ (findKnown known a).keys

instance (known : Text → Bool) (a b : Text) : Decidable (Covers known a b) :=
  inferInstanceAs (Decidable (∀ k ∈ _, _))

def rulesOf (known : Text → Bool) (text : Text) : List (Text × Text) :=
  ((findKnown known text).map TypeExpr.mangle).entries

variable {known : Text → Bool}

theorem mem_rulesOf {text : Text} : rule ∈ rulesOf known text ↔
    ∃ e, (rule.1, e) ∈ (findKnown known text).entries ∧ rule.2 = e.mangle := by
  simp only [rulesOf, eq_comm (a := rule.2)]
  exact Table.mem_map

theorem renames_rulesOf (known : Text → Bool) (text : Text) : Renames (rulesOf known text) := by
  intro rule hrule
  obtain ⟨e, he, hname⟩ := mem_rulesOf.mp hrule
  exact ⟨e, (isUsage_of_findKnown he).1, hname⟩

theorem mem_rulesOf_of_usage {text k : Text} {e : TypeExpr} (h : IsUsage k e) :
    (k, e.mangle) ∈ rulesOf known text ↔ k ∈ (findKnown known text).keys := by
  rw [mem_rulesOf, Table.mem_keys]
  constructor
  · rintro ⟨x, hx, -⟩
    exact ⟨x, hx⟩
  · rintro ⟨x, hx⟩
    exact ⟨x, hx, by rw [h.spells.unique (isUsage_of_findKnown hx).1.spells]⟩

theorem inherits_rulesOf (hR : ∀ rule ∈ R, ∃ other, rule ∈ rulesOf known other) (text : Text) :
    Inherits R (rulesOf known text) := by
  intro rule hrule
  obtain ⟨e, he, -⟩ := mem_rulesOf.mp hrule
  obtain ⟨n, gap, args, htext, hnested⟩ :=
    exists_nested_of_scan (x := []) (mem_findKnown.mp he).1
  refine ⟨n, gap, args, htext, fun b hb v hv => ?_⟩
  obtain ⟨other, hother⟩ := hR _ hv
  obtain ⟨x, hx, rfl⟩ := mem_rulesOf.mp hother
  obtain ⟨hx, hknown⟩ := isUsage_of_findKnown hx
  obtain rfl : b.expr = x := Spells.unique ⟨b, rfl, rfl⟩ hx.spells
  exact mem_rulesOf.mpr
    ⟨b.expr, mem_findKnown.mpr ⟨hnested b hb hx.compound hx.notBuiltin, hknown⟩, rfl⟩

/-- Rules of two texts fit in one of them as its own do when it covers the other. -/
theorem match?_eq_iff_covers
    (hR : ∀ rule, rule ∈ R ↔ rule ∈ rulesOf known a ∨ rule ∈ rulesOf known b) :
    (∀ p ∈ places false a, match? R p = match? (rulesOf known a) p) ↔ Covers known a b := by
  have hrenames : Renames R := fun rule hrule => ((hR rule).mp hrule).elim
    (renames_rulesOf known a rule) (renames_rulesOf known b rule)
  constructor
  · intro h k hk hspaced hstands
    obtain ⟨e, he⟩ := Table.mem_keys.mp hk
    have husage := (isUsage_of_findKnown he).1
    obtain ⟨p, hp, hfit⟩ := stands_iff.mp hstands
    have hmatch := hrenames.match?_iff.mpr
      ⟨(hR (k, e.mangle)).mpr (.inr ((mem_rulesOf_of_usage husage).mpr hk)), hfit⟩
    rw [h p hp] at hmatch
    exact (mem_rulesOf_of_usage husage).mp ((renames_rulesOf known a).match?_iff.mp hmatch).1
  · intro h p hp
    refine Option.ext fun rule => ?_
    rw [hrenames.match?_iff, (renames_rulesOf known a).match?_iff]
    refine and_congr_left fun hfit => ⟨fun hrule => ?_, fun hrule => (hR rule).mpr (.inl hrule)⟩
    refine ((hR rule).mp hrule).elim id fun hrule => ?_
    obtain ⟨e, he, hname⟩ := mem_rulesOf.mp hrule
    obtain ⟨husage, hknown⟩ := isUsage_of_findKnown he
    have hkey : rule.1 ∈ (findKnown known a).keys := by
      cases hspaced : spaced rule.1 with
      | true =>
        exact h rule.1 (Table.mem_keys.mpr ⟨e, he⟩) hspaced (stands_iff.mpr ⟨p, hp, hfit⟩)
      | false =>
        have hscan := mem_scan_of_place (x := []) husage hspaced hp hfit
        exact Table.mem_keys.mpr ⟨e, mem_findKnown.mpr ⟨hscan, hknown⟩⟩
    have hmem := (mem_rulesOf_of_usage husage).mpr hkey
    rwa [← hname] at hmem

theorem replaceFrom_rulesOf
    (hR : ∀ rule, rule ∈ R ↔ rule ∈ rulesOf known a ∨ rule ∈ rulesOf known b) :
    (Covers known a b → replaceFrom R false a = replaceFrom (rulesOf known a) false a) ∧
    (replaceFrom R false a).count '<' ≤ (replaceFrom (rulesOf known a) false a).count '<' ∧
    ((replaceFrom R false a).count '<' = (replaceFrom (rulesOf known a) false a).count '<' →
      Covers known a b) := by
  have hrules : ∀ rule ∈ R, ∃ other, rule ∈ rulesOf known other := fun rule hrule =>
    ((hR rule).mp hrule).elim (fun h => ⟨a, h⟩) fun h => ⟨b, h⟩
  have hrenames : Renames R := fun rule hrule => ((hR rule).mp hrule).elim
    (renames_rulesOf known a rule) (renames_rulesOf known b rule)
  have hcount := count_replaceFrom hrenames (renames_rulesOf known a)
    (fun rule hrule => (hR rule).mpr (.inl hrule)) (inherits_rulesOf hrules a) false a
  refine ⟨fun h => hrenames.forUsages.replaceFrom_congr ((match?_eq_iff_covers hR).mpr h), hcount.1,
    fun heq => (match?_eq_iff_covers hR).mp fun p hp => ?_⟩
  by_contra hdiff
  have := hcount.2 ⟨p, hp, hdiff⟩
  omega

end Usage

namespace Instance

open Usage

variable {known : Text → Bool}

theorem text_flatten_eq (known : Text → Bool) (text : Text) :
    (flatten known text).text = replaceFrom (rulesOf known text) false text := by
  rw [flatten, replace_eq]
  exact (renames_rulesOf known text).forUsages.replaceFrom_perm (List.mergeSort_perm ..) false text

/-- Flattening a text that a semicolon in code divides finds the usages of both parts. It gives the
parts flattened on their own just when each part covers the other: every usage of the one whose
bracket reads like a comparison is a usage of the other if its literal stands there. -/
theorem flatten_append_iff {a : Text} (ha : endsInCode a = true) (b : Text) :
    ((flatten known (a ++ ';' :: b)).text =
        (flatten known a).text ++ ';' :: (flatten known b).text ↔
      Covers known a b ∧ Covers known b a) ∧
    ∀ e, e ∈ (flatten known (a ++ ';' :: b)).needs ↔
      e ∈ (flatten known a).needs ∨ e ∈ (flatten known b).needs := by
  have hclosed := closed_of_endsInCode ha
  have hR (rule : Text × Text) : rule ∈ rulesOf known (a ++ ';' :: b) ↔
      rule ∈ rulesOf known a ∨ rule ∈ rulesOf known b := by
    simp only [mem_rulesOf, mem_findKnown_append hclosed, or_and_right, exists_or]
  obtain ⟨hsameA, hleA, hcoversA⟩ := replaceFrom_rulesOf hR
  obtain ⟨hsameB, hleB, hcoversB⟩ := replaceFrom_rulesOf fun rule => (hR rule).trans or_comm
  constructor
  · rw [text_flatten_eq, text_flatten_eq, text_flatten_eq,
      replaceFrom_append (renames_rulesOf known _) hclosed]
    constructor
    · intro heq
      have hcount := congrArg (List.count '<') heq
      simp only [List.count_append, List.count_cons] at hcount
      exact ⟨hcoversA (by omega), hcoversB (by omega)⟩
    · rintro ⟨hA, hB⟩
      rw [hsameA hA, hsameB hB]
  · intro e
    simp only [flatten, Table.mem_values, mem_findKnown_append hclosed, exists_or]

/-- A usage that is found inside another one in both parts. -/
theorem flatten_append_iff_inside :
    let known := (["Queue", "Dict"] : List Text).contains
    let a : Text := "Dict<A, Queue< B>> x /* ; */"
    let b : Text := "Dict<B, Queue< B>> y; Queue< B> z // Queue<C>"
    endsInCode a = true ∧ Covers known a b ∧ Covers known b a ∧
      (flatten known (a ++ ';' :: b)).text =
        (flatten known a).text ++ ';' :: (flatten known b).text := by
  intro known a b
  have ha : endsInCode a = true := by decide +kernel
  have hab : Covers known a b := by decide +kernel
  have hba : Covers known b a := by decide +kernel
  exact ⟨ha, hab, hba, (flatten_append_iff ha b).1.mpr ⟨hab, hba⟩⟩

/-- What reads like a comparison in one statement is replaced because of the next one. -/
theorem flatten_append_ne :
    let known := (["Queue", "Dict"] : List Text).contains
    let a : Text := "Queue< Integer> x"
    let b : Text := "Dict<String, Queue< Integer>> y"
    endsInCode a = true ∧
      (flatten known (a ++ ';' :: b)).text = "QueueInteger x;DictStringQueueInteger y" ∧
      (flatten known a).text ++ ';' :: (flatten known b).text =
        "Queue< Integer> x;DictStringQueueInteger y" := by
  intro known a b
  rw [text_flatten_eq, text_flatten_eq, text_flatten_eq]
  decide +kernel

end Instance

end Monomorph
