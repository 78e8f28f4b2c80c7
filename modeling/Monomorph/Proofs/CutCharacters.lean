import Monomorph.Proofs.CutLaws

/-!
# Characters under a cut

Spans that lie in a text, do not overlap and begin with something to see can be cut out in any
order. What is left is part of the text, and it has the characters outside the spans, blanks apart
(`Splice.cut?_eq_outside`). The blanks that go with a span reach neither into the span before it nor
into the one behind it.
-/

namespace Monomorph.Splice

open Text

-- ---------------------------------------------------------------------------
-- Characters outside spans
-- ---------------------------------------------------------------------------

def shift (offset : Int) (span : Int × Int) : Int × Int :=
  (span.1 - offset, span.2 - offset)

def covers (spans : List (Int × Int)) (i : Nat) : Bool :=
  spans.any fun span => span.1 ≤ i && i < span.2

/-- The characters in none of the spans, where `t` begins at offset `i`. -/
def outside (spans : List (Int × Int)) (i : Nat) (t : Text) : Text :=
  ((t.zipIdx i).filter fun c => !covers spans c.2).map (·.1)

def visible (t : Text) : Text :=
  t.filter fun c => !isBlank c

variable {spans spans' : List (Int × Int)} {span : Int × Int} {i : Nat} {t text : Text}

theorem covers_iff : covers spans i = true ↔ ∃ span ∈ spans, span.1 ≤ i ∧ i < span.2 := by
  simp [covers]

theorem covers_cons_of_not (h : ¬(span.1 ≤ i ∧ i < span.2)) :
    covers (span :: spans) i = covers spans i := by
  have hnot : (decide (span.1 ≤ i) && decide (i < span.2)) = false := by simpa using h
  rw [covers, List.any_cons, hnot, Bool.false_or, covers]

theorem outside_append (spans : List (Int × Int)) (i : Nat) (a b : Text) :
    outside spans i (a ++ b) = outside spans i a ++ outside spans (i + a.length) b := by
  simp only [outside, List.zipIdx_append, List.filter_append, List.map_append]

theorem outside_congr (h : ∀ j, i ≤ j → j < i + t.length → covers spans j = covers spans' j) :
    outside spans i t = outside spans' i t := by
  refine congrArg _ (List.filter_congr ?_)
  rintro ⟨c, j⟩ hc
  have hj := List.mem_zipIdx hc
  rw [h j hj.1 hj.2.1]

theorem outside_nil (i : Nat) (t : Text) : outside [] i t = t := by
  have hall : (t.zipIdx i).filter (fun c => !covers [] c.2) = t.zipIdx i :=
    List.filter_eq_self.mpr fun _ _ => rfl
  rw [outside, hall, List.zipIdx_map_fst]

theorem outside_of_clear (h : ∀ j, i ≤ j → j < i + t.length → covers spans j = false) :
    outside spans i t = t := by
  have hnone : outside spans i t = outside [] i t := outside_congr h
  rw [hnone, outside_nil]

theorem outside_of_covered (h : ∀ j, i ≤ j → j < i + t.length → covers spans j = true) :
    outside spans i t = [] := by
  rw [outside, List.map_eq_nil_iff, List.filter_eq_nil_iff]
  rintro ⟨c, j⟩ hc
  have hj := List.mem_zipIdx hc
  simp [h j hj.1 hj.2.1]

theorem outside_sublist (spans : List (Int × Int)) (i : Nat) (t : Text) :
    (outside spans i t).Sublist t := by
  have h := (List.filter_sublist (p := fun c : Char × Nat => !covers spans c.2)
    (l := t.zipIdx i)).map (·.1)
  rwa [List.zipIdx_map_fst] at h

theorem visible_append (a b : Text) : visible (a ++ b) = visible a ++ visible b :=
  List.filter_append ..

theorem visible_of_allBlank (h : t.allBlank = true) : visible t = [] := by
  rw [visible, List.filter_eq_nil_iff]
  intro c hc
  simp [List.all_eq_true.mp h c hc]

theorem visible_outside_of_allBlank (h : t.allBlank = true) : visible (outside spans i t) = [] := by
  refine visible_of_allBlank (List.all_eq_true.mpr fun c hc => ?_)
  exact List.all_eq_true.mp h c ((outside_sublist spans i t).subset hc)

-- ---------------------------------------------------------------------------
-- One cut
-- ---------------------------------------------------------------------------

/-- Spans in a text that do not overlap. Each begins with something to see. -/
structure Cuttable (text : Text) (spans : List (Int × Int)) : Prop where
  inside : ∀ span ∈ spans, 0 ≤ span.1 ∧ span.1 ≤ span.2 ∧ span.2 ≤ text.length
  starts : ∀ span ∈ spans, ∃ c, text[span.1.toNat]? = some c ∧ isBlank c = false
  disjoint : spans.Pairwise fun a b => ∀ i, ¬((a.1 ≤ i ∧ i < a.2) ∧ b.1 ≤ i ∧ i < b.2)

theorem Cuttable.tail (h : Cuttable text (span :: spans)) : Cuttable text spans :=
  ⟨fun s hs => h.inside s (List.mem_cons_of_mem _ hs),
    fun s hs => h.starts s (List.mem_cons_of_mem _ hs), h.disjoint.of_cons⟩

theorem slice_of_le {i j : Nat} (hj : j ≤ i) (hi : i ≤ text.length) : text.slice i j = [] := by
  rw [slice, clip_natCast hi, clip_natCast (Nat.le_trans hj hi), List.drop_eq_nil_iff,
    List.length_take]
  exact Nat.le_trans (Nat.min_le_left ..) hj

theorem exists_kept {pre y r : Text} (htext : text = pre ++ (y ++ r)) :
    ∃ kept blanks, y = kept ++ blanks ∧ blanks.allBlank = true ∧
      text.slice pre.length (if (afterLast '\n' (pre ++ y)).allBlank then
        ↑((pre ++ y).length - (afterLast '\n' (pre ++ y)).length) else ↑(pre ++ y).length) =
          kept := by
  split
  · rename_i hblank
    have hline := throughLast_append_afterLast '\n' (pre ++ y)
    have hlength : (pre ++ y).length - (afterLast '\n' (pre ++ y)).length =
        (throughLast '\n' (pre ++ y)).length := by
      have := congrArg List.length hline
      rw [List.length_append] at this
      omega
    rw [hlength]
    obtain ⟨v, hpre, hv⟩ | ⟨v, hfront, hy⟩ := List.append_eq_append_iff.mp hline
    · -- the line began before the place where copying goes on
      refine ⟨[], y, rfl, ?_, slice_of_le ?_ (by simp [htext])⟩
      · rw [hv, allBlank, List.all_append, Bool.and_eq_true] at hblank
        exact hblank.2
      · have := congrArg List.length hpre
        rw [List.length_append] at this
        omega
    · refine ⟨v, afterLast '\n' (pre ++ y), hy, hblank, ?_⟩
      rw [hfront, htext, hy, List.append_assoc v]
      exact slice_append ..
  · refine ⟨y, [], by rw [List.append_nil], rfl, ?_⟩
    rw [htext]
    exact slice_append ..

theorem exists_parts {k a b : Nat} (text : Text) (hk : k ≤ a) (hab : a ≤ b)
    (hb : b ≤ text.length) : ∃ pre y mid r, text = pre ++ (y ++ (mid ++ r)) ∧ pre.length = k ∧
      (pre ++ y).length = a ∧ (pre ++ (y ++ mid)).length = b := by
  have htake {i j : Nat} (hij : i ≤ j) : text.take i ++ (text.take j).drop i = text.take j := by
    have h := List.take_append_drop i (text.take j)
    rwa [List.take_take, Nat.min_eq_left hij] at h
  have hlength {i : Nat} (hi : i ≤ text.length) : (text.take i).length = i := by
    rw [List.length_take, Nat.min_eq_left hi]
  refine ⟨text.take k, (text.take a).drop k, (text.take b).drop a, text.drop b, ?_, ?_, ?_, ?_⟩
  · rw [← List.append_assoc, htake hk, ← List.append_assoc, htake hab, List.take_append_drop]
  · exact hlength (by omega)
  · rw [htake hk, hlength (by omega)]
  · rw [← List.append_assoc, htake hk, htake hab, hlength hb]

variable {pre y mid w rest : Text}

/-- What is there to see outside a span and those behind it: what stands before the span, and what
is left behind its line. -/
theorem visible_outside_cons
    (hspan : span = (↑(pre ++ y).length, ↑(pre ++ (y ++ mid)).length))
    (hle : ∀ s ∈ spans, span.1 ≤ s.1) (hw : w.allBlank = true) :
    visible (outside (span :: spans) pre.length (y ++ (mid ++ (w ++ rest)))) =
      visible y ++ visible (outside spans (pre ++ (y ++ (mid ++ w))).length rest) := by
  have hstart : span.1 = pre.length + y.length := by rw [hspan, List.length_append]; rfl
  have hstop : span.2 = pre.length + y.length + mid.length := by
    simp only [hspan, List.length_append]
    omega
  have hbefore : outside (span :: spans) pre.length y = y := by
    refine outside_of_clear fun j _ hj => Bool.eq_false_iff.mpr fun hcovers => ?_
    obtain ⟨s, hs, hfrom, -⟩ := covers_iff.mp hcovers
    have hlater : span.1 ≤ s.1 := by
      rcases List.mem_cons.mp hs with rfl | hs
      · exact Int.le_refl _
      · exact hle s hs
    omega
  have hinside : outside (span :: spans) (pre.length + y.length) mid = [] := by
    refine outside_of_covered fun j hfrom hj => covers_iff.mpr ⟨span, List.mem_cons_self, ?_⟩
    omega
  have hbehind : outside (span :: spans) (pre.length + y.length + mid.length + w.length) rest =
      outside spans (pre.length + y.length + mid.length + w.length) rest := by
    refine outside_congr fun j hfrom _ => covers_cons_of_not ?_
    omega
  have hlength : (pre ++ (y ++ (mid ++ w))).length =
      pre.length + y.length + mid.length + w.length := by
    simp only [List.length_append]
    omega
  rw [outside_append, hbefore, outside_append, hinside, outside_append, hbehind, hlength,
    visible_append, List.nil_append, visible_append, visible_outside_of_allBlank hw,
    List.nil_append]

theorem Cuttable.le_start (h : Cuttable text (span :: spans))
    (htext : text = pre ++ (y ++ (mid ++ (w ++ rest))))
    (hspan : span = (↑(pre ++ y).length, ↑(pre ++ (y ++ mid)).length))
    (hle : ∀ s ∈ spans, span.1 ≤ s.1) (hw : w.allBlank = true) :
    ∀ s ∈ spans, s.1 < s.2 → ↑(pre ++ (y ++ (mid ++ w))).length ≤ s.1 := by
  intro s hs hlt
  have hafter : ((pre ++ (y ++ mid)).length : Int) ≤ s.1 := by
    refine Int.not_lt.mp fun hbefore => ?_
    refine (List.pairwise_cons.mp h.disjoint).1 s hs s.1 ⟨⟨hle s hs, ?_⟩, Int.le_refl _, hlt⟩
    rw [hspan]
    exact hbefore
  refine Int.not_lt.mp fun hbefore => ?_
  -- otherwise it would begin with a blank
  obtain ⟨c, hc, hvisible⟩ := h.starts s (List.mem_cons_of_mem _ hs)
  have hmem : c ∈ w := by
    have hparts : text = pre ++ (y ++ mid) ++ (w ++ rest) := by simp [htext]
    have hat : (pre ++ (y ++ mid)).length ≤ s.1.toNat := by omega
    have hbelow : s.1.toNat - (pre ++ (y ++ mid)).length < w.length := by
      simp only [List.length_append] at hbefore hat ⊢
      omega
    rw [hparts, List.getElem?_append_right hat, List.getElem?_append_left hbelow] at hc
    exact List.mem_of_getElem? hc
  rw [List.all_eq_true.mp hw c hmem] at hvisible
  cases hvisible

/-- The spans come in order, and those that are not empty begin where copying goes on or later. -/
theorem cutFrom?_eq_outside {k : Nat} (h : Cuttable text spans)
    (hsorted : spans.Pairwise fun a b => a.1 ≤ b.1) (hk : k ≤ text.length)
    (hfrom : ∀ span ∈ spans, span.1 < span.2 → k ≤ span.1) :
    ∃ out, cutFrom? text k spans = some out ∧ out.Sublist (text.drop k) ∧
      visible out = visible (outside spans k (text.drop k)) := by
  induction spans generalizing k with
  | nil =>
    refine ⟨text.drop k, ?_, List.Sublist.refl _, by rw [outside_nil]⟩
    rw [cutFrom?, clip_natCast hk]
  | cons span spans ih =>
    obtain ⟨hle, hsorted⟩ := List.pairwise_cons.mp hsorted
    obtain ⟨hpos, horder, hend⟩ := h.inside span List.mem_cons_self
    by_cases hbefore : span.1 < k
    · -- a span that begins before that place is empty
      have hempty : ¬span.1 < span.2 := by
        have := hfrom span List.mem_cons_self
        omega
      have hsame : outside (span :: spans) k (text.drop k) = outside spans k (text.drop k) := by
        refine outside_congr fun j _ _ => covers_cons_of_not ?_
        omega
      rw [cutFrom?, if_pos (.inl hbefore), hsame]
      exact ih h.tail hsorted hk fun s hs => hfrom s (List.mem_cons_of_mem _ hs)
    · obtain ⟨pre, y, mid, r, htext, rfl, hstart, hstop⟩ := exists_parts text
        (k := k) (a := span.1.toNat) (b := span.2.toNat) (by omega) (by omega) (by omega)
      have hspan : span = (↑(pre ++ y).length, ↑(pre ++ (y ++ mid)).length) := by
        rw [hstart, hstop, Int.toNat_of_nonneg hpos, Int.toNat_of_nonneg (by omega)]
      obtain ⟨kept, blanks, hy, hblanks, hkept⟩ := exists_kept htext
      obtain ⟨w, hw, hcut⟩ := cutFrom?_span htext spans
      have hrest : text = pre ++ (y ++ (mid ++ (w ++ dropLineEnd r))) := by rw [← hw.eq, htext]
      obtain ⟨out, hout, hsub, hvisible⟩ := ih h.tail hsorted (by simp [hrest])
        (h.le_start hrest hspan hle hw.allBlank)
      have hdrop : text.drop pre.length = y ++ (mid ++ (w ++ dropLineEnd r)) := by
        rw [hrest, List.drop_left]
      have hdropRest : text.drop (pre ++ (y ++ (mid ++ w))).length = dropLineEnd r := by
        have hparts : text = pre ++ (y ++ (mid ++ w)) ++ dropLineEnd r := by simp [hrest]
        rw [hparts, List.drop_left]
      rw [hdropRest] at hsub hvisible
      refine ⟨kept ++ out, ?_, ?_, ?_⟩
      · rw [hspan, hcut, hout, hkept, Option.map_some]
      · rw [hdrop, hy, List.append_assoc]
        refine List.Sublist.append_left ?_ kept
        exact hsub.trans (((List.sublist_append_right ..).trans
          (List.sublist_append_right ..)).trans (List.sublist_append_right ..))
      · rw [hdrop, visible_outside_cons hspan hle hw.allBlank, ← hvisible, hy, visible_append,
          visible_append, visible_of_allBlank hblanks, List.append_nil]

-- ---------------------------------------------------------------------------
-- All cuts
-- ---------------------------------------------------------------------------

theorem Cuttable.perm (h : Cuttable text spans) (hperm : spans.Perm spans') :
    Cuttable text spans' := by
  refine ⟨fun s hs => h.inside s (hperm.mem_iff.mpr hs),
    fun s hs => h.starts s (hperm.mem_iff.mpr hs), ?_⟩
  refine (hperm.pairwise_iff ?_).mp h.disjoint
  intro a b hab i hi
  exact hab i ⟨hi.2, hi.1⟩

theorem outside_perm (h : spans.Perm spans') (i : Nat) (t : Text) :
    outside spans i t = outside spans' i t := by
  refine outside_congr fun j _ _ => Bool.eq_iff_iff.mpr ?_
  simp only [covers_iff, h.mem_iff]

theorem exists_ordered (text : Text) (spans : List (Int × Int)) (offset : Int) :
    ∃ ordered, cut? text spans offset = cutFrom? text 0 ordered ∧
      (spans.map (shift offset)).Perm ordered ∧ ordered.Pairwise fun a b => a.1 ≤ b.1 := by
  let le : Int × Int → Int × Int → Bool := fun a b => a.1 < b.1 || (a.1 == b.1 && a.2 ≤ b.2)
  have hle (a b : Int × Int) : le a b = true ↔ a.1 < b.1 ∨ (a.1 = b.1 ∧ a.2 ≤ b.2) := by
    simp [le]
  refine ⟨(spans.mergeSort le).map (shift offset), rfl, ?_, ?_⟩
  · exact (List.mergeSort_perm spans le).symm.map _
  · have hsorted : (spans.mergeSort le).Pairwise fun a b => le a b = true := by
      refine List.pairwise_mergeSort ?_ ?_ spans
      · intro a b c hab hbc
        simp only [hle] at *
        omega
      · intro a b
        simp only [Bool.or_eq_true, hle]
        omega
    refine hsorted.map _ fun a b hab => ?_
    simp only [hle] at hab
    simp only [shift]
    omega

/-- Spans that lie in a text, counted from `offset` on, do not overlap and begin with something to
see are cut out, whatever their order. The rest is part of the text, and but for blanks it is what
lies outside the spans. -/
theorem cut?_eq_outside {offset : Int} (h : Cuttable text (spans.map (shift offset))) :
    cut? text spans offset = some (cut text spans offset) ∧
      (cut text spans offset).Sublist text ∧
      visible (cut text spans offset) =
        visible (outside (spans.map (shift offset)) 0 text) := by
  obtain ⟨ordered, hcut, hperm, hsorted⟩ := exists_ordered text spans offset
  have hordered := h.perm hperm
  obtain ⟨out, hout, hsub, hvisible⟩ := cutFrom?_eq_outside (k := 0) hordered hsorted
    (Nat.zero_le _) fun span hspan _ => (hordered.inside span hspan).1
  have hsome : cut? text spans offset = some out := hcut.trans hout
  have hcutOut : cut text spans offset = out := by rw [cut, hsome, Option.getD_some]
  rw [hcutOut]
  exact ⟨hsome, hsub, hvisible.trans (congrArg visible (outside_perm hperm 0 text).symm)⟩

/-- Two neighbours and a third span on the same line, which is given first. -/
theorem cut?_eq_outside_line :
    Cuttable "(\n  ab cd\n  ef\n)" ([(17, 19), (14, 15), (15, 16)].map (shift 10)) ∧
      visible (cut "(\n  ab cd\n  ef\n)" [(17, 19), (14, 15), (15, 16)] 10) = "(ef)" := by
  have h : Cuttable "(\n  ab cd\n  ef\n)" ([(17, 19), (14, 15), (15, 16)].map (shift 10)) := by
    refine ⟨by decide, ?_, ?_⟩
    · simp only [List.map_cons, List.map_nil, List.forall_mem_cons]
      exact ⟨⟨'c', rfl, rfl⟩, ⟨'a', rfl, rfl⟩, ⟨'b', rfl, rfl⟩, by simp⟩
    · simp only [List.map_cons, List.map_nil, List.pairwise_cons, List.forall_mem_cons, shift]
      refine ⟨⟨?_, ?_, by simp⟩, ⟨?_, by simp⟩, by simp, List.Pairwise.nil⟩ <;> intro i <;> omega
  exact ⟨h, (cut?_eq_outside h).2.2.trans (by decide)⟩

end Monomorph.Splice
