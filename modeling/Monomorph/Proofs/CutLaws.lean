import Monomorph.Program
import Monomorph.Proofs.MethodSearch

/-!
# Laws of cutting

Methods are cut out of a text together with the blanks around them that make up their lines. What
is left has the tokens of the gaps, one gap after the other (`tokens_cut`), unless a slash stands
right before a method.
-/

namespace Monomorph

-- ---------------------------------------------------------------------------
-- The end of a text
-- ---------------------------------------------------------------------------

namespace Text

variable {a b r s t : Text} {c : Char}

theorem getLast?_of_afterLine (hr : r ≠ []) (h : afterLine (a ++ r) = r) :
    a.getLast? = some '\n' := by
  induction a with
  | nil => exact absurd (congrArg List.length h) (Nat.ne_of_lt (length_afterLine_lt hr))
  | cons c a ih =>
    simp only [List.cons_append, afterLine] at h
    by_cases hc : c = '\n'
    · rw [if_pos hc, List.append_left_eq_self] at h
      rw [h, hc]
      rfl
    · rw [if_neg hc] at h
      simp [List.getLast?_cons, ih h]

theorem getLast?_of_afterBlock (hr : r ≠ []) (h : afterBlock (a ++ r) = r) :
    a.getLast? = some '/' := by
  have hlt := length_afterBlock_lt hr
  induction a with
  | nil => exact absurd (congrArg List.length h) (Nat.ne_of_lt hlt)
  | cons c a ih =>
    rw [List.cons_append] at h
    by_cases hc : c = '*' ∧ (a ++ r).head? = some '/'
    · obtain ⟨rfl, hd⟩ := hc
      obtain ⟨t, ht⟩ := List.head?_eq_some_iff.mp hd
      cases a with
      | nil =>
        have h := congrArg List.length h
        rw [ht, afterBlock] at h
        rw [List.nil_append] at ht
        rw [ht, List.length_cons] at h
        omega
      | cons d a =>
        obtain ⟨rfl, -⟩ := List.cons.inj ht
        rw [List.cons_append, afterBlock, List.append_left_eq_self] at h
        rw [h]
        rfl
    · rw [afterBlock_skip hc] at h
      simp [List.getLast?_cons, ih h]

theorem getLast?_of_afterQuote {a r : Text} (hr : r ≠ []) (h : afterQuote (a ++ r) = r) :
    a.getLast? = some '\'' := by
  have hlt := length_afterQuote_lt hr
  cases a with
  | nil => exact absurd (congrArg List.length h) (Nat.ne_of_lt hlt)
  | cons c a =>
    rw [List.cons_append] at h
    by_cases hq : c = '\''
    · rw [hq, afterQuote, List.append_left_eq_self] at h
      rw [h, hq]
      rfl
    · by_cases hb : c = '\\'
      · rw [hb] at h
        cases a with
        | nil =>
          obtain ⟨d, t, rfl⟩ := List.exists_cons_of_ne_nil hr
          have hlen := (afterQuote_suffix t).length_le
          have h := congrArg List.length h
          simp only [List.nil_append, afterQuote, List.length_cons] at h
          omega
        | cons d a => simp [List.getLast?_cons, getLast?_of_afterQuote hr h]
      · rw [afterQuote_skip hq hb] at h
        simp [List.getLast?_cons, getLast?_of_afterQuote hr h]
termination_by a.length

theorem afterLine_newline (h : '\n' ∉ a) (x : Text) : afterLine (a ++ '\n' :: x) = x := by
  simp [afterLine_of_not_mem h, afterLine]

theorem getLast?_of_afterStretch? {k : Bool} (h : ∀ x, afterStretch? (t ++ x) = some (k, x)) :
    ∃ c, t.getLast? = some c ∧ isNameChar c = false ∧
      (isBlank c = true → k = true ∧ ∃ u, '\n' ∉ u ∧ t = '/' :: '/' :: (u ++ ['\n'])) := by
  have hr : ['x'] ≠ [] := by simp
  obtain ⟨u, heq, hk, hrest⟩ | ⟨u, heq, -, hrest⟩ | ⟨u, heq, -, hrest⟩ :=
    afterStretch?_cases (h ['x'])
  · obtain ⟨b, rfl⟩ := hrest ▸ afterLine_suffix u
    obtain rfl : t = '/' :: '/' :: b := List.append_cancel_right heq
    have hlast := getLast?_of_afterLine hr hrest.symm
    refine ⟨'\n', by simp [List.getLast?_cons, hlast], rfl, fun _ => ⟨hk, ?_⟩⟩
    -- the first end of a line is the last one
    obtain ⟨u, w, rfl, hu⟩ := List.eq_append_cons_of_mem (List.mem_of_getLast? hlast)
    rw [List.append_assoc, List.cons_append, afterLine_newline hu,
      List.self_eq_append_left] at hrest
    exact ⟨u, hu, by rw [hrest]⟩
  · obtain ⟨b, rfl⟩ := hrest ▸ afterBlock_suffix u
    obtain rfl : t = '/' :: '*' :: b := List.append_cancel_right heq
    exact ⟨'/', by simp [List.getLast?_cons, getLast?_of_afterBlock hr hrest.symm], rfl, nofun⟩
  · obtain ⟨b, rfl⟩ := hrest ▸ afterQuote_suffix u
    obtain rfl : t = '\'' :: b := List.append_cancel_right heq
    exact ⟨'\'', by simp [List.getLast?_cons, getLast?_of_afterQuote hr hrest.symm], rfl, nofun⟩

theorem Closed.of_blanks (h : Closed (a ++ b)) (hb : b.allBlank = true) (hline : '\n' ∉ b) :
    Closed a := by
  generalize hs : a ++ b = s at h
  induction h generalizing a with
  | nil =>
    rw [(List.append_eq_nil_iff.mp hs).1]
    exact .nil
  | @stretch k t u ht hu ih =>
    obtain ⟨v, rfl, hv⟩ | ⟨v, rfl, hv⟩ := List.append_eq_append_iff.mp hs
    · by_cases hnil : v = []
      · subst hnil
        simpa using Closed.stretch ht .nil
      · -- a stretch that reaches into the blanks cannot end there
        obtain ⟨c, hc, -, hblank⟩ := getLast?_of_afterStretch? ht
        have hmem : c ∈ b := by
          rw [hv]
          refine List.mem_append_left _ (List.mem_of_getLast? ?_)
          simpa [List.getLast?_append, hnil] using hc
        obtain ⟨-, w, -, hw⟩ := hblank (List.all_eq_true.mp hb c hmem)
        obtain rfl : '\n' = c := by simpa [hw, List.getLast?_cons] using hc
        exact absurd hmem hline
    · exact .stretch ht (ih hv.symm)
  | @code c u hc hu ih =>
    cases a with
    | nil => exact .nil
    | cons d a =>
      obtain ⟨rfl, rfl⟩ := List.cons.inj hs
      exact .code (afterStretch?_eq_none_of_append hc) (ih rfl)

theorem Closed.drop_blanks (h : Closed (a ++ b)) (ha : a.allBlank = true) : Closed b :=
  h.of_append (Splits.blanks ha b).closed (Splits.blanks ha b).slash

theorem getLast?_of_lexemes (h : (lexemes a).getLast? = some (.code c)) : a.getLast? = some c := by
  obtain ⟨ls, hls⟩ := List.getLast?_eq_some_iff.mp h
  rw [← flatMap_text_lexemes a, hls]
  simp [Lexeme.text]

theorem Splits.of_getLast (ha : Closed a)
    (hname : (lexemes a).getLast?.any Lexeme.isNameChar = false)
    (hslash : (lexemes a).getLast? ≠ some (.code '/')) (b : Text) : Splits a b := by
  refine ⟨ha, meets_of_getLast ?_ b, meets_of_getLast hname b⟩
  cases h : (lexemes a).getLast? with
  | none => rfl
  | some l =>
    rw [h] at hslash
    simpa using hslash

theorem Splits.of_line (ha : Closed a) (hlast : a = [] ∨ a.getLast? = some '\n') (b : Text) :
    Splits a b := by
  rcases hlast with rfl | hlast
  · exact .nil b
  · have hcode {c : Char} (h : (lexemes a).getLast? = some (.code c)) : c = '\n' := by
      rw [getLast?_of_lexemes h] at hlast
      exact Option.some.inj hlast
    refine .of_getLast ha ?_ (fun h => absurd (hcode h) (by decide)) b
    cases h : (lexemes a).getLast? with
    | none => rfl
    | some l =>
      cases l with
      | code c => exact hcode h ▸ rfl
      | inert k t => rfl

theorem slice_append (a b r : Text) : slice (a ++ (b ++ r)) a.length ↑(a ++ b).length = b := by
  rw [slice, clip_natCast (by simp), clip_natCast (by simp), ← List.append_assoc, List.take_left,
    List.drop_left]

end Text

namespace Splice

open Text

-- ---------------------------------------------------------------------------
-- One cut
-- ---------------------------------------------------------------------------

/-- A cut is over at the start of a line, or behind something on the line. -/
def Fresh (pre : Text) : Prop :=
  afterLast '\n' pre = [] ∨ (afterLast '\n' pre).allBlank = false

/-- What stands before a method: what is kept, and blanks that go with it. -/
structure Trimmed (y kept blanks : Text) : Prop where
  eq : y = kept ++ blanks
  allBlank : blanks.allBlank = true
  line : '\n' ∉ blanks
  border : blanks = [] ∨ kept = [] ∨ kept.getLast? = some '\n'

/-- The blanks and the line break behind a method. -/
structure LineEnd (r w rest : Text) : Prop where
  eq : r = w ++ rest
  allBlank : w.allBlank = true
  border : w.getLast? = some '\n' ∨ '\n' ∉ w

variable {pre y kept blanks b r w rest : Text}

theorem Trimmed.tokens_eq (h : Trimmed y kept blanks) (hkept : ∀ s, Splits kept s) :
    tokens y = tokens kept := by
  rw [h.eq, (hkept blanks).tokens_append, tokens_blanks h.allBlank, List.append_nil]

theorem trimmed_indent (hpre : Fresh pre) (h : (afterLast '\n' (pre ++ y)).allBlank = true) :
    ∃ kept, Trimmed y kept (afterLast '\n' (pre ++ y)) := by
  by_cases hy : '\n' ∈ y
  · obtain ⟨u, v, rfl, hv⟩ := exists_last hy
    have heq : afterLast '\n' (pre ++ (u ++ '\n' :: v)) = v := by
      rw [List.append_cons, ← List.append_assoc, afterLast_append hv, ← List.append_assoc,
        afterLast_concat, List.nil_append]
    rw [heq] at h ⊢
    exact ⟨u ++ ['\n'], by simp, h, hv, .inr (.inr (by simp))⟩
  · rw [afterLast_append hy] at h ⊢
    rcases hpre with hpre | hpre
    · rw [hpre, List.nil_append] at h ⊢
      exact ⟨[], rfl, h, hy, .inr (.inl rfl)⟩
    · simp only [allBlank, List.all_append, Bool.and_eq_true] at h
      rw [allBlank, h.1] at hpre
      cases hpre

theorem isBlank_of_isIndent {c : Char} (h : isIndent c = true) : isBlank c = true := by
  simp only [isIndent, Bool.or_eq_true, beq_iff_eq] at h
  rcases h with rfl | rfl <;> rfl

theorem lineEnd_dropLineEnd (r : Text) : ∃ w, LineEnd r w (dropLineEnd r) := by
  have hsplit : r = r.takeWhile isIndent ++ r.dropWhile isIndent :=
    List.takeWhile_append_dropWhile.symm
  have hall {c : Char} (hc : c ∈ r.takeWhile isIndent) : isIndent c = true :=
    List.all_eq_true.mp List.all_takeWhile c hc
  have hblank : allBlank (r.takeWhile isIndent) = true :=
    List.all_eq_true.mpr fun c hc => isBlank_of_isIndent (hall hc)
  have hline : '\n' ∉ r.takeWhile isIndent := fun h => absurd (hall h) (by decide)
  unfold dropLineEnd
  split
  · rename_i rest hrest
    rw [hrest] at hsplit
    exact ⟨r.takeWhile isIndent ++ ['\r', '\n'], by simpa using hsplit,
      allBlank_append hblank rfl, .inl (by simp)⟩
  · rename_i rest hrest
    rw [hrest] at hsplit
    exact ⟨r.takeWhile isIndent ++ ['\n'], by simpa using hsplit,
      allBlank_append hblank rfl, .inl (by simp)⟩
  · exact ⟨_, hsplit, hblank, .inr hline⟩

theorem lineEnd?_append (pre : Text) (h : LineEnd r w (dropLineEnd r)) :
    lineEnd? (pre ++ r) pre.length = some ↑(pre ++ w).length := by
  have hclip : clip (pre ++ r) (pre.length : Nat) = pre.length := clip_natCast (by simp)
  have hneg : ¬((pre ++ r).length + (pre.length : Int) < 0) := by omega
  have hneg' : ¬((pre.length : Int) < 0 ∧ r.all isIndent) := by omega
  have hlen := congrArg List.length h.eq
  rw [List.length_append] at hlen
  unfold lineEnd?
  rw [if_neg hneg]
  simp only [hclip, List.drop_left]
  rw [if_neg hneg', List.length_append, hlen, Nat.add_sub_cancel, Int.natCast_add]

theorem fresh_append (hb : b.getLast? = some '}') (h : LineEnd r w rest) : Fresh (b ++ w) := by
  rcases h.border with hlast | hline
  · obtain ⟨w', rfl⟩ := List.getLast?_eq_some_iff.mp hlast
    rw [Fresh, ← List.append_assoc]
    exact .inl afterLast_concat
  · obtain ⟨b', rfl⟩ := List.getLast?_eq_some_iff.mp hb
    refine .inr ?_
    rw [afterLast_append hline, afterLast_append (by decide)]
    simp [allBlank, show isBlank '}' = false from rfl]

theorem cutFrom?_span {text : Text} (htext : text = pre ++ (y ++ (b ++ r)))
    (spans : List (Int × Int)) : ∃ w, LineEnd r w (dropLineEnd r) ∧
      cutFrom? text pre.length ((↑(pre ++ y).length, ↑(pre ++ (y ++ b)).length) :: spans) =
        (cutFrom? text ↑(pre ++ (y ++ (b ++ w))).length spans).map
          (text.slice pre.length (if (afterLast '\n' (pre ++ y)).allBlank then
            ↑((pre ++ y).length - (afterLast '\n' (pre ++ y)).length)
            else ↑(pre ++ y).length) ++ ·) := by
  obtain ⟨w, hw⟩ := lineEnd_dropLineEnd r
  have hclip : text.clip ↑(pre ++ y).length = (pre ++ y).length := clip_natCast (by simp [htext])
  have htake : text.take (pre ++ y).length = pre ++ y := by
    rw [htext, ← List.append_assoc, List.take_left]
  have hline : lineEnd? text ↑(pre ++ (y ++ b)).length =
      some ↑(pre ++ (y ++ (b ++ w))).length := by
    have := lineEnd?_append (pre ++ (y ++ b)) hw
    simpa [htext] using this
  have hinside : ¬((↑(pre ++ y).length : Int) < pre.length ∨
      ((pre ++ (y ++ b)).length : Int) > text.length) := by
    simp only [htext, List.length_append]
    omega
  refine ⟨w, hw, ?_⟩
  simp only [cutFrom?, if_neg hinside, hclip, htake, hline]

theorem cutFrom?_cons {text : Text} (htext : text = pre ++ (y ++ (b ++ r))) (hpre : Fresh pre)
    (spans : List (Int × Int)) :
    ∃ kept blanks w rest, Trimmed y kept blanks ∧ LineEnd r w rest ∧
      cutFrom? text pre.length ((↑(pre ++ y).length, ↑(pre ++ (y ++ b)).length) :: spans) =
        (cutFrom? text ↑(pre ++ (y ++ (b ++ w))).length spans).map (kept ++ ·) := by
  obtain ⟨w, hw, hcut⟩ := cutFrom?_span htext spans
  rw [hcut]
  cases hindent : (afterLast '\n' (pre ++ y)).allBlank with
  | true =>
    obtain ⟨kept, hkept⟩ := trimmed_indent hpre hindent
    have hfirst :
        (pre ++ y).length - (afterLast '\n' (pre ++ y)).length = (pre ++ kept).length := by
      have := congrArg List.length hkept.eq
      simp only [List.length_append] at this ⊢
      omega
    have hslice : text.slice pre.length ↑(pre ++ kept).length = kept := by
      rw [htext, hkept.eq, List.append_assoc kept]
      exact slice_append ..
    refine ⟨kept, _, w, _, hkept, hw, ?_⟩
    rw [if_pos rfl, hfirst, hslice]
  | false =>
    have hslice : text.slice pre.length ↑(pre ++ y).length = y := by
      rw [htext]
      exact slice_append ..
    refine ⟨y, [], w, _, ⟨by simp, rfl, by simp, .inl rfl⟩, hw, ?_⟩
    rw [if_neg (by simp), hslice]

end Splice

namespace GenericMethod

open Text Splice

-- ---------------------------------------------------------------------------
-- All cuts
-- ---------------------------------------------------------------------------

variable {length : Nat} {owner : Text} {ms : List GenericMethod} {xs : List Text}
  {b r s w x y kept blanks : Text}

theorem span_eq {text pre : Text} {m : GenericMethod} (htext : text = pre ++ (x ++ (b ++ r)))
    (h : m.span = ⟨offset text.length (b ++ r), offset text.length r⟩) :
    m.span = ⟨(pre ++ x).length, (pre ++ (x ++ b)).length⟩ := by
  simp only [h, htext, offset, List.length_append, Span.mk.injEq]
  omega

theorem Layout.ne_nil (h : Layout length owner s ms xs) : xs ≠ [] := by
  cases h <;> simp

theorem Layout.eq_nil (h : Layout length owner [] ms xs) : ms = [] ∧ xs = [[]] := by
  generalize hs : ([] : Text) = s at h
  cases h with
  | last => exact ⟨rfl, hs ▸ rfl⟩
  | @method x b r m ms xs _ _ hb =>
    simp only [List.nil_eq, List.append_eq_nil_iff] at hs
    rw [hs.2.1] at hb
    cases hb

theorem exists_gap (h : x ++ (b ++ r) = w ++ s) (hw : w.allBlank = true)
    (hb : b.head?.any isNameChar = true) : ∃ y, x = w ++ y ∧ s = y ++ (b ++ r) := by
  obtain ⟨v, rfl, hv⟩ | ⟨v, rfl, hv⟩ := List.append_eq_append_iff.mp h
  · cases v with
    | nil => exact ⟨[], by simp, by simpa using hv.symm⟩
    | cons c v =>
      have hc : isBlank c = true := List.all_eq_true.mp hw c (by simp)
      cases b with
      | nil => cases hb
      | cons d b =>
        obtain ⟨rfl, -⟩ := List.cons.inj hv
        exact absurd (not_isNameChar_of_isBlank hc) (by simpa using hb)
  · exact ⟨v, rfl, hv⟩

theorem splits_kept (h : Splits (w ++ y) (b ++ r)) (hb : b.head?.any isNameChar = true)
    (hw : w.allBlank = true) (hy : Trimmed y kept blanks)
    (hslash : (lexemes (w ++ y)).getLast? ≠ some (.code '/')) (s : Text) : Splits kept s := by
  have hclosed : Closed y := h.closed.drop_blanks hw
  have hplain (c : Char) (hc : c ∈ w) : opensInert c = false :=
    not_opensInert_of_isBlank (List.all_eq_true.mp hw c hc)
  rcases hy.border with rfl | hborder
  · obtain rfl : y = kept := by simpa using hy.eq
    by_cases hnil : y = []
    · rw [hnil]
      exact .nil s
    · have hne : lexemes y ≠ [] := fun h => hnil (lexemes_eq_nil h)
      have hlast : (lexemes (w ++ y)).getLast? = (lexemes y).getLast? := by
        rw [lexemes_append_of_plain hplain, List.getLast?_append,
          Option.or_of_isSome (List.getLast?_isSome.mpr hne)]
      have hhead : (b ++ r).head?.any isNameChar = true := by
        cases b with
        | nil => cases hb
        | cons c b => exact hb
      have hnames := h.names
      rw [namesMeet, meets, hhead, Bool.and_true, hlast] at hnames
      rw [hlast] at hslash
      exact .of_getLast hclosed hnames hslash s
  · rw [hy.eq] at hclosed
    exact .of_line (hclosed.of_blanks hy.allBlank hy.line) hborder s

/-- Copying goes on at `rest`. The blanks `w` at the head of the gap went with the method before
it. -/
theorem Layout.cutFrom? {text : Text} (h : Layout text.length owner s ms xs)
    (hslash : ∀ x ∈ xs.dropLast, (lexemes x).getLast? ≠ some (.code '/')) :
    ∀ pre w rest, text = pre ++ rest → s = w ++ rest → w.allBlank = true →
      rest = [] ∨ Fresh pre →
      ∃ out, cutFrom? text pre.length (ms.map (·.cutSpan)) = some out ∧
        tokens out = xs.flatMap tokens := by
  induction h with
  | last x =>
    intro pre w rest htext hs hw _
    refine ⟨rest, ?_, ?_⟩
    · have hclip : text.clip pre.length = pre.length := clip_natCast (by simp [htext])
      rw [List.map_nil, Splice.cutFrom?, hclip, htext, List.drop_left]
    · rw [List.flatMap_singleton, hs, tokens_blanks_append hw]
  | @method x b r m ms xs hx hmod hb hlast howner hspan hrest ih =>
    intro pre w rest htext hs hw hfresh
    -- the line end of the last cut stops before the next method, which begins with a name
    obtain ⟨y, rfl, rfl⟩ := exists_gap hs hw hb
    rw [List.dropLast_cons_of_ne_nil hrest.ne_nil] at hslash
    obtain ⟨hslash, hslashes⟩ := List.forall_mem_cons.mp hslash
    have hfresh : Fresh pre := by
      refine hfresh.resolve_left fun hnil => ?_
      simp only [List.append_eq_nil_iff] at hnil
      rw [hnil.2.1] at hb
      cases hb
    have hcutSpan : m.cutSpan = (↑(pre ++ y).length, ↑(pre ++ (y ++ b)).length) := by
      rw [cutSpan, span_eq htext hspan]
    obtain ⟨kept, blanks, w', rest', hy, hline, hcut⟩ :=
      cutFrom?_cons htext hfresh (ms.map (·.cutSpan))
    have hfresh' : rest' = [] ∨ Fresh (pre ++ (y ++ (b ++ w'))) := by
      rcases hlast with rfl | hlast
      · exact .inl (List.append_eq_nil_iff.mp hline.eq.symm).2
      · obtain ⟨a, rfl, -⟩ := exists_of_closes hlast
        have hbrace : (pre ++ (y ++ (a ++ ['}']))).getLast? = some '}' := by
          simp [List.getLast?_append]
        simpa using Or.inr (a := rest' = []) (fresh_append hbrace hline)
    obtain ⟨out, hout, htokens⟩ := ih hslashes (pre ++ (y ++ (b ++ w'))) w' rest'
      (by simp [htext, hline.eq]) hline.eq hline.allBlank hfresh'
    have hsplits := splits_kept hx hb hw hy hslash
    refine ⟨kept ++ out, ?_, ?_⟩
    · rw [List.map_cons, hcutSpan, hcut, hout, Option.map_some]
    · rw [(hsplits out).tokens_append, htokens, List.flatMap_cons, tokens_blanks_append hw,
        hy.tokens_eq hsplits]

theorem Layout.offset_le (h : Layout length owner s ms xs) :
    ∀ m ∈ ms, offset length s ≤ m.span.start := by
  induction h with
  | last => simp
  | @method x b r m ms xs _ _ _ _ _ hspan _ ih =>
    intro n hn
    rcases List.mem_cons.mp hn with rfl | hn
    · simp only [hspan, offset, List.length_append]
      omega
    · have := ih n hn
      simp only [offset, List.length_append] at this ⊢
      omega

theorem Layout.pairwise (h : Layout length owner s ms xs) (hs : s.length ≤ length) :
    ms.Pairwise fun m n => m.span.start < n.span.start := by
  induction h with
  | last => exact .nil
  | @method x b r m ms xs _ _ hb _ _ hspan hrest ih =>
    have hpos : 0 < b.length := by
      cases b with
      | nil => cases hb
      | cons c b => exact Nat.succ_pos _
    simp only [List.length_append] at hs
    refine List.pairwise_cons.mpr ⟨fun n hn => ?_, ih (by omega)⟩
    have := hrest.offset_le n hn
    simp only [offset] at this
    simp only [hspan, offset, List.length_append]
    omega

theorem tokens_cut {text : Text} (h : Layout text.length owner text ms xs)
    (hslash : ∀ x ∈ xs.dropLast, (lexemes x).getLast? ≠ some (.code '/')) :
    tokens (cut text (ms.map (·.cutSpan)) 0) = xs.flatMap tokens := by
  have hsorted : (ms.map (·.cutSpan)).Pairwise fun a b =>
      (a.1 < b.1 || (a.1 == b.1 && a.2 ≤ b.2)) = true := by
    refine List.pairwise_map.mpr ((h.pairwise (Nat.le_refl _)).imp ?_)
    intro m n hlt
    simp [cutSpan, hlt]
  obtain ⟨out, hout, htokens⟩ := h.cutFrom? hslash [] [] text rfl rfl rfl (.inr (.inl rfl))
  have hcut : cut? text (ms.map (·.cutSpan)) 0 = some out := by
    simp only [cut?, List.mergeSort_of_pairwise hsorted, Int.sub_zero, List.map_id']
    exact hout
  rw [cut, hcut, Option.getD_some, htokens]

end GenericMethod

namespace Text

def between (t : Text) (i : Nat) : List Span → List Text
  | [] => [t.drop i]
  | sp :: spans => (t.take sp.start).drop i :: between t sp.stop spans

end Text

open Text

theorem GenericMethod.Layout.eq_between {text owner s : Text} {ms : List GenericMethod}
    {xs : List Text} (h : Layout text.length owner s ms xs) :
    ∀ pre, text = pre ++ s → xs = between text pre.length (ms.map (·.span)) := by
  induction h with
  | last x =>
    intro pre htext
    rw [List.map_nil, between, htext, List.drop_left]
  | @method x b r m ms xs _ _ _ _ _ hspan _ ih =>
    intro pre htext
    have hgap : (text.take (pre ++ x).length).drop pre.length = x := by
      rw [htext, ← List.append_assoc, List.take_left, List.drop_left]
    rw [List.map_cons, between, span_eq htext hspan, ← ih (pre ++ (x ++ b)) (by simp [htext]), hgap]

end Monomorph
