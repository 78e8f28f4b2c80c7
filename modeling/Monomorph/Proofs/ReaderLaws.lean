import Monomorph.Proofs.Spelling

/-!
# Readers accept exactly the spellings

`readArguments` succeeds on a text iff a spelled argument list stands at its head, and then gives
the tree of that spelling with its places. Hence the text of a spelling determines its
expression, and no spelling of a reference is a proper prefix of another.
-/

namespace Monomorph

open Located (readArgumentWith readArguments)

variable {length : Nat} {s : Text}

-- ---------------------------------------------------------------------------
-- One argument
-- ---------------------------------------------------------------------------

theorem offset_append {a t : Text} (h : (a ++ t).length ≤ length) :
    Text.offset length t = Text.offset length (a ++ t) + a.length := by
  simp only [Text.offset, List.length_append] at h ⊢
  omega

/-- What a reader of one argument has found when it succeeds: a name with nothing behind it, or a
name in front of a bracket that `inner` has read on from. -/
theorem readArgumentWith_ok {inner} {l : Located} {r : Rest s} (hl : s.length ≤ length)
    (h : readArgumentWith length s inner = .ok (l, r)) :
    (∃ (b : Blanks) (n : Name) (w : Blanks), s = b.1 ++ (n.1 ++ (w.1 ++ r.1)) ∧
      l = (Spelling.simple n).locate (Text.offset length s + b.1.length)) ∨
    (∃ (b : Blanks) (n : Name) (gap : Blanks) (t : Text) (ht : t.length < s.length)
      (args : List Located) (u : Rest t), s = b.1 ++ (n.1 ++ (gap.1 ++ '<' :: t)) ∧
      inner t ht = .ok (args, u) ∧ r.1 = u.1 ∧
      l = ⟨n.1, ⟨Text.offset length s + b.1.length, Text.offset length u.1⟩, args⟩) := by
  unfold readArgumentWith at h
  split at h
  · cases h
  · rename_i c r' hs
    split at h
    · rename_i hc
      obtain ⟨b, hb, hsb⟩ := s.exists_blanks
      rw [hs] at hsb
      have hn := Text.isName_nameRun (r := r') hc
      have hrun := Text.nameRun_append_afterNameRun (c :: r')
      obtain ⟨w, hw, hrest⟩ := (Text.afterNameRun (c :: r')).exists_blanks
      have ho : Text.offset length (c :: r') = Text.offset length s + b.length := by
        rw [offset_append (a := b) (by rw [← hsb]; exact hl), ← hsb]
      simp only at h
      split at h
      · rename_i t hlt
        split at h
        · rename_i args u hin
          cases h
          refine .inr ⟨⟨b, hb⟩, ⟨_, hn⟩, ⟨w, hw⟩, t, _, args, u, ?_, hin, rfl, by rw [ho]⟩
          rw [← hlt, ← hrest, hrun]
          exact hsb
        · cases h
      · cases h
        refine .inl ⟨⟨b, hb⟩, ⟨_, hn⟩, ⟨w, hw⟩, ?_, ?_⟩
        · rw [← hrest, hrun]
          exact hsb
        · have hle : (Text.nameRun (c :: r') ++ Text.afterNameRun (c :: r')).length ≤ length := by
            rw [hrun]
            have := congrArg List.length hsb
            simp only [List.length_append] at this
            omega
          rw [offset_append hle, hrun, ho]
          rfl
    · cases h

theorem dropBlank_name (b : Blanks) (n : Name) (x : Text) :
    ∃ c r, (b.1 ++ (n.1 ++ x)).dropBlank = c :: r ∧ c :: r = n.1 ++ x ∧ isNameStart c := by
  obtain ⟨c, r, hn, hc, -⟩ := Text.isName_iff.mp n.2
  refine ⟨c, r ++ x, ?_, by rw [hn]; rfl, hc⟩
  rw [Text.dropBlank_append b.2, hn]
  exact Text.dropBlank_of_head (not_isBlank_of_isNameChar (isNameChar_of_isNameStart hc))

theorem head_blanks_append {x : Text} (w : Blanks) (hx : x.head?.any isNameChar = false) :
    (w.1 ++ x).head?.any isNameChar = false :=
  Text.head_append_of_allBlank w.2 hx

theorem readArgumentWith_simple {inner} (b : Blanks) (n : Name) (w : Blanks) {x : Text}
    (hs : s = b.1 ++ (n.1 ++ (w.1 ++ x))) (hl : s.length ≤ length)
    (hn : x.head?.any isNameChar = false) (hb : x.head?.any isBlank = false)
    (ho : x.head? ≠ some '<') :
    ∃ h, readArgumentWith length s inner =
      .ok ((Spelling.simple n).locate (Text.offset length s + b.1.length), ⟨x, h⟩) := by
  obtain ⟨c, r, hd, hcr, hc⟩ := dropBlank_name b n (w.1 ++ x)
  have hall := Text.all_isNameChar_of_isName n.2
  have hrun : Text.nameRun (c :: r) = n.1 := by
    rw [hcr, Text.nameRun_append hall (head_blanks_append w hn)]
  have hafter : Text.afterNameRun (c :: r) = w.1 ++ x := by
    rw [hcr, Text.afterNameRun_append hall (head_blanks_append w hn)]
  have hx : (w.1 ++ x).dropBlank = x := by
    rw [Text.dropBlank_append w.2, Text.dropBlank_of_head hb]
  rw [← hs] at hd
  unfold readArgumentWith
  split
  · rename_i h; rw [hd] at h; cases h
  · rename_i c' r' h
    rw [hd] at h
    cases h
    simp only [hc, dite_true]
    split
    · rename_i t h
      rw [hafter, hx] at h
      rw [h] at ho
      exact absurd rfl ho
    · refine ⟨?_, congrArg Except.ok (Prod.ext ?_ (Subtype.ext ?_))⟩
      · rw [hs]
        have := List.length_pos_iff.mpr (Text.isName_ne_nil n.2)
        simp only [List.length_append]
        omega
      · have hso : Text.offset length (c :: r) = Text.offset length s + b.1.length := by
          rw [hcr, offset_append (a := b.1) (by rw [← hs]; exact hl), ← hs]
        have hro : Text.offset length (w.1 ++ x) = Text.offset length (c :: r) + n.1.length := by
          rw [hcr, offset_append]
          rw [hs] at hl
          simp only [List.length_append] at hl ⊢
          omega
        simp only [hrun, hafter, hro, hso, Spelling.locate]
      · simp only [hafter, hx]

theorem readArgumentWith_applied (inner) (b : Blanks) (n : Name) (gap : Blanks) {t : Text}
    {args : List Located} {u : Rest t} (hs : s = b.1 ++ (n.1 ++ (gap.1 ++ '<' :: t)))
    (hl : s.length ≤ length) (hin : ∀ ht, inner t ht = .ok (args, u)) :
    ∃ h, readArgumentWith length s inner =
      .ok (⟨n.1, ⟨Text.offset length s + b.1.length, Text.offset length u.1⟩, args⟩,
        ⟨u.1, h⟩) := by
  obtain ⟨c, r, hd, hcr, hc⟩ := dropBlank_name b n (gap.1 ++ '<' :: t)
  have hall := Text.all_isNameChar_of_isName n.2
  have hhead := head_blanks_append (x := '<' :: t) gap rfl
  have hrun : Text.nameRun (c :: r) = n.1 := by rw [hcr, Text.nameRun_append hall hhead]
  have hafter : (Text.afterNameRun (c :: r)).dropBlank = '<' :: t := by
    rw [hcr, Text.afterNameRun_append hall hhead, Text.dropBlank_append gap.2]
    exact Text.dropBlank_of_head rfl
  rw [← hs] at hd
  unfold readArgumentWith
  split
  · rename_i h; rw [hd] at h; cases h
  · rename_i c' r' h
    rw [hd] at h
    cases h
    simp only [hc, dite_true]
    split
    · rename_i t' h
      rw [hafter] at h
      cases h
      simp only [hin]
      refine ⟨?_, congrArg Except.ok (Prod.ext ?_ (Subtype.ext rfl))⟩
      · have := u.2
        rw [hs]
        simp only [List.length_append, List.length_cons]
        omega
      · have hso : Text.offset length (c :: r) = Text.offset length s + b.1.length := by
          rw [hcr, offset_append (a := b.1) (by rw [← hs]; exact hl), ← hs]
        simp only [hrun, hso]
    · rename_i h
      exact (h t hafter).elim

-- ---------------------------------------------------------------------------
-- Argument lists
-- ---------------------------------------------------------------------------

/-- Success of a reader of one argument, with the blanks it has stepped over. `sub` says that what
`inner` accepts is spelled. -/
theorem exists_spelling_of_readArgumentWith {inner} {l : Located} {r : Rest s}
    (hl : s.length ≤ length) (h : readArgumentWith length s inner = .ok (l, r))
    (sub : ∀ t ht args u, inner t ht = .ok (args, u) →
      ∃ a : Arguments, t = a.text ++ u.1 ∧ args = a.locate (Text.offset length t)) :
    ∃ (b : Blanks) (sp : Spelling) (w : Blanks), s = b.1 ++ (sp.text ++ (w.1 ++ r.1)) ∧
      l = sp.locate (Text.offset length s + b.1.length) := by
  obtain ⟨b, n, w, hs, rfl⟩ | ⟨b, n, gap, t, ht, args, u, hs, hin, hr, rfl⟩ :=
    readArgumentWith_ok hl h
  · exact ⟨b, .simple n, w, hs, rfl⟩
  · obtain ⟨a, hta, rfl⟩ := sub t ht args u hin
    refine ⟨b, .applied n gap a, Blanks.none, ?_, ?_⟩
    · simp only [Spelling.text, Blanks.none, hr, List.nil_append, List.append_assoc,
        List.cons_append, ← hta]
      exact hs
    · have hst := congrArg List.length hs
      have htt := congrArg List.length hta
      simp only [List.length_append, List.length_cons] at hst htt
      simp only [Spelling.locate, Spelling.text, Text.offset, List.length_append,
        List.length_cons, Located.mk.injEq, Span.mk.injEq, true_and]
      refine ⟨by omega, ?_⟩
      congr 1
      omega

theorem exists_arguments_of_readArguments {length : Nat} {s : Text} {args : List Located}
    {r : Rest s} (hl : s.length ≤ length) (h : readArguments length s = .ok (args, r)) :
    ∃ a : Arguments, s = a.text ++ r.1 ∧ args = a.locate (Text.offset length s) := by
  rw [readArguments] at h
  split at h
  · cases h
  · rename_i l r' hone
    obtain ⟨b, sp, w, hs, rfl⟩ := exists_spelling_of_readArgumentWith hl hone
      fun t ht args u hin => exists_arguments_of_readArguments (by omega) hin
    obtain ⟨v, hv, hr'⟩ := r'.1.exists_blanks
    split at h
    · rename_i t ht
      cases h
      refine ⟨.last b sp (w.append ⟨v, hv⟩), ?_, rfl⟩
      simp only [Arguments.text, Blanks.append, List.append_assoc, List.cons_append,
        List.nil_append]
      rw [← ht, ← hr']
      exact hs
    · rename_i t ht
      simp only at h
      split at h
      · rename_i as u hmore
        cases h
        have hst := congrArg List.length hs
        have hrt := congrArg List.length hr'
        rw [ht] at hrt
        simp only [List.length_append, List.length_cons] at hst hrt
        have hlt : t.length < s.length := by omega
        obtain ⟨a, hta, rfl⟩ := exists_arguments_of_readArguments (by omega) hmore
        refine ⟨.more b sp (w.append ⟨v, hv⟩) a, ?_, ?_⟩
        · simp only [Arguments.text, Blanks.append, List.append_assoc, List.cons_append]
          show s = b.1 ++ (sp.text ++ (w.1 ++ (v ++ ',' :: (a.text ++ u.1))))
          rw [← hta, ← ht, ← hr']
          exact hs
        · simp only [Arguments.locate, Blanks.append, Text.offset, List.length_append]
          congr 2
          omega
      · cases h
    · cases h
    · cases h
termination_by s.length
decreasing_by all_goals assumption

mutual
theorem Spelling.readArgumentWith_text (length : Nat) : (sp : Spelling) → (b w : Blanks) →
    {s x : Text} → s = b.1 ++ (sp.text ++ (w.1 ++ x)) → s.length ≤ length →
    x.head?.any isNameChar = false → x.head?.any isBlank = false → x.head? ≠ some '<' →
    ∃ r : Rest s, r.1.dropBlank = x ∧
      (readArgumentWith length s fun t _ => readArguments length t) =
        .ok (sp.locate (Text.offset length s + b.1.length), r)
  | .simple n, b, w, s, x, hs, hl, hn, hb, ho => by
    obtain ⟨h, hr⟩ := readArgumentWith_simple b n w hs hl hn hb ho
    exact ⟨⟨x, h⟩, Text.dropBlank_of_head hb, hr⟩
  | .applied n gap args, b, w, s, x, hs, hl, hn, hb, ho => by
    have hs' : s = b.1 ++ (n.1 ++ (gap.1 ++ '<' :: (args.text ++ (w.1 ++ x)))) := by
      simpa only [Spelling.text, List.append_assoc, List.cons_append] using hs
    have hlen := congrArg List.length hs'
    simp only [List.length_append, List.length_cons] at hlen
    obtain ⟨h, hr⟩ := args.readArguments_text length (w.1 ++ x)
      (by simp only [List.length_append]; omega)
    obtain ⟨h', hr'⟩ := readArgumentWith_applied (fun t _ => readArguments length t) b n gap hs' hl
      fun _ => hr
    refine ⟨⟨w.1 ++ x, h'⟩, ?_, ?_⟩
    · rw [Text.dropBlank_append w.2, Text.dropBlank_of_head hb]
    · rw [hr']
      refine congrArg Except.ok (Prod.ext ?_ rfl)
      simp only [Spelling.locate, Spelling.text, Text.offset, List.length_append,
        List.length_cons, Located.mk.injEq, Span.mk.injEq, true_and]
      refine ⟨by omega, ?_⟩
      congr 1
      omega
theorem Arguments.readArguments_text (length : Nat) : (args : Arguments) → (rest : Text) →
    (args.text ++ rest).length ≤ length →
    ∃ h, readArguments length (args.text ++ rest) =
      .ok (args.locate (Text.offset length (args.text ++ rest)), ⟨rest, h⟩)
  | .last before arg after, rest, hl => by
    obtain ⟨r, hx, hr⟩ := arg.readArgumentWith_text length before after (x := '>' :: rest)
      (s := (Arguments.last before arg after).text ++ rest)
      (by simp only [Arguments.text, List.append_assoc, List.cons_append, List.nil_append])
      hl rfl rfl (by simp)
    rw [readArguments, hr]
    simp only
    split
    · rename_i t ht
      rw [hx] at ht
      cases ht
      refine ⟨?_, rfl⟩
      simp only [Arguments.text, List.length_append, List.length_cons]
      omega
    · rename_i ht; rw [hx] at ht; cases ht
    · rename_i ht; rw [hx] at ht; cases ht
    · rename_i h _ ht
      rw [hx] at ht
      cases ht
      exact absurd rfl h
  | .more before arg after others, rest, hl => by
    obtain ⟨r, hx, hr⟩ := arg.readArgumentWith_text length before after
      (x := ',' :: (others.text ++ rest))
      (s := (Arguments.more before arg after others).text ++ rest)
      (by simp only [Arguments.text, List.append_assoc, List.cons_append])
      hl rfl rfl (by simp)
    simp only [Arguments.text, List.length_append, List.length_cons] at hl
    obtain ⟨h, hmore⟩ := others.readArguments_text length rest
      (by simp only [List.length_append]; omega)
    rw [readArguments, hr]
    simp only
    split
    · rename_i ht; rw [hx] at ht; cases ht
    · rename_i t ht
      rw [hx] at ht
      cases ht
      simp only [hmore]
      refine ⟨Nat.lt_of_lt_of_le h ?_, congrArg Except.ok (Prod.ext ?_ (Subtype.ext rfl))⟩
      · simp only [Arguments.text, List.length_append, List.length_cons]
        omega
      · simp only [Arguments.locate, Arguments.text, Text.offset, List.length_append,
          List.length_cons]
        congr 2
        omega
    · rename_i ht; rw [hx] at ht; cases ht
    · rename_i _ h ht
      rw [hx] at ht
      cases ht
      exact absurd rfl h
end

-- ---------------------------------------------------------------------------
-- Texts determine spellings
-- ---------------------------------------------------------------------------

theorem Arguments.readArguments_eq (args : Arguments) {rest : Text}
    (hs : s = args.text ++ rest) (hl : s.length ≤ length) :
    ∃ h, readArguments length s = .ok (args.locate (Text.offset length s), ⟨rest, h⟩) := by
  subst hs
  exact args.readArguments_text length rest hl

theorem Arguments.exprs_of_append {a b : Arguments} {x y : Text}
    (h : a.text ++ x = b.text ++ y) : a.exprs = b.exprs ∧ x = y := by
  obtain ⟨_, ha⟩ := a.readArguments_eq rfl (Nat.le_refl _)
  obtain ⟨_, hb⟩ := b.readArguments_eq h (Nat.le_refl _)
  rw [ha] at hb
  injection hb with hb
  injection hb with hab hxy
  refine ⟨?_, congrArg Subtype.val hxy⟩
  rw [← a.toExprs_locate, hab, b.toExprs_locate]

theorem Spelling.expr_of_text {a b : Spelling} (h : a.text = b.text) : a.expr = b.expr := by
  have h' : (Arguments.last Blanks.none a Blanks.none).text ++ [] =
      (Arguments.last Blanks.none b Blanks.none).text ++ [] := by
    simp only [Arguments.text, h]
  simpa only [Arguments.exprs, List.cons.injEq, and_true] using (Arguments.exprs_of_append h').1

/-- Of two references at one place, each closed by its bracket, neither goes on behind the
other. -/
theorem Spelling.applied_of_append {m n : Name} {v w : Blanks} {a b : Arguments} {x y : Text}
    (h : (Spelling.applied m v a).text ++ x = (Spelling.applied n w b).text ++ y) :
    (Spelling.applied m v a).expr = (Spelling.applied n w b).expr ∧ x = y := by
  simp only [Spelling.text, List.append_assoc, List.cons_append] at h
  obtain ⟨hmn, h⟩ := Text.append_inj_of_isName m.2 n.2
    (head_blanks_append v rfl) (head_blanks_append w rfl) h
  have h := congrArg Text.dropBlank h
  rw [Text.dropBlank_append v.2, Text.dropBlank_append w.2, Text.dropBlank_of_head rfl,
    Text.dropBlank_of_head rfl, List.cons.injEq] at h
  obtain ⟨hab, hxy⟩ := Arguments.exprs_of_append h.2
  exact ⟨by rw [Spelling.expr, Spelling.expr, hmn, hab], hxy⟩

theorem TypeExpr.render_inj {e f : TypeExpr} (he : e.WellFormed) (hf : f.WellFormed)
    (h : e.render = f.render) : e = f := by
  obtain ⟨a, rfl, ha, -⟩ := exists_spelling e he
  obtain ⟨b, rfl, hb, -⟩ := exists_spelling f hf
  exact Spelling.expr_of_text (by rw [ha, hb, h])

theorem TypeExpr.exists_applied {e : TypeExpr} (h : e.WellFormed) (hc : e.isSimple = false) :
    ∃ n gap args, (Spelling.applied n gap args).expr = e ∧
      (Spelling.applied n gap args).IsCanonical := by
  obtain ⟨sp, rfl, hsp⟩ := exists_spelling e h
  cases sp with
  | simple n => cases hc
  | applied n gap args => exact ⟨n, gap, args, rfl, hsp⟩

theorem TypeExpr.eq_of_render_append {x y : TypeExpr} {s t : Text} (hx : x.WellFormed)
    (hy : y.WellFormed) (hc : x.isSimple = false) (hs : Closes s)
    (h : x.render ++ t = y.render ++ s) : x = y := by
  cases hsimple : y.isSimple with
  | false =>
    obtain ⟨m, v, a, rfl, ha, -⟩ := exists_applied hx hc
    obtain ⟨n, w, b, rfl, hb, -⟩ := exists_applied hy hsimple
    rw [← ha, ← hb] at h
    exact (Spelling.applied_of_append h).1
  | true =>
    -- behind a simple expression no bracket opens
    obtain ⟨m, _ | ⟨a, as⟩⟩ := x
    · cases hc
    obtain ⟨n, _ | ⟨b, bs⟩⟩ := y
    · rw [render_append, render] at h
      obtain ⟨-, hopen⟩ := Text.append_inj_of_isName (wellFormed_mk.mp hx).1
        (wellFormed_mk.mp hy).1 rfl hs.not_isNameChar h
      exact absurd (hopen ▸ rfl) hs.head_ne
    · cases hsimple

end Monomorph
