import Monomorph.Cursor
import Monomorph.Proofs.ReaderLaws

/-!
# The grammar of references

A text has at most one derivation as an argument list, whatever stands behind it
(`Arguments.eq_of_append`). A cursor on a bracket reads a reference exactly when a prefix of what is
in front of it has one, and each argument, cut out at its span, is read as the same expression again
(`Cursor.readReference_iff_spelled`).
-/

namespace Monomorph

-- ---------------------------------------------------------------------------
-- One derivation for a text
-- ---------------------------------------------------------------------------

theorem Blanks.append_inj {v w : Blanks} {x y : Text} (hx : x.head?.any isBlank = false)
    (hy : y.head?.any isBlank = false) (h : v.1 ++ x = w.1 ++ y) : v = w ∧ x = y := by
  have hxy : x = y := by
    rw [← Text.dropBlank_of_head hx, ← Text.dropBlank_append v.2, h, Text.dropBlank_append w.2,
      Text.dropBlank_of_head hy]
  subst hxy
  exact ⟨Subtype.ext (List.append_cancel_right h), rfl⟩

/-- What can stand behind a spelling without becoming part of it. -/
structure EndsSpelling (x : Text) : Prop where
  noName : x.head?.any isNameChar = false
  noBracket : x.dropBlank.head? ≠ some '<'

theorem mark_cases {c : Char} (hc : c ∈ [',', '>']) :
    isNameChar c = false ∧ isBlank c = false ∧ c ≠ '<' := by
  simp only [List.mem_cons, List.not_mem_nil, or_false] at hc
  rcases hc with rfl | rfl <;> decide

theorem endsSpelling_blanks (w : Blanks) {c : Char} (hc : c ∈ [',', '>']) (x : Text) :
    EndsSpelling (w.1 ++ c :: x) := by
  obtain ⟨hname, hblank, hbracket⟩ := mark_cases hc
  refine ⟨head_blanks_append w hname, ?_⟩
  rw [Text.dropBlank_append w.2, Text.dropBlank_of_head (s := c :: x) hblank]
  simpa using hbracket

theorem Spelling.not_isBlank_head (sp : Spelling) (x : Text) :
    (sp.text ++ x).head?.any isBlank = false := by
  have h := sp.head_text
  cases ht : sp.text with
  | nil => simp [ht] at h
  | cons c r => exact not_isBlank_of_isNameChar (c := c) (by simpa [ht] using h)

theorem Spelling.framed_inj {s s' : Spelling} {v v' w w' : Blanks} {c c' : Char} {x y : Text}
    (hs : ∀ {x y}, EndsSpelling x → EndsSpelling y → s.text ++ x = s'.text ++ y → s = s' ∧ x = y)
    (hc : c ∈ [',', '>']) (hc' : c' ∈ [',', '>'])
    (h : v.1 ++ (s.text ++ (w.1 ++ c :: x)) = v'.1 ++ (s'.text ++ (w'.1 ++ c' :: y))) :
    v = v' ∧ s = s' ∧ w = w' ∧ c = c' ∧ x = y := by
  obtain ⟨hv, harg⟩ := Blanks.append_inj (s.not_isBlank_head _) (s'.not_isBlank_head _) h
  obtain ⟨hss, hafter⟩ := hs (endsSpelling_blanks w hc x) (endsSpelling_blanks w' hc' y) harg
  obtain ⟨hw, hend⟩ := Blanks.append_inj (x := c :: x) (y := c' :: y)
    (mark_cases hc).2.1 (mark_cases hc').2.1 hafter
  obtain ⟨hcc, hxy⟩ := List.cons.inj hend
  exact ⟨hv, hss, hw, hcc, hxy⟩

mutual
theorem Spelling.eq_of_append : (a b : Spelling) → {x y : Text} → EndsSpelling x →
    EndsSpelling y → a.text ++ x = b.text ++ y → a = b ∧ x = y
  | .simple m, .simple n, x, y, hx, hy, h => by
    obtain ⟨hmn, hxy⟩ := Text.append_inj_of_isName m.2 n.2 hx.noName hy.noName h
    exact ⟨by rw [Subtype.ext hmn], hxy⟩
  | .simple m, .applied n w b, x, y, hx, hy, h => by
    simp only [Spelling.text, List.append_assoc, List.cons_append] at h
    -- The names end at one place, and behind that of `m` a bracket would follow.
    obtain ⟨-, rfl⟩ := Text.append_inj_of_isName m.2 n.2 hx.noName (head_blanks_append w rfl) h
    exact absurd (by rw [Text.dropBlank_append w.2]; rfl) hx.noBracket
  | .applied m v a, .simple n, x, y, hx, hy, h => by
    simp only [Spelling.text, List.append_assoc, List.cons_append] at h
    obtain ⟨-, rfl⟩ := Text.append_inj_of_isName m.2 n.2 (head_blanks_append v rfl) hy.noName h
    exact absurd (by rw [Text.dropBlank_append v.2]; rfl) hy.noBracket
  | .applied m v a, .applied n w b, x, y, hx, hy, h => by
    simp only [Spelling.text, List.append_assoc, List.cons_append] at h
    obtain ⟨hname, hgap⟩ := Text.append_inj_of_isName m.2 n.2
      (head_blanks_append v rfl) (head_blanks_append w rfl) h
    obtain ⟨rfl, hargs⟩ := Blanks.append_inj rfl rfl hgap
    obtain ⟨rfl, hxy⟩ := Arguments.eq_of_append a b (List.cons.inj hargs).2
    exact ⟨by rw [Subtype.ext hname], hxy⟩
/-- Of two argument lists at the head of a text neither goes on behind the other, and they have one
derivation. -/
theorem Arguments.eq_of_append : (a b : Arguments) → {x y : Text} →
    a.text ++ x = b.text ++ y → a = b ∧ x = y
  | .last v s w, .last v' s' w', x, y, h => by
    simp only [Arguments.text, List.append_assoc, List.cons_append, List.nil_append] at h
    obtain ⟨rfl, rfl, rfl, -, hxy⟩ :=
      Spelling.framed_inj (Spelling.eq_of_append s s') (by simp) (by simp) h
    exact ⟨rfl, hxy⟩
  | .last v s w, .more v' s' w' b, x, y, h => by
    simp only [Arguments.text, List.append_assoc, List.cons_append, List.nil_append] at h
    obtain ⟨-, -, -, hmark, -⟩ :=
      Spelling.framed_inj (Spelling.eq_of_append s s') (by simp) (by simp) h
    cases hmark
  | .more v s w a, .last v' s' w', x, y, h => by
    simp only [Arguments.text, List.append_assoc, List.cons_append, List.nil_append] at h
    obtain ⟨-, -, -, hmark, -⟩ :=
      Spelling.framed_inj (Spelling.eq_of_append s s') (by simp) (by simp) h
    cases hmark
  | .more v s w a, .more v' s' w' b, x, y, h => by
    simp only [Arguments.text, List.append_assoc, List.cons_append] at h
    obtain ⟨rfl, rfl, rfl, -, hothers⟩ :=
      Spelling.framed_inj (Spelling.eq_of_append s s') (by simp) (by simp) h
    obtain ⟨rfl, hxy⟩ := Arguments.eq_of_append a b hothers
    exact ⟨rfl, hxy⟩
end

theorem Arguments.eq_of_prefixes {a b : Arguments} {s : Text} (ha : '<' :: a.text <+: s)
    (hb : '<' :: b.text <+: s) : a = b := by
  obtain ⟨x, hx⟩ := ha
  obtain ⟨y, hy⟩ := hb
  exact (Arguments.eq_of_append a b (List.cons.inj (hx.trans hy.symm)).2).1

-- ---------------------------------------------------------------------------
-- Reading at a cursor
-- ---------------------------------------------------------------------------

theorem Spelling.readArgument_text (sp : Spelling) :
    ∃ h, Located.readArgument sp.text.length sp.text = .ok (sp.locate 0, ⟨[], h⟩) := by
  have hwhole : Text.offset sp.text.length sp.text = 0 := Nat.sub_self _
  cases sp with
  | simple n =>
    obtain ⟨h, hread⟩ := @readArgumentWith_simple n.1.length n.1
      (fun r _ => Located.readArguments n.1.length r) Blanks.none n Blanks.none []
      (by simp [Blanks.none]) (Nat.le_refl _) rfl rfl nofun
    refine ⟨h, hread.trans ?_⟩
    change Text.offset n.1.length n.1 = 0 at hwhole
    rw [hwhole]
    rfl
  | applied n gap args =>
    have hlength : (Spelling.applied n gap args).text.length =
        n.1.length + gap.1.length + 1 + args.text.length := by
      simp only [Spelling.text, List.length_append, List.length_cons]
      omega
    have hle : args.text.length ≤ (Spelling.applied n gap args).text.length := by omega
    obtain ⟨_, hargs⟩ := args.readArguments_eq (List.append_nil _).symm hle
    obtain ⟨h, hread⟩ := readArgumentWith_applied
      (fun r _ => Located.readArguments (Spelling.applied n gap args).text.length r)
      Blanks.none n gap (s := (Spelling.applied n gap args).text) rfl (Nat.le_refl _)
      fun _ => hargs
    refine ⟨h, hread.trans ?_⟩
    have hinner : Text.offset (Spelling.applied n gap args).text.length args.text =
        0 + n.1.length + gap.1.length + 1 := by
      rw [Text.offset, hlength]
      omega
    rw [hwhole, hinner]
    simp only [Spelling.locate, Blanks.none, Text.offset, List.length_nil, Nat.sub_zero,
      Nat.zero_add, Nat.add_zero]

namespace Cursor

variable {c : Cursor} {args : Arguments}

theorem rest_append (before s : Text) : rest ⟨before ++ s, before.length⟩ = s := by
  have hpos : ¬(before.length : Int) < 0 := by omega
  simp [rest, hpos]

theorem exists_before {r : Text} (h : c.rest = '<' :: r) :
    ∃ before : Text, c = ⟨before ++ '<' :: r, before.length⟩ := by
  obtain ⟨text, pos⟩ := c
  unfold rest at h
  split at h
  · cases h
  · rename_i hpos
    have hlength := congrArg List.length h
    simp only [List.length_drop, List.length_cons] at hlength
    refine ⟨text.take pos.toNat, ?_⟩
    rw [← h, List.take_append_drop, List.length_take, mk.injEq]
    exact ⟨rfl, by simp only at hpos hlength; omega⟩

def spelled (c : Cursor) (name : Text) (start : Option Int) (args : Arguments) : Reference where
  name
  start := start.getD (c.pos - name.length)
  stop := c.pos + ('<' :: args.text).length
  args := args.locate (c.pos.toNat + 1)

theorem toExpr_spelled (c : Cursor) (name : Text) (start : Option Int) (args : Arguments) :
    (c.spelled name start args).toExpr = ⟨name, args.exprs⟩ :=
  congrArg (TypeExpr.mk name) (args.toExprs_locate _)

theorem readBracket_spelled (length : Nat) (args : Arguments) (x : Text)
    (hl : (args.text ++ x).length ≤ length) : ∃ h,
    Located.readBracket length ('<' :: (args.text ++ x)) =
      .ok (args.locate (Text.offset length (args.text ++ x)), ⟨x, h⟩) := by
  obtain ⟨h, hread⟩ := args.readArguments_text length x hl
  exact ⟨Nat.lt_succ_of_lt h, by simp only [Located.readBracket, hread]; rfl⟩

theorem readReference_of_bracket {s : Text} {as : List Located} {r : Rest s} (name : Text)
    (start : Option Int) (hs : c.rest = s)
    (h : Located.readBracket c.text.length s = .ok (as, r)) : c.readReference name start =
      (.ok ⟨name, start.getD (c.pos - name.length), (c.moveTo r.1).pos, as⟩, c.moveTo r.1) := by
  subst hs
  simp only [readReference, h]

theorem readReference_of_spelled (name : Text) (start : Option Int)
    (h : '<' :: args.text <+: c.rest) : c.readReference name start =
      (.ok (c.spelled name start args), c.seek (c.pos + ('<' :: args.text).length)) := by
  obtain ⟨x, hx⟩ := h
  obtain ⟨before, rfl⟩ := exists_before hx.symm
  obtain ⟨h, hread⟩ := readBracket_spelled (before ++ '<' :: (args.text ++ x)).length args x
    (by simp only [List.length_append, List.length_cons]; omega)
  have hmove : moveTo ⟨before ++ '<' :: (args.text ++ x), before.length⟩ x =
      seek ⟨before ++ '<' :: (args.text ++ x), before.length⟩
        (before.length + ('<' :: args.text).length) := by
    simp only [moveTo, rest_append, seek, List.length_append, List.length_cons, mk.injEq, true_and]
    omega
  have hoffset : Text.offset (before ++ '<' :: (args.text ++ x)).length (args.text ++ x) =
      before.length + 1 := by
    simp only [Text.offset, List.length_append, List.length_cons]
    omega
  refine (readReference_of_bracket name start (rest_append ..) hread).trans ?_
  rw [hmove, hoffset]
  rfl

theorem exists_readArguments_of_bracket {length : Nat} {s : Text} {as : List Located} {r : Rest s}
    (h : Located.readBracket length s = .ok (as, r)) :
    ∃ t u, s = '<' :: t ∧ Located.readArguments length t = .ok (as, u) := by
  unfold Located.readBracket at h
  split at h
  · split at h
    · cases h
      exact ⟨_, _, rfl, ‹_›⟩
    · cases h
  · cases h

theorem prefix_of_readReference {name : Text} {start : Option Int} {ref : Reference} {d : Cursor}
    (h : c.readReference name start = (.ok ref, d)) :
    ∃ args : Arguments, '<' :: args.text <+: c.rest := by
  unfold readReference at h
  split at h
  · rename_i as r hread
    obtain ⟨t, u, hrest, hargs⟩ := exists_readArguments_of_bracket hread
    have hle : t.length ≤ c.text.length := by
      obtain ⟨before, rfl⟩ := exists_before hrest
      simp only [List.length_append, List.length_cons]
      omega
    obtain ⟨args, ht, -⟩ := exists_arguments_of_readArguments hle hargs
    exact ⟨args, u.1, by rw [hrest]; exact congrArg ('<' :: ·) ht.symm⟩
  · cases h

/-- A text on its own is read to its end as one argument, with the expression `e`. -/
def ReadsAs (s : Text) (e : TypeExpr) : Prop :=
  ∃ l, readArgument ⟨s, 0⟩ = (.ok l, ⟨s, s.length⟩) ∧ l.toExpr = e

theorem readArgument_of_located {s : Text} {l : Located} {r : Rest s} (hs : c.rest = s)
    (h : Located.readArgument c.text.length s = .ok (l, r)) :
    c.readArgument = (.ok l, c.moveTo r.1) := by
  subst hs
  simp only [readArgument, h]

theorem readsAs_spelling (sp : Spelling) : ReadsAs sp.text sp.expr := by
  have hrest : rest ⟨sp.text, 0⟩ = sp.text := rest_append [] sp.text
  have hmove : moveTo ⟨sp.text, 0⟩ [] = ⟨sp.text, sp.text.length⟩ := by
    simp [moveTo, hrest]
  obtain ⟨h, hread⟩ := sp.readArgument_text
  refine ⟨sp.locate 0, ?_, sp.toExpr_locate 0⟩
  rw [readArgument_of_located hrest hread, hmove]

theorem readsAs_of_nested (h : '<' :: args.text <+: c.rest) {l : Located}
    (hl : l ∈ Located.nestedAll (args.locate (c.pos.toNat + 1))) :
    ReadsAs ((c.text.take l.span.stop).drop l.span.start) l.toExpr := by
  obtain ⟨x, hx⟩ := h
  obtain ⟨before, rfl⟩ := exists_before hx.symm
  -- The spans point into the whole text, so the bracket belongs to what stands before.
  have hliterals := args.literals_nested (before ++ ['<']) x
  simp only [List.length_append, List.length_singleton, List.append_assoc, List.singleton_append]
    at hliterals
  obtain ⟨sp, -, hsp⟩ := List.mem_map.mp (hliterals ▸ List.mem_map_of_mem hl)
  obtain ⟨htext, hexpr⟩ := Prod.mk.inj hsp
  have hreads := readsAs_spelling sp
  rw [htext, hexpr] at hreads
  exact hreads

/-- A cursor reads a reference exactly when the grammar derives a prefix of what is in front of it.
There is only one such derivation. The cursor then stands behind the prefix, the result is the tree
of the derivation with its places, and every argument at any depth is what stands at its span. -/
theorem readReference_iff_spelled (c : Cursor) (name : Text) (start : Option Int) :
    ((∃ ref d, c.readReference name start = (.ok ref, d)) ↔
      ∃ args : Arguments, '<' :: args.text <+: c.rest) ∧
    ∀ args : Arguments, '<' :: args.text <+: c.rest →
      (∀ other : Arguments, '<' :: other.text <+: c.rest → other = args) ∧
      c.readReference name start =
        (.ok (c.spelled name start args), c.seek (c.pos + ('<' :: args.text).length)) ∧
      (c.spelled name start args).toExpr = ⟨name, args.exprs⟩ ∧
      ∀ l ∈ Located.nestedAll (c.spelled name start args).args,
        ReadsAs ((c.text.take l.span.stop).drop l.span.start) l.toExpr := by
  refine ⟨⟨?_, ?_⟩, fun args h => ⟨fun other ho => ?_, ?_, ?_, fun l hl => ?_⟩⟩
  · rintro ⟨ref, d, h⟩
    exact prefix_of_readReference h
  · rintro ⟨args, h⟩
    exact ⟨_, _, readReference_of_spelled name start h⟩
  · exact Arguments.eq_of_prefixes ho h
  · exact readReference_of_spelled name start h
  · exact c.toExpr_spelled name start args
  · exact readsAs_of_nested h hl

theorem readReference_iff_spelled_nested :
    let c : Cursor := ⟨"Map < String,\tList<A_1> >> m", 4⟩
    let args : Arguments :=
      .more .space (.simple ⟨"String", rfl⟩) .none
        (.last ⟨"\t", rfl⟩ (.applied ⟨"List", rfl⟩ .none
          (.last .none (.simple ⟨"A_1", rfl⟩) .none)) .space)
    '<' :: args.text <+: c.rest ∧
      (∀ other : Arguments, '<' :: other.text <+: c.rest → other = args) ∧
      c.readReference "Map" (some 0) = (.ok (c.spelled "Map" (some 0) args), c.seek 25) ∧
      ReadsAs "List<A_1>" ⟨"List", [⟨"A_1", []⟩]⟩ := by
  intro c args
  have h : '<' :: args.text <+: c.rest := by decide
  obtain ⟨hunique, hread, -, hnested⟩ := (readReference_iff_spelled c "Map" (some 0)).2 args h
  refine ⟨h, hunique, hread, ?_⟩
  have hmem : (Located.mk "List" ⟨14, 23⟩ [⟨"A_1", ⟨19, 22⟩, []⟩]) ∈
      Located.nestedAll (c.spelled "Map" (some 0) args).args := .tail _ (.head _)
  exact hnested _ hmem

end Cursor

end Monomorph
