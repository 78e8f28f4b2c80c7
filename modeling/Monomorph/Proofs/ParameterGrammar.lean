import Monomorph.Proofs.ReferenceGrammar
import Monomorph.Proofs.TokenReaders

/-!
# The grammar of type parameter lists

A list of type parameters has letters in angle brackets, with blanks around them and commas between
them (`Listing`). A cursor reads such a list exactly when one stands in front of it with no further
bracket behind it and, where that is asked, with no letter that comes twice. Anything else is
refused as a fault of the source (`Cursor.readParameters_iff_lists`).
-/

namespace Monomorph

abbrev Letter := { c : Char // c.isAlpha = true }

/-- A list of type parameters as it can stand in source. -/
inductive Listing where
  | last (before : Blanks) (letter : Letter) (after : Blanks)
  | more (before : Blanks) (letter : Letter) (after : Blanks) (others : Listing)

namespace Listing

def text : Listing → Text
  | last before letter after => before.1 ++ letter.1 :: (after.1 ++ ['>'])
  | more before letter after others => before.1 ++ letter.1 :: (after.1 ++ ',' :: others.text)

def names : Listing → List Text
  | last _ letter _ => [[letter.1]]
  | more _ letter _ others => [letter.1] :: others.names

-- ---------------------------------------------------------------------------
-- The first parameter of a list
-- ---------------------------------------------------------------------------

theorem split_letter (b : Blanks) (a : Letter) (w : Blanks) {c : Char} (hc : c ∈ [',', '>'])
    (x : Text) : Text.nameRun (Text.dropBlank (b.1 ++ a.1 :: (w.1 ++ c :: x))) = [a.1] ∧
      (Text.afterNameRun (Text.dropBlank (b.1 ++ a.1 :: (w.1 ++ c :: x)))).dropBlank = c :: x := by
  obtain ⟨hname, hblank, -⟩ := mark_cases hc
  have ha : isNameChar a.1 = true := by simp [isNameChar, Char.isAlphanum, a.2]
  have hall : List.all [a.1] isNameChar = true := by simp [ha]
  have hhead := head_blanks_append (x := c :: x) w hname
  have hdrop : Text.dropBlank (b.1 ++ a.1 :: (w.1 ++ c :: x)) = [a.1] ++ (w.1 ++ c :: x) := by
    rw [Text.dropBlank_append b.2]
    exact Text.dropBlank_of_head (not_isBlank_of_isNameChar ha)
  rw [hdrop]
  refine ⟨Text.nameRun_append hall hhead, ?_⟩
  rw [Text.afterNameRun_append hall hhead, Text.dropBlank_append w.2]
  exact Text.dropBlank_of_head (s := c :: x) hblank

theorem exists_first {l : Listing} {s x : Text} (hs : s = l.text ++ x) :
    ∃ (a : Letter) (ns : List Text), l.names = [a.1] :: ns ∧ s.dropBlank.nameRun = [a.1] ∧
      (ns = [] ∧ s.dropBlank.afterNameRun.dropBlank = '>' :: x ∨
        ∃ others : Listing, ns = others.names ∧
          s.dropBlank.afterNameRun.dropBlank = ',' :: (others.text ++ x)) := by
  subst hs
  cases l with
  | last b a w =>
    obtain ⟨hrun, hafter⟩ := split_letter b a w (c := '>') (by simp) x
    refine ⟨a, [], rfl, ?_⟩
    simp only [text, List.append_assoc, List.cons_append, List.nil_append]
    exact ⟨hrun, .inl ⟨trivial, hafter⟩⟩
  | more b a w others =>
    obtain ⟨hrun, hafter⟩ := split_letter b a w (c := ',') (by simp) (others.text ++ x)
    refine ⟨a, others.names, rfl, ?_⟩
    simp only [text, List.append_assoc, List.cons_append]
    exact ⟨hrun, .inr ⟨others, rfl, hafter⟩⟩

end Listing

-- ---------------------------------------------------------------------------
-- The reader behind the opening bracket
-- ---------------------------------------------------------------------------

namespace Parameters

variable {distinct : Bool} {seen params : List Text} {s x : Text}

/-- Names that may be read behind those in `seen`. -/
def Fresh (distinct : Bool) (seen names : List Text) : Prop :=
  distinct = true → names.Nodup ∧ ∀ n ∈ names, n ∉ seen

theorem fresh_cons {n : Text} {ns : List Text} : Fresh distinct seen (n :: ns) ↔
    ¬(distinct && seen.contains n) = true ∧ Fresh distinct (seen ++ [n]) ns := by
  cases distinct with
  | false => simp [Fresh]
  | true =>
    simp only [Fresh, List.nodup_cons, List.forall_mem_cons, List.mem_append, List.mem_singleton,
      Bool.true_and, List.contains_iff_mem, forall_const]
    grind

theorem exists_letter (hlength : ¬s.dropBlank.nameRun.length ≠ 1)
    (halpha : ¬(!s.dropBlank.nameRun.all Char.isAlpha) = true) :
    ∃ (b : Blanks) (a : Letter) (w : Blanks), s.dropBlank.nameRun = [a.1] ∧
      s = b.1 ++ a.1 :: (w.1 ++ s.dropBlank.afterNameRun.dropBlank) := by
  obtain ⟨a, ha⟩ := List.length_eq_one_iff.mp (Decidable.not_not.mp hlength)
  obtain ⟨b, hb, hs⟩ := s.exists_blanks
  obtain ⟨w, hw, hrest⟩ := s.dropBlank.afterNameRun.exists_blanks
  have hletter : a.isAlpha = true := by simpa [ha] using halpha
  have hrun := s.dropBlank.nameRun_append_afterNameRun
  rw [ha, hrest] at hrun
  refine ⟨⟨b, hb⟩, ⟨a, hletter⟩, ⟨w, hw⟩, ha, ?_⟩
  rw [← hrun] at hs
  exact hs

theorem exists_listing_of_readMore {t : Rest s} (h : readMore distinct seen s = .ok (params, t)) :
    ∃ l : Listing, s = l.text ++ t.1 ∧ t.1.head? ≠ some '>' ∧ l.names = params ∧
      Fresh distinct seen params := by
  fun_induction readMore distinct seen s generalizing params with
  | case1 | case2 | case3 | case4 | case5 | case6 | case9 | case10 => cases h
  | case7 seen s =>
    rename_i r hnext _ _ _ _ hlength halpha hseen _ hb
    obtain ⟨b, a, w, hrun, hs⟩ := exists_letter hlength halpha
    cases h
    refine ⟨.last b a w, ?_, ?_, congrArg (fun n => [n]) hrun.symm,
      fresh_cons.mpr ⟨hseen, fun _ => ⟨.nil, by simp⟩⟩⟩
    · rw [show s.dropBlank.afterNameRun.dropBlank = '>' :: r from hb] at hs
      simpa [Listing.text] using hs
    · intro hhead
      obtain ⟨r', rfl⟩ := List.head?_eq_some_iff.mp hhead
      exact hnext r' rfl
  | case8 seen s =>
    rename_i r _ _ _ _ _ _ hlength halpha hseen _ hb _ hmore ih
    obtain ⟨b, a, w, hrun, hs⟩ := exists_letter hlength halpha
    obtain ⟨others, hr, hnext, hnames, hfresh⟩ := ih hmore
    cases h
    refine ⟨.more b a w others, ?_, hnext, ?_, fresh_cons.mpr ⟨hseen, hfresh⟩⟩
    · rw [show s.dropBlank.afterNameRun.dropBlank = ',' :: r from hb] at hs
      simp only [Listing.text, List.append_assoc, List.cons_append]
      exact hr ▸ hs
    · rw [Listing.names, hnames, ← hrun]

theorem readMore_listing (l : Listing) (hs : s = l.text ++ x) (hx : x.head? ≠ some '>')
    (hfresh : Fresh distinct seen l.names) :
    ∃ h, readMore distinct seen s = .ok (l.names, ⟨x, h⟩) := by
  fun_induction readMore distinct seen s generalizing l with
  | case1 =>
    rename_i hopen
    obtain ⟨a, ns, -, hrun, -⟩ := Listing.exists_first hs
    rw [hopen] at hrun
    cases hrun
  | case2 =>
    rename_i hnil
    obtain ⟨a, ns, -, hrun, -⟩ := Listing.exists_first hs
    cases hrun.symm.trans hnil
  | case3 =>
    rename_i hlength
    obtain ⟨a, ns, -, hrun, -⟩ := Listing.exists_first hs
    exact absurd (congrArg List.length hrun) hlength
  | case4 =>
    rename_i param _ _ _ halpha
    obtain ⟨a, ns, -, hrun, -⟩ := Listing.exists_first hs
    rw [show param = [a.1] from hrun, List.all_cons, a.2] at halpha
    cases halpha
  | case5 =>
    rename_i param _ _ _ _ hseen
    obtain ⟨a, ns, hnames, hrun, -⟩ := Listing.exists_first hs
    rw [show param = [a.1] from hrun] at hseen
    exact absurd hseen (fresh_cons.mp (hnames ▸ hfresh)).1
  | case6 =>
    rename_i hb
    obtain ⟨a, ns, -, -, ⟨-, hmark⟩ | ⟨others, -, hmark⟩⟩ := Listing.exists_first hs
    · cases hmark.symm.trans hb
      exact absurd rfl hx
    · cases hmark.symm.trans hb
  | case7 =>
    rename_i hb
    obtain ⟨a, ns, hnames, hrun, ⟨rfl, hmark⟩ | ⟨others, -, hmark⟩⟩ := Listing.exists_first hs
    · cases hmark.symm.trans hb
      rw [hnames, ← hrun]
      exact ⟨_, rfl⟩
    · cases hmark.symm.trans hb
  | case8 =>
    rename_i hb _ hmore ih
    obtain ⟨a, ns, hnames, hrun, ⟨-, hmark⟩ | ⟨others, rfl, hmark⟩⟩ := Listing.exists_first hs
    · cases hmark.symm.trans hb
    · cases hmark.symm.trans hb
      rw [hnames] at hfresh ⊢
      obtain ⟨-, hfresh⟩ := fresh_cons.mp hfresh
      rw [← hrun] at hfresh ⊢
      obtain ⟨h, hothers⟩ := ih others rfl hfresh
      cases hmore.symm.trans hothers
      exact ⟨_, rfl⟩
  | case9 =>
    rename_i hb _ hmore ih
    obtain ⟨a, ns, hnames, hrun, ⟨-, hmark⟩ | ⟨others, rfl, hmark⟩⟩ := Listing.exists_first hs
    · cases hmark.symm.trans hb
    · cases hmark.symm.trans hb
      rw [hnames] at hfresh
      obtain ⟨-, hfresh⟩ := fresh_cons.mp hfresh
      rw [← hrun] at hfresh
      obtain ⟨h, hothers⟩ := ih others rfl hfresh
      cases hmore.symm.trans hothers
  | case10 =>
    rename_i _ hclosing hcomma
    obtain ⟨a, ns, -, -, ⟨-, hmark⟩ | ⟨others, -, hmark⟩⟩ := Listing.exists_first hs
    · exact (hclosing _ hmark).elim
    · exact (hcomma _ hmark).elim

theorem category_of_readMore {f : Fault} (h : readMore distinct seen s = .error f) :
    f.issue.code.category = .source := by
  fun_induction readMore distinct seen s with
  | case7 | case8 => cases h
  | case9 =>
    rename_i hmore ih
    cases h
    exact ih hmore
  | case1 | case2 | case3 | case4 | case5 | case6 | case10 =>
    cases h
    rfl

-- ---------------------------------------------------------------------------
-- The whole list
-- ---------------------------------------------------------------------------

theorem exists_listing_of_read {t : Rest s} (h : read distinct s = .ok (params, t)) :
    ∃ l : Listing, s = '<' :: (l.text ++ t.1) ∧ t.1.head? ≠ some '>' ∧ l.names = params ∧
      (distinct = true → params.Nodup) := by
  unfold read at h
  split at h
  · cases h
  · split at h
    · rename_i hmore
      cases h
      obtain ⟨l, hs, hnext, hnames, hfresh⟩ := exists_listing_of_readMore hmore
      exact ⟨l, congrArg _ hs, hnext, hnames, fun hd => (hfresh hd).1⟩
    · cases h
  · cases h

theorem read_listing (l : Listing) (hs : s = '<' :: (l.text ++ x)) (hx : x.head? ≠ some '>')
    (hnodup : distinct = true → l.names.Nodup) :
    ∃ h, read distinct s = .ok (l.names, ⟨x, h⟩) := by
  have hmore {r : Text} (hr : '<' :: r = '<' :: (l.text ++ x)) :
      ∃ h, readMore distinct [] r = .ok (l.names, ⟨x, h⟩) :=
    readMore_listing l (List.cons.inj hr).2 hx fun hd => ⟨hnodup hd, by simp⟩
  fun_cases read distinct s with
  | case1 r =>
    -- only blanks stand before the first letter
    obtain ⟨a, ns, -, hrun, -⟩ := Listing.exists_first (List.cons.inj hs).2
    cases hrun
  | case2 r hone params t hread =>
    obtain ⟨h, hnames⟩ := hmore hs
    cases hread.symm.trans hnames
    rw [read, hread]
    · exact ⟨_, rfl⟩
    · exact hone
  | case3 r hone f hread =>
    obtain ⟨h, hnames⟩ := hmore hs
    cases hread.symm.trans hnames
  | case4 _ _ hopen => exact (hopen _ hs).elim

theorem category_of_read {f : Fault} (h : read distinct s = .error f) :
    f.issue.code.category = .source := by
  unfold read at h
  split at h
  · cases h
    rfl
  · split at h
    · cases h
    · rename_i hmore
      cases h
      exact category_of_readMore hmore
  · cases h
    rfl

end Parameters

-- ---------------------------------------------------------------------------
-- Reading at a cursor
-- ---------------------------------------------------------------------------

namespace Cursor

variable {c : Cursor} {l : Listing} {distinct : Bool}

/-- A list stands in front of the cursor, and no further bracket behind it. -/
def Lists (c : Cursor) (l : Listing) : Prop :=
  ∃ before after, c.text = before ++ '<' :: (l.text ++ after) ∧ c.pos = before.length ∧
    after.head? ≠ some '>'

theorem lists_iff : c.Lists l ↔ ∃ after, c.rest = '<' :: (l.text ++ after) ∧
    after.head? ≠ some '>' := by
  constructor
  · rintro ⟨before, after, htext, hpos, hafter⟩
    obtain rfl : c = ⟨before ++ '<' :: (l.text ++ after), before.length⟩ := by
      rw [← htext, ← hpos]
    exact ⟨after, rest_append .., hafter⟩
  · rintro ⟨after, hrest, hafter⟩
    obtain ⟨before, rfl⟩ := exists_before hrest
    exact ⟨before, after, rfl, rfl, hafter⟩

theorem exists_lists_of_readParameters {names : List Text} {d : Cursor}
    (h : c.readParameters distinct = (.ok names, d)) :
    ∃ l : Listing, c.Lists l ∧ (distinct = true → l.names.Nodup) := by
  unfold readParameters at h
  split at h
  · rename_i hread
    cases h
    obtain ⟨l, hrest, hnext, rfl, hnodup⟩ := Parameters.exists_listing_of_read hread
    exact ⟨l, lists_iff.mpr ⟨_, hrest, hnext⟩, hnodup⟩
  · cases h

theorem category_of_readParameters {f : Failure} {d : Cursor}
    (h : c.readParameters distinct = (.error f, d)) : f.issue.code.category = .source := by
  unfold readParameters at h
  split at h
  · cases h
  · rename_i hread
    cases h
    exact Parameters.category_of_read hread

theorem readParameters_of_read {s : Text} {names : List Text} {r : Rest s} (hs : c.rest = s)
    (h : Parameters.read distinct s = .ok (names, r)) :
    c.readParameters distinct = (.ok names, c.moveTo r.1) := by
  subst hs
  simp only [readParameters, h]

theorem readParameters_of_lists (h : c.Lists l) (hnodup : distinct = true → l.names.Nodup) :
    c.readParameters distinct = (.ok l.names, c.seek (c.pos + ('<' :: l.text).length)) := by
  obtain ⟨after, hrest, hafter⟩ := lists_iff.mp h
  obtain ⟨hlt, hread⟩ := Parameters.read_listing l hrest hafter hnodup
  rw [readParameters_of_read rfl hread]
  simp only [moveTo, hrest, seek, List.length_append, List.length_cons, Prod.mk.injEq, mk.injEq,
    true_and]
  omega

/-- A cursor reads a list of parameters exactly when one stands in front of it, with no further
bracket behind it and, where `distinct` asks for that, with no letter that comes twice. The cursor
then stands behind the list. Anything else is refused as a fault of the source. -/
theorem readParameters_iff_lists (c : Cursor) (distinct : Bool) :
    (∀ names d, c.readParameters distinct = (.ok names, d) ↔
      ∃ l : Listing, c.Lists l ∧ (distinct = true → l.names.Nodup) ∧ names = l.names ∧
        d = c.seek (c.pos + ('<' :: l.text).length)) ∧
    ((¬∃ l : Listing, c.Lists l ∧ (distinct = true → l.names.Nodup)) →
      ∃ f d, c.readParameters distinct = (.error f, d) ∧ f.issue.code.category = .source) := by
  refine ⟨fun names d => ⟨fun h => ?_, ?_⟩, fun hnone => ?_⟩
  · obtain ⟨l, hl, hnodup⟩ := exists_lists_of_readParameters h
    rw [readParameters_of_lists hl hnodup] at h
    cases h
    exact ⟨l, hl, hnodup, rfl, rfl⟩
  · rintro ⟨l, hl, hnodup, rfl, rfl⟩
    exact readParameters_of_lists hl hnodup
  · cases h : c.readParameters distinct with
    | mk result d =>
      cases result with
      | ok names => exact absurd (exists_lists_of_readParameters h) hnone
      | error f => exact ⟨f, d, rfl, category_of_readParameters h⟩

/-- Two letters with blanks around them, and a list that is refused for the bracket behind it. -/
theorem readParameters_iff_lists_spaced :
    let c : Cursor := ⟨"class Box< K,\tV > {}", 9⟩
    let l : Listing := .more .space ⟨'K', rfl⟩ .none (.last ⟨"\t", rfl⟩ ⟨'V', rfl⟩ .space)
    let doubled : Cursor := ⟨"<T>> x", 0⟩
    c.Lists l ∧ l.names.Nodup ∧
      c.readParameters true = (.ok ["K".toList, "V".toList], c.seek 17) ∧
      (¬∃ l : Listing, doubled.Lists l ∧ (true = true → l.names.Nodup)) ∧
      ∃ f d, doubled.readParameters true = (.error f, d) ∧ f.issue.code.category = .source := by
  intro c l doubled
  have hlists : c.Lists l := ⟨"class Box", " {}", by decide, by decide, by decide⟩
  have hnodup : l.names.Nodup := by decide
  have hread := ((readParameters_iff_lists c true).1 _ _).mpr
    ⟨l, hlists, fun _ => hnodup, rfl, rfl⟩
  have hrefused : (doubled.readParameters true).1.toOption = none := by decide +kernel
  have hnone : ¬∃ l : Listing, doubled.Lists l ∧ (true = true → l.names.Nodup) := by
    rintro ⟨l, hl, hn⟩
    rw [((readParameters_iff_lists doubled true).1 _ _).mpr ⟨l, hl, hn, rfl, rfl⟩] at hrefused
    cases hrefused
  exact ⟨hlists, hnodup, hread, hnone, (readParameters_iff_lists doubled true).2 hnone⟩

end Cursor

end Monomorph
