import Monomorph.Proofs.Flattening
import Monomorph.Proofs.ScanLaws
import Monomorph.Proofs.UsagePlaces

/-!
# Declarations of variables

A file that holds the declaration of one variable: it declares no class, so it has no template and
no generic method (`read_asDeclaration`), and it uses every instance in the type of the variable
(`Usage.mem_findKnown_asDeclaration`).
-/

namespace Monomorph

-- ---------------------------------------------------------------------------
-- Texts without classes
-- ---------------------------------------------------------------------------

namespace Template

open Text

variable {s n : Text} {c : Char}

def isMark (c : Char) : Bool :=
  c == '<' || c == ',' || c == '>' || c == ';'

/-- No class is declared from here on, whatever stands before. -/
structure Classless (s : Text) : Prop where
  scan : ∀ length run sharing, scan length run sharing false s = .ok []
  name : firstClassName? s = none

theorem classless_nil : Classless [] where
  scan _ _ _ := by
    rw [Template.scan]
    rfl
  name := by
    rw [firstClassName?]
    rfl

theorem isMark_cases (hc : isMark c = true) : c = '<' ∨ c = ',' ∨ c = '>' ∨ c = ';' := by
  simpa [isMark, or_assoc] using hc

theorem Classless.mark (hc : isMark c = true) (h : Classless s) : Classless (c :: s) where
  scan length run sharing := by
    rcases isMark_cases hc with rfl | rfl | rfl | rfl
    all_goals
      rw [Template.scan]
      exact h.scan length none false
  name := by
    rcases isMark_cases hc with rfl | rfl | rfl | rfl
    all_goals
      rw [firstClassName?]
      exact h.name

theorem Classless.blank (h : Classless s) : Classless (' ' :: s) where
  scan length run sharing := by
    rw [Template.scan]
    exact h.scan length run sharing
  name := by
    rw [firstClassName?]
    exact h.name

theorem afterGap_mark (hs : s.head?.any isMark = true) :
    s.afterGap = s ∧ s.nameRun = [] ∧ s.afterNameRun = s := by
  obtain ⟨c, r, rfl⟩ : ∃ c r, s = c :: r := by
    cases s with
    | nil => cases hs
    | cons c r => exact ⟨c, r, rfl⟩
  rcases isMark_cases hs with rfl | rfl | rfl | rfl
  all_goals
    refine ⟨?_, rfl, rfl⟩
    rw [afterGap]
    rfl

theorem readDeclaration_mark (length : Nat) (start keyword : Text)
    (hs : s.head?.any isMark = true) :
    ∃ rest, readDeclaration length start keyword s = .ok (none, rest) ∧ rest.1 = s := by
  obtain ⟨hgap, hrun, hafter⟩ := afterGap_mark hs
  have hnone : (!s.afterGap.nameRun.isName) = true := by
    rw [hgap, hrun]
    rfl
  unfold readDeclaration
  simp only [if_pos hnone]
  exact ⟨_, rfl, by simp only [hgap, hafter]⟩

theorem Classless.word (hn : n.isName = true) (hs : s.head?.any isMark = true)
    (h : Classless s) : Classless (n ++ s) := by
  obtain ⟨hgap, hrun, hrest⟩ := afterGap_mark hs
  have hhead : s.head?.any isNameChar = false := hrest ▸ head_afterNameRun s
  have hnameRun := nameRun_append (all_isNameChar_of_isName hn) hhead
  have hafter := afterNameRun_append (all_isNameChar_of_isName hn) hhead
  obtain ⟨d, m, rfl, hd, -⟩ := isName_iff.mp hn
  have hname := isNameChar_of_isNameStart hd
  have hinert : afterInert? (d :: (m ++ s)) = none :=
    afterInert?_eq_none (not_opensInert_of_isNameChar hname)
  rw [List.cons_append] at hnameRun hafter ⊢
  constructor
  · intro length run sharing
    rw [Template.scan]
    split
    · rename_i heq
      rw [hinert] at heq
      cases heq
    · have hat : d ≠ '@' := by
        rintro rfl
        cases hname
      simp only [not_isBlank_of_isNameChar hname, hat, hname, hd, hnameRun, hafter,
        Bool.false_eq_true, if_false, dif_pos, Bool.not_true]
      split
      · exact h.scan ..
      · split
        · exact h.scan ..
        · -- a class would have its name here
          obtain ⟨rest, hread, hstop⟩ := readDeclaration_mark length
            ((if sharing = true then none else run).getD (d :: (m ++ s))) (d :: (m ++ s))
            (s := afterNameRun (d :: (m ++ s))) (by rw [hafter, hs])
          simp only [hread, hstop.trans hafter, h.scan]
          rfl
  · rw [firstClassName?]
    split
    · rename_i heq
      rw [hinert] at heq
      cases heq
    · simp only [hname, dif_pos, hnameRun, hafter, hgap, hrun, hrest]
      split
      · exact h.name
      · exact h.name

theorem Classless.renderMore {as : List TypeExpr} (hs : s.head?.any isMark = true)
    (h : Classless s) (has : ∀ a ∈ as, ∀ s : Text, s.head?.any isMark = true → Classless s →
      Classless (a.render ++ s)) :
    (TypeExpr.renderMore as ++ s).head?.any isMark = true ∧
      Classless (TypeExpr.renderMore as ++ s) := by
  induction as with
  | nil => exact ⟨hs, h⟩
  | cons a as ih =>
    obtain ⟨ha, has⟩ := List.forall_mem_cons.mp has
    obtain ⟨hhead, hmore⟩ := ih has
    rw [TypeExpr.renderMore]
    simp only [List.append_assoc]
    exact ⟨rfl, ((ha _ hhead hmore).blank).mark rfl⟩

/-- A reference declares no class, even where `class` is one of its names. -/
theorem Classless.render {e : TypeExpr} (he : e.WellFormed)
    (hs : e.isSimple = true → s.head?.any isMark = true) (h : Classless s) :
    Classless (e.render ++ s) := by
  induction e using TypeExpr.induct generalizing s with
  | h n as ih =>
    obtain ⟨hn, has⟩ := TypeExpr.wellFormed_mk.mp he
    cases as with
    | nil => exact h.word hn (hs rfl)
    | cons a as =>
      have hall : ∀ b ∈ a :: as, ∀ s : Text, s.head?.any isMark = true → Classless s →
          Classless (b.render ++ s) := fun b hb s hs h => ih b hb (has b hb) (fun _ => hs) h
      obtain ⟨ha, hall⟩ := List.forall_mem_cons.mp hall
      obtain ⟨hhead, hmore⟩ := Classless.renderMore (s := '>' :: s) rfl (h.mark rfl) hall
      rw [TypeExpr.render_append, TypeExpr.renderList, List.append_assoc]
      exact Classless.word hn rfl (.mark rfl (ha _ hhead hmore))

end Template

-- ---------------------------------------------------------------------------
-- A file with a declaration only
-- ---------------------------------------------------------------------------

def TypeExpr.asDeclaration (e : TypeExpr) : Text :=
  e.render ++ " x;"

variable {e x : TypeExpr} {k path : Text}

theorem classless_asDeclaration (he : e.WellFormed) (hs : e.isSimple = false) :
    Template.Classless e.asDeclaration := by
  refine .render he (fun h => absurd (hs.symm.trans h) Bool.false_ne_true) (.blank ?_)
  exact .word (n := ['x']) rfl rfl (.mark rfl Template.classless_nil)

theorem read_asDeclaration (he : e.WellFormed) (hs : e.isSimple = false) (path : Text) :
    SourceFile.read path e.asDeclaration = .ok ⟨⟨path, e.asDeclaration, []⟩, []⟩ := by
  have hclassless := classless_asDeclaration he hs
  have hfind : Template.find e.asDeclaration = .ok ∅ := by
    rw [Template.find, hclassless.scan]
    rfl
  have hmethods : Declared.methods ⟨path, e.asDeclaration, []⟩ = .ok ∅ := by
    simp only [Declared.methods, hclassless.name]
    rfl
  refine Program.read_eq_ok_iff.mpr ⟨Program.scan_eq_ok_iff.mpr ⟨∅, hfind, rfl⟩, ?_⟩
  rw [Declared.withMethods, hmethods]
  exact congrArg (fun ms => Except.ok (SourceFile.mk _ ms)) List.mergeSort_nil

theorem Usage.mem_findKnown_asDeclaration {known : Text → Bool} (he : e.WellFormed)
    (hs : e.isSimple = false) : (k, x) ∈ (findKnown known e.asDeclaration).entries ↔
      x ∈ e.subterms ∧ x.isInstance known = true ∧ k = x.render := by
  have hrest (text : Text) : scan text " x;" = [] := by
    have hname : Text.afterName ['x', ';'] = [';'] := rfl
    calc scan text " x;" = scan text ['x', ';'] := scan_other (Text.afterInert?_eq_none rfl) rfl
      _ = scan text (Text.afterName ['x', ';']) := scan_name rfl (by simp [hname])
      _ = scan text [] := scan_other (Text.afterInert?_eq_none rfl) rfl
      _ = [] := scan_nil
  obtain ⟨n, gap, args, rfl, hsp⟩ := TypeExpr.exists_applied he hs
  have hscan : unplaced (scan ((Spelling.applied n gap args).text ++ " x;")
      ((Spelling.applied n gap args).text ++ " x;")) =
        (Spelling.applied n gap args).recorded ++ unplaced (scan _ " x;") :=
    scan_reference (a := []) rfl (hsp.not_isComparison " x;")
  rw [hrest, hsp.1] at hscan
  rw [mem_findKnown, TypeExpr.asDeclaration, hscan, TypeExpr.isInstance_iff, unplaced, List.map_nil,
    List.append_nil, hsp.mem_recorded]
  tauto

end Monomorph
