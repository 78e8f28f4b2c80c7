import Monomorph.Proofs.TypeExprLaws

/-!
# Concrete names tell expressions apart

A concrete name has nothing between the names it is made of. Where every name has one capital, at its
start, the capitals show where names begin, and where every name takes a fixed number of arguments,
these numbers show which names are arguments of which. Such expressions are told by their concrete
names (`mangle_eq_iff`).
-/

namespace Monomorph

/-- A capital and no other behind it. With the uppercase letters as `capital`, every name of an
uppercase letter and then lowercase letters and digits is one. -/
def Text.isCapitalized (capital : Char → Bool) : Text → Bool
  | [] => false
  | c :: r => capital c && r.all (!capital ·)

namespace TypeExpr

variable {capital : Char → Bool} {arity : Text → Nat} {e f : TypeExpr} {m n s t : Text}
  {as bs : List TypeExpr}

/-- Every name in the expression is capitalized and has as many arguments as `arity` gives it. -/
def Fits (capital : Char → Bool) (arity : Text → Nat) (e : TypeExpr) : Prop :=
  ∀ x ∈ e.subterms, x.name.isCapitalized capital = true ∧ x.args.length = arity x.name

instance : Decidable (Fits capital arity e) :=
  inferInstanceAs (Decidable (∀ x ∈ e.subterms, _))

theorem fits_mk : Fits capital arity ⟨n, as⟩ ↔
    (n.isCapitalized capital = true ∧ as.length = arity n) ∧ ∀ a ∈ as, a.Fits capital arity :=
  forall_mem_subterms_mk

/-- What can stand behind a name: nothing, or the capital of the next one. -/
def Ends (capital : Char → Bool) (s : Text) : Prop :=
  s.head?.any (!capital ·) = false

theorem name_append_inj (hn : n.isCapitalized capital = true) (hm : m.isCapitalized capital = true)
    (hs : Ends capital s) (ht : Ends capital t) (h : n ++ s = m ++ t) : n = m ∧ s = t := by
  cases n with
  | nil => cases hn
  | cons c r =>
    cases m with
    | nil => cases hm
    | cons d q =>
      obtain ⟨-, hr⟩ := Bool.and_eq_true_iff.mp hn
      obtain ⟨-, hq⟩ := Bool.and_eq_true_iff.mp hm
      obtain ⟨rfl, htail⟩ := List.cons.inj h
      obtain ⟨rfl, rfl⟩ := Text.append_inj_of_all hr hq hs ht htail
      exact ⟨rfl, rfl⟩

theorem ends_mangle (he : e.Fits capital arity) (s : Text) : Ends capital (e.mangle ++ s) := by
  obtain ⟨n, as⟩ := e
  obtain ⟨⟨hn, -⟩, -⟩ := fits_mk.mp he
  cases n with
  | nil => cases hn
  | cons c r =>
    obtain ⟨hc, -⟩ := Bool.and_eq_true_iff.mp hn
    simp [Ends, mangle, hc]

theorem ends_mangleAll (has : ∀ a ∈ as, a.Fits capital arity) (hs : Ends capital s) :
    Ends capital (mangleAll as ++ s) := by
  cases as with
  | nil => exact hs
  | cons a as =>
    rw [mangleAll, List.append_assoc]
    exact ends_mangle (has a (by simp)) _

theorem mangleAll_append_inj (has : ∀ a ∈ as, a.Fits capital arity)
    (hbs : ∀ b ∈ bs, b.Fits capital arity) (hlength : as.length = bs.length)
    (hs : Ends capital s) (ht : Ends capital t)
    (hargs : ∀ a ∈ as, ∀ {b : TypeExpr} {s t : Text}, b.Fits capital arity → Ends capital s →
      Ends capital t → a.mangle ++ s = b.mangle ++ t → a = b ∧ s = t)
    (h : mangleAll as ++ s = mangleAll bs ++ t) : as = bs ∧ s = t := by
  induction as generalizing bs with
  | nil =>
    cases List.eq_nil_of_length_eq_zero hlength.symm
    exact ⟨rfl, h⟩
  | cons a as ih =>
    cases bs with
    | nil => cases hlength
    | cons b bs =>
      obtain ⟨-, hmore⟩ := List.forall_mem_cons.mp has
      obtain ⟨hb, hmore'⟩ := List.forall_mem_cons.mp hbs
      have hlength' : as.length = bs.length := by simpa using hlength
      rw [mangleAll, mangleAll, List.append_assoc, List.append_assoc] at h
      obtain ⟨rfl, hrest⟩ :=
        hargs a (by simp) hb (ends_mangleAll hmore hs) (ends_mangleAll hmore' ht) h
      obtain ⟨rfl, rfl⟩ :=
        ih hmore hmore' hlength' (fun a ha => hargs a (List.mem_cons_of_mem _ ha)) hrest
      exact ⟨rfl, rfl⟩

theorem mangle_append_inj (he : e.Fits capital arity) (hf : f.Fits capital arity)
    (hs : Ends capital s) (ht : Ends capital t) (h : e.mangle ++ s = f.mangle ++ t) :
    e = f ∧ s = t := by
  induction e using induct generalizing f s t with
  | h n as ih =>
    obtain ⟨m, bs⟩ := f
    obtain ⟨⟨hn, hlength⟩, has⟩ := fits_mk.mp he
    obtain ⟨⟨hm, hlength'⟩, hbs⟩ := fits_mk.mp hf
    rw [mangle, mangle, List.append_assoc, List.append_assoc] at h
    -- the name comes first and gives the number of arguments
    obtain ⟨rfl, hrest⟩ := name_append_inj hn hm (ends_mangleAll has hs) (ends_mangleAll hbs ht) h
    obtain ⟨rfl, rfl⟩ := mangleAll_append_inj has hbs (hlength.trans hlength'.symm) hs ht
      (fun a ha _ _ _ => ih a ha (has a ha)) hrest
    exact ⟨rfl, rfl⟩

/-- Expressions of capitalized names that each take a fixed number of arguments have one concrete name
only when they are one. -/
theorem mangle_eq_iff (capital : Char → Bool) (arity : Text → Nat) {e f : TypeExpr}
    (he : e.Fits capital arity) (hf : f.Fits capital arity) : e.mangle = f.mangle ↔ e = f := by
  constructor
  · intro h
    have hend : Ends capital [] := rfl
    refine (mangle_append_inj he hf hend hend ?_).1
    rw [List.append_nil, List.append_nil, h]
  · rintro rfl
    rfl

/-- The same names in another order, as arguments of one another in another way. -/
theorem mangle_eq_iff_dictionaries :
    let arity : Text → Nat := fun n => if n = "Dict" then 2 else if n = "Queue" then 1 else 0
    let e : TypeExpr := ⟨"Dict", [⟨"String", []⟩, ⟨"Queue", [⟨"Integer", []⟩]⟩]⟩
    let f : TypeExpr := ⟨"Dict", [⟨"Queue", [⟨"String", []⟩]⟩, ⟨"Integer", []⟩]⟩
    e.Fits Char.isUpper arity ∧ f.Fits Char.isUpper arity ∧ (e.mangle = f.mangle ↔ e = f) := by
  intro arity e f
  have he : e.Fits Char.isUpper arity := by decide
  have hf : f.Fits Char.isUpper arity := by decide
  exact ⟨he, hf, mangle_eq_iff Char.isUpper arity he hf⟩

end TypeExpr

end Monomorph
