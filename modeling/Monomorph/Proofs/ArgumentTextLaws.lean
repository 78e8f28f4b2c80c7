import Monomorph.Proofs.TextLaws
import Monomorph.Proofs.TypeExprLaws
import Monomorph.TypeExpr.Reader

/-!
# Laws of argument texts

What is read from an argument text is well formed, and there is something: the reading machine
holds well-formed expressions only, and each of its steps keeps that.
-/

namespace Monomorph.TypeExpr

theorem Token.isName_of_scan {column i : Nat} {s n : Text}
    (h : (Token.name n, i) ∈ Token.scan column s) : n.isName = true := by
  fun_induction Token.scan column s with
  | case1 => cases h
  | case2 column r ih => exact ih h
  | case3 column c r hc hs ih => exact ih h
  | case4 column c r hc hs hstart word ih =>
    rcases List.mem_cons.mp h with heq | h
    · simp only [Prod.mk.injEq, Token.name.injEq] at heq
      rw [heq.1]
      exact Text.isName_nameRun hstart
    · exact ih h
  | case5 column c r hc hs hstart token ih =>
    rcases List.mem_cons.mp h with heq | h
    · simp only [token, Prod.mk.injEq] at heq
      split at heq
      · cases heq.1
      · split at heq
        · cases heq.1
        · split at heq <;> cases heq.1
    · exact ih h

namespace Reading

/-- Everything that the machine holds is well formed, and behind an expression it holds one. -/
structure IsSound (r : Reading) : Prop where
  enclosing : ∀ n es, (n, es) ∈ r.enclosing → n.isName = true ∧ ∀ e ∈ es, e.WellFormed
  done : ∀ e ∈ r.done, e.WellFormed
  phase : ∀ n, r.phase = .named n → n.isName = true
  complete : r.phase = .complete → r.done ≠ []

variable {r r' : Reading}

theorem IsSound.settled? (h : r.IsSound) {es : List TypeExpr} (hs : r.settled? = some es) :
    es ≠ [] ∧ ∀ e ∈ es, e.WellFormed := by
  unfold Reading.settled? at hs
  split at hs
  · cases hs
  · rename_i n hn
    cases hs
    exact ⟨List.cons_ne_nil _ _, List.forall_mem_cons.mpr
      ⟨wellFormed_mk.mpr ⟨h.phase n hn, fun _ => (absurd · List.not_mem_nil)⟩, h.done⟩⟩
  · rename_i hcomplete
    cases hs
    exact ⟨h.complete hcomplete, h.done⟩

theorem IsSound.step (h : r.IsSound) {t : Token} (ht : ∀ n, t = .name n → n.isName = true)
    (hs : r.step t = some r') : r'.IsSound := by
  cases t with
  | name n =>
    simp only [Reading.step] at hs
    split at hs
    · cases hs
      refine ⟨h.enclosing, h.done, fun m hm => ?_, fun hm => (nomatch hm)⟩
      cases hm
      exact ht n rfl
    · cases hs
  | opening =>
    simp only [Reading.step] at hs
    split at hs
    · rename_i n hn
      cases hs
      refine ⟨fun m es hm => ?_, fun e he => (nomatch he), fun m hm => (nomatch hm),
        fun hm => (nomatch hm)⟩
      rcases List.mem_cons.mp hm with heq | hm
      · cases heq
        exact ⟨h.phase n hn, h.done⟩
      · exact h.enclosing m es hm
    · cases hs
  | comma =>
    obtain ⟨es, hes, rfl⟩ := Option.map_eq_some_iff.mp hs
    exact ⟨h.enclosing, (h.settled? hes).2, fun m hm => (nomatch hm), fun hm => (nomatch hm)⟩
  | closing =>
    simp only [Reading.step] at hs
    split at hs
    · rename_i args n outer enclosing hargs henc
      cases hs
      have hall := h.enclosing
      rw [henc] at hall
      obtain ⟨⟨hn, houter⟩, hrest⟩ :
          (n.isName = true ∧ ∀ e ∈ outer, e.WellFormed) ∧
            ∀ m es, (m, es) ∈ enclosing → m.isName = true ∧ ∀ e ∈ es, e.WellFormed :=
        ⟨hall n outer (List.mem_cons_self ..), fun m es hm => hall m es (List.mem_cons_of_mem _ hm)⟩
      refine ⟨hrest, List.forall_mem_cons.mpr ⟨?_, houter⟩, fun m hm => (nomatch hm),
        fun _ => List.cons_ne_nil _ _⟩
      exact wellFormed_mk.mpr ⟨hn, fun a ha => (h.settled? hargs).2 a (List.mem_reverse.mp ha)⟩
    · cases hs
  | stray c => cases hs

theorem IsSound.run (h : r.IsSound) {ts : List (Token × Nat)}
    (ht : ∀ n i, (Token.name n, i) ∈ ts → n.isName = true) {es : List TypeExpr}
    (hr : r.run ts = .ok es) : es ≠ [] ∧ ∀ e ∈ es, e.WellFormed := by
  induction ts generalizing r with
  | nil =>
    simp only [Reading.run] at hr
    split at hr
    · rename_i found hfound
      cases hr
      unfold result? at hfound
      split at hfound
      · obtain ⟨ds, hds, rfl⟩ := Option.map_eq_some_iff.mp hfound
        obtain ⟨hne, hall⟩ := h.settled? hds
        exact ⟨mt List.reverse_eq_nil_iff.mp hne, fun e he => hall e (List.mem_reverse.mp he)⟩
      · cases hfound
    · cases hr
  | cons t ts ih =>
    obtain ⟨t, i⟩ := t
    simp only [Reading.run] at hr
    split at hr
    · rename_i r' hstep
      refine ih (h.step ?_ hstep) (fun n j hn => ht n j (List.mem_cons_of_mem _ hn)) hr
      rintro n rfl
      exact ht n i (List.mem_cons_self ..)
    · cases hr

end Reading

theorem Reading.isSound_start : IsSound {} :=
  ⟨fun _ _ hm => (nomatch hm), fun _ he => (nomatch he), fun _ hn => (nomatch hn),
    fun hc => (nomatch hc)⟩

theorem ne_nil_of_readList {s : Text} {es : List TypeExpr} (h : readList s = .ok es) : es ≠ [] :=
  (Reading.isSound_start.run (fun _ _ => Token.isName_of_scan) h).1

theorem wellFormed_of_readList {s : Text} {es : List TypeExpr} (h : readList s = .ok es) :
    ∀ e ∈ es, e.WellFormed :=
  (Reading.isSound_start.run (fun _ _ => Token.isName_of_scan) h).2

end Monomorph.TypeExpr
