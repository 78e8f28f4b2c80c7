import Monomorph.Proofs.TableLaws
import Monomorph.Proofs.TextLaws
import Monomorph.Template

/-!
# Laws of template discovery

What holds of every template that is found: its class name is a name, and its declaration starts
with an annotation or a word. So generated classes never start like a comment.
-/

namespace Monomorph.Template

def startsDeclaration (s : Text) : Bool :=
  s.head?.any fun c => c == '@' || isNameStart c

theorem startsDeclaration_append {s : Text} (h : startsDeclaration s = true) (r : Text) :
    startsDeclaration (s ++ r) = true := by
  cases s with
  | nil => cases h
  | cons c s => exact h

theorem startsDeclaration_take {s : Text} {n : Nat} (h : startsDeclaration s = true)
    (hn : s.take n ≠ []) : startsDeclaration (s.take n) = true := by
  cases n with
  | zero => exact absurd List.take_zero hn
  | succ n =>
    cases s with
    | nil => cases h
    | cons c s => exact h

theorem startsDeclaration_isName {n : Text} (h : n.isName = true) :
    startsDeclaration n = true := by
  obtain ⟨c, r, rfl, hc, -⟩ := Text.isName_iff.mp h
  simp only [startsDeclaration, List.head?_cons, Option.any_some, hc, Bool.or_true]

theorem afterInert?_of_startsDeclaration {s : Text} (h : startsDeclaration s = true) :
    s.afterInert? = none := by
  refine Text.afterInert?_eq_none ?_
  cases s with
  | nil => rfl
  | cons c r =>
    simp only [startsDeclaration, List.head?_cons, Option.any_some, Bool.or_eq_true,
      beq_iff_eq] at h
    rcases h with rfl | h
    · rfl
    · exact not_opensInert_of_isNameChar (isNameChar_of_isNameStart h)

/-- What discovery promises of a template. -/
structure IsDeclared (t : Template) : Prop where
  isName : t.className.isName = true
  declaration : ∃ start stop, t.declaration = Text.upTo start stop ∧ startsDeclaration start = true

variable {length : Nat} {start keyword s : Text} {t : Template}

theorem isDeclared_of_readDeclaration {r : { r : Text // r.length ≤ s.length }}
    (hs : startsDeclaration start = true)
    (h : readDeclaration length start keyword s = .ok (some t, r)) : t.IsDeclared := by
  unfold readDeclaration at h
  simp only at h
  split at h
  · cases h
  · rename_i hname
    split at h
    · cases h
    · split at h
      · cases h
      · rename_i params p hp
        cases h
        exact ⟨by simpa using hname, start, p.1, rfl, hs⟩

/-- A run of modifiers, if there is one, can start a declaration. -/
def RunStarts (run : Option Text) : Prop :=
  ∀ x ∈ run, startsDeclaration x = true

theorem RunStarts.unless {run : Option Text} (h : RunStarts run) (sharing : Bool) :
    RunStarts (if sharing then none else run) := by
  cases sharing with
  | true => exact fun x hx => (nomatch hx)
  | false => exact h

theorem RunStarts.or {run : Option Text} (h : RunStarts run) (hs : startsDeclaration s = true) :
    RunStarts (run.or (some s)) := by
  cases run with
  | none => exact fun x hx => Option.mem_some.mp hx ▸ hs
  | some x => exact h

theorem RunStarts.getD {run : Option Text} (h : RunStarts run) (hs : startsDeclaration s = true) :
    startsDeclaration (run.getD s) = true := by
  cases run with
  | none => exact hs
  | some x => exact h x rfl

theorem runStarts_none : RunStarts none :=
  fun _ hx => (nomatch hx)

theorem isDeclared_of_scan {run : Option Text} {sharing dotted : Bool} {ts : List Template}
    (hrun : RunStarts run) (h : scan length run sharing dotted s = .ok ts) :
    ∀ t ∈ ts, t.IsDeclared := by
  have hword {c : Char} {r : Text} (hc : ¬(!isNameStart c) = true) :
      startsDeclaration (c :: r) = true := by
    simp only [Bool.not_eq_true, Bool.not_eq_false'] at hc
    simp only [startsDeclaration, List.head?_cons, Option.any_some, hc, Bool.or_true]
  fun_induction scan length run sharing dotted s generalizing ts
  case case1 ih => exact ih hrun h
  case case2 =>
    cases h
    exact fun t ht => (nomatch ht)
  case case3 ih => exact ih hrun h
  case case4 sharing _ _ _ _ _ ih => exact ih ((hrun.unless sharing).or rfl) h
  case case5 ih => exact ih runStarts_none h
  case case6 sharing _ _ _ _ _ _ _ _ _ hc _ ih =>
    refine ih ?_ h
    cases sharing with
    | true => exact hrun.or (hword hc)
    | false => exact runStarts_none
  case case7 sharing _ _ _ _ _ _ _ _ _ hc _ _ _ ih =>
    exact ih ((hrun.unless sharing).or (hword hc)) h
  case case8 => cases h
  case case9 => cases h
  case case10 sharing _ _ _ _ _ _ _ _ _ hc _ _ _ found _ hread more hmore ih =>
    cases h
    intro t ht
    rcases List.mem_append.mp ht with ht | ht
    · obtain rfl := Option.mem_toList.mp ht
      exact isDeclared_of_readDeclaration ((hrun.unless sharing).getD (hword hc)) hread
    · exact ih runStarts_none hmore t ht
  case case11 ih => exact ih runStarts_none h

theorem isDeclared_of_find {text : Text} {ts : Table Text Template} (h : find text = .ok ts) :
    ∀ t ∈ ts.values, t.IsDeclared := by
  unfold find at h
  split at h
  · cases h
  · rename_i found hscan
    cases h
    intro t ht
    exact isDeclared_of_scan runStarts_none hscan t (Table.mem_of_mem_values_ofList ht)

end Monomorph.Template
