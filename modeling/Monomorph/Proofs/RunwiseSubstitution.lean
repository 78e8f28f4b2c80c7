import Mathlib.Data.List.SplitBy
import Monomorph.Proofs.SubstitutionLaws

/-!
# Substitution run by run

A text falls into its maximal runs of name characters and the single characters between them.
Replacing names goes through these one by one: a run that is a name of the rules gives way to its
value, and everything else stays, whatever names the rules have besides and whatever the values
hold (`substitute_eq_runs`).
-/

namespace Monomorph

namespace Text

def runs (s : Text) : List Text :=
  s.splitBy fun c d => isNameChar c && isNameChar d

variable {n s : Text} {c : Char}

theorem runs_run (hne : n ≠ []) (hn : n.all isNameChar = true)
    (hs : s.head?.any isNameChar = false) : runs (n ++ s) = n :: runs s := by
  have hall := List.all_eq_true.mp hn
  have hend : ∀ x ∈ n.getLast?, ∀ y ∈ s.head?, (isNameChar x && isNameChar y) = false := by
    intro x _ y hy
    rw [Option.mem_def] at hy
    rw [hy, Option.any_some] at hs
    rw [hs, Bool.and_false]
  have hchain : n.IsChain fun c d => (isNameChar c && isNameChar d) = true := by
    refine (List.pairwise_of_forall_mem_list fun c hc d hd => ?_).isChain
    rw [hall c hc, hall d hd, Bool.and_self]
  rw [runs, List.splitBy_append hend, List.splitBy_of_isChain hne hchain]
  rfl

theorem runs_other (hc : isNameChar c = false) : runs (c :: s) = [c] :: runs s := by
  have hend : ∀ x ∈ [c].getLast?, ∀ y ∈ s.head?, (isNameChar x && isNameChar y) = false := by
    intro x hx y _
    obtain rfl : c = x := by simpa using hx
    rw [hc, Bool.false_and]
  exact List.splitBy_append hend

end Text

namespace Substitution

/-- What becomes of each run. The recursion takes the first run, or the first character if it is
no name character, as the replacement does. -/
theorem ForRuns.replaceFrom_eq_runs {rules : List (Text × Text)} (h : ForRuns rules) (s : Text) :
    replaceFrom rules false s = s.runs.flatMap fun run => (rules.lookup run).getD run := by
  cases s with
  | nil => exact h.replaceFrom_empty
  | cons c r =>
    cases hc : isNameChar c with
    | false =>
      have hkept : rules.lookup [c] = none := h.lookup_eq_none fun hn => by simp [hc] at hn
      rw [h.replaceFrom_other hc, Text.runs_other hc, List.flatMap_cons, hkept,
        h.replaceFrom_eq_runs r]
      rfl
    | true =>
      have hle : (Text.afterNameRun (c :: r)).length ≤ r.length :=
        Nat.le_of_lt_succ (Text.length_afterNameRun_lt hc)
      have hne := Text.nameRun_ne_nil (r := r) hc
      have hall : (Text.nameRun (c :: r)).all isNameChar = true := List.all_takeWhile
      have hend := Text.head_afterNameRun (c :: r)
      rw [← Text.nameRun_append_afterNameRun (c :: r), h.replaceFrom_run hne hall hend,
        Text.runs_run hne hall hend, List.flatMap_cons, h.replaceFrom_eq_runs]
termination_by s.length

/-- All names are replaced at once, run by run: a run of name characters that is a name of the rules
gives way to its value, every other run and character stays, and what is put in is not looked at
again. Replacing a single name does the same with that name alone. -/
theorem substitute_eq_runs (text : Text) :
    (∀ rules : Table Text Text, (∀ n ∈ rules.keys, n ≠ [] ∧ n.all isNameChar = true) →
      substitute text rules = text.runs.flatMap fun run => (rules.get? run).getD run) ∧
    ∀ name value : Text, name ≠ [] → name.all isNameChar = true →
      replaceName text name value =
        text.runs.flatMap fun run => if run = name then value else run := by
  constructor
  · intro rules hnames
    have hrules : ForRuns (Text.longestFirst rules.entries) := fun rule hrule =>
      hnames rule.1 (Table.mem_keys.mpr ⟨rule.2, Text.mem_longestFirst.mp hrule⟩)
    rw [substitute_eq, hrules.replaceFrom_eq_runs]
    simp only [Text.lookup_longestFirst, Table.get?]
  · intro name value hne hall
    have hrules : ForRuns [(name, value)] := by
      intro rule hrule
      obtain rfl := List.mem_singleton.mp hrule
      exact ⟨hne, hall⟩
    rw [replaceName, hrules.replaceFrom_eq_runs]
    congr 1
    funext run
    rw [List.lookup_singleton]
    split <;> simp_all

/-- Names that begin one another, values that are names, and names at both ends of the text. -/
theorem substitute_eq_runs_swapped :
    let rules : Table Text Text := .ofList [("V", "K"), ("K", "V"), ("VK", "V K"), ("1_", "")]
    let text : Text := "V<K,V>VK(VKV)1_+K.1_K/V"
    (∀ n ∈ rules.keys, n ≠ [] ∧ n.all isNameChar = true) ∧
      substitute text rules = "K<V,K>V K(VKV)+V.1_K/K" ∧
      replaceName text "V" "<V>" = "<V><K,<V>>VK(VKV)1_+K.1_K/<V>" := by
  intro rules text
  have hnames : ∀ n ∈ rules.keys, n ≠ [] ∧ n.all isNameChar = true := by decide
  obtain ⟨hall, hone⟩ := substitute_eq_runs text
  refine ⟨hnames, (hall rules hnames).trans ?_, (hone "V" "<V>" (by decide) rfl).trans ?_⟩
  · decide +kernel
  · decide +kernel

end Substitution

end Monomorph
