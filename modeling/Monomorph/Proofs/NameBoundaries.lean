import Monomorph.Proofs.Identifiers

/-!
# Names put in place of usages

A text is kept stretches with replaced usages between them. The identifiers of the text are those
of its stretches, so when names are put in place of the usages, the identifiers of the result
should be those of the kept stretches with one name for each usage. They are exactly when no
replaced usage has a name character directly behind it: the search checks what stands before a
usage, and the closing bracket that kept the two apart is gone.
-/

namespace Monomorph

-- ---------------------------------------------------------------------------
-- Texts behind which a name can begin
-- ---------------------------------------------------------------------------

namespace Text

/-- Whatever name follows stands on its own. -/
structure Border (a : Text) : Prop where
  closed : Closed a
  noName : (lexemes a).getLast?.any Lexeme.isNameChar = false

variable {a r t : Text} {c : Char}

theorem Border.nil : Border [] :=
  ⟨.nil, by simp⟩

theorem Border.code (hc : afterStretch? (c :: a) = none) (hname : a = [] → isNameChar c = false)
    (ha : Border a) : Border (c :: a) := by
  refine ⟨.code hc ha.closed, ?_⟩
  rw [lexemes_code hc, List.getLast?_cons]
  cases h : (lexemes a).getLast? with
  | none =>
    have hnil := lexemes_eq_nil (List.getLast?_eq_none_iff.mp h)
    simpa [Lexeme.isNameChar] using hname hnil
  | some l => simpa [h] using ha.noName

theorem Border.inert (ht : Border t) (hr : r ≠ []) (h : afterInert? (a ++ r) = some r) :
    Border (a ++ t) := by
  obtain ⟨-, k, x, hlast⟩ := closed_of_afterInert? hr h
  have hsplits := Splits.inert hr h t
  refine ⟨hsplits.closed.append ht.closed hsplits.slash, ?_⟩
  rw [hsplits.closed.lexemes_append hsplits.slash, List.getLast?_append]
  cases hl : (lexemes t).getLast? with
  | none =>
    rw [hlast]
    rfl
  | some l => simpa [hl] using ht.noName

end Text

namespace Usage

open Text

-- ---------------------------------------------------------------------------
-- Stretches
-- ---------------------------------------------------------------------------

/-- Puts a piece in front, joining what is kept to what is kept behind it. -/
def Piece.join : Piece → List Piece → List Piece
  | put rule, ps => put rule :: ps
  | kept t, kept u :: ps => kept (t ++ u) :: ps
  | kept t, ps => kept t :: ps

/-- The replaced literals of a text and the whole stretches between them. -/
def stretches (rules : List (Text × Text)) (joined : Bool) (s : Text) : List Piece :=
  (piecesFrom rules joined s).foldr Piece.join []

/-- The identifiers that should come of a stretch. -/
def Piece.collapsed : Piece → List Text
  | kept t => t.identifiers
  | put rule => [rule.2]

variable {rules : List (Text × Text)} {rule : Text × Text} {joined : Bool} {s : Text}
  {ps : List Piece}

theorem flatMap_join (f : Piece → Text)
    (hf : ∀ t u, f (.kept (t ++ u)) = f (.kept t) ++ f (.kept u)) (ps : List Piece) :
    (ps.foldr Piece.join []).flatMap f = ps.flatMap f := by
  induction ps with
  | nil => rfl
  | cons p ps ih =>
    rw [List.foldr_cons, List.flatMap_cons, ← ih]
    rcases p with t | rule
    · rcases ps.foldr Piece.join [] with _ | ⟨u | rule, qs⟩ <;> simp [Piece.join, hf]
    · simp [Piece.join]

theorem flatMap_before_stretches (rules : List (Text × Text)) (joined : Bool) (s : Text) :
    (stretches rules joined s).flatMap Piece.before = s := by
  rw [stretches, flatMap_join _ fun _ _ => rfl, flatMap_before_pieces]

theorem flatMap_after_stretches (rules : List (Text × Text)) (joined : Bool) (s : Text) :
    (stretches rules joined s).flatMap Piece.after = replaceFrom rules joined s := by
  rw [stretches, flatMap_join _ fun _ _ => rfl, replaceFrom_eq_pieces]

theorem put_mem_join : .put rule ∈ ps.foldr Piece.join [] ↔ .put rule ∈ ps := by
  induction ps with
  | nil => rfl
  | cons p ps ih =>
    rw [List.foldr_cons, List.mem_cons, ← ih]
    rcases p with t | rule
    · rcases ps.foldr Piece.join [] with _ | ⟨u | rule, qs⟩ <;> simp [Piece.join]
    · simp [Piece.join]

/-- What is kept before a replaced literal ends where a name can begin. -/
inductive Parted : List Piece → Prop
  | nil : Parted []
  | last (t : Text) : Parted [.kept t]
  | kept {t : Text} {rule : Text × Text} {ps : List Piece} : t ≠ [] → Border t →
      Parted (.put rule :: ps) → Parted (.kept t :: .put rule :: ps)
  | put {rule : Text × Text} {ps : List Piece} : Parted ps → Parted (.put rule :: ps)

theorem Parted.join {x : Text} (h : Parted ps) (hx : x ≠ [])
    (hput : (∃ rule qs, ps = .put rule :: qs) → Border x)
    (hkept : ∀ t rule qs, ps = .kept t :: .put rule :: qs → t ≠ [] → Border t → Border (x ++ t)) :
    Parted (Piece.join (.kept x) ps) := by
  cases h with
  | nil => exact .last x
  | last t => exact .last (x ++ t)
  | kept ht hb hps => exact .kept (by simp [hx]) (hkept _ _ _ rfl ht hb) hps
  | put hps => exact .kept hx (hput ⟨_, _, rfl⟩) (.put hps)

theorem stretches_nil : stretches rules joined [] = [] := by
  rw [stretches, piecesFrom]
  rfl

theorem join_kept_ne (x : Text) (ps qs : List Piece) :
    Piece.join (.kept x) ps ≠ .put rule :: qs := by
  rcases ps with _ | ⟨u | rule, ps⟩ <;> simp [Piece.join]

theorem joined_of_stretches {qs : List Piece} (h : stretches rules joined s = .put rule :: qs) :
    joined = false := by
  unfold stretches at h
  rw [piecesFrom] at h
  split at h
  · exact (join_kept_ne _ _ _ h).elim
  · split at h
    · cases h
    · split at h
      · exact (rule_of_found ‹_›).2.1
      · exact (join_kept_ne _ _ _ h).elim

theorem parted_stretches (rules : List (Text × Text)) (joined : Bool) (s : Text) :
    Parted (stretches rules joined s) := by
  unfold stretches
  fun_induction piecesFrom rules joined s with
  | case1 joined s r hi ih =>
    have hlt := length_lt_of_afterInert? hi
    obtain ⟨t, rfl⟩ := suffix_of_afterInert? hi
    have hr {p : Piece} {qs : List Piece} (hqs : stretches rules false r = p :: qs) : r ≠ [] := by
      rintro rfl
      rw [stretches_nil] at hqs
      cases hqs
    rw [upTo_append]
    refine ih.join (by rintro rfl; simp at hlt) ?_ ?_
    · rintro ⟨rule, qs, hqs⟩
      simpa using Border.nil.inert (hr hqs) hi
    · intro u rule qs hqs _ hb
      exact hb.inert (hr hqs) hi
  | case2 => exact .nil
  | case3 joined c r hi rule hm ih => exact .put ih
  | case4 joined c r hi hm ih =>
    have hc := afterInert?_eq_none_iff.mp hi
    have hr := flatMap_before_stretches rules (isNameChar c) r
    refine ih.join (by simp) ?_ ?_
    · rintro ⟨rule, qs, hqs⟩
      exact .code (afterStretch?_eq_none_of_append (b := r) hc) (fun _ => joined_of_stretches hqs)
        .nil
    · intro t rule qs hqs ht hb
      rw [stretches, hqs, List.flatMap_cons] at hr
      rw [← hr] at hc
      exact .code (afterStretch?_eq_none_of_append hc) (fun h => absurd h ht) hb

-- ---------------------------------------------------------------------------
-- Identifiers of the stretches
-- ---------------------------------------------------------------------------

/-- No replaced literal has a name character directly behind it. -/
def Apart (ps : List Piece) : Prop :=
  ∀ qs rule rs, ps = qs ++ .put rule :: rs → (rs.flatMap Piece.before).head?.any isNameChar = false

theorem apart_kept {t : Text} : Apart (.kept t :: ps) ↔ Apart ps := by
  constructor
  · intro h qs rule rs hps
    exact h (.kept t :: qs) rule rs (by rw [hps]; rfl)
  · intro h qs rule rs hps
    cases qs with
    | nil => cases hps
    | cons q qs =>
      obtain ⟨-, hps⟩ := List.cons.inj hps
      exact h qs rule rs hps

theorem apart_put : Apart (.put rule :: ps) ↔
    (ps.flatMap Piece.before).head?.any isNameChar = false ∧ Apart ps := by
  constructor
  · intro h
    refine ⟨h [] rule ps rfl, fun qs rule' rs hps => ?_⟩
    exact h (.put rule :: qs) rule' rs (by rw [hps]; rfl)
  · rintro ⟨hhead, h⟩ qs rule' rs hps
    cases qs with
    | nil =>
      obtain ⟨-, rfl⟩ := List.cons.inj hps
      exact hhead
    | cons q qs =>
      obtain ⟨-, hps⟩ := List.cons.inj hps
      exact h qs rule' rs hps

theorem tokens_literal (h : Renaming rule) (s : Text) :
    tokens (rule.1 ++ s) = tokens rule.1 ++ tokens s := by
  obtain ⟨e, he⟩ := h.isUsage
  have hlast : (lexemes rule.1).getLast? = some (.code '>') := by
    rw [lexemes_of_plain h.plain_literal, List.getLast?_map, he.getLast?]
    rfl
  have hsplits : Splits rule.1 s := ⟨closed_of_plain h.plain_literal,
    meets_of_getLast (by rw [hlast]; rfl) s, meets_of_getLast (by rw [hlast]; rfl) s⟩
  exact hsplits.tokens_append

theorem tokens_kept {t : Text} (ht : Border t) (hs : s.head?.any isNameChar = true) :
    tokens (t ++ s) = tokens t ++ tokens s := by
  refine Splits.tokens_append ⟨ht.closed, meets_of_head t ?_, meets_of_getLast ht.noName s⟩
  cases s with
  | nil => rfl
  | cons c s =>
    simp only [List.head?_cons, Option.any_some, Bool.or_eq_false_iff, beq_eq_false_iff_ne] at hs ⊢
    constructor <;> rintro rfl <;> exact absurd hs (by decide)

theorem Renaming.head_literal (h : Renaming rule) (s : Text) :
    (rule.1 ++ s).head?.any isNameChar = true := by
  obtain ⟨e, he⟩ := h.isUsage
  have hhead := he.head
  cases hk : rule.1 with
  | nil => rw [hk] at hhead; cases hhead
  | cons c k => simpa [hk] using hhead

theorem Renaming.head_name (h : Renaming rule) (s : Text) :
    (rule.2 ++ s).head?.any isNameChar = true := by
  obtain ⟨c, n, hn, hc, -⟩ := isName_iff.mp h.isName
  simp [hn, isNameChar_of_isNameStart hc]

theorem head_after (h : ∀ rule, .put rule ∈ ps → Renaming rule) :
    (ps.flatMap Piece.after).head?.any isNameChar =
      (ps.flatMap Piece.before).head?.any isNameChar := by
  induction ps with
  | nil => rfl
  | cons p ps ih =>
    have ih := ih fun rule hrule => h rule (List.mem_cons_of_mem _ hrule)
    simp only [List.flatMap_cons]
    rcases p with t | rule
    · cases t with
      | nil => exact ih
      | cons c t => rfl
    · have hrule := h rule (List.mem_cons_self ..)
      exact (hrule.head_name _).trans (hrule.head_literal _).symm

theorem tokens_before (hp : Parted ps) (h : ∀ rule, .put rule ∈ ps → Renaming rule) :
    tokens (ps.flatMap Piece.before) = ps.flatMap fun p => tokens p.before := by
  induction hp with
  | nil => exact tokens_nil
  | last t => simp [Piece.before]
  | @kept t rule ps ht hb hps ih =>
    have ih := ih fun rule hrule => h rule (List.mem_cons_of_mem _ hrule)
    exact (tokens_kept hb ((h rule (by simp)).head_literal _)).trans (congrArg (tokens t ++ ·) ih)
  | @put rule ps hps ih =>
    have ih := ih fun rule hrule => h rule (List.mem_cons_of_mem _ hrule)
    exact (tokens_literal (h rule (by simp)) _).trans (congrArg (tokens rule.1 ++ ·) ih)

theorem identifiers_before (hp : Parted ps) (h : ∀ rule, .put rule ∈ ps → Renaming rule) :
    identifiers (ps.flatMap Piece.before) = ps.flatMap fun p => identifiers p.before := by
  simp only [identifiers_eq_tokens, tokens_before hp h, List.filterMap_flatMap]

theorem identifiers_put (h : Renaming rule) (s : Text) (ns : List Text) :
    identifiers (rule.2 ++ s) = rule.2 :: ns ↔
      s.head?.any isNameChar = false ∧ identifiers s = ns := by
  have hall := all_isNameChar_of_isName h.isName
  have hword {n : Text} (hn : n.isName = true) : Token.identifier? (.word n) = some n := by
    simp [Token.identifier?, Token.word?, hn]
  rw [identifiers_eq_tokens, identifiers_eq_tokens]
  cases hs : s.head?.any isNameChar with
  | false =>
    rw [tokens_run (isName_ne_nil h.isName) hall hs, List.filterMap_cons_some (hword h.isName)]
    simp
  | true =>
    obtain ⟨w, ts, hw, hjoined⟩ := tokens_run_joined hall hs
    obtain ⟨hne, hwall⟩ := mem_tokens (s := s) (n := w) (by simp [hw])
    rw [hjoined, List.filterMap_cons_some (hword (isName_append h.isName hwall))]
    simp [hne]

/-- The first usage with a name character behind it is where the identifiers differ. -/
theorem identifiers_after_eq_iff (hp : Parted ps) (h : ∀ rule, .put rule ∈ ps → Renaming rule) :
    identifiers (ps.flatMap Piece.after) = ps.flatMap Piece.collapsed ↔ Apart ps := by
  induction hp with
  | nil => simp [identifiers_eq_tokens, tokens_nil, Apart]
  | last t =>
    rw [apart_kept]
    simp [Piece.after, Piece.collapsed, Apart]
  | @kept t rule ps ht hb hps ih =>
    have ih := ih fun rule hrule => h rule (List.mem_cons_of_mem _ hrule)
    have hsplit : identifiers ((.kept t :: .put rule :: ps : List Piece).flatMap Piece.after) =
        identifiers t ++ identifiers ((.put rule :: ps : List Piece).flatMap Piece.after) := by
      simp only [identifiers_eq_tokens, ← List.filterMap_append]
      exact congrArg _ (tokens_kept hb ((h rule (by simp)).head_name _))
    rw [apart_kept, ← ih, hsplit]
    exact List.append_right_inj _
  | @put rule ps hps ih =>
    have hps' : ∀ rule, .put rule ∈ ps → Renaming rule :=
      fun rule hrule => h rule (List.mem_cons_of_mem _ hrule)
    rw [apart_put, ← ih hps', ← head_after hps']
    exact identifiers_put (h rule (by simp)) ..

theorem flatMap_after_replace (source : Text) (rules : Table Text Text) :
    (stretches (longestFirst rules.entries) false source).flatMap Piece.after =
      replace source rules := by
  rw [replace_eq, flatMap_after_stretches]

theorem mem_of_put_stretches {source : Text} {rules : Table Text Text} {rule : Text × Text}
    (h : .put rule ∈ stretches (longestFirst rules.entries) false source) : rule ∈ rules.entries :=
  mem_longestFirst.mp (mem_rules_of_put (put_mem_join.mp h))

/-- Putting concrete names in place of the usages of a text. The text is kept stretches with the
usages between them, and its identifiers are those of the parts. The identifiers of the result are
those of the kept stretches with one name for each usage exactly when no replaced usage has a name
character directly behind it. -/
theorem identifiers_replace_eq_iff (source : Text) (rules : Table Text Text)
    (hrules : ∀ k v, (k, v) ∈ rules.entries →
      ∃ l, (k, l) ∈ (find source).entries ∧ v = l.toExpr.mangle) :
    let parts := stretches (longestFirst rules.entries) false source
    (∀ rule, .put rule ∈ parts → rule ∈ rules.entries) ∧
      parts.flatMap Piece.before = source ∧ parts.flatMap Piece.after = replace source rules ∧
      identifiers source = parts.flatMap (fun p => identifiers p.before) ∧
      (identifiers (replace source rules) = parts.flatMap Piece.collapsed ↔
        ∀ ps rule qs, parts = ps ++ .put rule :: qs →
          (qs.flatMap Piece.before).head?.any isNameChar = false) := by
  intro parts
  have hmem (rule : Text × Text) (h : .put rule ∈ parts) : rule ∈ rules.entries :=
    mem_of_put_stretches h
  have hrenaming (rule : Text × Text) (h : .put rule ∈ parts) : Renaming rule := by
    obtain ⟨l, hl, hv⟩ := hrules rule.1 rule.2 (hmem rule h)
    have husage := isUsage_of_find hl
    exact ⟨⟨_, husage⟩, hv ▸ husage.spells.wellFormed.isName_mangle⟩
  have hbefore : parts.flatMap Piece.before = source := flatMap_before_stretches ..
  have hafter : parts.flatMap Piece.after = replace source rules := flatMap_after_replace ..
  have hparted : Parted parts := parted_stretches ..
  refine ⟨hmem, hbefore, hafter, ?_, ?_⟩
  · rw [← identifiers_before hparted hrenaming, hbefore]
  · rw [← hafter]
    exact identifiers_after_eq_iff hparted hrenaming

/-- Usages behind a slash, before a bracket and in a comment: what is replaced stands apart from
what follows. -/
theorem identifiers_replace_eq_iff_apart :
    let source : Text := "1/Box<X>(Box<X> y) //Box<X>y"
    let rules : Table Text Text := ⟨[("Box<X>", "BoxX")]⟩
    let parts : List Piece := [.kept "1/", .put ("Box<X>", "BoxX"), .kept "(",
      .put ("Box<X>", "BoxX"), .kept " y) //Box<X>y"]
    (∀ k v, (k, v) ∈ rules.entries →
      ∃ l, (k, l) ∈ (find source).entries ∧ v = l.toExpr.mangle) ∧
    stretches (longestFirst rules.entries) false source = parts ∧ Apart parts ∧
    identifiers (replace source rules) = parts.flatMap Piece.collapsed := by
  intro source rules parts
  have hrules (k v : Text) (h : (k, v) ∈ rules.entries) :
      ∃ l, (k, l) ∈ (find source).entries ∧ v = l.toExpr.mangle := by
    have hfound : (k, v) ∈ ((find source).map fun l => l.toExpr.mangle).entries := by
      rw [List.mem_singleton.mp h]
      decide +kernel
    obtain ⟨l, hl, rfl⟩ := Table.mem_map.mp hfound
    exact ⟨l, hl, rfl⟩
  have hparts : stretches (longestFirst rules.entries) false source = parts := by
    rw [longestFirst, List.mergeSort_singleton]
    decide +kernel
  have hapart : Apart parts := by
    simp only [parts, apart_kept, apart_put]
    refine ⟨by decide, by decide, fun qs => ?_⟩
    cases qs <;> intro _ _ h <;> cases h
  obtain ⟨-, -, -, -, hiff⟩ := identifiers_replace_eq_iff source rules hrules
  rw [hparts] at hiff
  exact ⟨hrules, hparts, hapart, hiff.mpr hapart⟩

/-- A name right behind a usage becomes part of the name that is put in. -/
theorem identifiers_replace_joined :
    let source : Text := "Queue<Integer>q;"
    let rules : Table Text Text := (find source).map fun l => l.toExpr.mangle
    identifiers source = ["Queue", "Integer", "q"] ∧
      stretches (longestFirst rules.entries) false source =
        [.put ("Queue<Integer>", "QueueInteger"), .kept "q;"] ∧
      replace source rules = "QueueIntegerq;" ∧
      identifiers (replace source rules) = ["QueueIntegerq"] := by
  intro source rules
  have hrules : rules.entries = [(("Queue<Integer>" : Text), ("QueueInteger" : Text))] := by
    decide +kernel
  have hreplace : replace source rules = "QueueIntegerq;" := by
    rw [replace_eq, hrules, longestFirst, List.mergeSort_singleton]
    decide +kernel
  refine ⟨by decide +kernel, ?_, hreplace, ?_⟩
  · rw [hrules, longestFirst, List.mergeSort_singleton]
    decide +kernel
  · rw [hreplace]
    decide +kernel

end Usage

end Monomorph
