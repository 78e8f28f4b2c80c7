import Monomorph.Proofs.ArgumentTextLaws
import Monomorph.Proofs.ReferenceGrammar

/-!
# Readers of argument texts

Argument texts are read in two ways: a machine takes their tokens one by one, and a reader of
source text descends into brackets. Both accept the same grammar. A text is accepted by the machine
iff it is a spelled argument list without its closing bracket whose blanks are spaces
(`readList_eq_ok_iff`). Hence canonical text is read back, and the two readers agree on every text
without other blanks.

The machine stands for a parser that is generated from the grammar `type_args`. This is an
assumption, and not a result: that the generated parser accepts the texts which the grammar derives
and no others, takes its tokens one at a time, and gives up at the first one that no derivation goes
on with. The statements about `readList` say that the machine does so.
-/

namespace Monomorph

namespace TypeExpr

-- ---------------------------------------------------------------------------
-- Tokens
-- ---------------------------------------------------------------------------

namespace Token

def ofText (s : Text) : List Token :=
  (scan 1 s).map Prod.fst

/-- Between the tokens stand spaces only. -/
def IsSpaced (s : Text) : Prop :=
  ∀ c ∈ s, isBlank c = true → isSpace c = true

instance : DecidablePred IsSpaced :=
  List.decidableBAll fun c => isBlank c = true → isSpace c = true

variable {c : Char} {s r w n : Text}

theorem isBlank_of_isSpace (h : isSpace c = true) : isBlank c = true := by
  simp only [isSpace, Bool.or_eq_true, beq_iff_eq] at h
  rcases h with (((rfl | rfl) | rfl) | rfl) | rfl <;> decide

theorem not_isSpace_of_isNameChar (h : isNameChar c = true) : isSpace c = false := by
  cases hs : isSpace c with
  | false => rfl
  | true =>
    have hb := not_isBlank_of_isNameChar h
    rw [isBlank_of_isSpace hs] at hb
    cases hb

theorem IsSpaced.append : IsSpaced (s ++ r) ↔ IsSpaced s ∧ IsSpaced r := by
  simp only [IsSpaced, List.mem_append, or_imp, forall_and]

theorem IsSpaced.cons : IsSpaced (c :: s) ↔ (isBlank c = true → isSpace c = true) ∧ IsSpaced s := by
  simp [IsSpaced]

theorem map_fst_scan (column column' : Nat) (s : Text) :
    (scan column s).map Prod.fst = (scan column' s).map Prod.fst := by
  fun_induction scan column s generalizing column' with
  | case1 => rw [scan]
  | case2 column r ih => rw [scan, if_pos rfl]
  | case3 column c r hc hs ih =>
    rw [scan, if_neg hc, if_pos hs]
    exact ih _
  | case4 column c r hc hs hstart word ih =>
    rw [scan, if_neg hc, if_neg hs, dif_pos hstart]
    exact congrArg (_ :: ·) (ih _)
  | case5 column c r hc hs hstart token ih =>
    rw [scan, if_neg hc, if_neg hs, dif_neg hstart]
    exact congrArg (_ :: ·) (ih _)

theorem ofText_nil : ofText [] = [] := by
  rw [ofText, scan]
  rfl

theorem ofText_space (hc : isSpace c = true) (r : Text) : ofText (c :: r) = ofText r := by
  rw [ofText, scan]
  by_cases hline : c = '\n'
  · rw [if_pos hline]
    rfl
  · rw [if_neg hline, if_pos hc]
    exact map_fst_scan ..

theorem ofText_spaces (hw : w.all isSpace = true) (r : Text) : ofText (w ++ r) = ofText r := by
  induction w with
  | nil => rfl
  | cons c w ih =>
    simp only [List.all_cons, Bool.and_eq_true] at hw
    rw [List.cons_append, ofText_space hw.1, ih hw.2]

theorem ofText_cons (hc : isSpace c = false) (hn : isNameStart c = false) (r : Text) :
    ofText (c :: r) = (if c = '<' then opening else if c = '>' then closing
      else if c = ',' then comma else stray c) :: ofText r := by
  have hline : c ≠ '\n' := by
    rintro rfl
    cases hc
  rw [ofText, scan, if_neg hline, if_neg (by simp [hc]), dif_neg (by simp [hn])]
  exact congrArg (_ :: ·) (map_fst_scan ..)

theorem ofText_name (hn : n.isName = true) (hr : r.head?.any isNameChar = false) :
    ofText (n ++ r) = name n :: ofText r := by
  obtain ⟨c, m, rfl, hc, -⟩ := Text.isName_iff.mp hn
  have hall := Text.all_isNameChar_of_isName hn
  have hspace := not_isSpace_of_isNameChar (isNameChar_of_isNameStart hc)
  have hline : c ≠ '\n' := by
    rintro rfl
    cases hspace
  rw [ofText, List.cons_append, scan, if_neg hline, if_neg (by simp [hspace]), dif_pos hc,
    ← List.cons_append, Text.nameRun_append hall hr, Text.afterNameRun_append hall hr]
  exact congrArg (_ :: ·) (map_fst_scan ..)

def column (front : Text) : Nat :=
  (Text.afterLast '\n' front).length + 1

theorem column_append (pre : Text) (hw : '\n' ∉ w) : column (pre ++ w) = column pre + w.length := by
  rw [column, column, Text.afterLast_append hw, List.length_append]
  omega

theorem column_newline (pre : Text) : column (pre ++ ['\n']) = 1 := by
  rw [column, Text.afterLast_concat, List.length_nil]

/-- A token that a scan can come upon. -/
def IsLexeme : Token → Prop
  | .name n => n.isName = true
  | .stray c => isSpace c = false ∧ isNameStart c = false ∧ c ≠ '<' ∧ c ≠ '>' ∧ c ≠ ','
  | _ => True

theorem ofText_token {t : Token} (ht : t.IsLexeme)
    (hr : ∀ n, t = name n → r.head?.any isNameChar = false) :
    ofText (t.text ++ r) = t :: ofText r := by
  cases t with
  | name n => exact ofText_name ht (hr n rfl)
  | opening | closing | comma => exact ofText_cons rfl rfl r
  | stray c =>
    obtain ⟨hspace, hstart, hopening, hclosing, hcomma⟩ := ht
    rw [text, List.singleton_append, ofText_cons hspace hstart, if_neg hopening, if_neg hclosing,
      if_neg hcomma]

/-- The token of a character that is neither a space nor part of a name. -/
def sign (c : Char) : Token :=
  if c = '<' then .opening else if c = '>' then .closing else if c = ',' then .comma else .stray c

theorem text_sign (c : Char) : (sign c).text = [c] := by
  unfold sign
  repeat' split
  all_goals simp_all [text]

theorem isLexeme_sign (hc : isSpace c = false) (hn : isNameStart c = false) :
    (sign c).IsLexeme := by
  unfold sign
  repeat' split
  all_goals simp_all [IsLexeme]

theorem sign_ne_name (c : Char) (n : Text) : sign c ≠ name n := by
  unfold sign
  repeat' split
  all_goals exact Token.noConfusion

theorem scan_cases (pre s : Text) : (s.all isSpace = true ∧ scan (column pre) s = []) ∨
    ∃ w t r, w.all isSpace = true ∧ s = w ++ (text t ++ r) ∧ r.length < s.length ∧ t.IsLexeme ∧
      (∀ n, t = name n → r.head?.any isNameChar = false) ∧
      scan (column pre) s = (t, column (pre ++ w)) :: scan (column (pre ++ (w ++ text t))) r := by
  induction s generalizing pre with
  | nil => exact .inl ⟨rfl, by rw [scan]⟩
  | cons c s ih =>
    cases hc : isSpace c with
    | true =>
      have hscan : scan (column pre) (c :: s) = scan (column (pre ++ [c])) s := by
        rw [scan]
        by_cases hline : c = '\n'
        · rw [if_pos hline, hline, column_newline]
        · rw [if_neg hline, if_pos hc, column_append pre (by simpa using Ne.symm hline)]
          rfl
      rw [hscan]
      obtain ⟨hs, hnil⟩ | ⟨w, t, r, hw, rfl, hlt, ht, hr, hfirst⟩ := ih (pre ++ [c])
      · exact .inl ⟨by simp [hc, hs], hnil⟩
      · refine .inr ⟨c :: w, t, r, by simp [hc, hw], rfl, Nat.lt_succ_of_lt hlt, ht, hr, ?_⟩
        simpa using hfirst
    | false =>
      refine .inr ?_
      have hline : c ≠ '\n' := by
        rintro rfl
        cases hc
      cases hstart : isNameStart c with
      | true =>
        have hname := Text.isName_nameRun (r := s) hstart
        have hrun : '\n' ∉ Text.nameRun (c :: s) := fun hmem =>
          absurd (List.all_eq_true.mp (Text.all_isNameChar_of_isName hname) _ hmem) (by decide)
        refine ⟨[], name (Text.nameRun (c :: s)), Text.afterNameRun (c :: s), rfl,
          (Text.nameRun_append_afterNameRun (c :: s)).symm,
          Text.length_afterNameRun_lt (isNameChar_of_isNameStart hstart), hname,
          fun _ _ => Text.head_afterNameRun (c :: s), ?_⟩
        rw [scan, if_neg hline, if_neg (by simp [hc]), dif_pos hstart, List.append_nil,
          List.nil_append, text, column_append pre hrun]
      | false =>
        have hcolumn : column (pre ++ [c]) = column pre + 1 :=
          column_append pre (by simpa using Ne.symm hline)
        refine ⟨[], sign c, s, rfl, by rw [text_sign]; rfl, Nat.lt_succ_self _,
          isLexeme_sign hc hstart, fun n hn => absurd hn (sign_ne_name c n), ?_⟩
        rw [scan, if_neg hline, if_neg (by simp [hc]), dif_neg (by simp [hstart]), List.append_nil,
          List.nil_append, text_sign, hcolumn]
        rfl

theorem ofText_cases (s : Text) : (s.all isSpace = true ∧ ofText s = []) ∨
    ∃ w t r, w.all isSpace = true ∧ s = w ++ (text t ++ r) ∧ r.length < s.length ∧
      ofText s = t :: ofText r ∧
      ∀ n, t = name n → n.isName = true ∧ r.head?.any isNameChar = false := by
  obtain ⟨hs, hnil⟩ | ⟨w, t, r, hw, hs, hlt, ht, hr, hfirst⟩ := scan_cases [] s
  · exact .inl ⟨hs, congrArg (List.map Prod.fst) hnil⟩
  · refine .inr ⟨w, t, r, hw, hs, hlt, ?_, ?_⟩
    · rw [hs, ofText_spaces hw, ofText_token ht hr]
    · rintro n rfl
      exact ⟨ht, hr n rfl⟩

theorem stray_mem_ofText {s : Text} (hc : c ∈ s) (hb : isBlank c = true)
    (hspace : isSpace c = false) : stray c ∈ ofText s := by
  obtain ⟨hall, -⟩ | ⟨w, t, r, hw, hs, hlt, ht, hn⟩ := ofText_cases s
  · rw [List.all_eq_true.mp hall c hc] at hspace
    cases hspace
  · rw [ht]
    rw [hs, List.mem_append, List.mem_append] at hc
    rcases hc with hc | hc | hc
    · rw [List.all_eq_true.mp hw c hc] at hspace
      cases hspace
    · cases t with
      | name n =>
        have hname := List.all_eq_true.mp (Text.all_isNameChar_of_isName (hn n rfl).1) c hc
        rw [not_isBlank_of_isNameChar hname] at hb
        cases hb
      | opening | closing | comma =>
        obtain rfl := List.mem_singleton.mp hc
        cases hb
      | stray d =>
        obtain rfl := List.mem_singleton.mp hc
        exact List.mem_cons_self ..
    · exact List.mem_cons_of_mem _ (stray_mem_ofText hc hb hspace)
termination_by s.length

end Token

namespace Reading

open Token

-- ---------------------------------------------------------------------------
-- Runs of the machine
-- ---------------------------------------------------------------------------

def accept (r : Reading) : List Token → Option (List TypeExpr)
  | [] => r.result?
  | t :: ts => (r.step t).bind fun r => r.accept ts

variable {r : Reading} {es done outer : List TypeExpr} {enclosing : List (Text × List TypeExpr)}
  {n : Text} {s : Text}

theorem run_eq_ok_iff {ts : List (Token × Nat)} :
    r.run ts = .ok es ↔ r.accept (ts.map Prod.fst) = some es := by
  induction ts generalizing r with
  | nil =>
    simp only [run, List.map_nil, accept]
    cases r.result? <;> simp
  | cons t ts ih =>
    simp only [run, List.map_cons, accept]
    cases r.step t.1 with
    | none => simp
    | some r' => exact ih

theorem readList_eq_ok_iff_accept : readList s = .ok es ↔ accept {} (ofText s) = some es :=
  run_eq_ok_iff

theorem stray_not_mem {ts : List Token} (h : r.accept ts = some es) (c : Char) : stray c ∉ ts := by
  induction ts generalizing r with
  | nil => exact List.not_mem_nil
  | cons t ts ih =>
    obtain ⟨r', hstep, h⟩ := Option.bind_eq_some_iff.mp h
    rintro (_ | ⟨_, hmem⟩)
    · cases hstep
    · exact ih h hmem

theorem isSpaced_of_accept (h : r.accept (ofText s) = some es) : IsSpaced s := by
  intro c hc hb
  cases hs : isSpace c with
  | true => rfl
  | false => exact absurd (stray_mem_ofText hc hb hs) (stray_not_mem h c)

/-- The machine behind an expression: only a comma, a closing bracket or the end can follow, and
the expression counts with those before it. -/
structure Behind (r : Reading) (enclosing : List (Text × List TypeExpr)) (done : List TypeExpr) :
    Prop where
  enclosing : r.enclosing = enclosing
  settled : r.settled? = some done

theorem Behind.accept_nil (h : Behind r enclosing done) :
    r.accept [] = if enclosing.isEmpty then some done.reverse else none := by
  rw [accept, result?, h.enclosing, h.settled]
  rfl

theorem Behind.accept_comma (h : Behind r enclosing done) (ts : List Token) :
    r.accept (comma :: ts) = accept ⟨enclosing, done, .expecting⟩ ts := by
  rw [accept, step, h.enclosing, h.settled]
  rfl

theorem Behind.accept_closing (h : Behind r ((n, outer) :: enclosing) done) (ts : List Token) :
    r.accept (closing :: ts) =
      accept ⟨enclosing, ⟨n, done.reverse⟩ :: outer, .complete⟩ ts := by
  rw [accept, step, h.enclosing, h.settled]
  rfl

theorem Behind.accept_closing_nil (h : Behind r [] done) (ts : List Token) :
    r.accept (closing :: ts) = none := by
  rw [accept, step, h.enclosing, h.settled]
  rfl

theorem Behind.not_name (h : Behind r enclosing done) (ts : List Token) :
    r.accept (.name n :: ts) = none := by
  obtain ⟨outer, before, phase⟩ := r
  cases phase with
  | expecting => exact absurd h.settled nofun
  | named | complete => rfl

theorem behind_named (enclosing : List (Text × List TypeExpr)) (done : List TypeExpr) (n : Text) :
    Behind ⟨enclosing, done, .named n⟩ enclosing (⟨n, []⟩ :: done) :=
  ⟨rfl, rfl⟩

theorem behind_complete (enclosing : List (Text × List TypeExpr)) (done : List TypeExpr) :
    Behind ⟨enclosing, done, .complete⟩ enclosing done :=
  ⟨rfl, rfl⟩

-- ---------------------------------------------------------------------------
-- Spelled arguments are accepted
-- ---------------------------------------------------------------------------

theorem ofText_blanks (b : Blanks) (hb : IsSpaced b.1) (x : Text) :
    ofText (b.1 ++ x) = ofText x := by
  refine ofText_spaces (List.all_eq_true.mpr fun c hc => ?_) x
  exact hb c hc (List.all_eq_true.mp b.2 c hc)

mutual
theorem accept_spelling : (sp : Spelling) → IsSpaced sp.text →
    {x : Text} → x.head?.any isNameChar = false →
    (enclosing : List (Text × List TypeExpr)) → (done : List TypeExpr) →
    ∃ r, Behind r enclosing (sp.expr :: done) ∧
      accept ⟨enclosing, done, .expecting⟩ (ofText (sp.text ++ x)) = r.accept (ofText x)
  | .simple n, hsp, x, hx, enclosing, done => by
    refine ⟨_, behind_named enclosing done n.1, ?_⟩
    rw [Spelling.text, ofText_name n.2 hx]
    rfl
  | .applied n gap args, hsp, x, hx, enclosing, done => by
    rw [Spelling.text, IsSpaced.append, IsSpaced.append, IsSpaced.cons] at hsp
    obtain ⟨-, hgap, -, hargs⟩ := hsp
    have hhead := head_blanks_append (x := '<' :: (args.text ++ x)) gap rfl
    have hinner := accept_arguments args hargs x n.1 done enclosing []
    refine ⟨_, behind_complete enclosing (⟨n.1, args.exprs⟩ :: done), ?_⟩
    rw [Spelling.text, List.append_assoc, List.append_assoc, List.cons_append,
      ofText_name n.2 hhead, ofText_blanks gap hgap, ofText_cons rfl rfl]
    exact hinner
theorem accept_arguments : (args : Arguments) → IsSpaced args.text → (x : Text) →
    (n : Text) → (outer : List TypeExpr) → (enclosing : List (Text × List TypeExpr)) →
    (done : List TypeExpr) →
    accept ⟨(n, outer) :: enclosing, done, .expecting⟩ (ofText (args.text ++ x)) =
      accept ⟨enclosing, ⟨n, done.reverse ++ args.exprs⟩ :: outer, .complete⟩ (ofText x)
  | .last before arg after, hargs, x, n, outer, enclosing, done => by
    rw [Arguments.text, IsSpaced.append, IsSpaced.append, IsSpaced.append] at hargs
    obtain ⟨hbefore, harg, hafter, -⟩ := hargs
    obtain ⟨r, hr, haccept⟩ := accept_spelling arg harg
      (head_blanks_append (x := '>' :: x) after rfl) ((n, outer) :: enclosing) done
    simp only [Arguments.text, List.append_assoc, List.cons_append, List.nil_append]
    rw [ofText_blanks before hbefore, haccept, ofText_blanks after hafter, ofText_cons rfl rfl]
    simpa [Arguments.exprs] using hr.accept_closing (ofText x)
  | .more before arg after others, hargs, x, n, outer, enclosing, done => by
    rw [Arguments.text, IsSpaced.append, IsSpaced.append, IsSpaced.append, IsSpaced.cons] at hargs
    obtain ⟨hbefore, harg, hafter, -, hothers⟩ := hargs
    obtain ⟨r, hr, haccept⟩ := accept_spelling arg harg
      (head_blanks_append (x := ',' :: (others.text ++ x)) after rfl) ((n, outer) :: enclosing) done
    have hmore := accept_arguments others hothers x n outer enclosing (arg.expr :: done)
    simp only [Arguments.text, List.append_assoc, List.cons_append]
    rw [ofText_blanks before hbefore, haccept, ofText_blanks after hafter, ofText_cons rfl rfl]
    simpa [Arguments.exprs] using (hr.accept_comma _).trans hmore
end

theorem accept_list : (args : Arguments) → {s : Text} → args.text = s ++ ['>'] → IsSpaced s →
    (done : List TypeExpr) →
    accept ⟨[], done, .expecting⟩ (ofText s) = some (done.reverse ++ args.exprs)
  | .last before arg after, s, hs, hspace, done => by
    simp only [Arguments.text, ← List.append_assoc, List.append_left_inj] at hs
    rw [← hs, List.append_assoc] at hspace ⊢
    rw [IsSpaced.append, IsSpaced.append] at hspace
    obtain ⟨hbefore, harg, hafter⟩ := hspace
    have hhead : after.1.head?.any isNameChar = false := by
      simpa using head_blanks_append (x := []) after rfl
    obtain ⟨r, hr, haccept⟩ := accept_spelling arg harg hhead [] done
    have hend : ofText after.1 = [] := by
      rw [← List.append_nil after.1, ofText_blanks after hafter, ofText_nil]
    rw [ofText_blanks before hbefore, haccept, hend, hr.accept_nil]
    simp [Arguments.exprs]
  | .more before arg after others, s, hs, hspace, done => by
    obtain ⟨inner, hinner⟩ := List.getLast?_eq_some_iff.mp others.getLast?_text
    have hs' : s = before.1 ++ (arg.text ++ (after.1 ++ ',' :: inner)) := by
      refine List.append_left_inj ['>'] |>.mp ?_
      simpa [Arguments.text, hinner] using hs.symm
    rw [hs', IsSpaced.append, IsSpaced.append, IsSpaced.append, IsSpaced.cons] at hspace
    obtain ⟨hbefore, harg, hafter, -, hothers⟩ := hspace
    obtain ⟨r, hr, haccept⟩ := accept_spelling arg harg
      (head_blanks_append (x := ',' :: inner) after rfl) [] done
    have hmore := accept_list others hinner hothers (arg.expr :: done)
    rw [hs', ofText_blanks before hbefore, haccept, ofText_blanks after hafter, ofText_cons rfl rfl]
    simpa [Arguments.exprs] using (hr.accept_comma _).trans hmore

-- ---------------------------------------------------------------------------
-- What is accepted is spelled
-- ---------------------------------------------------------------------------

/-- The text of an accepted run from where an expression is expected: it spells the rest of the
whole list, or of the arguments in the innermost bracket, behind which the run goes on. -/
def Spells (enclosing : List (Text × List TypeExpr)) (done : List TypeExpr) (s : Text)
    (es : List TypeExpr) : Prop :=
  match enclosing with
  | [] => ∃ args : Arguments, args.text = s ++ ['>'] ∧ es = done.reverse ++ args.exprs
  | (n, outer) :: enclosing => ∃ (args : Arguments) (x : Text), s = args.text ++ x ∧
      accept ⟨enclosing, ⟨n, done.reverse ++ args.exprs⟩ :: outer, .complete⟩ (ofText x) = some es

theorem Spells.last (b : Blanks) (sp : Spelling) {w : Blanks}
    (h : enclosing = []) (hes : es = (sp.expr :: done).reverse) :
    Spells enclosing done (b.1 ++ (sp.text ++ w.1)) es := by
  subst h
  exact ⟨.last b sp w, by simp [Arguments.text], by simp [hes, Arguments.exprs]⟩

theorem Spells.closed (b : Blanks) (sp : Spelling) {w : Blanks} {x : Text}
    (h : accept ⟨enclosing, ⟨n, (sp.expr :: done).reverse⟩ :: outer, .complete⟩ (ofText x) =
      some es) :
    Spells ((n, outer) :: enclosing) done (b.1 ++ (sp.text ++ (w.1 ++ '>' :: x))) es :=
  ⟨.last b sp w, x, by simp [Arguments.text], by simpa [Arguments.exprs] using h⟩

theorem Spells.more (b : Blanks) (sp : Spelling) {w : Blanks} {x : Text}
    (h : Spells enclosing (sp.expr :: done) x es) :
    Spells enclosing done (b.1 ++ (sp.text ++ (w.1 ++ ',' :: x))) es := by
  cases enclosing with
  | nil =>
    obtain ⟨args, hx, hes⟩ := h
    exact ⟨.more b sp w args, by simp [Arguments.text, hx], by simp [hes, Arguments.exprs]⟩
  | cons frame enclosing =>
    obtain ⟨args, y, rfl, haccept⟩ := h
    exact ⟨.more b sp w args, y, by simp [Arguments.text], by simpa [Arguments.exprs] using haccept⟩

theorem exists_spaces {w : Text} (h : w.all isSpace = true) : ∃ b : Blanks, b.1 = w :=
  ⟨⟨w, List.all_eq_true.mpr fun c hc => isBlank_of_isSpace (List.all_eq_true.mp h c hc)⟩, rfl⟩

theorem exists_name_of_accept
    (h : accept ⟨enclosing, done, .expecting⟩ (ofText s) = some es) :
    ∃ (b : Blanks) (n : Name) (x : Text), s = b.1 ++ (n.1 ++ x) ∧ x.length < s.length ∧
      accept ⟨enclosing, done, .named n.1⟩ (ofText x) = some es := by
  obtain ⟨-, hnil⟩ | ⟨w, t, x, hw, hs, hlt, ht, hn⟩ := ofText_cases s
  · rw [hnil, accept, result?] at h
    split at h <;> cases h
  · obtain ⟨b, rfl⟩ := exists_spaces hw
    rw [ht, accept] at h
    cases t with
    | name n => exact ⟨b, ⟨n, (hn n rfl).1⟩, x, hs, hlt, h⟩
    | opening | closing | comma | stray => cases h

/-- An expression stands behind the blanks. Its arguments, where it has some, are left to `sub`. -/
theorem exists_spelling_of_accept
    (h : accept ⟨enclosing, done, .expecting⟩ (ofText s) = some es)
    (sub : ∀ (n : Text) (x : Text), x.length < s.length →
      accept ⟨(n, done) :: enclosing, [], .expecting⟩ (ofText x) = some es →
      Spells ((n, done) :: enclosing) [] x es) :
    ∃ (b : Blanks) (sp : Spelling) (x : Text) (r : Reading), s = b.1 ++ (sp.text ++ x) ∧
      x.length < s.length ∧ Behind r enclosing (sp.expr :: done) ∧ r.accept (ofText x) = some es ∧
      ∀ ts, ofText x ≠ opening :: ts := by
  obtain ⟨b, n, x, hs, hlt, h⟩ := exists_name_of_accept h
  by_cases hopen : ∃ ts, ofText x = opening :: ts
  · obtain ⟨ts, hts⟩ := hopen
    obtain ⟨-, hnil⟩ | ⟨w, t, y, hw, rfl, hlt', ht, -⟩ := ofText_cases x
    · rw [hnil] at hts
      cases hts
    rw [hts] at ht
    obtain ⟨rfl, rfl⟩ := List.cons.inj ht
    rw [hts] at h
    obtain ⟨args, z, rfl, haccept⟩ := sub n.1 y (Nat.lt_trans hlt' hlt) h
    obtain ⟨gap, rfl⟩ := exists_spaces hw
    refine ⟨b, .applied n gap args, z, _, by simp [hs, Spelling.text, Token.text], ?_,
      behind_complete .., haccept, fun us hus => ?_⟩
    · simp only [List.length_append] at hlt' hlt
      omega
    · rw [hus] at haccept
      cases haccept
  · exact ⟨b, .simple n, x, _, hs, hlt, behind_named .., h, fun ts hts => hopen ⟨ts, hts⟩⟩

theorem spells_of_accept {enclosing : List (Text × List TypeExpr)} {done : List TypeExpr} {s : Text}
    (h : accept ⟨enclosing, done, .expecting⟩ (ofText s) = some es) :
    Spells enclosing done s es := by
  obtain ⟨b, sp, x, r, hs, hlt, hr, hx, hopen⟩ := exists_spelling_of_accept h
    fun n x hlt h => spells_of_accept h
  obtain ⟨hall, hnil⟩ | ⟨w, t, y, hw, hxy, hlt', ht, -⟩ := ofText_cases x
  · obtain ⟨w, rfl⟩ := exists_spaces hall
    rw [hnil, hr.accept_nil] at hx
    cases enclosing with
    | nil => exact hs ▸ .last b sp rfl (Option.some.inj hx).symm
    | cons frame enclosing => cases hx
  · obtain ⟨w, rfl⟩ := exists_spaces hw
    have hlt := Nat.lt_trans hlt' hlt
    rw [ht] at hx hopen
    rw [hs, hxy]
    cases t with
    | name n =>
      rw [hr.not_name] at hx
      cases hx
    | opening => exact absurd rfl (hopen _)
    | comma =>
      rw [hr.accept_comma] at hx
      exact .more b sp (spells_of_accept hx)
    | closing =>
      cases enclosing with
      | nil =>
        rw [hr.accept_closing_nil] at hx
        cases hx
      | cons frame enclosing =>
        rw [hr.accept_closing] at hx
        exact .closed b sp hx
    | stray c => cases hx
termination_by s.length

end Reading

open Token (IsSpaced isSpace)

variable {s : Text} {es : List TypeExpr}

/-- An argument text is read iff it spells an argument list, but for the bracket that would close
it, and all its blanks are spaces. -/
theorem readList_eq_ok_iff : readList s = .ok es ↔
    IsSpaced s ∧ ∃ args : Arguments, args.text = s ++ ['>'] ∧ args.exprs = es := by
  rw [Reading.readList_eq_ok_iff_accept]
  constructor
  · intro h
    obtain ⟨args, hs, hes⟩ := Reading.spells_of_accept h
    exact ⟨Reading.isSpaced_of_accept h, args, hs, hes.symm⟩
  · rintro ⟨hspace, args, hs, rfl⟩
    exact Reading.accept_list args hs hspace []

-- ---------------------------------------------------------------------------
-- Canonical text
-- ---------------------------------------------------------------------------

theorem isSpaced_of_all {t : Text} (h : t.all isNameChar = true) : IsSpaced t := by
  intro c hc hb
  rw [not_isBlank_of_isNameChar (List.all_eq_true.mp h c hc)] at hb
  cases hb

mutual
theorem isSpaced_render : (e : TypeExpr) → e.WellFormed → IsSpaced e.render
  | ⟨n, []⟩, h => by
    rw [render]
    exact isSpaced_of_all (Text.all_isNameChar_of_isName (wellFormed_mk.mp h).1)
  | ⟨n, a :: as⟩, h => by
    obtain ⟨hn, has⟩ := wellFormed_mk.mp h
    obtain ⟨ha, has⟩ := List.forall_mem_cons.mp has
    have hclose : IsSpaced ">".toList := by decide
    rw [render, IsSpaced.append, IsSpaced.cons, IsSpaced.append, IsSpaced.append]
    exact ⟨isSpaced_of_all (Text.all_isNameChar_of_isName hn), nofun,
      ⟨isSpaced_render a ha, isSpaced_renderMore as has⟩, hclose⟩
theorem isSpaced_renderMore : (as : List TypeExpr) → (∀ a ∈ as, a.WellFormed) →
    IsSpaced (renderMore as)
  | [], _ => by
    rw [renderMore]
    exact nofun
  | a :: as, h => by
    obtain ⟨ha, has⟩ := List.forall_mem_cons.mp h
    have hcomma : IsSpaced ", ".toList := by decide
    rw [renderMore, IsSpaced.append, IsSpaced.append]
    exact ⟨⟨hcomma, isSpaced_render a ha⟩, isSpaced_renderMore as has⟩
end

theorem renderList_eq_intercalate (es : List TypeExpr) :
    renderList es = List.intercalate ", ".toList (es.map render) := by
  induction es with
  | nil => rfl
  | cons a as ih =>
    cases as with
    | nil => simp [renderList, renderMore]
    | cons b bs =>
      rw [List.map_cons, List.map_cons, List.intercalate_cons_cons, ← List.map_cons, ← ih]
      simp [renderList, renderMore]

theorem readList_renderList (hne : es ≠ []) (h : ∀ e ∈ es, e.WellFormed) :
    readList (renderList es) = .ok es := by
  obtain ⟨args, hes, ht, -⟩ := exists_arguments es hne h Blanks.none
  refine readList_eq_ok_iff.mpr ⟨?_, args, ht, hes⟩
  cases es with
  | nil => exact absurd rfl hne
  | cons a as =>
    obtain ⟨ha, has⟩ := List.forall_mem_cons.mp h
    rw [renderList, IsSpaced.append]
    exact ⟨isSpaced_render a ha, isSpaced_renderMore as has⟩

/-- Canonical text is a faithful encoding. A list of well-formed expressions is read back from its
canonical texts with a comma and a space between them, the canonical form of any text that is read
is read the same, and expressions are told apart by their canonical texts. -/
theorem canonical_faithful :
    (∀ es : List TypeExpr, es ≠ [] → (∀ e ∈ es, e.WellFormed) →
      readList (List.intercalate ", ".toList (es.map render)) = .ok es) ∧
    (∀ s es, readList s = .ok es →
      readList (List.intercalate ", ".toList (es.map render)) = .ok es) ∧
    ∀ e f : TypeExpr, e.WellFormed → f.WellFormed → (e = f ↔ e.render = f.render) := by
  refine ⟨fun es hne h => ?_, fun s es h => ?_,
    fun e f he hf => ⟨congrArg render, render_inj he hf⟩⟩
  · rw [← renderList_eq_intercalate]
    exact readList_renderList hne h
  · rw [← renderList_eq_intercalate]
    exact readList_renderList (ne_nil_of_readList h) (wellFormed_of_readList h)

/-- Nested expressions, and a text with other blanks in it. -/
theorem canonical_faithful_nested :
    let e : TypeExpr := ⟨"Map", [⟨"String", []⟩, ⟨"List", [⟨"A_1", []⟩]⟩]⟩
    let f : TypeExpr := ⟨"_b", []⟩
    let s : Text := "Map<String,\tList < A_1> >\n,_b "
    (∀ x ∈ [e, f], x.WellFormed) ∧ readList s = .ok [e, f] ∧
      readList "Map<String, List<A_1>>, _b" = .ok [e, f] ∧ e.render ≠ f.render := by
  intro e f s
  have hwell : ∀ x ∈ [e, f], x.WellFormed := by decide
  have hread : readList s = .ok [e, f] := by
    rw [Reading.readList_eq_ok_iff_accept]
    decide +kernel
  obtain ⟨hback, -, hinj⟩ := canonical_faithful
  exact ⟨hwell, hread, hback [e, f] (by simp) hwell,
    fun h => absurd ((hinj e f (hwell e (by simp)) (hwell f (by simp))).mpr h) (by decide)⟩

end TypeExpr

namespace Cursor

variable {text : Text}

theorem exists_readReference_iff (name : Text) (start : Option Int) (es : List TypeExpr) :
    (∃ ref d, readReference ⟨'<' :: (text ++ ['>']), 0⟩ name start = (.ok ref, d) ∧
      d.atEnd = true ∧ ref.toExpr = ⟨name, es⟩) ↔
    ∃ args : Arguments, args.text = text ++ ['>'] ∧ args.exprs = es := by
  have hrest : rest ⟨'<' :: (text ++ ['>']), 0⟩ = '<' :: (text ++ ['>']) := rest_append [] _
  constructor
  · rintro ⟨ref, d, hread, hend, hexpr⟩
    obtain ⟨args, hspelled⟩ := prefix_of_readReference hread
    rw [readReference_of_spelled name start hspelled] at hread
    cases hread
    rw [toExpr_spelled] at hexpr
    rw [hrest] at hspelled
    simp only [atEnd, seek, decide_eq_true_eq, Int.zero_add] at hend
    have hwhole := hspelled.eq_of_length_le (by omega)
    exact ⟨args, (List.cons.inj hwhole).2, (TypeExpr.mk.inj hexpr).2⟩
  · rintro ⟨args, hargs, rfl⟩
    have hspelled : '<' :: args.text <+: rest ⟨'<' :: (text ++ ['>']), 0⟩ := by
      simp only [hrest, hargs, List.prefix_refl]
    refine ⟨_, _, readReference_of_spelled name start hspelled, ?_, toExpr_spelled ..⟩
    simp [atEnd, seek, hargs]

/-- The two readers of type arguments agree on a text whose blanks are all spaces: the machine reads
it with some result iff the reader of source text, given the text in brackets, reads to the end
with the same arguments. -/
theorem readList_iff_readReference
    (hspace : ∀ c ∈ text, isBlank c = true → TypeExpr.Token.isSpace c = true)
    (name : Text) (start : Option Int) (es : List TypeExpr) :
    TypeExpr.readList text = .ok es ↔
      ∃ ref d, readReference ⟨'<' :: (text ++ ['>']), 0⟩ name start = (.ok ref, d) ∧
        d.atEnd = true ∧ ref.toExpr = ⟨name, es⟩ := by
  rw [exists_readReference_iff, TypeExpr.readList_eq_ok_iff]
  exact and_iff_right hspace

/-- One text that both read, and one that goes on behind its bracket, which neither takes. -/
theorem readList_iff_readReference_spaced :
    let text : Text := " Map < String,\tList<A_1> >\r\n, _b"
    let es : List TypeExpr := [⟨"Map", [⟨"String", []⟩, ⟨"List", [⟨"A_1", []⟩]⟩]⟩, ⟨"_b", []⟩]
    let stray : Text := "A> ,<B"
    (∀ c ∈ text, isBlank c = true → TypeExpr.Token.isSpace c = true) ∧
      (∃ ref d, readReference ⟨'<' :: (text ++ ['>']), 0⟩ "X" (some 0) = (.ok ref, d) ∧
        d.atEnd = true ∧ ref.toExpr = ⟨"X", es⟩) ∧
      (∀ c ∈ stray, isBlank c = true → TypeExpr.Token.isSpace c = true) ∧
      ∀ es, TypeExpr.readList stray ≠ .ok es := by
  intro text es stray
  have htext : TypeExpr.Token.IsSpaced text := by decide
  have hstray : TypeExpr.Token.IsSpaced stray := by decide
  refine ⟨htext, (readList_iff_readReference htext "X" (some 0) es).mp ?_, hstray, fun es h => ?_⟩
  · rw [TypeExpr.Reading.readList_eq_ok_iff_accept]
    decide +kernel
  · obtain ⟨ref, d, hread, hend, -⟩ :=
      (readList_iff_readReference hstray "X" (some 0) es).mp h
    have hd : (readReference ⟨'<' :: (stray ++ ['>']), 0⟩ "X" (some 0)).2.atEnd = false := by
      decide +kernel
    rw [hread, hend] at hd
    cases hd

end Cursor

end Monomorph
