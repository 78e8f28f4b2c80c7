import Monomorph.Proofs.ArgumentReaders

/-!
# Errors in argument texts

A text that is refused has a first offence, and the error names it: what stands before can go on to
an accepted text, and with the offence it cannot (`readList_refuses`). The machine that takes the
tokens is never at a dead end, whatever its state: a name where one is expected and a bracket for
each open one bring every reading to an end.
-/

namespace Monomorph.TypeExpr

open Token

-- ---------------------------------------------------------------------------
-- The machine
-- ---------------------------------------------------------------------------

namespace Reading

variable {r r' : Reading} {ts us : List Token} {t : Token}

def after? (r : Reading) : List Token → Option Reading
  | [] => some r
  | t :: ts => (r.step t).bind fun r => r.after? ts

theorem accept_append (h : r.after? ts = some r') (us : List Token) :
    r.accept (ts ++ us) = r'.accept us := by
  induction ts generalizing r with
  | nil =>
    cases h
    rfl
  | cons t ts ih =>
    obtain ⟨r₁, hstep, hrest⟩ := Option.bind_eq_some_iff.mp h
    rw [List.cons_append, accept, hstep]
    exact ih hrest

theorem accept_of_step (h : r.step t = none) (us : List Token) : r.accept (t :: us) = none := by
  rw [accept, h]
  rfl

theorem run_eq_error {ts : List (Token × Nat)} {e : ReadError} (h : r.run ts = .error e) :
    (e = .unfinished ∧ ∃ r', r.after? (ts.map Prod.fst) = some r' ∧ r'.result? = none) ∨
    ∃ before t n after r', ts = before ++ (t, n) :: after ∧
      r.after? (before.map Prod.fst) = some r' ∧ r'.step t = none ∧ e = .ofToken t n := by
  induction ts generalizing r with
  | nil =>
    rw [run] at h
    cases hresult : r.result? with
    | some es =>
      rw [hresult] at h
      cases h
    | none =>
      rw [hresult] at h
      cases h
      exact .inl ⟨rfl, r, rfl, hresult⟩
  | cons token ts ih =>
    obtain ⟨t, n⟩ := token
    rw [run] at h
    cases hstep : r.step t with
    | none =>
      rw [hstep] at h
      cases h
      exact .inr ⟨[], t, n, ts, r, rfl, rfl, hstep, rfl⟩
    | some r₁ =>
      rw [hstep] at h
      have hafter (us : List Token) : r.after? (t :: us) = r₁.after? us := by
        rw [after?, hstep]
        rfl
      obtain ⟨he, r', hr', hresult⟩ | ⟨before, t', n', after, r', rfl, hr', hstep', he⟩ := ih h
      · exact .inl ⟨he, r', (hafter _).trans hr', hresult⟩
      · exact .inr ⟨(t, n) :: before, t', n', after, r', rfl, (hafter _).trans hr', hstep', he⟩

theorem exists_accept_closings {enclosing : List (Text × List TypeExpr)} {done : List TypeExpr}
    (h : Behind r enclosing done) :
    ∃ es, r.accept (List.replicate enclosing.length closing) = some es := by
  induction enclosing generalizing r done with
  | nil => exact ⟨_, h.accept_nil⟩
  | cons e enclosing ih =>
    obtain ⟨n, outer⟩ := e
    rw [List.length_cons, List.replicate_succ, h.accept_closing]
    exact ih (behind_complete ..)

/-- What brings a reading to its end. -/
def completion (r : Reading) : Text :=
  (match r.phase with
    | .expecting => "A".toList
    | _ => []) ++ List.replicate r.enclosing.length '>'

theorem ofText_closings (k : Nat) : ofText (List.replicate k '>') = List.replicate k closing := by
  induction k with
  | zero => exact ofText_nil
  | succ k ih =>
    rw [List.replicate_succ, List.replicate_succ, ← ih]
    exact ofText_token (t := closing) trivial nofun

theorem exists_accept_completion (r : Reading) :
    ∃ es, r.accept (ofText r.completion) = some es := by
  obtain ⟨enclosing, done, phase⟩ := r
  cases phase with
  | expecting =>
    have htokens : ofText (completion ⟨enclosing, done, .expecting⟩) =
        Token.name "A" :: List.replicate enclosing.length closing := by
      rw [← ofText_closings]
      refine ofText_token (t := .name "A") rfl fun _ _ => ?_
      cases enclosing.length <;> rfl
    rw [htokens]
    exact exists_accept_closings (behind_named enclosing done "A")
  | named n =>
    have hclosings := exists_accept_closings (behind_named enclosing done n)
    rwa [← ofText_closings] at hclosings
  | complete =>
    have hclosings := exists_accept_closings (behind_complete enclosing done)
    rwa [← ofText_closings] at hclosings

theorem step_name {n : Text} (h : r.step (.name n) = none) (m : Text) :
    r.step (.name m) = none := by
  obtain ⟨enclosing, done, phase⟩ := r
  cases phase with
  | expecting => cases h
  | named | complete => rfl

end Reading

-- ---------------------------------------------------------------------------
-- Places of tokens
-- ---------------------------------------------------------------------------

namespace Token

variable {s w : Text} {t : Token} {n : Nat}

theorem IsLexeme.text_ne_nil (h : t.IsLexeme) : t.text ≠ [] := by
  cases t with
  | name n => exact Text.isName_ne_nil h
  | opening | closing | comma | stray => exact List.cons_ne_nil _ _

theorem ofText_append_space (s w : Text) : ofText (s ++ ' ' :: w) = ofText s ++ ofText w := by
  obtain ⟨hs, hnil⟩ | ⟨b, t, r, hb, hs, hlt, ht, hr, -⟩ := scan_cases [] s
  · have hspaces := ofText_spaces hs []
    rw [List.append_nil, ofText_nil] at hspaces
    rw [hspaces, ofText_spaces hs, ofText_space rfl, List.nil_append]
  · have hhead (m : Text) (hm : t = name m) : (r ++ ' ' :: w).head?.any isNameChar = false := by
      cases r with
      | nil => rfl
      | cons c r => exact hr m hm
    rw [hs, List.append_assoc, List.append_assoc, ofText_spaces hb, ofText_spaces hb,
      ofText_token ht hr, ofText_token ht hhead, ofText_append_space r w, List.cons_append]
termination_by s.length

/-- The place of a token of a scan. The tokens before it are those of the text before it, also when
something else follows the text of the token. -/
theorem exists_place (pre : Text) {ts more : List (Token × Nat)}
    (h : scan (column pre) s = ts ++ (t, n) :: more) :
    ∃ front back, s = front ++ (t.text ++ back) ∧ n = column (pre ++ front) ∧ t.IsLexeme ∧
      ofText front = ts.map Prod.fst ∧ ofText (t.text ++ back) = t :: ofText back ∧
      ∀ w, ofText (front ++ (t.text ++ w)) = ofText front ++ ofText (t.text ++ w) := by
  induction ts generalizing pre s with
  | nil =>
    obtain ⟨-, hnil⟩ | ⟨b, t', r, hb, hs, -, ht, hr, hfirst⟩ := scan_cases pre s
    · cases hnil.symm.trans h
    · cases hfirst.symm.trans h
      have hspaces := ofText_spaces hb []
      rw [List.append_nil, ofText_nil] at hspaces
      refine ⟨b, r, hs, rfl, ht, hspaces, ofText_token ht hr, fun w => ?_⟩
      rw [ofText_spaces hb, hspaces, List.nil_append]
  | cons first ts ih =>
    obtain ⟨-, hnil⟩ | ⟨b, t₀, r, hb, hs, -, ht₀, hr, hfirst⟩ := scan_cases pre s
    · cases hnil.symm.trans h
    · obtain ⟨rfl, hrest⟩ := List.cons.inj (hfirst.symm.trans h)
      obtain ⟨front, back, rfl, hn, ht, hfront, hback, hsplit⟩ := ih _ hrest
      -- a name stays whole, since what follows it here begins as it does in the text
      have hhead (w : Text) (m : Text) (hm : t₀ = name m) :
          (front ++ (t.text ++ w)).head?.any isNameChar = false := by
        obtain ⟨c, x, hx⟩ := List.exists_cons_of_ne_nil
          (List.append_ne_nil_of_right_ne_nil front ht.text_ne_nil)
        have hback := hr m hm
        rw [← List.append_assoc, hx] at hback ⊢
        exact hback
      have hbefore (m : Text) (hm : t₀ = name m) : front.head?.any isNameChar = false := by
        cases front with
        | nil => rfl
        | cons c front => exact hhead [] m hm
      have htokens : ofText (b ++ (t₀.text ++ front)) = t₀ :: ofText front := by
        rw [ofText_spaces hb, ofText_token ht₀ hbefore]
      refine ⟨b ++ (t₀.text ++ front), back, by simp [hs], by simpa using hn, ht, ?_, hback, ?_⟩
      · rw [htokens, hfront, List.map_cons]
      · intro w
        rw [htokens, List.append_assoc, List.append_assoc, ofText_spaces hb,
          ofText_token ht₀ (hhead w), hsplit, List.cons_append]

theorem exists_refused {r : Reading} (ht : t.IsLexeme) (h : r.step t = none) (w : Text) :
    ∃ u us, ofText (t.text ++ w) = u :: us ∧ r.step u = none := by
  cases t with
  | name n =>
    have hname : (n ++ w.nameRun).isName = true := Text.isName_append ht List.all_takeWhile
    refine ⟨name (n ++ w.nameRun), ofText w.afterNameRun, ?_, Reading.step_name h _⟩
    rw [← ofText_token (t := name (n ++ w.nameRun)) hname fun _ _ => Text.head_afterNameRun w,
      text, text, List.append_assoc, Text.nameRun_append_afterNameRun]
  | opening | closing | comma | stray =>
    exact ⟨_, ofText w, ofText_token ht fun _ heq => Token.noConfusion heq, h⟩

end Token

-- ---------------------------------------------------------------------------
-- The first offence
-- ---------------------------------------------------------------------------

def IsAccepted (s : Text) : Prop :=
  ∃ es, readList s = .ok es

/-- A text that an accepted one begins with. -/
def IsViable (s : Text) : Prop :=
  ∃ more, IsAccepted (s ++ more)

variable {s : Text} {r : Reading}

theorem isViable_of_after? (h : Reading.after? {} (ofText s) = some r) : IsViable s := by
  obtain ⟨es, hes⟩ := r.exists_accept_completion
  refine ⟨' ' :: r.completion, es, Reading.readList_eq_ok_iff_accept.mpr ?_⟩
  rw [ofText_append_space, Reading.accept_append h, hes]

/-- An error names the first offence of a text. Either the text ends too early: it can go on to an
accepted one, but is none. Or it has a token that is refused, at the column that is told: what
stands before can go on to an accepted text, and no accepted text begins with that and the
token. -/
theorem readList_refuses {e : ReadError} (h : readList s = .error e) :
    (e = .unfinished ∧ IsViable s ∧ ¬IsAccepted s) ∨
    ∃ t front back, e = .ofToken t (column front) ∧ s = front ++ (t.text ++ back) ∧
      ofText s = ofText front ++ t :: ofText back ∧
      IsViable front ∧ ¬IsViable (front ++ t.text) := by
  obtain ⟨rfl, r, hafter, -⟩ | ⟨before, t, n, after, r, hscan, hafter, hstep, rfl⟩ :=
    Reading.run_eq_error h
  · refine .inl ⟨rfl, isViable_of_after? hafter, ?_⟩
    rintro ⟨es, hes⟩
    cases h.symm.trans hes
  · obtain ⟨front, back, rfl, rfl, ht, hfront, hback, hsplit⟩ := exists_place [] hscan
    rw [← hfront] at hafter
    refine .inr ⟨t, front, back, rfl, rfl, by rw [hsplit, hback], isViable_of_after? hafter, ?_⟩
    rintro ⟨more, es, hes⟩
    obtain ⟨u, us, htokens, hrefused⟩ := exists_refused ht hstep more
    rw [Reading.readList_eq_ok_iff_accept, List.append_assoc, hsplit, htokens,
      Reading.accept_append hafter, Reading.accept_of_step hrefused] at hes
    cases hes

theorem readList_refuses_closing :
    readList "Map<String,\n  >" = .error (.unexpectedToken .closing 3) ∧
      ∃ t front back, ReadError.unexpectedToken .closing 3 = .ofToken t (column front) ∧
        "Map<String,\n  >".toList = front ++ (t.text ++ back) ∧
        ofText "Map<String,\n  >" = ofText front ++ t :: ofText back ∧
        IsViable front ∧ ¬IsViable (front ++ t.text) := by
  have hscan : scan 1 "Map<String,\n  >" = [(.name "Map", 1), (.opening, 4), (.name "String", 5),
      (.comma, 11), (.closing, 3)] := by decide +kernel
  have h : readList "Map<String,\n  >" = .error (.unexpectedToken .closing 3) := by
    rw [readList, hscan]
    rfl
  obtain ⟨hend, -⟩ | hoffence := readList_refuses h
  · cases hend
  · exact ⟨h, hoffence⟩

end Monomorph.TypeExpr
