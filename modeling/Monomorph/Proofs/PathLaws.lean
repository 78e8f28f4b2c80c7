import Monomorph.Path
import Monomorph.Proofs.TextLaws

/-!
# Laws of paths

A normal path from the root is told by its components (`Denotes`). Taking the directory, joining a
name and normalizing lead from such paths to such paths, so what is written to one can be said in
terms of components.
-/

namespace Monomorph

-- ---------------------------------------------------------------------------
-- Pieces of a text
-- ---------------------------------------------------------------------------

namespace Text

variable {c : Char} {a s p : Text}

theorem splitAt_cons_cases (c d : Char) (s : Text) :
    (d = c ∧ splitAt c (d :: s) = [] :: splitAt c s) ∨
      d ≠ c ∧ ∃ p ps, splitAt c s = p :: ps ∧ splitAt c (d :: s) = (d :: p) :: ps := by
  by_cases hd : d = c
  · exact .inl ⟨hd, by rw [splitAt, if_pos hd]⟩
  · obtain ⟨p, ps, hs⟩ := List.exists_cons_of_ne_nil (splitAt_ne_nil c s)
    exact .inr ⟨hd, p, ps, hs, by rw [splitAt, if_neg hd, hs]⟩

theorem splitAt_of_not_mem (h : c ∉ s) : splitAt c s = [s] := by
  induction s with
  | nil => rfl
  | cons d s ih =>
    simp only [List.mem_cons, not_or] at h
    simp [splitAt, Ne.symm h.1, ih h.2]

theorem splitAt_append (c : Char) (a s : Text) :
    splitAt c (a ++ c :: s) = splitAt c a ++ splitAt c s := by
  induction a with
  | nil => simp [splitAt]
  | cons d a ih =>
    obtain ⟨rfl, hsplit⟩ | ⟨hd, p, ps, ha, hsplit⟩ := splitAt_cons_cases c d a
    · rw [hsplit, List.cons_append, splitAt, if_pos rfl, ih, List.cons_append]
    · rw [hsplit, List.cons_append, splitAt, if_neg hd, ih, ha, List.cons_append, List.cons_append]

theorem not_mem_of_mem_splitAt (h : p ∈ splitAt c s) : c ∉ p := by
  induction s generalizing p with
  | nil => simp_all [splitAt]
  | cons d s ih =>
    obtain ⟨rfl, hsplit⟩ | ⟨hd, q, qs, hs, hsplit⟩ := splitAt_cons_cases c d s
    · rw [hsplit] at h
      rcases List.mem_cons.mp h with rfl | h
      · simp
      · exact ih h
    · rw [hsplit] at h
      rw [hs] at ih
      rcases List.mem_cons.mp h with rfl | h
      · simp [Ne.symm hd, ih (List.mem_cons_self ..)]
      · exact ih (List.mem_cons_of_mem _ h)

theorem eq_of_splitAt_eq_pair {b : Text} (h : splitAt c s = [a, b]) :
    s = a ++ c :: b ∧ c ∉ a ∧ c ∉ b := by
  have ha : c ∉ a := not_mem_of_mem_splitAt (h ▸ List.mem_cons_self)
  have hb : c ∉ b := not_mem_of_mem_splitAt (h ▸ List.mem_cons_of_mem _ List.mem_cons_self)
  refine ⟨?_, ha, hb⟩
  by_cases hs : c ∈ s
  · obtain ⟨x, y, rfl, hx⟩ := List.eq_append_cons_of_mem hs
    rw [splitAt_append, splitAt_of_not_mem hx, List.singleton_append] at h
    obtain ⟨rfl, hy⟩ := List.cons.inj h
    by_cases hmore : c ∈ y
    · obtain ⟨u, v, rfl, hu⟩ := List.eq_append_cons_of_mem hmore
      rw [splitAt_append, splitAt_of_not_mem hu] at hy
      exact absurd (List.cons.inj hy).2 (splitAt_ne_nil c v)
    · rw [splitAt_of_not_mem hmore] at hy
      cases hy
      rfl
  · rw [splitAt_of_not_mem hs] at h
    cases h

theorem splitAt_replicate (c : Char) (k : Nat) (s : Text) :
    splitAt c (List.replicate k c ++ s) = List.replicate k [] ++ splitAt c s := by
  induction k with
  | zero => rfl
  | succ k ih => simp [List.replicate_succ, splitAt, ih]

end Text

namespace Path

open Text

-- ---------------------------------------------------------------------------
-- The last component
-- ---------------------------------------------------------------------------

/-- What stands before the name of a file in the directory `d`. -/
def base (d : Text) : Text :=
  if d = [] ∨ d.getLast? = some '/' then d else d ++ ['/']

theorem join_eq_base (d : Text) {n : Text} (hn : isAbsolute n = false) :
    join d n = base d ++ n := by
  simp only [join, hn, base, Bool.false_eq_true, if_false, Bool.or_eq_true, List.isEmpty_iff,
    beq_iff_eq]
  split
  · rfl
  · rw [List.append_assoc, List.singleton_append]

theorem mem_join {a b : Text} {c : Char} (h : c ∈ join a b) : c ∈ a ∨ c = '/' ∨ c ∈ b := by
  unfold join at h
  split at h
  · exact .inr (.inr h)
  · split at h
    · exact (List.mem_append.mp h).imp_right .inr
    · simpa using h

theorem nul_of_mem_join {a b : Text} (h : '\x00' ∈ join a b) : '\x00' ∈ a ∨ '\x00' ∈ b := by
  simpa using mem_join h

theorem afterLast_base (d : Text) : afterLast '/' (base d) = [] := by
  unfold base
  split
  · rename_i h
    rcases h with rfl | h
    · rfl
    · obtain ⟨e, rfl⟩ := List.getLast?_eq_some_iff.mp h
      exact afterLast_concat
  · exact afterLast_concat

theorem not_mem_fileName (p : Text) : '/' ∉ fileName p :=
  not_mem_afterLast '/' p

theorem afterLast_base_append (d : Text) {n : Text} (hn : '/' ∉ n) :
    afterLast '/' (base d ++ n) = n := by
  rw [afterLast_append hn, afterLast_base, List.nil_append]

-- ---------------------------------------------------------------------------
-- Components
-- ---------------------------------------------------------------------------

/-- A component that is the name of a file or directory. -/
structure IsFileName (part : Text) : Prop where
  ne_nil : part ≠ []
  noSlash : '/' ∉ part
  ne_here : part ≠ "."
  ne_parent : part ≠ ".."

instance (part : Text) : Decidable (IsFileName part) :=
  decidable_of_iff (part ≠ [] ∧ '/' ∉ part ∧ part ≠ "." ∧ part ≠ "..")
    ⟨fun h => ⟨h.1, h.2.1, h.2.2.1, h.2.2.2⟩, fun h => ⟨h.1, h.2, h.3, h.4⟩⟩

variable {b : Bool} {k : Nat} {n p part x : Text} {parts acc : List Text}

theorem isFileName_of_length (hslash : '/' ∉ n) (hlong : 2 < n.length) : IsFileName n := by
  refine ⟨?_, hslash, ?_, ?_⟩ <;> rintro rfl <;> exact absurd hlong (by decide)

theorem isFileName_append {ending : Text} (hn : '/' ∉ n) (hending : '/' ∉ ending)
    (hlong : 2 < ending.length) : IsFileName (n ++ ending) := by
  refine isFileName_of_length (by simp [hn, hending]) ?_
  rw [List.length_append]
  exact Nat.lt_add_left _ hlong

theorem push_of_isFileName (h : IsFileName part) : push b acc part = part :: acc := by
  unfold push
  rw [if_neg (not_or.mpr ⟨h.ne_nil, h.ne_here⟩), if_pos h.ne_parent]

theorem push_nil (b : Bool) (acc : List Text) : push b acc [] = acc := by
  simp [push]

theorem foldl_push (h : ∀ part ∈ parts, IsFileName part) (acc : List Text) :
    parts.foldl (push b) acc = parts.reverse ++ acc := by
  induction parts generalizing acc with
  | nil => rfl
  | cons part parts ih =>
    obtain ⟨hpart, hparts⟩ := List.forall_mem_cons.mp h
    simp [push_of_isFileName hpart, ih hparts]

theorem foldl_push_replicate (k : Nat) (acc : List Text) :
    (List.replicate k []).foldl (push b) acc = acc := by
  induction k with
  | zero => rfl
  | succ k ih => simp [List.replicate_succ, push_nil, ih]

theorem isFileName_of_foldl (h : ∀ part ∈ parts, '/' ∉ part)
    (hacc : ∀ part ∈ acc, IsFileName part) :
    ∀ part ∈ parts.foldl (push true) acc, IsFileName part := by
  induction parts generalizing acc with
  | nil => exact hacc
  | cons part parts ih =>
    obtain ⟨hpart, hparts⟩ := List.forall_mem_cons.mp h
    refine ih hparts ?_
    unfold push
    split
    · exact hacc
    · rename_i hne
      simp only [not_or] at hne
      split
      · rename_i hparent
        exact List.forall_mem_cons.mpr ⟨⟨hne.1, hpart, hne.2, hparent⟩, hacc⟩
      · cases acc with
        | nil => simp
        | cons q qs =>
          obtain ⟨hq, hqs⟩ := List.forall_mem_cons.mp hacc
          simp only [if_neg hq.ne_parent]
          exact hqs

theorem isFileName_of_mem_components (h : part ∈ components true p) : IsFileName part := by
  rw [components, List.mem_reverse] at h
  exact isFileName_of_foldl (fun _ => not_mem_of_mem_splitAt) (by simp) part h

theorem isFileName_of_mem_resolve {cwd : Text} (h : part ∈ resolve cwd p) : IsFileName part :=
  isFileName_of_mem_components h

theorem components_join (b : Bool) (p : Text) {q : Text} (hq : isAbsolute q = false) :
    components b (join p q) =
      ((Text.splitAt '/' q).foldl (push b) (components b p).reverse).reverse := by
  have happend (a : Text) : components b (a ++ '/' :: q) =
      ((Text.splitAt '/' q).foldl (push b) (components b a).reverse).reverse := by
    simp [components, splitAt_append]
  rw [join_eq_base p hq, base]
  split
  · rename_i hp
    obtain rfl | hp := hp
    · simp [components, Text.splitAt, push_nil]
    · obtain ⟨a, rfl⟩ := List.getLast?_eq_some_iff.mp hp
      rw [List.append_assoc, List.singleton_append, happend]
      simp [components, splitAt_append, Text.splitAt, push_nil]
  · rw [List.append_assoc, List.singleton_append, happend]

-- ---------------------------------------------------------------------------
-- Normal paths
-- ---------------------------------------------------------------------------

theorem joinParts_cons (part : Text) (h : parts ≠ []) :
    joinParts (part :: parts) = part ++ '/' :: joinParts parts := by
  obtain ⟨q, qs, rfl⟩ := List.exists_cons_of_ne_nil h
  simp [joinParts, List.intercalate_cons_cons]

theorem joinParts_concat (h : parts ≠ []) (n : Text) :
    joinParts (parts ++ [n]) = joinParts parts ++ '/' :: n := by
  induction parts with
  | nil => exact absurd rfl h
  | cons part parts ih =>
    cases parts with
    | nil => simp [joinParts, List.intercalate]
    | cons q qs =>
      rw [List.cons_append, joinParts_cons part (by simp), joinParts_cons part (by simp),
        ih (by simp), List.append_assoc, List.cons_append]

theorem splitAt_joinParts (hne : parts ≠ []) (h : ∀ part ∈ parts, '/' ∉ part) :
    splitAt '/' (joinParts parts) = parts := by
  induction parts with
  | nil => exact absurd rfl hne
  | cons part parts ih =>
    obtain ⟨hpart, hparts⟩ := List.forall_mem_cons.mp h
    cases parts with
    | nil => simpa [joinParts, List.intercalate] using splitAt_of_not_mem hpart
    | cons q qs =>
      rw [joinParts_cons part (by simp), splitAt_append, splitAt_of_not_mem hpart,
        ih (by simp) hparts, List.singleton_append]

theorem exists_joinParts (hne : parts ≠ []) (h : ∀ part ∈ parts, IsFileName part) :
    ∃ q c, joinParts parts = q ++ [c] ∧ c ≠ '/' := by
  obtain ⟨init, last, rfl⟩ := (List.eq_nil_or_concat parts).resolve_left hne
  have hlast := h last (by simp)
  obtain ⟨q, c, rfl⟩ := (List.eq_nil_or_concat last).resolve_left hlast.ne_nil
  have hc : c ≠ '/' := by
    rintro rfl
    exact hlast.noSlash (by simp)
  by_cases hinit : init = []
  · exact ⟨q, c, by simp [hinit, joinParts, List.intercalate], hc⟩
  · rw [List.concat_eq_append, joinParts_concat hinit, List.concat_eq_append]
    exact ⟨joinParts init ++ '/' :: q, c, by simp, hc⟩

/-- A path is the normal one from the root to a place. One or two slashes stand in front. -/
structure Denotes (p : Text) (place : List Text) : Prop where
  names : ∀ part ∈ place, IsFileName part
  eq : ∃ k, (k = 1 ∨ k = 2) ∧ p = List.replicate k '/' ++ joinParts place

variable {place : List Text} {cwd : Text}

theorem mem_joinParts {c : Char} (hc : c ≠ '/') :
    c ∈ joinParts parts ↔ ∃ part ∈ parts, c ∈ part := by
  induction parts with
  | nil => simp [joinParts, List.intercalate]
  | cons q parts ih =>
    by_cases hne : parts = []
    · simp [hne, joinParts, List.intercalate]
    · simp [joinParts_cons q hne, ih, hc]

theorem Denotes.mem_iff {c : Char} (h : Denotes p place) (hc : c ≠ '/') :
    c ∈ p ↔ ∃ part ∈ place, c ∈ part := by
  obtain ⟨k, -, rfl⟩ := h.eq
  simp [mem_joinParts hc, hc]

theorem isAbsolute_replicate (hk : k = 1 ∨ k = 2) (s : Text) :
    isAbsolute (List.replicate k '/' ++ s) = true := by
  rcases hk with rfl | rfl <;> rfl

theorem join_of_isAbsolute (h : isAbsolute p = true) (a : Text) : join a p = p := by
  rw [join, if_pos h]

theorem Denotes.isAbsolute (h : Denotes p place) : isAbsolute p = true := by
  obtain ⟨k, hk, rfl⟩ := h.eq
  exact isAbsolute_replicate hk _

theorem Denotes.splitAt (h : Denotes p place) :
    ∃ k, Text.splitAt '/' p = List.replicate k [] ++ place := by
  obtain ⟨k, -, rfl⟩ := h.eq
  rw [splitAt_replicate]
  cases place with
  | nil => exact ⟨k + 1, by simp [List.replicate_succ', joinParts, List.intercalate, Text.splitAt]⟩
  | cons part place =>
    exact ⟨k, by rw [splitAt_joinParts (by simp) fun part hpart => (h.names part hpart).noSlash]⟩

theorem Denotes.components (h : Denotes p place) (b : Bool) : components b p = place := by
  obtain ⟨k, hk⟩ := h.splitAt
  simp [Path.components, hk, foldl_push_replicate, foldl_push h.names]

theorem Denotes.resolve (h : Denotes p place) (cwd : Text) : resolve cwd p = place := by
  rw [Path.resolve, join_of_isAbsolute h.isAbsolute, h.components]

/-- A path is its directory with a slash behind, unless that is the root, and a name. -/
theorem base_append (hk : k = 1 ∨ k = 2) (h : ∀ part ∈ place, IsFileName part) (n : Text) :
    base (List.replicate k '/' ++ joinParts place) ++ n =
      List.replicate k '/' ++ joinParts (place ++ [n]) := by
  by_cases hne : place = []
  · subst hne
    rcases hk with rfl | rfl <;> simp [base, joinParts, List.intercalate, List.replicate_succ]
  · obtain ⟨q, c, hq, hc⟩ := exists_joinParts hne h
    rw [joinParts_concat hne, hq, base, if_neg (by simp [hc])]
    simp

theorem isAbsolute_of_isFileName (h : IsFileName n) : isAbsolute n = false := by
  cases n with
  | nil => rfl
  | cons c n =>
    have hc : c ≠ '/' := by
      rintro rfl
      exact h.noSlash (by simp)
    simp [isAbsolute, hc]

theorem Denotes.join (h : Denotes p place) (hn : IsFileName n) :
    Denotes (join p n) (place ++ [n]) := by
  obtain ⟨k, hk, rfl⟩ := h.eq
  refine ⟨?_, k, hk, ?_⟩
  · simpa [or_imp, forall_and] using ⟨h.names, hn⟩
  · rw [join_eq_base _ (isAbsolute_of_isFileName hn), base_append hk h.names]

theorem Denotes.exists_base (h : Denotes p (place ++ [n])) :
    ∃ d, Denotes d place ∧ IsFileName n ∧ p = base d ++ n := by
  obtain ⟨k, hk, rfl⟩ := h.eq
  obtain ⟨hplace, hn⟩ := List.forall_mem_append.mp h.names
  exact ⟨_, ⟨hplace, k, hk, rfl⟩, by simpa using hn, (base_append hk hplace n).symm⟩

theorem Denotes.fileName (h : Denotes p (place ++ [n])) : fileName p = n := by
  obtain ⟨d, -, hn, rfl⟩ := h.exists_base
  exact afterLast_base_append d hn.noSlash

theorem directory_base (h : Denotes p place) (hn : '/' ∉ n) : directory (base p ++ n) = p := by
  obtain ⟨k, hk, rfl⟩ := h.eq
  by_cases hne : place = []
  · subst hne
    rcases hk with rfl | rfl
    · have hhead : throughLast '/' ('/' :: n) = ['/'] := throughLast_append hn []
      simp [directory, base, joinParts, List.intercalate, hhead]
    · have hhead : throughLast '/' ('/' :: '/' :: n) = ['/', '/'] := throughLast_append hn ['/']
      simp [directory, base, joinParts, List.intercalate, List.replicate_succ, hhead]
  · obtain ⟨q, c, hq, hc⟩ := exists_joinParts hne h.names
    rw [hq, base, if_neg (by simp [hc]), List.append_assoc, List.singleton_append]
    simp only [directory, throughLast_append hn]
    simp [hc]

theorem Denotes.directory (h : Denotes p (place ++ [n])) : Denotes (directory p) place := by
  obtain ⟨d, hd, hn, rfl⟩ := h.exists_base
  rwa [directory_base hd hn.noSlash]

theorem Denotes.join_directory (h : Denotes p (place ++ [n])) :
    Path.join (Path.directory p) n = p := by
  obtain ⟨d, hd, hn, rfl⟩ := h.exists_base
  rw [directory_base hd hn.noSlash, join_eq_base d (isAbsolute_of_isFileName hn)]

theorem Denotes.append (h : Denotes p (place ++ [n])) (hx : IsFileName (n ++ x)) :
    Denotes (p ++ x) (place ++ [n ++ x]) := by
  obtain ⟨d, hd, hn, rfl⟩ := h.exists_base
  have hjoin := hd.join hx
  rwa [join_eq_base _ (isAbsolute_of_isFileName hx), ← List.append_assoc] at hjoin

theorem Denotes.directory_append (h : Denotes p (place ++ [n])) (hx : IsFileName (n ++ x)) :
    Path.directory (p ++ x) = Path.directory p := by
  obtain ⟨d, hd, hn, rfl⟩ := h.exists_base
  rw [List.append_assoc, directory_base hd hx.noSlash, directory_base hd hn.noSlash]

theorem directory_isPrefix (p : Text) : directory p <+: p := by
  have hhead : throughLast '/' p <+: p := ⟨_, throughLast_append_afterLast '/' p⟩
  simp only [directory]
  split
  · exact hhead
  · refine .trans ?_ hhead
    rw [← List.reverse_suffix, List.reverse_reverse]
    exact List.dropWhile_suffix _

theorem leadingSlashes_of_isAbsolute (h : Path.isAbsolute p = true) :
    leadingSlashes p = 1 ∨ leadingSlashes p = 2 := by
  unfold leadingSlashes
  split
  · exact .inl rfl
  · exact .inr rfl
  · exact .inl rfl
  · rename_i hslash
    cases p with
    | nil => cases h
    | cons c p =>
      have hc : c = '/' := by simpa [Path.isAbsolute] using h
      exact absurd (hc ▸ rfl) (hslash p)

theorem normalize_ne_nil (p : Text) : normalize p ≠ [] := by
  unfold normalize
  simp only
  split
  · decide
  · rename_i h
    simpa using h

theorem normalize_of_isAbsolute (h : Path.isAbsolute p = true) :
    normalize p = List.replicate (leadingSlashes p) '/' ++ joinParts (Path.components true p) := by
  unfold normalize
  rcases leadingSlashes_of_isAbsolute h with hk | hk <;> simp [hk, List.replicate_succ]

theorem denotes_normalize (h : Path.isAbsolute p = true) :
    Denotes (normalize p) (Path.components true p) :=
  ⟨fun _ => isFileName_of_mem_components, leadingSlashes p, leadingSlashes_of_isAbsolute h,
    normalize_of_isAbsolute h⟩

theorem isAbsolute_join (h : Path.isAbsolute p = true) (q : Text) :
    Path.isAbsolute (Path.join p q) = true := by
  cases p with
  | nil => cases h
  | cons c p =>
    unfold Path.join
    split
    · assumption
    · split <;> exact h

-- ---------------------------------------------------------------------------
-- Slashes in front
-- ---------------------------------------------------------------------------

theorem isAbsolute_joinParts {down : List Text} (h : ∀ part ∈ down, IsFileName part) :
    Path.isAbsolute (joinParts down) = false := by
  cases down with
  | nil => rfl
  | cons part down =>
    have hpart := h part (by simp)
    obtain ⟨x, r, rfl⟩ := List.exists_cons_of_ne_nil hpart.ne_nil
    by_cases hne : down = []
    · simpa [hne, joinParts, List.intercalate] using isAbsolute_of_isFileName hpart
    · rw [joinParts_cons _ hne]
      exact (isAbsolute_of_isFileName hpart : Path.isAbsolute (x :: r) = false)

theorem exists_slashes (p : Text) :
    ∃ k q, p = List.replicate k '/' ++ q ∧ Path.isAbsolute q = false := by
  induction p with
  | nil => exact ⟨0, [], rfl, rfl⟩
  | cons c p ih =>
    by_cases hc : c = '/'
    · obtain ⟨k, q, rfl, hq⟩ := ih
      exact ⟨k + 1, q, by rw [hc, List.replicate_succ, List.cons_append], hq⟩
    · exact ⟨0, c :: p, rfl, by simp [Path.isAbsolute, hc]⟩

theorem leadingSlashes_replicate (k : Nat) {q : Text} (hq : Path.isAbsolute q = false) :
    leadingSlashes (List.replicate k '/' ++ q) = if k < 3 then k else 1 := by
  have hhead (r : Text) : q ≠ '/' :: r := by
    rintro rfl
    cases hq
  match k with
  | 0 | 1 | 2 => cases q <;> simp_all [leadingSlashes, List.replicate_succ]
  | k + 3 =>
    rw [if_neg (by omega)]
    rfl

theorem leadingSlashes_join {q : Text} (hp : p ≠ []) (hq : Path.isAbsolute q = false) :
    leadingSlashes (Path.join p q) = leadingSlashes p := by
  obtain ⟨k, r, rfl, hr⟩ := exists_slashes p
  have happend {t : Text} (ht : r = [] → Path.isAbsolute t = false) :
      leadingSlashes (List.replicate k '/' ++ r ++ t) =
        leadingSlashes (List.replicate k '/' ++ r) := by
    have hrt : Path.isAbsolute (r ++ t) = false := by
      cases r with
      | nil => exact ht rfl
      | cons c r => exact hr
    rw [List.append_assoc, leadingSlashes_replicate k hrt, leadingSlashes_replicate k hr]
  unfold Path.join
  rw [if_neg (by simp [hq])]
  split
  · exact happend fun _ => hq
  · rename_i hlast
    refine happend ?_
    rintro rfl
    -- a text of slashes alone ends in one
    cases k with
    | zero => exact absurd rfl hp
    | succ k => simp [List.replicate_succ'] at hlast

theorem Denotes.ne_nil (h : Denotes p place) : p ≠ [] := by
  rintro rfl
  cases h.isAbsolute

theorem Denotes.leadingSlashes_directory (h : Denotes p (place ++ [n])) :
    leadingSlashes (Path.directory p) = leadingSlashes p := by
  have hn : IsFileName n := h.names n (by simp)
  rw [← leadingSlashes_join h.directory.ne_nil (isAbsolute_of_isFileName hn), h.join_directory]

theorem Denotes.eq_replicate (h : Denotes p place) :
    p = List.replicate (leadingSlashes p) '/' ++ joinParts place := by
  obtain ⟨k, hk, rfl⟩ := h.eq
  rw [leadingSlashes_replicate k (isAbsolute_joinParts h.names), if_pos (by omega)]

theorem Denotes.unique {q : Text} (hp : Denotes p place) (hq : Denotes q place)
    (h : leadingSlashes p = leadingSlashes q) : p = q := by
  rw [hp.eq_replicate, hq.eq_replicate, h]

theorem leadingSlashes_normalize (h : Path.isAbsolute p = true) :
    leadingSlashes (normalize p) = leadingSlashes p := by
  have hk := leadingSlashes_of_isAbsolute h
  have hparts := isAbsolute_joinParts fun _ => isFileName_of_mem_components (p := p)
  rw [normalize_of_isAbsolute h, leadingSlashes_replicate _ hparts, if_pos (by omega)]

theorem Denotes.foldl_join (h : Denotes p place) (hparts : ∀ part ∈ parts, IsFileName part) :
    Denotes (parts.foldl Path.join p) (place ++ parts) ∧
      leadingSlashes (parts.foldl Path.join p) = leadingSlashes p := by
  induction parts generalizing p place with
  | nil => exact ⟨by rwa [List.append_nil], rfl⟩
  | cons part parts ih =>
    obtain ⟨hpart, hparts⟩ := List.forall_mem_cons.mp hparts
    obtain ⟨hdenotes, hslashes⟩ := ih (h.join hpart) hparts
    rw [List.append_assoc, List.singleton_append] at hdenotes
    rw [leadingSlashes_join h.ne_nil (isAbsolute_of_isFileName hpart)] at hslashes
    exact ⟨hdenotes, hslashes⟩

end Path

end Monomorph
