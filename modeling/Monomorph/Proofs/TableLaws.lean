import Monomorph.Table

/-!
# Laws of tables

What stands in a table after entries were put in: nothing but those entries, and one for each of
their keys. A list in two parts gives the table of the first with the entries of the second put in
(`ofList_append`). Where no key comes with two values, it makes no difference whether the first or
the last one stays (`insertAllNew_eq_insertAll`).
-/

namespace Monomorph.Table

variable {κ α β : Type} [BEq κ] [LawfulBEq κ] {s t : Table κ α} {k j : κ} {a : α}

omit [BEq κ] [LawfulBEq κ] in
theorem mem_keys : k ∈ t.keys ↔ ∃ a, (k, a) ∈ t.entries := by
  simp only [keys, List.mem_map, Prod.exists, exists_and_right, exists_eq_right]

omit [BEq κ] [LawfulBEq κ] in
theorem mem_values : a ∈ t.values ↔ ∃ k, (k, a) ∈ t.entries := by
  simp only [values, List.mem_map, Prod.exists, exists_eq_right]

omit [BEq κ] [LawfulBEq κ] in
theorem exists_ok_of_values {ε : Type} {x : Except ε (Table κ α)} {f : α → β} {bs : List β}
    (h : x.toOption.map (fun t => t.values.map f) = some bs) :
    ∃ t, x = .ok t ∧ t.values.map f = bs := by
  cases x with
  | error e => cases h
  | ok t => exact ⟨t, rfl, Option.some.inj h⟩

theorem mem_of_lookup {es : List (κ × α)} (h : es.lookup k = some a) : (k, a) ∈ es := by
  obtain ⟨l, r, rfl, -⟩ := List.lookup_eq_some_iff.mp h
  exact List.mem_append_right _ (List.mem_cons_self ..)

theorem lookup_of_mem {es : List (κ × α)} (hd : (es.map Prod.fst).Nodup) (h : (k, a) ∈ es) :
    es.lookup k = some a := by
  obtain ⟨l, r, rfl⟩ := List.append_of_mem h
  refine List.lookup_eq_some_iff.mpr ⟨l, r, rfl, fun e he => ?_⟩
  rw [List.map_append, List.map_cons, List.nodup_append] at hd
  simpa using (hd.2.2 e.1 (List.mem_map_of_mem he) k (List.mem_cons_self ..)).symm

theorem mem_of_get? (h : t.get? k = some a) : (k, a) ∈ t.entries :=
  mem_of_lookup h

theorem contains_iff : t.contains k = true ↔ k ∈ t.keys := by
  simp only [contains, get?, List.lookup_isSome_iff, keys, List.mem_map, beq_iff_eq]
  constructor
  · rintro ⟨e, he, rfl⟩
    exact ⟨e, he, rfl⟩
  · rintro ⟨e, he, rfl⟩
    exact ⟨e, he, rfl⟩

-- ---------------------------------------------------------------------------
-- Putting in
-- ---------------------------------------------------------------------------

theorem mem_insert {e : κ × α} (h : e ∈ (t.insert k a).entries) : e = (k, a) ∨ e ∈ t.entries := by
  obtain ⟨es⟩ := t
  simp only [insert] at h
  induction es with
  | nil => exact .inl (by simpa only [insert.go, List.mem_singleton] using h)
  | cons f fs ih =>
    rw [insert.go] at h
    split at h
    · rename_i hk
      rw [← beq_iff_eq.mp hk] at h
      rcases List.mem_cons.mp h with h | h
      · exact .inl h
      · exact .inr (List.mem_cons_of_mem _ h)
    · rcases List.mem_cons.mp h with h | h
      · exact .inr (h ▸ List.mem_cons_self ..)
      · exact (ih h).imp id (List.mem_cons_of_mem _)

theorem mem_keys_insert : j ∈ (t.insert k a).keys ↔ j = k ∨ j ∈ t.keys := by
  obtain ⟨es⟩ := t
  simp only [insert, keys]
  induction es with
  | nil => simp only [insert.go, List.map_cons, List.map_nil, List.mem_singleton, List.not_mem_nil,
      or_false]
  | cons f fs ih =>
    rw [insert.go]
    split
    · rename_i hk
      rw [beq_iff_eq.mp hk]
      simp only [List.map_cons, List.mem_cons, or_self_left]
    · simp only [List.map_cons, List.mem_cons, ih, or_left_comm]

theorem get?_insert_self : (t.insert k a).get? k = some a := by
  obtain ⟨es⟩ := t
  simp only [insert, get?]
  induction es with
  | nil => simp [insert.go]
  | cons e es ih =>
    obtain ⟨i, b⟩ := e
    rw [insert.go]
    split
    · rename_i hk
      simp [List.lookup_cons, hk]
    · rename_i hk
      simpa [List.lookup_cons, hk] using ih

theorem get?_insert_of_ne (h : j ≠ k) : (t.insert k a).get? j = t.get? j := by
  obtain ⟨es⟩ := t
  simp only [insert, get?]
  induction es with
  | nil => simp [insert.go, h]
  | cons e es ih =>
    obtain ⟨i, b⟩ := e
    rw [insert.go]
    split
    · rename_i hk
      have hne : (j == i) = false := by simpa [← beq_iff_eq.mp hk] using h
      simp [List.lookup_cons, hne]
    · simp [List.lookup_cons, ih]

theorem filter_insert {p : κ × α → Bool} (hnew : p (k, a) = false)
    (hold : ∀ b, (k, b) ∈ t.entries → p (k, b) = false) :
    (t.insert k a).entries.filter p = t.entries.filter p := by
  obtain ⟨es⟩ := t
  simp only [insert]
  induction es with
  | nil => simp [insert.go, hnew]
  | cons e es ih =>
    obtain ⟨i, b⟩ := e
    rw [insert.go]
    split
    · rename_i hk
      obtain rfl := beq_iff_eq.mp hk
      simp [hnew, hold b (by simp)]
    · simp [List.filter_cons, ih fun b hb => hold b (List.mem_cons_of_mem _ hb)]

theorem not_mem_of_get? {b : α} (h : t.get? k = none) : (k, b) ∉ t.entries := by
  intro hmem
  have hkey : t.contains k = true := contains_iff.mpr (mem_keys.mpr ⟨b, hmem⟩)
  rw [contains, h] at hkey
  cases hkey

theorem mem_insertAll {es : List (κ × α)} {e : κ × α} (h : e ∈ (t.insertAll es).entries) :
    e ∈ es ∨ e ∈ t.entries := by
  induction es generalizing t with
  | nil => exact .inr h
  | cons f fs ih =>
    rcases ih h with h | h
    · exact .inl (List.mem_cons_of_mem _ h)
    · rcases mem_insert h with rfl | h
      · exact .inl (List.mem_cons_self ..)
      · exact .inr h

theorem mem_keys_insertAll {es : List (κ × α)} :
    k ∈ (t.insertAll es).keys ↔ k ∈ es.map Prod.fst ∨ k ∈ t.keys := by
  induction es generalizing t with
  | nil => exact ⟨.inr, fun h => h.resolve_left (List.not_mem_nil)⟩
  | cons f fs ih =>
    rw [insertAll, List.foldl_cons, ← insertAll, ih, mem_keys_insert]
    simp only [List.map_cons, List.mem_cons, or_assoc, or_left_comm]

theorem mem_of_mem_ofList {es : List (κ × α)} {e : κ × α} (h : e ∈ (ofList es).entries) : e ∈ es :=
  (mem_insertAll h).resolve_right List.not_mem_nil

theorem mem_of_mem_values_ofList {f : α → κ} {l : List α}
    (h : a ∈ (ofList (l.map fun a => (f a, a))).values) : a ∈ l := by
  obtain ⟨k, hk⟩ := mem_values.mp h
  obtain ⟨b, hb, heq⟩ := List.mem_map.mp (mem_of_mem_ofList hk)
  cases heq
  exact hb

theorem mem_keys_ofList {es : List (κ × α)} : k ∈ (ofList es).keys ↔ k ∈ es.map Prod.fst := by
  rw [ofList, mem_keys_insertAll]
  exact ⟨fun h => h.resolve_right List.not_mem_nil, .inl⟩

theorem nodup_keys_insert (h : t.keys.Nodup) : (t.insert k a).keys.Nodup := by
  obtain ⟨es⟩ := t
  induction es with
  | nil => simp [insert, insert.go, keys]
  | cons f fs ih =>
    obtain ⟨hf, hfs⟩ := List.nodup_cons.mp h
    simp only [insert, insert.go]
    split
    · exact h
    · rename_i hk
      refine List.nodup_cons.mpr ⟨fun hmem => ?_, ih hfs⟩
      have hmem := (mem_keys_insert (t := ⟨fs⟩)).mp hmem
      rcases hmem with rfl | hmem
      · exact hk (beq_self_eq_true _)
      · exact hf hmem

theorem mem_insert_iff {e : κ × α} (h : t.keys.Nodup) :
    e ∈ (t.insert k a).entries ↔ e = (k, a) ∨ e ∈ t.entries ∧ e.1 ≠ k := by
  obtain ⟨es⟩ := t
  induction es with
  | nil => simp [insert, insert.go]
  | cons f fs ih =>
    obtain ⟨hf, hfs⟩ := List.nodup_cons.mp h
    have ih := ih hfs
    simp only [insert, insert.go] at ih ⊢
    split
    · rename_i hk
      obtain rfl := beq_iff_eq.mp hk
      have hne : ∀ e ∈ fs, e.1 ≠ f.1 := fun e he heq =>
        hf (heq ▸ List.mem_map_of_mem (f := Prod.fst) he)
      simp only [List.mem_cons]
      constructor
      · rintro (h | h)
        · exact .inl h
        · exact .inr ⟨.inr h, hne e h⟩
      · rintro (h | ⟨rfl | h, hne⟩)
        · exact .inl h
        · exact absurd rfl hne
        · exact .inr h
    · rename_i hk
      simp only [List.mem_cons, ih]
      constructor
      · rintro (rfl | h | h)
        · exact .inr ⟨.inl rfl, fun heq => hk (beq_iff_eq.mpr heq.symm)⟩
        · exact .inl h
        · exact .inr ⟨.inr h.1, h.2⟩
      · rintro (h | ⟨rfl | h, hne⟩)
        · exact .inr (.inl h)
        · exact .inl rfl
        · exact .inr (.inr ⟨h, hne⟩)

theorem mem_insertAll_iff {es : List (κ × α)} {e : κ × α} (h : t.keys.Nodup) :
    e ∈ (t.insertAll es).entries ↔
      (∃ l r, es = l ++ e :: r ∧ e.1 ∉ r.map Prod.fst) ∨ e ∈ t.entries ∧ e.1 ∉ es.map Prod.fst := by
  induction es generalizing t with
  | nil => simp [insertAll]
  | cons f fs ih =>
    rw [insertAll, List.foldl_cons, ← insertAll, ih (nodup_keys_insert h), mem_insert_iff h]
    constructor
    · rintro (⟨l, r, rfl, hr⟩ | ⟨rfl | ⟨he, hne⟩, hfs⟩)
      · exact .inl ⟨f :: l, r, rfl, hr⟩
      · exact .inl ⟨[], fs, rfl, hfs⟩
      · exact .inr ⟨he, by simp [hne, hfs]⟩
    · rintro (⟨l, r, heq, hr⟩ | ⟨he, hne⟩)
      · cases l with
        | nil =>
          obtain ⟨rfl, rfl⟩ := List.cons.inj heq
          exact .inr ⟨.inl rfl, hr⟩
        | cons d l => exact .inl ⟨l, r, (List.cons.inj heq).2, hr⟩
      · rw [List.map_cons, List.mem_cons, not_or] at hne
        exact .inr ⟨.inr ⟨he, hne.1⟩, hne.2⟩

theorem nodup_keys_insertAll {es : List (κ × α)} (h : t.keys.Nodup) :
    (t.insertAll es).keys.Nodup := by
  induction es generalizing t with
  | nil => exact h
  | cons f fs ih => exact ih (nodup_keys_insert h)

theorem nodup_keys_ofList (es : List (κ × α)) : (ofList es).keys.Nodup :=
  nodup_keys_insertAll .nil

theorem nodup_values_ofList (f : α → κ) (l : List α) :
    (ofList (l.map fun a => (f a, a))).values.Nodup := by
  have hkey : ∀ e ∈ (ofList (l.map fun a => (f a, a))).entries, f e.2 = e.1 := by
    intro e he
    obtain ⟨a, -, rfl⟩ := List.mem_map.mp (mem_of_mem_ofList he)
    rfl
  have hkeys := nodup_keys_ofList (l.map fun a => (f a, a))
  rw [keys, ← List.map_congr_left hkey] at hkeys
  refine List.Pairwise.of_map (S := (· ≠ ·)) f (fun _ _ => mt (congrArg f)) ?_
  rw [values, List.map_map]
  exact hkeys

theorem mem_ofList_iff {es : List (κ × α)} {e : κ × α} :
    e ∈ (ofList es).entries ↔ ∃ l r, es = l ++ e :: r ∧ e.1 ∉ r.map Prod.fst := by
  rw [ofList, mem_insertAll_iff (t := ∅) .nil]
  exact or_iff_left fun h => List.not_mem_nil h.1

omit [LawfulBEq κ] in
theorem map_insert (f : α → β) : (t.insert k a).map f = (t.map f).insert k (f a) := by
  obtain ⟨es⟩ := t
  simp only [insert, map, mk.injEq]
  induction es with
  | nil => rfl
  | cons e es ih =>
    simp only [insert.go, List.map_cons]
    split
    · rfl
    · rw [List.map_cons, ih]

omit [LawfulBEq κ] in
theorem map_ofList (f : α → β) (es : List (κ × α)) :
    (ofList es).map f = ofList (es.map fun e => (e.1, f e.2)) := by
  have all (t : Table κ α) :
      (t.insertAll es).map f = (t.map f).insertAll (es.map fun e => (e.1, f e.2)) := by
    induction es generalizing t with
    | nil => rfl
    | cons e es ih =>
      rw [insertAll, List.foldl_cons, ← insertAll, ih, map_insert]
      rfl
  exact all ∅

-- ---------------------------------------------------------------------------
-- Putting in again
-- ---------------------------------------------------------------------------

omit [LawfulBEq κ] in
theorem insert_of_get? (h : t.get? k = some a) : t.insert k a = t := by
  obtain ⟨es⟩ := t
  simp only [get?, insert, mk.injEq] at h ⊢
  induction es with
  | nil => cases h
  | cons e es ih =>
    obtain ⟨i, b⟩ := e
    rw [List.lookup_cons] at h
    rw [insert.go]
    split at h
    · rename_i hk
      cases h
      rw [if_pos hk]
    · rename_i hk
      rw [if_neg (by simp [hk]), ih h]

omit [LawfulBEq κ] in
theorem insert_of_get?_eq_none (h : t.get? k = none) :
    t.insert k a = ⟨t.entries ++ [(k, a)]⟩ := by
  obtain ⟨es⟩ := t
  simp only [get?, insert, mk.injEq] at h ⊢
  induction es with
  | nil => rfl
  | cons e es ih =>
    obtain ⟨i, b⟩ := e
    rw [List.lookup_cons] at h
    rw [insert.go]
    split at h
    · cases h
    · rename_i hk
      rw [if_neg (by simp [hk]), ih h, List.cons_append]

theorem insert_insert (a b : α) : (t.insert k a).insert k b = t.insert k b := by
  obtain ⟨es⟩ := t
  simp only [insert, mk.injEq]
  induction es with
  | nil => simp [insert.go]
  | cons e es ih =>
    by_cases hk : k == e.1
    · simp [insert.go, hk]
    · simp [insert.go, hk, ih]

/-- A key that is there already keeps its place, so it can be put in before a new one. -/
theorem insert_comm (hk : k ∈ t.keys) (hne : j ≠ k) (a b : α) :
    (t.insert j b).insert k a = (t.insert k a).insert j b := by
  obtain ⟨es⟩ := t
  simp only [insert, mk.injEq]
  induction es with
  | nil => cases hk
  | cons e es ih =>
    obtain ⟨i, c⟩ := e
    by_cases hi : k = i
    · subst hi
      simp [insert.go, hne]
    · have hk : k ∈ keys ⟨es⟩ := (List.mem_cons.mp hk).resolve_left hi
      by_cases hj : j = i
      · subst hj
        simp [insert.go, hi]
      · simp [insert.go, hi, hj, ih hk]

theorem insert_insertAll {es : List (κ × α)} (hk : k ∈ t.keys) (hes : k ∉ es.map Prod.fst) (a : α) :
    (t.insertAll es).insert k a = (t.insert k a).insertAll es := by
  induction es generalizing t with
  | nil => rfl
  | cons e es ih =>
    simp only [List.map_cons, List.mem_cons, not_or] at hes
    have ih := ih (t := t.insert e.1 e.2) (mem_keys_insert.mpr (.inr hk)) hes.2
    rw [insert_comm hk (Ne.symm hes.1)] at ih
    exact ih

theorem insertAll_insert (hs : s.keys.Nodup) (k : κ) (a : α) :
    t.insertAll (s.insert k a).entries = (t.insertAll s.entries).insert k a := by
  obtain ⟨es⟩ := s
  simp only [insert]
  induction es generalizing t with
  | nil => rfl
  | cons e es ih =>
    obtain ⟨j, b⟩ := e
    obtain ⟨hj, hes⟩ := List.nodup_cons.mp hs
    rw [insert.go]
    split
    · rename_i hk
      obtain rfl := beq_iff_eq.mp hk
      have hmem : k ∈ (t.insert k b).keys := mem_keys_insert.mpr (.inl rfl)
      have h := insert_insertAll hmem hj a
      rw [insert_insert] at h
      exact h.symm
    · exact ih hes

theorem insertAll_insertAll (hs : s.keys.Nodup) (es : List (κ × α)) :
    t.insertAll (s.insertAll es).entries = (t.insertAll s.entries).insertAll es := by
  induction es generalizing s with
  | nil => rfl
  | cons e es ih =>
    have h := ih (s := s.insert e.1 e.2) (nodup_keys_insert hs)
    rw [insertAll_insert hs] at h
    exact h

theorem ofList_append (es fs : List (κ × α)) :
    ofList (es ++ fs) = (ofList es).insertAll (ofList fs).entries := by
  have h := insertAll_insertAll (t := ofList es) (s := ∅) .nil fs
  rw [ofList, insertAll, List.foldl_append]
  exact h.symm

-- ---------------------------------------------------------------------------
-- Putting in what is new
-- ---------------------------------------------------------------------------

theorem mem_insertNew {e : κ × α} :
    e ∈ (t.insertNew k a).entries ↔ e ∈ t.entries ∨ k ∉ t.keys ∧ e = (k, a) := by
  unfold insertNew
  split
  · rename_i hk
    have hk := contains_iff.mp hk
    exact ⟨.inl, fun h => h.resolve_right fun h => h.1 hk⟩
  · rename_i hk
    have hk : k ∉ t.keys := fun h => hk (contains_iff.mpr h)
    simp only [List.mem_append, List.mem_singleton, hk, not_false_eq_true, true_and]

theorem mem_keys_insertNew : j ∈ (t.insertNew k a).keys ↔ j = k ∨ j ∈ t.keys := by
  unfold insertNew
  split
  · rename_i hk
    refine ⟨.inr, ?_⟩
    rintro (rfl | h)
    · exact contains_iff.mp hk
    · exact h
  · simp only [keys, List.map_append, List.mem_append, List.map_cons, List.map_nil,
      List.mem_singleton, or_comm]

theorem mem_insertAllNew {es : List (κ × α)} {e : κ × α} (h : e ∈ (t.insertAllNew es).entries) :
    e ∈ es ∨ e ∈ t.entries := by
  induction es generalizing t with
  | nil => exact .inr h
  | cons f fs ih =>
    rcases ih h with h | h
    · exact .inl (List.mem_cons_of_mem _ h)
    · rcases mem_insertNew.mp h with h | ⟨-, rfl⟩
      · exact .inr h
      · exact .inl (List.mem_cons_self ..)

theorem mem_keys_insertAllNew {es : List (κ × α)} :
    k ∈ (t.insertAllNew es).keys ↔ k ∈ es.map Prod.fst ∨ k ∈ t.keys := by
  induction es generalizing t with
  | nil => exact ⟨.inr, fun h => h.resolve_left (List.not_mem_nil)⟩
  | cons f fs ih =>
    rw [insertAllNew, List.foldl_cons, ← insertAllNew, ih, mem_keys_insertNew]
    simp only [List.map_cons, List.mem_cons, or_assoc, or_left_comm]

-- ---------------------------------------------------------------------------
-- Entries with one value for each key
-- ---------------------------------------------------------------------------

def SingleValued (es : List (κ × α)) : Prop :=
  ∀ k a b, (k, a) ∈ es → (k, b) ∈ es → a = b

theorem singleValued_of_nodup (h : t.keys.Nodup) : SingleValued t.entries := fun _ _ _ ha hb =>
  Option.some.inj ((lookup_of_mem h ha).symm.trans (lookup_of_mem h hb))

theorem mem_insertAllNew_iff {es : List (κ × α)} (hf : SingleValued es) :
    (k, a) ∈ (t.insertAllNew es).entries ↔ (k, a) ∈ t.entries ∨ k ∉ t.keys ∧ (k, a) ∈ es := by
  induction es generalizing t with
  | nil => exact ⟨.inl, fun h => h.resolve_right fun h => (nomatch h.2)⟩
  | cons f fs ih =>
    obtain ⟨j, b⟩ := f
    have ih := ih (t := t.insertNew j b) fun k a b ha hb =>
      hf k a b (List.mem_cons_of_mem _ ha) (List.mem_cons_of_mem _ hb)
    rw [insertAllNew, List.foldl_cons, ← insertAllNew, ih, mem_insertNew, mem_keys_insertNew,
      List.mem_cons]
    constructor
    · rintro ((h | ⟨hj, heq⟩) | ⟨hk, h⟩)
      · exact .inl h
      · cases heq
        exact .inr ⟨hj, .inl rfl⟩
      · exact .inr ⟨fun h => hk (.inr h), .inr h⟩
    · rintro (h | ⟨hk, heq | h⟩)
      · exact .inl (.inl h)
      · cases heq
        exact .inl (.inr ⟨hk, rfl⟩)
      · by_cases hj : k = j
        · subst hj
          have hab := hf k a b (List.mem_cons_of_mem _ h) (List.mem_cons_self ..)
          exact .inl (.inr ⟨hk, by rw [hab]⟩)
        · exact .inr ⟨fun h => h.elim hj hk, h⟩

theorem insertNew_eq_insert (h : ∀ b, (k, b) ∈ t.entries → b = a) :
    t.insertNew k a = t.insert k a := by
  unfold insertNew contains
  cases hk : t.get? k with
  | none => exact (insert_of_get?_eq_none hk).symm
  | some b =>
    obtain rfl := h b (mem_of_get? hk)
    exact (insert_of_get? hk).symm

theorem insertAllNew_eq_insertAll {es : List (κ × α)} (h : SingleValued (t.entries ++ es)) :
    t.insertAllNew es = t.insertAll es := by
  induction es generalizing t with
  | nil => rfl
  | cons e es ih =>
    obtain ⟨k, a⟩ := e
    have hnew : t.insertNew k a = t.insert k a := by
      refine insertNew_eq_insert fun b hb => h k b a ?_ ?_
      · exact List.mem_append_left _ hb
      · simp
    have hmem {x : κ × α} (hx : x ∈ (t.insert k a).entries ++ es) :
        x ∈ t.entries ++ (k, a) :: es := by
      rcases List.mem_append.mp hx with hx | hx
      · rcases mem_insert hx with rfl | hx
        · simp
        · exact List.mem_append_left _ hx
      · simp [hx]
    rw [insertAllNew, insertAll, List.foldl_cons, List.foldl_cons, ← insertAllNew, ← insertAll,
      hnew]
    exact ih fun k a b ha hb => h k a b (hmem ha) (hmem hb)

theorem get?_of_singleValued (h : SingleValued t.entries) (hk : (k, a) ∈ t.entries) :
    t.get? k = some a := by
  have hkey : t.contains k = true := contains_iff.mpr (mem_keys.mpr ⟨a, hk⟩)
  obtain ⟨b, hb⟩ := Option.isSome_iff_exists.mp hkey
  rw [hb, h k b a (mem_of_get? hb) hk]

theorem get?_insertAll_of_singleValued {es : List (κ × α)} (h : SingleValued (t.entries ++ es))
    (hk : (k, a) ∈ t.entries ++ es) : (t.insertAll es).get? k = some a := by
  have hsub {x : κ × α} (hx : x ∈ (t.insertAll es).entries) : x ∈ t.entries ++ es :=
    List.mem_append.mpr (mem_insertAll hx).symm
  have hkey : k ∈ (t.insertAll es).keys := by
    refine mem_keys_insertAll.mpr ((List.mem_append.mp hk).symm.imp ?_ ?_)
    · exact List.mem_map_of_mem (f := Prod.fst)
    · exact fun h => mem_keys.mpr ⟨a, h⟩
  obtain ⟨b, hb⟩ := mem_keys.mp hkey
  obtain rfl := h k b a (hsub hb) hk
  exact get?_of_singleValued (fun k a b ha hb => h k a b (hsub ha) (hsub hb)) hb

theorem get?_ofList_of_singleValued {es : List (κ × α)} (h : SingleValued es)
    (hk : (k, a) ∈ es) : (ofList es).get? k = some a :=
  get?_insertAll_of_singleValued (t := ∅) h hk

theorem mem_ofList_of_singleValued {es : List (κ × α)} (h : SingleValued es) :
    (k, a) ∈ (ofList es).entries ↔ (k, a) ∈ es :=
  ⟨mem_of_mem_ofList, fun hk => mem_of_get? (get?_ofList_of_singleValued h hk)⟩

-- ---------------------------------------------------------------------------
-- Mapping and filtering
-- ---------------------------------------------------------------------------

omit [BEq κ] [LawfulBEq κ] in
theorem mem_map {f : α → β} {b : β} :
    (k, b) ∈ (t.map f).entries ↔ ∃ a, (k, a) ∈ t.entries ∧ f a = b := by
  simp only [map, List.mem_map, Prod.mk.injEq, Prod.exists]
  constructor
  · rintro ⟨_, a, h, rfl, rfl⟩
    exact ⟨a, h, rfl⟩
  · rintro ⟨a, h, rfl⟩
    exact ⟨k, a, h, rfl, rfl⟩

omit [BEq κ] [LawfulBEq κ] in
theorem mem_filter {p : κ → α → Bool} :
    (k, a) ∈ (t.filter p).entries ↔ (k, a) ∈ t.entries ∧ p k a = true := by
  simp only [filter, List.mem_filter]

end Monomorph.Table
