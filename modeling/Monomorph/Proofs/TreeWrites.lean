import Monomorph.Proofs.TreeGrowth

/-!
# Writing into a file tree

What a write meets depends on the kinds of the nodes alone. The directories on its way are made as
far as nothing is in the way (`makeDirectories_cases`); once they are there, writing puts a file or
finds an obstacle (`IsReady.write`). In a tree that has grown further it ends as before.
-/

namespace Monomorph.FileTree

open Path

variable {t t' u : FileTree} {dir parts : List Text} {bytes : Bytes} {p part name way cwd : Text}

/-- What keeps a file from being put into a directory that is there. -/
def obstacle? (t : FileTree) (p : Text) (dir : List Text) (name : Text) : Option FileError :=
  (barrier? p name).or
    (match (t.node? (dir ++ [name])).map Node.contents with
    | some (.error e) => some e
    | _ => none)

theorem refusal?_cases {e : FileError} (h : refusal? p = some e) :
    e = .nulInPath ∧ '\x00' ∈ p ∨ e = .nameTooLong := by
  unfold refusal? at h
  split at h
  · rename_i hnul
    cases h
    exact .inl ⟨rfl, by simpa using hnul⟩
  · split at h
    · cases h
      exact .inr rfl
    · cases h

theorem refusal?_of_isPrefix {p q : Text} (hq : q <+: p) (h : refusal? p = none) :
    refusal? q = none := by
  obtain ⟨r, rfl⟩ := hq
  unfold refusal? at h ⊢
  split at h
  · cases h
  · rename_i hnul
    split at h
    · cases h
    · rename_i hlong
      rw [if_neg, if_neg]
      · simp [isLongPath, Utf8.encode] at hlong ⊢
        omega
      · intro hq
        exact hnul (by simp_all)

theorem barrier?_cases {e : FileError} (h : barrier? p name = some e) :
    refusal? p = some e ∨ e = .nameTooLong := by
  unfold barrier? at h
  cases hrefusal : refusal? p with
  | some e' =>
    rw [hrefusal] at h
    exact .inl h
  | none =>
    rw [hrefusal, Option.none_or] at h
    split at h
    · cases h
      exact .inr rfl
    · cases h

theorem refusal?_of_barrier? (h : barrier? p name = none) : refusal? p = none :=
  (Option.or_eq_none_iff.mp h).1

theorem put_eq (hp : Denotes p (dir ++ [name])) (h : t.IsOpen dir) (cwd : Text) (bytes : Bytes) :
    t.put cwd p bytes = match t.obstacle? p dir name with
      | some e => .error e
      | none => .ok (t.set (dir ++ [name]) (.file bytes)) := by
  unfold put
  rw [lookup_concat hp h, obstacle?]
  cases hbarrier : barrier? p name with
  | some e =>
    obtain hrefusal | rfl := barrier?_cases hbarrier
    · obtain ⟨rfl, -⟩ | rfl := refusal?_cases hrefusal <;> rfl
    · rfl
  | none =>
    cases hnode : t.node? (dir ++ [name]) with
    | some m => cases m <;> rfl
    | none =>
      have hdir := hp.directory
      have hparent : t.lookup cwd (if (directory p).isEmpty then "." else directory p) =
          .ok (dir, .directory) := by
        rw [if_neg, lookup_eq hdir,
          refusal?_of_isPrefix (directory_isPrefix p) (refusal?_of_barrier? hbarrier)]
        · exact h
        · intro hempty
          have habsolute := hdir.isAbsolute
          rw [List.isEmpty_iff.mp hempty] at habsolute
          cases habsolute
      simp only [hparent, hp.fileName]
      rfl

/-- An error of the file system, which knows nothing of contents. It finds fault with NUL only where
there is one. -/
structure IsRaised (e : FileError) (hasNul : Prop) : Prop where
  ne_unencodable : e ≠ .unencodable
  nul : e = .nulInPath → hasNul

theorem isRaised_of_refusal? {e : FileError} (h : refusal? p = some e) :
    IsRaised e ('\x00' ∈ p) := by
  obtain ⟨rfl, hnul⟩ | rfl := refusal?_cases h
  · exact ⟨nofun, fun _ => hnul⟩
  · exact ⟨nofun, nofun⟩

theorem IsRaised.imp {e : FileError} {a b : Prop} (h : IsRaised e a) (hab : a → b) : IsRaised e b :=
  ⟨h.ne_unencodable, fun he => hab (h.nul he)⟩

/-- What ends the making of directories at a node that is none. The directory below it is looked at
first. -/
def stoppage (n : Node) (here : Text) : List Text → FileError
  | [] => .alreadyExists
  | next :: _ => (refusal? (join here next)).getD n.blockade

theorem makeBelow_of_ne_directory {place : List Text} {way part : Text} {n : Node}
    (hn : n ≠ .directory) (parts : List Text) (hrefusal : refusal? (join way part) = none)
    (hlong : isLong part = false) (hnode : t.node? (place ++ [part]) = some n) :
    t.makeBelow place way (part :: parts) = .error (stoppage n (join way part) parts, t) := by
  simp only [makeBelow, hrefusal, hlong, hnode, Bool.false_eq_true, if_false]
  cases n with
  | directory => exact absurd rfl hn
  | _ => cases parts <;> rfl

theorem isRaised_stoppage (n : Node) (way part : Text) (parts : List Text) :
    IsRaised (stoppage n (join way part) parts) ('\x00' ∈ way ∨ ∃ q ∈ part :: parts, '\x00' ∈ q) := by
  cases parts with
  | nil => exact ⟨nofun, nofun⟩
  | cons next parts =>
    rw [stoppage]
    cases hnext : refusal? (join (join way part) next) with
    | none => cases n <;> exact ⟨FileError.noConfusion, FileError.noConfusion⟩
    | some e =>
      refine (isRaised_of_refusal? hnext).imp fun h => ?_
      obtain h | h := nul_of_mem_join h
      · exact (nul_of_mem_join h).imp_right fun h => ⟨part, by simp, h⟩
      · exact .inr ⟨next, by simp, h⟩

theorem stoppage_of_kind {m n : Node} (h : m.kind = n.kind) (here : Text) (parts : List Text) :
    stoppage m here parts = stoppage n here parts := by
  obtain rfl | ⟨⟨b, rfl⟩, b', rfl⟩ := Node.eq_or_of_kind h
  · rfl
  · rfl

theorem makeBelow_blocked {place : List Text} {way part : Text} {n : Node} (hn : n ≠ .directory)
    (parts : List Text) (hrefusal : refusal? (join way part) = none) (hlong : isLong part = false)
    (hnode : t.node? (place ++ [part]) = some n) (hu : Extends t u) :
    u.makeBelow place way (part :: parts) = .error (stoppage n (join way part) parts, u) := by
  obtain ⟨m, hm, hkind⟩ := hu _ n hnode
  have hdir : m ≠ .directory := by
    rintro rfl
    cases n with
    | directory => exact hn rfl
    | _ => cases hkind
  rw [makeBelow_of_ne_directory hdir parts hrefusal hlong hm, stoppage_of_kind hkind]

theorem makeBelow_cons (t : FileTree) (place : List Text) (way part : Text) (parts : List Text) :
    (∃ e, IsRaised e ('\x00' ∈ way ∨ ∃ q ∈ part :: parts, '\x00' ∈ q) ∧
      ∀ u, Extends t u → u.makeBelow place way (part :: parts) = .error (e, u)) ∨
    isLong part = false ∧ ∃ t₁,
      (t₁ = t ∨ t.node? (place ++ [part]) = none ∧ t₁ = t.set (place ++ [part]) .directory) ∧
      t₁.node? (place ++ [part]) = some .directory ∧
      t.makeBelow place way (part :: parts) =
        t₁.makeBelow (place ++ [part]) (join way part) parts ∧
      ∀ u : FileTree, u.node? (place ++ [part]) = some .directory →
        u.makeBelow place way (part :: parts) =
          u.makeBelow (place ++ [part]) (join way part) parts := by
  cases hrefusal : refusal? (join way part) with
  | some e =>
    refine .inl ⟨e, (isRaised_of_refusal? hrefusal).imp fun h => ?_, fun u _ => ?_⟩
    · exact (nul_of_mem_join h).imp_right fun h => ⟨part, by simp, h⟩
    · simp only [makeBelow, hrefusal]
  | none =>
    cases hlong : isLong part with
    | true =>
      refine .inl ⟨.nameTooLong, ⟨nofun, nofun⟩, fun u _ => ?_⟩
      simp only [makeBelow, hrefusal, hlong, if_true]
    | false =>
      have hopen (u : FileTree) (h : u.node? (place ++ [part]) = some .directory) :
          u.makeBelow place way (part :: parts) =
            u.makeBelow (place ++ [part]) (join way part) parts := by
        simp only [makeBelow, hrefusal, hlong, h, Bool.false_eq_true, if_false]
      cases hnode : t.node? (place ++ [part]) with
      | none =>
        have hset : (t.set (place ++ [part]) .directory).node? (place ++ [part]) =
            some .directory := node?_set_self (by simp)
        refine .inr ⟨rfl, _, .inr ⟨rfl, rfl⟩, hset, ?_, hopen⟩
        simp only [makeBelow, hrefusal, hlong, hnode, Bool.false_eq_true, if_false]
        rfl
      | some n =>
        by_cases hn : n = .directory
        · subst hn
          exact .inr ⟨rfl, t, .inl rfl, hnode, hopen t hnode, hopen⟩
        · exact .inl ⟨_, isRaised_stoppage n way part parts,
            fun u hu => makeBelow_blocked hn parts hrefusal hlong hnode hu⟩

/-- Making directories: the tree grows by directories alone. Either all are there afterwards, or
something is in the way; what is found then is found in every tree that has grown further, and no
more directories are made. -/
theorem makeBelow_cases (t : FileTree) (place : List Text) (way : Text) {parts : List Text}
    (hnames : ∀ part ∈ parts, IsFileName part) : ∃ t',
    Grows (fun _ _ => False) (fun _ => False) t t' ∧
    ((∃ e, IsRaised e ('\x00' ∈ way ∨ ∃ q ∈ parts, '\x00' ∈ q) ∧
      t.makeBelow place way parts = .error (e, t') ∧
      ∀ u, Extends t' u → u.makeBelow place way parts = .error (e, u)) ∨
    t.makeBelow place way parts = .ok t' ∧
      t'.follow place .directory parts = .ok (place ++ parts, .directory) ∧
      ∀ u, Extends t' u → u.makeBelow place way parts = .ok u) := by
  induction parts generalizing t place way with
  | nil => exact ⟨t, .refl, .inr ⟨rfl, by rw [follow, List.append_nil], fun u _ => rfl⟩⟩
  | cons part parts ih =>
    obtain ⟨hpart, hparts⟩ := List.forall_mem_cons.mp hnames
    obtain ⟨e, he, herror⟩ | ⟨hlong, t₁, ht₁, hdir, hmake, hopen⟩ :=
      makeBelow_cons t place way part parts
    · exact ⟨t, .refl, .inl ⟨e, he, herror t (.refl t), herror⟩⟩
    · have hgrows₁ : Grows (fun _ _ => False) (fun _ => False) t t₁ := by
        obtain rfl | ⟨hnone, rfl⟩ := ht₁
        · exact .refl
        · exact .single (.directory (by simp) hnone)
      obtain ⟨t', hgrows, hcases⟩ := ih t₁ (place ++ [part]) (join way part) hparts
      have hopen' {u : FileTree} (hu : Extends t' u) :=
        hopen u ((hgrows.extends.trans hu).directory hdir)
      refine ⟨t', hgrows₁.trans hgrows, hcases.imp ?_ ?_⟩
      · rintro ⟨e, he, herror, hagain⟩
        refine ⟨e, he.imp ?_, hmake.trans herror, fun u hu => (hopen' hu).trans (hagain u hu)⟩
        rintro (h | ⟨q, hq, h⟩)
        · exact (nul_of_mem_join h).imp_right fun h => ⟨part, by simp, h⟩
        · exact .inr ⟨q, by simp [hq], h⟩
      · rintro ⟨hok, hfollow, hagain⟩
        refine ⟨hmake.trans hok, ?_, fun u hu => (hopen' hu).trans (hagain u hu)⟩
        rw [follow_name _ _ hpart, hlong, hgrows.extends.directory hdir]
        simpa using hfollow

/-- A directory is there, and making it once more changes nothing. -/
structure IsReady (t : FileTree) (cwd path : Text) (dir : List Text) : Prop where
  isOpen : t.IsOpen dir
  make : t.makeDirectories cwd path = .ok t

theorem makeDirectories_cases (hp : Denotes p dir) (t : FileTree) (cwd : Text) : ∃ t',
    Grows (fun _ _ => False) (fun _ => False) t t' ∧
    ((∃ e, IsRaised e ('\x00' ∈ p) ∧ t.makeDirectories cwd p = .error (e, t') ∧
      ∀ u, Extends t' u → u.makeDirectories cwd p = .error (e, u)) ∨
    t.makeDirectories cwd p = .ok t' ∧ ∀ u, Extends t' u → u.IsReady cwd p dir) := by
  have hmake (u : FileTree) : u.makeDirectories cwd p =
      u.makeBelow [] (List.replicate (leadingSlashes p) '/') dir := by
    rw [makeDirectories, join_of_isAbsolute hp.isAbsolute, hp.resolve]
  simp only [hmake]
  obtain ⟨t', hgrows, ⟨e, he, herror, hagain⟩ | ⟨hok, hopen, hagain⟩⟩ :=
    makeBelow_cases t [] (List.replicate (leadingSlashes p) '/') hp.names
  · refine ⟨t', hgrows, .inl ⟨e, he.imp ?_, herror, hagain⟩⟩
    rintro (h | ⟨q, hq, h⟩)
    · cases List.eq_of_mem_replicate h
    · exact (hp.mem_iff (by decide)).mpr ⟨q, hq, h⟩
  · refine ⟨t', hgrows, .inr ⟨hok, fun u hu => ⟨?_, (hmake u).trans (hagain u hu)⟩⟩⟩
    exact .extends hu hp.names hopen

theorem write_eq (hp : Denotes p (dir ++ [name])) (t : FileTree) (cwd : Text) (bytes : Bytes) :
    t.write cwd p bytes = match t.makeDirectories cwd (directory p) with
      | .error e => .error e
      | .ok t' => (t'.put cwd p bytes).mapError (·, t') := by
  have hparent : (directory p).isEmpty = false := by
    have habsolute := hp.directory.isAbsolute
    cases hd : directory p with
    | nil =>
      rw [hd] at habsolute
      cases habsolute
    | cons => rfl
  rw [write, hparent]
  rfl

theorem IsReady.write (hp : Denotes p (dir ++ [name])) (h : t.IsReady cwd (directory p) dir)
    (bytes : Bytes) :
    t.write cwd p bytes = match t.obstacle? p dir name with
      | some e => .error (e, t)
      | none => .ok (t.set (dir ++ [name]) (.file bytes)) := by
  rw [write_eq hp, h.make]
  simp only [put_eq hp h.isOpen]
  cases t.obstacle? p dir name <;> rfl

theorem isRaised_of_barrier? {e : FileError} (h : barrier? p name = some e) :
    IsRaised e ('\x00' ∈ p) := by
  obtain hrefusal | rfl := barrier?_cases h
  · exact isRaised_of_refusal? hrefusal
  · exact ⟨nofun, nofun⟩

theorem obstacle?_eq_some {e : FileError} : t.obstacle? p dir name = some e ↔
    barrier? p name = some e ∨ barrier? p name = none ∧
      ∃ n, t.node? (dir ++ [name]) = some n ∧ n.contents = .error e := by
  unfold obstacle?
  cases barrier? p name with
  | some e' => simp
  | none =>
    cases t.node? (dir ++ [name]) with
    | none => simp
    | some n => cases hn : n.contents <;> simp [hn]

theorem takesFile_iff {place : List Text} :
    t.TakesFile place ↔ ∀ n e, t.node? place = some n → n.contents ≠ .error e := by
  constructor
  · intro h n e hn herror
    obtain ⟨b, rfl⟩ := h n hn
    cases herror
  · intro h n hn
    cases hcontents : n.contents with
    | error e => exact absurd hcontents (h n e hn)
    | ok b =>
      cases n with
      | file b => exact ⟨b, rfl⟩
      | _ => cases hcontents

theorem obstacle?_eq_none : t.obstacle? p dir name = none ↔
    barrier? p name = none ∧ t.TakesFile (dir ++ [name]) := by
  rw [takesFile_iff, Option.eq_none_iff_forall_ne_some, Option.eq_none_iff_forall_ne_some]
  constructor
  · intro h
    have hbarrier : barrier? p name = none := by
      refine Option.eq_none_iff_forall_ne_some.mpr fun e he => ?_
      exact h e (obstacle?_eq_some.mpr (.inl he))
    refine ⟨fun e he => h e (obstacle?_eq_some.mpr (.inl he)), fun n e hn herror => ?_⟩
    exact h e (obstacle?_eq_some.mpr (.inr ⟨hbarrier, n, hn, herror⟩))
  · rintro ⟨hbarrier, hnode⟩ e he
    obtain he | ⟨-, n, hn, herror⟩ := obstacle?_eq_some.mp he
    · exact hbarrier e he
    · exact hnode n e hn herror

theorem isRaised_of_contents {n : Node} {e : FileError} (h : n.contents = .error e)
    (hasNul : Prop) : IsRaised e hasNul := by
  cases n <;> cases h <;> constructor <;> exact FileError.noConfusion

theorem isRaised_of_obstacle? {e : FileError} (h : t.obstacle? p dir name = some e) :
    IsRaised e ('\x00' ∈ p) := by
  obtain hbarrier | ⟨-, n, -, hcontents⟩ := obstacle?_eq_some.mp h
  · exact isRaised_of_barrier? hbarrier
  · exact isRaised_of_contents hcontents _

theorem obstacle?_extends {e : FileError} (h : t.obstacle? p dir name = some e) (hu : Extends t u) :
    u.obstacle? p dir name = some e := by
  rw [obstacle?_eq_some] at h ⊢
  obtain hbarrier | ⟨hbarrier, n, hn, hcontents⟩ := h
  · exact .inl hbarrier
  · refine .inr ⟨hbarrier, n, hu.keep ?_ hn, hcontents⟩
    rintro b rfl
    cases hcontents

theorem obstacle?_of_file (h : barrier? p name = none)
    (hfile : u.node? (dir ++ [name]) = some (.file bytes)) : u.obstacle? p dir name = none := by
  refine obstacle?_eq_none.mpr ⟨h, fun n hn => ?_⟩
  cases hfile.symm.trans hn
  exact ⟨bytes, rfl⟩

end Monomorph.FileTree
