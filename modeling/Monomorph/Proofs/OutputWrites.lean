import Monomorph.Compilation
import Monomorph.Proofs.TreeWrites

/-!
# Writing an output twice

An output is written with its companion, unless one is there. This can fail before the output, leave
the companion, or make it (`Effect`). A second run, which goes through the same steps in the tree
that the first one has left, does what the first one did (`Effect.again`). There is one exception:
a companion that cannot be encoded ends the first run, which leaves it empty, and the second one
finds it there.
-/

namespace Monomorph

open Path

namespace FileTree

variable {t t' u T : FileTree} {place : List Text} {b b' : Bytes}

/-- Where a second run is, which began with the tree `T` that the first one left, when the first one
was at `t`. -/
structure Again (t u T : FileTree) : Prop where
  kinds : ∀ q, (u.node? q).map Node.kind = (T.node? q).map Node.kind
  nodes : ∀ q, u.node? q = t.node? q ∨ u.node? q = T.node? q

theorem Again.start (t T : FileTree) : Again t T T :=
  ⟨fun _ => rfl, fun _ => .inr rfl⟩

theorem Again.eq (h : Again T u T) (q : List Text) : u.node? q = T.node? q :=
  (h.nodes q).elim id id

theorem Again.extends (h : Again t u T) (hT : Extends t' T) : Extends t' u := by
  intro q n hn
  obtain ⟨m, hm, hkind⟩ := hT q n hn
  have hq := h.kinds q
  rw [hm, Option.map_some, Option.map_eq_some_iff] at hq
  obtain ⟨l, hl, hkind'⟩ := hq
  exact ⟨l, hl, hkind'.trans hkind⟩

theorem Again.keep (h : Again t u T) (hkeep : ∀ q n, t.node? q = some n → t'.node? q = some n) :
    Again t' u T := by
  refine ⟨h.kinds, fun q => ?_⟩
  obtain hq | hq := h.nodes q
  · cases ht : t.node? q with
    | some n => exact .inl (by rw [hq, ht, hkeep q n ht])
    | none =>
      -- what neither the first run had nor the second one has is in no tree
      have hkind := h.kinds q
      rw [hq, ht, Option.map_none, eq_comm, Option.map_eq_none_iff] at hkind
      exact .inr (by rw [hq, ht, hkind])
  · exact .inr hq

theorem Again.grows (h : Again t u T)
    (hgrows : Grows (fun _ _ => False) (fun _ => False) t t') : Again t' u T :=
  h.keep fun _ _ => hgrows.frame id

theorem Again.set_new (h : Again t u T) (hnone : t.node? place = none) (n : Node) :
    Again (t.set place n) u T := by
  refine h.keep fun q m hm => ?_
  rw [node?_set_of_ne, hm]
  rintro rfl
  simp [hnone] at hm

theorem Again.set (h : Again t u T) (hplace : place ≠ []) (hT : T.node? place = some (.file b')) :
    Again (t.set place (.file b)) (u.set place (.file b)) T := by
  constructor <;> intro q <;> by_cases hq : q = place
  · rw [hq, node?_set_self hplace, hT]
    rfl
  · rw [node?_set_of_ne hq, h.kinds]
  · rw [hq, node?_set_self hplace, node?_set_self hplace]
    exact .inl rfl
  · rw [node?_set_of_ne hq, node?_set_of_ne hq]
    exact h.nodes q

end FileTree

namespace Compilation

open FileTree

variable {t t' u T : FileTree} {dir : List Text} {cwd path content name : Text} {c : Configuration}

-- ---------------------------------------------------------------------------
-- Outputs and companions
-- ---------------------------------------------------------------------------

def ended : Except (FileError × FileTree) (FileTree × Bool) → Option FileError × FileTree
  | .ok (t, _) => (none, t)
  | .error (e, t) => (some e, t)

def written (cwd : Text) (c : Configuration) (path content : Text) (t : FileTree) :
    Option FileError × FileTree :=
  ended (writeOutput t cwd c path content)

def accompanied (cwd : Text) (c : Configuration) (path : Text) (t : FileTree) :
    Option FileError × FileTree :=
  if c.writeMeta && !t.hasNode cwd (path ++ metaSuffix) then
    ended ((writeMeta t cwd c path).map (·, true))
  else (none, t)

def companionBytes (c : Configuration) : Bytes :=
  if c.apiVersionTorn then [] else Utf8.encode c.metaXml

def companionError? (c : Configuration) : Option FileError :=
  if c.apiVersionTorn then some .unencodable else none

theorem written_of_error {e : FileError}
    (h : t.write cwd path (Utf8.encode content) = .error (e, t')) :
    written cwd c path content t =
      (some (if c.outDirTorn ∧ e = .nulInPath then .unencodable else e), t') := by
  rw [written, writeOutput, h]
  rfl

theorem written_of_ok (h : t.write cwd path (Utf8.encode content) = .ok t') :
    written cwd c path content t = accompanied cwd c path t' := by
  simp only [written, writeOutput, h, accompanied, apply_ite ended]
  rfl

theorem accompanied_eq (hp : Denotes path (dir ++ [name])) (hname : IsFileName (name ++ metaSuffix))
    (c : Configuration) (ht : t.IsReady cwd (directory path) dir) :
    accompanied cwd c path t = if c.writeMeta then
      match barrier? (path ++ metaSuffix) (name ++ metaSuffix),
        t.node? (dir ++ [name ++ metaSuffix]) with
      | some e, _ => (some e, t)
      | none, some .circular => (some .tooManyLinks, t)
      | none, some _ => (none, t)
      | none, none =>
        (companionError? c, t.set (dir ++ [name ++ metaSuffix]) (.file (companionBytes c)))
      else (none, t) := by
  have hm := hp.append hname
  have hwrite (bytes : Bytes) := IsReady.write hm (hp.directory_append hname ▸ ht) bytes
  rw [accompanied, hasNode_eq hm ht.isOpen]
  cases hbarrier : barrier? (path ++ metaSuffix) (name ++ metaSuffix) with
  | some e =>
    have hobstacle : t.obstacle? (path ++ metaSuffix) dir (name ++ metaSuffix) = some e :=
      obstacle?_eq_some.mpr (.inl hbarrier)
    simp only [writeMeta, hwrite, hobstacle]
    cases c.writeMeta <;> cases c.apiVersionTorn <;> rfl
  | none =>
    cases hnode : t.node? (dir ++ [name ++ metaSuffix]) with
    | some n =>
      cases n with
      | circular =>
        have hobstacle : t.obstacle? (path ++ metaSuffix) dir (name ++ metaSuffix) =
            some .tooManyLinks := obstacle?_eq_some.mpr (.inr ⟨hbarrier, _, hnode, rfl⟩)
        simp only [writeMeta, hwrite, hobstacle]
        cases c.writeMeta <;> cases c.apiVersionTorn <;> rfl
      | _ => cases c.writeMeta <;> rfl
    | none =>
      have hobstacle : t.obstacle? (path ++ metaSuffix) dir (name ++ metaSuffix) = none :=
        obstacle?_eq_none.mpr ⟨hbarrier, fun n hn => by cases hnode.symm.trans hn⟩
      simp only [writeMeta, hwrite, hobstacle, companionError?, companionBytes]
      cases c.writeMeta <;> cases c.apiVersionTorn <;> rfl

/-- A companion is left out, refused or there, and so it is in every tree that has grown; or it is
made, and is there from then on. -/
theorem accompanied_cases (hp : Denotes path (dir ++ [name]))
    (hname : IsFileName (name ++ metaSuffix)) (c : Configuration)
    (ht : t.IsReady cwd (directory path) dir) :
    (∃ e, e ≠ some .unencodable ∧ ∀ u : FileTree, u.IsReady cwd (directory path) dir →
      Extends t u → accompanied cwd c path u = (e, u)) ∨
    t.node? (dir ++ [name ++ metaSuffix]) = none ∧
      accompanied cwd c path t =
        (companionError? c, t.set (dir ++ [name ++ metaSuffix]) (.file (companionBytes c))) ∧
      ∀ (u : FileTree) (b : Bytes), u.IsReady cwd (directory path) dir →
        u.node? (dir ++ [name ++ metaSuffix]) = some (.file b) →
        accompanied cwd c path u = (none, u) := by
  have heq {u : FileTree} (hu : u.IsReady cwd (directory path) dir) := accompanied_eq hp hname c hu
  cases hmeta : c.writeMeta with
  | false => exact .inl ⟨none, nofun, fun u hu _ => by simp [heq hu, hmeta]⟩
  | true =>
    cases hbarrier : barrier? (path ++ metaSuffix) (name ++ metaSuffix) with
    | some e =>
      refine .inl ⟨some e, ?_, fun u hu _ => by simp [heq hu, hmeta, hbarrier]⟩
      exact fun h => (isRaised_of_barrier? hbarrier).ne_unencodable (Option.some.inj h)
    | none =>
      cases hnode : t.node? (dir ++ [name ++ metaSuffix]) with
      | some n =>
        by_cases hround : n = .circular
        · subst hround
          refine .inl ⟨some .tooManyLinks, nofun, fun u hu hext => ?_⟩
          simp [heq hu, hmeta, hbarrier, hext.keep (fun _ => Node.noConfusion) hnode]
        · refine .inl ⟨none, nofun, fun u hu hext => ?_⟩
          obtain ⟨m, hm, hkind⟩ := hext _ n hnode
          cases m with
          | circular =>
            obtain rfl | ⟨⟨b, hb⟩, -⟩ := Node.eq_or_of_kind hkind
            · exact absurd rfl hround
            · cases hb
          | _ => simp [heq hu, hmeta, hbarrier, hm]
      | none =>
        refine .inr ⟨rfl, by simp [heq ht, hmeta, hbarrier, hnode], fun u n hu hn => ?_⟩
        simp [heq hu, hmeta, hbarrier, hn]

/-- What writing an output can do: fail before it, write it and leave its companion, or write it and
make its companion. In a tree that has grown further it does the same again, except that a companion
is there. -/
inductive Effect (c : Configuration) (path : Text) (place companion : List Text) (bytes : Bytes)
    (write : FileTree → Option FileError × FileTree) (t : FileTree) : Prop
  | failed {t' : FileTree} {e : FileError} :
      Grows (fun _ _ => False) (fun _ => False) t t' → (e = .unencodable → '\x00' ∈ path) →
      write t = (some e, t') → (∀ u, Extends t' u → write u = (some e, u)) →
      Effect c path place companion bytes write t
  | alone {t' : FileTree} {e : Option FileError} :
      Grows (fun _ _ => False) (fun _ => False) t t' → t'.TakesFile place →
      e ≠ some .unencodable → write t = (e, t'.set place (.file bytes)) →
      (∀ u, Extends (t'.set place (.file bytes)) u → write u = (e, u.set place (.file bytes))) →
      Effect c path place companion bytes write t
  | accompanied {t' t'' : FileTree} :
      Grows (fun _ _ => False) (fun _ => False) t t' → t'.TakesFile place →
      '\x00' ∉ path → (t'.set place (.file bytes)).node? companion = none →
      t'' = (t'.set place (.file bytes)).set companion (.file (companionBytes c)) →
      write t = (companionError? c, t'') →
      (∀ u, Extends t'' u → write u = (none, u.set place (.file bytes))) →
      Effect c path place companion bytes write t

theorem nul_of_unencodable {e : FileError} (h : IsRaised e ('\x00' ∈ path)) :
    (if c.outDirTorn ∧ e = .nulInPath then .unencodable else e) = FileError.unencodable →
      '\x00' ∈ path := by
  split
  · rename_i he
    exact fun _ => h.nul he.2
  · exact fun he => absurd he h.ne_unencodable

theorem effect_of_obstacle?_eq_none (hp : Denotes path (dir ++ [name]))
    (hname : IsFileName (name ++ metaSuffix))
    (hgrows : Grows (fun _ _ => False) (fun _ => False) t t')
    (hready : ∀ u, Extends t' u → u.IsReady cwd (directory path) dir)
    (ht : t.write cwd path (Utf8.encode content) = t'.write cwd path (Utf8.encode content))
    (hobstacle : t'.obstacle? path dir name = none) :
    Effect c path (dir ++ [name]) (dir ++ [name ++ metaSuffix]) (Utf8.encode content)
      (written cwd c path content) t := by
  obtain ⟨hbarrier, htakes⟩ := obstacle?_eq_none.mp hobstacle
  have hset := extends_set_file (by simp) htakes (Utf8.encode content)
  have hfirst : written cwd c path content t = accompanied cwd c path
      (t'.set (dir ++ [name]) (.file (Utf8.encode content))) := by
    refine written_of_ok ?_
    rw [ht, IsReady.write hp (hready t' (.refl t')), hobstacle]
  -- where the file is, it is written once more
  have hagain {u : FileTree}
      (hu : Extends (t'.set (dir ++ [name]) (.file (Utf8.encode content))) u) :
      Extends u (u.set (dir ++ [name]) (.file (Utf8.encode content))) ∧
      written cwd c path content u = accompanied cwd c path
        (u.set (dir ++ [name]) (.file (Utf8.encode content))) := by
    obtain ⟨b, hb⟩ := hu.file (node?_set_self (by simp))
    have hfree := obstacle?_of_file hbarrier hb
    refine ⟨extends_set_file (by simp) (obstacle?_eq_none.mp hfree).2 _, written_of_ok ?_⟩
    rw [IsReady.write hp (hready u (hset.trans hu)), hfree]
  obtain ⟨e, he, hkeep⟩ | ⟨hnew, hmade, hkeep⟩ := accompanied_cases hp hname c (hready _ hset)
  · refine .alone hgrows htakes he (hfirst.trans (hkeep _ (hready _ hset) (.refl _))) fun u hu => ?_
    obtain ⟨hu', hwritten⟩ := hagain hu
    exact hwritten.trans (hkeep _ (hready _ (hset.trans (hu.trans hu'))) (hu.trans hu'))
  · have hnul := nul_not_mem_of_refusal? (refusal?_of_barrier? hbarrier)
    refine .accompanied hgrows htakes hnul hnew rfl (hfirst.trans hmade) fun u hu => ?_
    have hcompanion := extends_set_new (by simp) hnew (.file (companionBytes c))
    obtain ⟨hu', hwritten⟩ := hagain (hcompanion.trans hu)
    obtain ⟨b, hb⟩ := (hu.trans hu').file (node?_set_self (by simp))
    exact hwritten.trans (hkeep _ b (hready _ (hset.trans (hcompanion.trans (hu.trans hu')))) hb)

theorem effect_written (hp : Denotes path (dir ++ [name]))
    (hname : IsFileName (name ++ metaSuffix)) (cwd : Text) (c : Configuration) (content : Text)
    (t : FileTree) :
    Effect c path (dir ++ [name]) (dir ++ [name ++ metaSuffix]) (Utf8.encode content)
      (written cwd c path content) t := by
  obtain ⟨t', hgrows, ⟨e, he, herror, hagain⟩ | ⟨hmake, hready⟩⟩ :=
    makeDirectories_cases hp.directory t cwd
  · -- the directory cannot be made
    have he' := he.imp fun h => (directory_isPrefix path).subset h
    refine .failed hgrows (nul_of_unencodable he') (written_of_error ?_)
      fun u hu => written_of_error ?_
    · rw [write_eq hp, herror]
    · rw [write_eq hp, hagain u hu]
  · have ht : t.write cwd path (Utf8.encode content) = t'.write cwd path (Utf8.encode content) := by
      rw [write_eq hp, hmake, write_eq hp, (hready t' (.refl t')).make]
    cases hobstacle : t'.obstacle? path dir name with
    | some e =>
      refine .failed hgrows (nul_of_unencodable (isRaised_of_obstacle? hobstacle))
        (written_of_error ?_) fun u hu => written_of_error ?_
      · rw [ht, IsReady.write hp (hready t' (.refl t')), hobstacle]
      · rw [IsReady.write hp (hready u hu), obstacle?_extends hobstacle hu]
    | none => exact effect_of_obstacle?_eq_none hp hname hgrows hready ht hobstacle

section Effect

variable {place companion : List Text} {bytes : Bytes}
  {write : FileTree → Option FileError × FileTree}

/-- An output ends a run although its path can be taken. Its companion is left empty. -/
def IsTorn (path : Text) (e : Option FileError) : Prop :=
  '\x00' ∉ path ∧ e = some .unencodable

theorem encode_ne_nil {s : Text} (h : s ≠ []) : Utf8.encode s ≠ [] := by
  obtain ⟨x, r, rfl⟩ := List.exists_cons_of_ne_nil h
  simp [Utf8.encode]

theorem companionBytes_ne_nil (h : c.apiVersionTorn = false) : companionBytes c ≠ [] := by
  have hne : c.metaXml ≠ [] := List.append_ne_nil_of_right_ne_nil _ (by decide)
  rw [companionBytes, if_neg (by simp [h])]
  exact encode_ne_nil hne

theorem Effect.grows (h : Effect c path place companion bytes write t) (hplace : place ≠ [])
    (hcompanion : companion ≠ []) :
    Grows (fun q b => q = companion ∧ (b = [] → IsTorn path (write t).1)) (· = place) t
      (write t).2 := by
  cases h with
  | failed hgrows _ hfirst _ =>
    rw [hfirst]
    exact hgrows.mono nofun nofun
  | alone hgrows htakes _ hfirst _ =>
    rw [hfirst]
    exact .tail (hgrows.mono nofun nofun) (.write hplace htakes rfl)
  | accompanied hgrows htakes hnul hnew heq hfirst _ =>
    rw [hfirst, heq]
    have hempty : companionBytes c = [] → IsTorn path (companionError? c) := by
      intro hempty
      cases htorn : c.apiVersionTorn with
      | true => exact ⟨hnul, by simp [companionError?, htorn]⟩
      | false => exact absurd hempty (companionBytes_ne_nil htorn)
    exact .tail (.tail (hgrows.mono nofun nofun) (.write hplace htakes rfl))
      (.create hcompanion hnew ⟨rfl, hempty⟩)

theorem Effect.companion_of_isTorn (h : Effect c path place companion bytes write t)
    (hcompanion : companion ≠ []) (hne : companion ≠ place) (htorn : IsTorn path (write t).1) :
    t.node? companion = none ∧ (write t).2.node? companion = some (.file []) := by
  obtain ⟨hnul, herror⟩ := htorn
  cases h with
  | failed _ he hfirst _ =>
    rw [hfirst] at herror
    exact absurd (he (Option.some.inj herror)) hnul
  | alone _ _ he hfirst _ =>
    rw [hfirst] at herror
    exact absurd herror he
  | accompanied hgrows _ _ hnew heq hfirst _ =>
    rw [node?_set_of_ne hne] at hnew
    refine ⟨hgrows.extends.none hnew, ?_⟩
    rw [hfirst] at herror ⊢
    rw [heq, node?_set_self hcompanion, companionBytes, if_pos]
    simpa [companionError?] using herror

/-- A second run does what the first one did, unless that ended here. -/
theorem Effect.again (h : Effect c path place companion bytes write t) (hplace : place ≠ [])
    (hcompanion : companion ≠ []) (hu : Again t u T) (hT : Extends (write t).2 T) :
    Again (write t).2 (write u).2 T ∧ ((write u).1 = (write t).1 ∨ IsTorn path (write t).1) := by
  cases h with
  | failed hgrows _ hfirst hagain =>
    rw [hfirst] at hT ⊢
    rw [hagain u (hu.extends hT)]
    exact ⟨hu.grows hgrows, .inl rfl⟩
  | alone hgrows _ _ hfirst hagain =>
    rw [hfirst] at hT ⊢
    rw [hagain u (hu.extends hT)]
    obtain ⟨b, hb⟩ := hT.file (node?_set_self hplace)
    exact ⟨(hu.grows hgrows).set hplace hb, .inl rfl⟩
  | accompanied hgrows _ hnul hnew heq hfirst hagain =>
    rw [hfirst] at hT ⊢
    rw [hagain u (hu.extends hT)]
    subst heq
    have hset := extends_set_new hcompanion hnew (.file (companionBytes c))
    obtain ⟨b, hb⟩ := (hset.trans hT).file (node?_set_self hplace)
    refine ⟨((hu.grows hgrows).set hplace hb).set_new hnew _, ?_⟩
    cases htorn : c.apiVersionTorn with
    | true => exact .inr ⟨hnul, by simp [companionError?, htorn]⟩
    | false => exact .inl (by simp [companionError?, htorn])

end Effect

end Compilation

end Monomorph
