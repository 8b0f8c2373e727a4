import Bpy.NineServer

/-!
# The qids of a walk

`Walk` appends a qid for every name. For `..` it is the qid of the file that the step leads to,
for any other name that of the file that the step leaves. So the qids of a walk are those of the
files walked to only if each step down is between files with the same qid.
-/
namespace Bpy.NineWalks
open ByteWords ContentStore ByteSources NineMessages NineServer
open List hiding attach

variable {σ φ η : Type} (F : FileOps σ φ)

/-- The files that a walk comes to, one for every name. -/
inductive Trail : φ → σ → List Bytes → List φ → σ → Prop
  | stay (f : φ) (s : σ) : Trail f s [] [] s
  | up {f g : φ} {s s₁ s₂ s' : σ} {q : Qid} {names : List Bytes} {gs : List φ}
      (hparent : F.parent f s = (.ok (some g), s₁)) (hqid : F.qid g s₁ = (.ok q, s₂))
      (hrest : Trail g s₂ names gs s') : Trail f s (dotDot :: names) (g :: gs) s'
  | down {f g : φ} {s s₁ s₂ s' : σ} {q : Qid} {name : Bytes} {names : List Bytes} {gs : List φ}
      (hname : name ≠ dotDot) (hqid : F.qid f s = (.ok q, s₁)) (hchild : F.child f name s₁ = (.ok (some g), s₂))
      (hrest : Trail g s₂ names gs s') : Trail f s (name :: names) (g :: gs) s'

section Trail

variable {F} {f : φ} {s s' : σ} {names : List Bytes} {gs : List φ}

theorem Trail.length_eq (h : Trail F f s names gs s') : gs.length = names.length := by
  induction h with
  | stay => rfl
  | up _ _ _ ih => rw [length_cons, length_cons, ih]
  | down _ _ _ _ ih => rw [length_cons, length_cons, ih]

theorem Trail.unique {gs' : List φ} {s'' : σ} (h : Trail F f s names gs s') (h' : Trail F f s names gs' s'') :
    gs = gs' := by
  induction h generalizing gs' with
  | stay =>
    cases h'
    rfl
  | up hparent hqid _ ih =>
    cases h' with
    | up hparent' hqid' hrest' =>
      cases hparent.symm.trans hparent'
      cases hqid.symm.trans hqid'
      rw [ih hrest']
    | down hname' => exact absurd rfl hname'
  | down hname hqid hchild _ ih =>
    cases h' with
    | up => exact absurd rfl hname
    | down _ hqid' hchild' hrest' =>
      cases hqid.symm.trans hqid'
      cases hchild.symm.trans hchild'
      rw [ih hrest']

end Trail

section Report

variable (qidOf : φ → Qid)

/-- The qids that `Walk` appends. -/
def reported : φ → List Bytes → List φ → List Qid
  | f, name :: names, g :: gs => (if name = dotDot then qidOf g else qidOf f) :: reported g names gs
  | _, _, _ => []

/-- Every step down is between files with the same qid. -/
def Level : φ → List Bytes → List φ → Prop
  | f, name :: names, g :: gs => (name ≠ dotDot → qidOf f = qidOf g) ∧ Level g names gs
  | _, _, _ => True

theorem reported_eq_map_iff {f : φ} {names : List Bytes} {gs : List φ} (h : gs.length = names.length) :
    reported qidOf f names gs = gs.map qidOf ↔ Level qidOf f names gs := by
  induction names generalizing f gs with
  | nil =>
    cases gs with
    | nil => exact ⟨fun _ => trivial, fun _ => rfl⟩
    | cons g gs => simp at h
  | cons name names ih =>
    cases gs with
    | nil => simp at h
    | cons g gs =>
      have hrest := @ih g gs (by simpa using h)
      rw [reported, Level, map_cons, List.cons.injEq, hrest]
      by_cases hname : name = dotDot
      · simp [hname]
      · simp [hname]

end Report

section Walk

variable {F}

theorem walkLoop_none {i : ℕ} {f' : φ} {names : List Bytes} {wqids qids : List Qid} {s s' : σ} :
    walkLoop F i none names wqids s ≠ (.ok (some f', qids), s') := by
  intro h
  cases names with
  | nil => cases h
  | cons name names =>
    rw [walkLoop] at h
    split at h
    · cases h
    · split at h
      · obtain ⟨f, s₁, hderef, -⟩ := bind_eq_ok.mp h
        cases hderef
      · obtain ⟨f, s₁, hderef, -⟩ := bind_eq_ok.mp h
        cases hderef

theorem walkErr_ne_some {i : ℕ} {f' : φ} {wqids qids : List Qid} {e : GoError} {s s' : σ} :
    (walkErr i wqids e : SourceM σ (Option φ × List Qid)) s ≠ (.ok (some f', qids), s') := by
  intro h
  rw [walkErr] at h
  split at h
  · cases h
  · cases h

theorem walkLoop_cons {i : ℕ} {f f' : φ} {name : Bytes} {names : List Bytes} {wqids qids : List Qid} {s s' : σ}
    (h : walkLoop F i (some f) (name :: names) wqids s = (.ok (some f', qids), s')) :
    (name = dotDot ∧ ∃ g s₁ q s₂, F.parent f s = (.ok (some g), s₁) ∧ F.qid g s₁ = (.ok q, s₂) ∧
      walkLoop F (i + 1) (some g) names (wqids ++ [q]) s₂ = (.ok (some f', qids), s')) ∨
    (name ≠ dotDot ∧ ∃ q s₁ g s₂, F.qid f s = (.ok q, s₁) ∧ F.child f name s₁ = (.ok (some g), s₂) ∧
      walkLoop F (i + 1) (some g) names (wqids ++ [q]) s₂ = (.ok (some f', qids), s')) := by
  rw [walkLoop] at h
  split at h
  · cases h
  · split at h
    · next hname =>
      obtain ⟨f₁, s₀, hf, h⟩ := bind_eq_ok.mp h
      cases hf
      obtain ⟨parent, s₁, hparent, h⟩ := bind_eq_ok.mp h
      obtain ⟨g, s₁', hg, hrest⟩ := bind_eq_ok.mp h
      obtain ⟨rfl, rfl⟩ := deref_eq_ok hg
      obtain ⟨q, s₂, hqid, hrest⟩ := bind_eq_ok.mp hrest
      exact .inl ⟨hname, g, _, q, s₂, hparent, hqid, hrest⟩
    · next hname =>
      obtain ⟨f₁, s₀, hf, h⟩ := bind_eq_ok.mp h
      cases hf
      obtain ⟨q, s₁, hqid, h⟩ := bind_eq_ok.mp h
      split at h
      · obtain ⟨f₂, s₁', hf, h⟩ := bind_eq_ok.mp h
        cases hf
        obtain ⟨r, s₂, hchild, h⟩ := bind_eq_ok.mp h
        obtain ⟨hchild, -⟩ := caught_eq_ok hchild
        cases r with
        | error e =>
          dsimp only at h
          split at h
          · exact absurd h walkErr_ne_some
          · cases h
        | ok child =>
          cases child with
          | none => exact absurd h walkLoop_none
          | some g => exact .inr ⟨hname, q, s₁, g, s₂, hqid, hchild, h⟩
      · exact absurd h walkErr_ne_some

variable {qidOf : φ → Qid} (hqidOf : ∀ {f s q s'}, F.qid f s = (.ok q, s') → q = qidOf f)
include hqidOf

theorem walkLoop_ok {i : ℕ} {f f' : φ} {names : List Bytes} {wqids qids : List Qid} {s s' : σ}
    (h : walkLoop F i (some f) names wqids s = (.ok (some f', qids), s')) :
    ∃ gs, Trail F f s names gs s' ∧ f' = gs.getLastD f ∧ qids = wqids ++ reported qidOf f names gs := by
  induction names generalizing i f wqids s with
  | nil =>
    cases h
    exact ⟨[], .stay _ _, rfl, (append_nil _).symm⟩
  | cons name names ih =>
    rcases walkLoop_cons h with ⟨rfl, g, s₁, q, s₂, hparent, hqid, hrest⟩ | ⟨hname, q, s₁, g, s₂, hqid, hchild, hrest⟩
    · obtain ⟨gs, htrail, hlast, hqids⟩ := ih hrest
      refine ⟨g :: gs, .up hparent hqid htrail, ?_, ?_⟩
      · rw [hlast, getLastD_cons]
      · rw [hqids, reported, if_pos rfl, hqidOf hqid, append_assoc, singleton_append]
    · obtain ⟨gs, htrail, hlast, hqids⟩ := ih hrest
      refine ⟨g :: gs, .down hname hqid hchild htrail, ?_, ?_⟩
      · rw [hlast, getLastD_cons]
      · rw [hqids, reported, if_neg hname, hqidOf hqid, append_assoc, singleton_append]

end Walk

section Maps

variable {φ' : Type}

theorem walkErr_map (ι : φ → φ') (i : ℕ) (wqids : List Qid) (e : GoError) :
    (walkErr i wqids e : SourceM σ (Option φ' × List Qid)) =
      (fun r => (r.1.map ι, r.2)) <$> (walkErr i wqids e : SourceM σ (Option φ × List Qid)) := by
  rw [walkErr, walkErr]
  split
  · rfl
  · rfl

theorem walkLoop_map {F : FileOps σ φ} {F' : FileOps σ φ'} (ι : φ → φ')
    (hparent : ∀ f, F'.parent (ι f) = Option.map ι <$> F.parent f)
    (hchild : ∀ f name, F'.child (ι f) name = Option.map ι <$> F.child f name)
    (hqid : ∀ f, F'.qid (ι f) = F.qid f) (i : ℕ) (f : Option φ) (names : List Bytes) (wqids : List Qid) :
    walkLoop F' i (f.map ι) names wqids = (fun r => (r.1.map ι, r.2)) <$> walkLoop F i f names wqids := by
  induction names generalizing i f wqids with
  | nil => rfl
  | cons name names ih =>
    rw [walkLoop, walkLoop]
    split
    · rfl
    · split
      · simp only [deref_map, bind_map_left, hparent, map_bind, hqid, ih]
      · simp only [deref_map, bind_map_left, hqid, map_bind]
        refine bind_congr (fun g => bind_congr (fun q => ?_))
        split
        · simp only [hchild, caught_map, bind_map_left, map_bind]
          refine bind_congr (fun g => bind_congr (fun r => ?_))
          cases r with
          | error e =>
            simp only [Except.map]
            split
            · exact walkErr_map ι i wqids errNotExist
            · rfl
          | ok child => exact ih (i + 1) child (wqids ++ [q])
        · exact walkErr_map ι i wqids errNotDir

end Maps

section Reports

variable {F} (qidOf : φ → Qid) (f : φ) (s : σ) (names : List Bytes) (f' : φ) (qids : List Qid) (s' : σ)

/-- The qids are those of the files that the walk comes to, and it returns the last of these. -/
def ReportsWalked : Prop :=
  ∃ gs, Trail F f s names gs s' ∧ f' = gs.getLastD f ∧ qids.length = names.length ∧ qids = gs.map qidOf

/-- The files that the names lead to are on a level with those they are looked up in. -/
def StepsLevel : Prop := ∃ gs, Trail F f s names gs s' ∧ Level qidOf f names gs

end Reports

/-- A `Qid` method may fail and may change the state, but returns one qid for each file. -/
theorem walk_reports_iff {F : FileOps σ φ} {qidOf : φ → Qid}
    (hqidOf : ∀ {f s q s'}, F.qid f s = (.ok q, s') → q = qidOf f) {f f' : φ} {names : List Bytes}
    {qids : List Qid} {s s' : σ} (h : walk F (some f) names s = (.ok (some f', qids), s')) :
    ReportsWalked (F := F) qidOf f s names f' qids s' ↔ StepsLevel (F := F) qidOf f s names s' := by
  obtain ⟨gs, htrail, hlast, hqids⟩ := walkLoop_ok hqidOf h
  rw [List.nil_append] at hqids
  have hlength := htrail.length_eq
  have hiff := reported_eq_map_iff qidOf hlength (f := f)
  constructor
  · intro hreports
    obtain ⟨gs', htrail', -, -, hmap⟩ := hreports
    obtain rfl := htrail.unique htrail'
    exact ⟨gs, htrail, hiff.mp (hqids.symm.trans hmap)⟩
  · intro hlevel
    obtain ⟨gs', htrail', hlevel⟩ := hlevel
    obtain rfl := htrail.unique htrail'
    have hmap := hqids.trans (hiff.mpr hlevel)
    exact ⟨gs, htrail, hlast, by rw [hmap, List.length_map, hlength], hmap⟩

section Tree

variable (root : φ) (parent : φ → Option φ) (child : φ → Bytes → Option φ) (qid : φ → Qid)

/-- The methods of `File` for a tree that does not change. -/
def treeOps : FileOps Unit φ where
  parent f := pure (parent f)
  child f name := match child f name with
    | none => throw errNotExist
    | some g => pure (some g)
  qid f := pure (qid f)

/-- A tree of empty files. A file is its own handle. -/
def treeFiles : Files Unit φ φ := { treeOps parent child qid with
  attach := fun _ => pure (some root)
  newHandle := fun f => pure (some f)
  getFile := fun f => pure (some f)
  getIounit := fun _ size => pure (size - writeOverhead)
  twalk := fun f msg => match msg with
    | .Twalk _ _ _ names => walk (treeOps parent child qid) (some f) names
    | _ => throw errBadPath
  topen := fun f _ => pure (qid f)
  tread := fun _ _ nbytes => pure (⟨List.replicate nbytes 0, List.length_replicate⟩, 0)
  twrite := fun _ _ => throw errBadPath
  tcreate := fun _ _ => throw errBadPath
  twstat := fun _ _ => throw errBadPath
  tremove := fun _ _ => throw errBadPath
  tstat := fun _ _ => throw errBadPath
  clunk := fun _ => pure () }

end Tree

/-- A root, `false`, with a folder `a`, `true`. -/
def folderTree : Files Unit Bool Bool :=
  treeFiles false (fun f => if f then some false else none)
    (fun f name => if f = false ∧ name = ascii "a" then some true else none)
    (fun f => ⟨qtDir, 0, if f then 2 else 1⟩)

/-- From the folder to the root. -/
theorem walk_reports_parent :
    walk folderTree.toFileOps (some true) [dotDot] () = (.ok (some false, [⟨qtDir, 0, 1⟩]), ()) ∧
    ReportsWalked (F := folderTree.toFileOps) (fun f => ⟨qtDir, 0, if f then 2 else 1⟩) true () [dotDot] false
      [⟨qtDir, 0, 1⟩] () := by
  refine ⟨rfl, (walk_reports_iff (fun h => ?_) rfl).mpr ⟨[false], .up rfl rfl (.stay _ _), ?_⟩⟩
  · cases h
    rfl
  · exact ⟨fun h => absurd rfl h, trivial⟩

/-- From the root to the folder: the qid is that of the root. -/
theorem walk_reports_start :
    walk folderTree.toFileOps (some false) [ascii "a"] () = (.ok (some true, [⟨qtDir, 0, 1⟩]), ()) ∧
    folderTree.qid true () = (.ok ⟨qtDir, 0, 2⟩, ()) :=
  ⟨rfl, rfl⟩

end Bpy.NineWalks
