import Bpy.NineFiles
import Bpy.NineWalks

/-!
# Walks and the root

The root of the tree of a `fs9` has no parent, and `Walk` asks the parent of a file for its qid
without a look at whether there is one. So a walk that comes to the root and goes on with `..`
ends the program. No other walk does, and none leaves the tree.
-/
namespace Bpy.NineRoots
open ByteWords InteractionPrograms ContentStore ByteSources NineMessages NineServer NineWalks NineFiles
open Directories (readDir)

variable {σ : Type} (D : Drive σ) (room : ℕ → ℕ)

/-- The root of the tree that the file is in. -/
def top : File → File
  | .root data => .root data
  | .child parent _ => top parent

/-- The names lead to the root and on to its parent. A name that `Walk` refuses, that is looked up
in a file that is no directory, or that is not found leads nowhere. -/
def Climbs : File → World σ → List Bytes → Prop
  | _, _, [] => False
  | f, w, name :: names =>
    badName name = false ∧
      ((name = dotDot ∧ ∀ g, f.parent = some g → Climbs g w names) ∨
        (name ≠ dotDot ∧ isDir f.qid = true ∧
          ∃ g w', childNamed D room f name w = (.ok g, w') ∧ Climbs g w' names))

theorem top_of_parent {f g : File} (h : f.parent = some g) : top g = top f := by
  cases f with
  | root data => cases h
  | child parent data =>
    cases h
    rfl

section Walk

variable {D room}

/-- Reading a directory does not end the program in the way that is to be excluded here. -/
def Reads (D : Drive σ) (room : ℕ → ℕ) : Prop :=
  ∀ hash s, (Method.exec D.store (readDir room hash) () s).1 ≠ .error nilDereference

theorem childNamed_ne_nil (hread : Reads D room) {f : File} {name : Bytes} {w w' : World σ} :
    childNamed D room f name w ≠ (.error nilDereference, w') := by
  intro h
  rcases childNamed_eq_error h with h | h | h
  · cases h
  · cases h
  · rcases getChildren_cases D room f w with ⟨-, hf⟩ | ⟨-, e, s', hexec, hf⟩ | ⟨-, dot, ents, s', -, -, hf⟩
    · cases hf.symm.trans h
    · cases hf.symm.trans h
      exact hread _ _ (congrArg Prod.fst hexec)
    · cases hf.symm.trans h

theorem walkErr_ne_nil {φ : Type} {i : ℕ} {wqids : List Qid} {msg : String} {s : σ} :
    ((walkErr i wqids (.text msg) : SourceM σ (Option φ × List Qid)) s).1 ≠ .error nilDereference := by
  rw [walkErr]
  split
  · intro h
    cases h
  · intro h
    cases h

variable {f g : File} {w w' : World σ} {name : Bytes} {names : List Bytes} {i : ℕ} {wqids qids : List Qid}

theorem walkLoop_up (hparent : f.parent = some g) : walkLoop (fileOps D room) i (some f) (dotDot :: names) wqids w =
      walkLoop (fileOps D room) (i + 1) (some g) names (wqids ++ [g.qid]) w := by
  have hask : (fileOps D room).parent f w = (.ok (some g), w) := by rw [← hparent]; rfl
  have hgood : ¬ badName dotDot = true := by decide
  rw [walkLoop, if_neg hgood, if_pos rfl, bind_of_ok (deref_some f), bind_of_ok hask, bind_of_ok (deref_some g)]
  rfl

theorem walkLoop_above (hparent : f.parent = none) :
    walkLoop (fileOps D room) i (some f) (dotDot :: names) wqids w = (.error nilDereference, w) := by
  have hask : (fileOps D room).parent f w = (.ok none, w) := by rw [← hparent]; rfl
  have hgood : ¬ badName dotDot = true := by decide
  rw [walkLoop, if_neg hgood, if_pos rfl, bind_of_ok (deref_some f), bind_of_ok hask]
  rfl

section

variable (hname : badName name = false) (hne : name ≠ dotDot)
include hname hne

theorem walkLoop_not_dir (hdir : isDir f.qid = false) :
    walkLoop (fileOps D room) i (some f) (name :: names) wqids w = walkErr i wqids errNotDir w := by
  have hask : (fileOps D room).qid f w = (.ok f.qid, w) := rfl
  rw [walkLoop, if_neg (by simp [hname]), if_neg hne, bind_of_ok (deref_some f), bind_of_ok hask,
    if_neg (by simp [hdir])]

theorem walkLoop_dir (hdir : isDir f.qid = true) :
    walkLoop (fileOps D room) i (some f) (name :: names) wqids w = (do
      match ← caught (some <$> childNamed D room f name) with
      | .error e => if e = errNotExist then walkErr i wqids errNotExist else throw e
      | .ok child => walkLoop (fileOps D room) (i + 1) child names (wqids ++ [f.qid])) w := by
  have hask : (fileOps D room).qid f w = (.ok f.qid, w) := rfl
  rw [walkLoop, if_neg (by simp [hname]), if_neg hne, bind_of_ok (deref_some f), bind_of_ok hask,
    if_pos hdir, bind_of_ok (deref_some f)]
  refine congrFun (bind_congr (fun r => ?_)) w
  cases r with
  | error e => rfl
  | ok child => rfl

theorem walkLoop_down (hdir : isDir f.qid = true) (hchild : childNamed D room f name w = (.ok g, w')) :
    walkLoop (fileOps D room) i (some f) (name :: names) wqids w =
      walkLoop (fileOps D room) (i + 1) (some g) names (wqids ++ [f.qid]) w' := by
  have hcaught : caught (some <$> childNamed D room f name) w = (.ok (.ok (some g)), w') := by
    refine caught_of_ok ?_
    rw [map_apply, hchild]
    rfl
  rw [walkLoop_dir hname hne hdir, bind_of_ok hcaught]

end

theorem walkLoop_lost (hread : Reads D room) {e : GoError} (hname : badName name = false) (hne : name ≠ dotDot)
    (hdir : isDir f.qid = true) (hchild : childNamed D room f name w = (.error e, w')) :
    (walkLoop (fileOps D room) i (some f) (name :: names) wqids w).1 ≠ .error nilDereference := by
  have hmap : (some <$> childNamed D room f name) w = (.error e, w') := by
    rw [map_apply, hchild]
    rfl
  rw [walkLoop_dir hname hne hdir]
  by_cases hpanic : ∃ msg, e = .panic msg
  · obtain ⟨msg, rfl⟩ := hpanic
    have hcaught : caught (some <$> childNamed D room f name) w = (.error (.panic msg), w') := by rw [caught, hmap]
    rw [bind_of_error hcaught]
    intro hmsg
    cases hmsg
    exact childNamed_ne_nil hread hchild
  · have hnot : ∀ msg, e ≠ .panic msg := fun msg h => hpanic ⟨msg, h⟩
    rw [bind_of_ok (caught_of_error hmap hnot)]
    dsimp only
    split
    · exact walkErr_ne_nil
    · intro hmsg
      cases hmsg
      exact hnot _ rfl

theorem Climbs.walkLoop_eq (h : Climbs D room f w names) :
    (walkLoop (fileOps D room) i (some f) names wqids w).1 = .error nilDereference := by
  induction names generalizing f w i wqids with
  | nil => exact h.elim
  | cons name names ih =>
    rcases h with ⟨hname, ⟨rfl, hup⟩ | ⟨hne, hdir, g, w', hchild, hclimbs⟩⟩
    · cases hparent : f.parent with
      | none => rw [walkLoop_above hparent]
      | some g =>
        rw [walkLoop_up hparent]
        exact ih (hup g hparent)
    · rw [walkLoop_down hname hne hdir hchild]
      exact ih hclimbs

theorem climbs_of_walkLoop (hread : Reads D room)
    (h : (walkLoop (fileOps D room) i (some f) names wqids w).1 = .error nilDereference) : Climbs D room f w names := by
  induction names generalizing f w i wqids with
  | nil => cases h
  | cons name names ih =>
    cases hname : badName name with
    | true =>
      rw [walkLoop, if_pos hname] at h
      cases h
    | false =>
      refine ⟨hname, ?_⟩
      by_cases hup : name = dotDot
      · subst hup
        refine .inl ⟨rfl, fun g hparent => ?_⟩
        rw [walkLoop_up hparent] at h
        exact ih h
      · cases hdir : isDir f.qid with
        | false =>
          rw [walkLoop_not_dir hname hup hdir] at h
          exact absurd h walkErr_ne_nil
        | true =>
          cases hchild : childNamed D room f name w with
          | mk r w' =>
            cases r with
            | error e => exact absurd h (walkLoop_lost hread hname hup hdir hchild)
            | ok g =>
              rw [walkLoop_down hname hup hdir hchild] at h
              exact .inr ⟨hup, rfl, g, w', rfl, ih h⟩

theorem walkLoop_step (h : walkLoop (fileOps D room) i (some f) (name :: names) wqids w = (.ok (some g, qids), w')) :
    badName name = false ∧ ∃ g₁ w₁ q, walkLoop (fileOps D room) (i + 1) (some g₁) names (wqids ++ [q]) w₁ =
      (.ok (some g, qids), w') ∧ ((name = dotDot ∧ f.parent = some g₁ ∧ w₁ = w) ∨
        (name ≠ dotDot ∧ isDir f.qid = true ∧ childNamed D room f name w = (.ok g₁, w₁))) := by
  cases hname : badName name with
  | true =>
    rw [walkLoop, if_pos hname] at h
    cases h
  | false =>
    refine ⟨rfl, ?_⟩
    by_cases hup : name = dotDot
    · subst hup
      cases hparent : f.parent with
      | none =>
        rw [walkLoop_above hparent] at h
        cases h
      | some g₁ =>
        rw [walkLoop_up hparent] at h
        exact ⟨g₁, w, g₁.qid, h, .inl ⟨rfl, rfl, rfl⟩⟩
    · cases hdir : isDir f.qid with
      | false =>
        rw [walkLoop_not_dir hname hup hdir] at h
        exact absurd h walkErr_ne_some
      | true =>
        rw [walkLoop_dir hname hup hdir] at h
        obtain ⟨r, w₁, hcaught, h⟩ := bind_eq_ok.mp h
        obtain ⟨hmap, -⟩ := caught_eq_ok hcaught
        rw [map_apply] at hmap
        cases hchild : childNamed D room f name w with
        | mk r' w₂ =>
          rw [hchild] at hmap
          cases hmap
          cases r' with
          | error e =>
            dsimp only [Except.map] at h
            split at h
            · exact absurd h walkErr_ne_some
            · cases h
          | ok g₁ => exact ⟨g₁, _, f.qid, h, .inr ⟨hup, rfl, rfl⟩⟩

theorem top_of_walkLoop (h : walkLoop (fileOps D room) i (some f) names wqids w = (.ok (some g, qids), w')) :
    top g = top f := by
  induction names generalizing f w i wqids with
  | nil =>
    cases h
    rfl
  | cons name names ih =>
    obtain ⟨-, g₁, w₁, q, hrest, ⟨-, hparent, -⟩ | ⟨-, -, hchild⟩⟩ := walkLoop_step h
    · rw [ih hrest, top_of_parent hparent]
    · rw [ih hrest, top_of_parent (parent_of_childNamed hchild)]

theorem climbs_append {post : List Bytes} (hparent : g.parent = none)
    (h : walkLoop (fileOps D room) i (some f) names wqids w = (.ok (some g, qids), w')) :
    Climbs D room f w (names ++ dotDot :: post) := by
  induction names generalizing f w i wqids with
  | nil =>
    cases h
    refine ⟨by decide, .inl ⟨rfl, fun g' hg' => ?_⟩⟩
    rw [hparent] at hg'
    cases hg'
  | cons name names ih =>
    obtain ⟨hname, g₁, w₁, q, hrest, ⟨rfl, hup, rfl⟩ | ⟨hne, hdir, hchild⟩⟩ := walkLoop_step h
    · refine ⟨hname, .inl ⟨rfl, fun g' hg' => ?_⟩⟩
      cases hup.symm.trans hg'
      exact ih hrest
    · exact ⟨hname, .inr ⟨hne, hdir, g₁, w₁, hchild, ih hrest⟩⟩

end Walk

section Inside

variable (h : ℕ) (f : File) (w : World σ) (names : List Bytes)

/-- What a walk of a handle with the file `f` should do. -/
structure StaysInside : Prop where
  /-- no missing parent is used -/
  parents : (twalk D room h names w).1 ≠ .error nilDereference
  /-- the file is one of the tree -/
  inside : ∀ n qids w', twalk D room h names w = (.ok (some n, qids), w') → ∃ g, n = .file g ∧ top g = top f
  /-- `..` at the root leads to the root -/
  root : ∀ pre post g qids w', names = pre ++ dotDot :: post →
    twalk D room h pre w = (.ok (some (.file g), qids), w') → g.parent = none →
    ∃ qids' w'', twalk D room h (pre ++ [dotDot]) w = (.ok (some (.file g), qids'), w'')

end Inside

variable {D room}

theorem twalk_eq {h : ℕ} {f : File} {w w₁ : World σ} (hstart : handleFile D room h w = (.ok (some f), w₁))
    (names : List Bytes) : twalk D room h names w =
      ((fun r => (r.1.map Node.file, r.2)) <$> walkLoop (fileOps D room) 0 (some f) names []) w₁ := by
  rw [twalk, bind_of_ok hstart]
  exact congrFun (walkLoop_map Node.file (fun _ => rfl) (fun _ _ => rfl) (fun _ => rfl) 0 (some f) names []) w₁

theorem twalk_eq_ok {h : ℕ} {f : File} {w w₁ w' : World σ} {names : List Bytes} {n : Node} {qids : List Qid}
    (hstart : handleFile D room h w = (.ok (some f), w₁)) (hwalk : twalk D room h names w = (.ok (some n, qids), w')) :
    ∃ g, n = .file g ∧ walkLoop (fileOps D room) 0 (some f) names [] w₁ = (.ok (some g, qids), w') := by
  rw [twalk_eq hstart, map_apply] at hwalk
  cases hloop : walkLoop (fileOps D room) 0 (some f) names [] w₁ with
  | mk r w₂ =>
    rw [hloop] at hwalk
    cases r with
    | error e => cases hwalk
    | ok r =>
      obtain ⟨g, qids'⟩ := r
      cases g with
      | none => cases hwalk
      | some g =>
        cases hwalk
        exact ⟨g, rfl, rfl⟩

/-- For every handle, whatever the store and the root do, where the file of the handle is known. -/
theorem walk_stays_inside_iff (hread : Reads D room) {h : ℕ} {f : File} {w w₁ : World σ}
    (hstart : handleFile D room h w = (.ok (some f), w₁)) (names : List Bytes) :
    StaysInside D room h f w names ↔ ¬ Climbs D room f w₁ names := by
  constructor
  · intro hstays hclimbs
    refine hstays.parents ?_
    rw [twalk_eq hstart, map_apply, hclimbs.walkLoop_eq]
    rfl
  · intro hnot
    refine ⟨?_, ?_, ?_⟩
    · intro hpanic
      rw [twalk_eq hstart, map_apply] at hpanic
      refine hnot (@climbs_of_walkLoop _ _ _ f w₁ names 0 [] hread ?_)
      cases hloop : (walkLoop (fileOps D room) 0 (some f) names [] w₁).1 with
      | ok r =>
        rw [hloop] at hpanic
        cases hpanic
      | error e =>
        rw [hloop] at hpanic
        cases hpanic
        rfl
    · intro n qids w' hwalk
      obtain ⟨g, rfl, hloop⟩ := twalk_eq_ok hstart hwalk
      exact ⟨g, rfl, top_of_walkLoop hloop⟩
    · intro pre post g qids w' hnames hwalk hparent
      obtain ⟨g', hg', hloop⟩ := twalk_eq_ok hstart hwalk
      cases hg'
      exact absurd (hnames ▸ climbs_append hparent hloop) hnot

section Instances

/-- A store without chunks. -/
def emptyDrive : Drive Unit where
  store
    | .put _, s => (.error (.text "read only store"), s)
    | .get _, s => (.error (.text "chunk not found"), s)
  getRoot := pure none
  now s := (0, s)

theorem reads_emptyDrive : Reads emptyDrive id := by
  intro hash s h
  cases h

def rootFile : File := newFile 0 ⟨1, 0, none, 0⟩ smallDot none (ascii "/")

def subFile : File := newFile 0 ⟨2, 1, none, 0⟩ { smallDot with entName := ascii "a" } (some rootFile) (ascii "/a")

/-- A world with a handle of the folder `a`. -/
def subWorld : World Unit := ⟨fun _ => Fs9.new, 1, fun _ => .dirHandle subFile ⟨0, []⟩, 1, ()⟩

/-- From a folder of the root to the root. -/
theorem walk_stays_inside_up : StaysInside emptyDrive id 0 subFile subWorld [dotDot] ∧
    twalk emptyDrive id 0 [dotDot] subWorld = (.ok (some (.file rootFile), [rootFile.qid]), subWorld) := by
  refine ⟨(walk_stays_inside_iff reads_emptyDrive rfl [dotDot]).mpr ?_, rfl⟩
  intro hclimbs
  rcases hclimbs with ⟨-, ⟨-, hup⟩ | ⟨hne, -⟩⟩
  · exact hup rootFile rfl
  · exact hne rfl

/-- From the root upwards: the attach is answered, the walk ends the program. -/
theorem walk_above_root :
    dispatch (files smallDrive id) (.Tattach 1 0 noFid [] []) (startServe (newServer 8192), smallWorld) =
      (.ok (.Rattach 1 ⟨qtDir, 1, 0⟩), (attachedServer, attachedWorld)) ∧
    handleFile smallDrive id 0 attachedWorld = (.ok smallFs.file, attachedWorld) ∧
    twalk smallDrive id 0 [dotDot] attachedWorld = (.error nilDereference, attachedWorld) := by
  refine ⟨small_attach, attachedWorld_file, ?_⟩
  rw [twalk_eq attachedWorld_file, map_apply, walkLoop_above rfl]
  rfl

end Instances

end Bpy.NineRoots
