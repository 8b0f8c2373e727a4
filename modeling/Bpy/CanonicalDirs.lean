import Bpy.TreeRewrites
import Mathlib.Data.List.Pairwise

/-!
# Directories are canonical

What `WriteDir` writes depends on the entries and not on their order, also if the sort is
not stable: entries that the sort could exchange are refused. What `ReadDir` returns is
written again as it was.
-/
namespace Bpy.CanonicalDirs
open ByteWords InteractionPrograms ContentStore Directories Method
open DirTrees TreeEdits TreeInsert DuplicateNames

section Sorting

variable {indir l : List DirEnt}

instance : Std.Symm Apart where
  symm _ _ := apart_symm

theorem sorted_unique (hapart : indir.Pairwise Apart) (hperm : l.Perm indir) (hsorted : l.Pairwise Before) :
    l = sortEnts indir := by
  apply List.Perm.eq_of_pairwise _ hsorted (pairwise_sortEnts indir) (hperm.trans (perm_sortEnts indir).symm)
  intro a b ha hb hab hba
  obtain ⟨hkind, hname⟩ := same_of_before hab hba
  by_contra hne
  exact hapart.forall (hperm.mem_iff.mp ha) (mem_sortEnts.mp hb) hne hkind hname

theorem writeDir_congr {ω : Type} {indir' : List DirEnt} {mode mode' : UInt32}
    (hsort : sortEnts indir' = sortEnts indir) (hmode : dotEnt mode' = dotEnt mode) :
    writeDir (ω := ω) indir' mode' = writeDir indir mode := by
  rw [writeDir, writeDir, hsort, hmode]

end Sorting

section WriteDir

variable {ω : Type} (room : ℕ → ℕ) {sha256 : Bytes → Hash} {s s' : List Bytes} {w w' : ω}

/-- `ReadDir` returns the entry for `.` and the entries that were written, sorted. Every
order of the entries gives the same tree, and so does writing what was read. -/
theorem writeDir_canonical {indir : List DirEnt} {mode : UInt32} {r : DirEnt}
    (hdepth : ∀ e ∈ indir, e.htree.depth < 256)
    (hwrite : exec (memStore sha256) (writeDir indir mode) w s = (.ok r, w', s'))
    (hinj : Set.InjOn sha256 {c | c ∈ s'}) :
    ∃ dot ents, exec (memStore sha256) (readDir room r.htree.data) w' s' = (.ok (dot :: ents), w', s') ∧
      dot = ⟨ascii ".", 0, 0, mode ||| modeDir, r.htree⟩ ∧ ents.Perm indir ∧ ents.Pairwise Before ∧
      (∀ l, l.Perm indir → l.Pairwise Before → l = ents) ∧
      (∀ indir', indir'.Perm indir → ∀ (w : ω) (s : List Bytes),
        (exec (memStore sha256) (writeDir indir' mode) w s).1 = .ok r) ∧
      ∀ (w : ω) (s : List Bytes),
        (exec (memStore sha256) (writeDir ents dot.entMode) w s).1 = .ok r := by
  obtain ⟨-, hr, -, hf⟩ := writeDir_folder hdepth hwrite
  have hapart : indir.Pairwise Apart := by
    by_contra h
    have hok : (exec (memStore sha256) (writeDir indir mode) w s).1 = .ok r := by rw [hwrite]
    exact not_refused hok (.names (.sameKind h))
  have hagain : ∀ (w : ω) (s : List Bytes),
      (exec (memStore sha256) (writeDir indir mode) w s).1 = .ok r := by
    intro w₁ s₁
    rw [writeDir_anywhere, ← writeDir_anywhere sha256 indir mode w s, hwrite]
  refine ⟨rootEnt mode r.htree, sortEnts indir, readDir_folder room w' hinj hf, rfl, perm_sortEnts indir,
    pairwise_sortEnts indir, ?_, ?_, ?_⟩
  · intro l hperm hsorted
    exact sorted_unique hapart hperm hsorted
  · intro indir' hperm w₁ s₁
    have hsort := sorted_unique hapart ((perm_sortEnts indir').trans hperm) (pairwise_sortEnts indir')
    rw [writeDir_congr hsort rfl]
    exact hagain w₁ s₁
  · intro w₁ s₁
    rw [writeDir_congr (sortEnts_eq (pairwise_sortEnts indir)) (dotEnt_entMode mode r.htree)]
    exact hagain w₁ s₁

/-- A file and a folder. -/
theorem writeDir_canonical_two : ∃ r s' dot ents,
    exec (memStore sumHash) (writeDir [⟨ascii "a", 3, 7, 420, ⟨0, Hash.zero⟩⟩,
      ⟨ascii "b", 0, 0, modeDir, ⟨2, Hash.zero⟩⟩] 493) () [] = (.ok r, (), s') ∧
    exec (memStore sumHash) (readDir id r.htree.data) () s' = (.ok (dot :: ents), (), s') ∧
    dot = ⟨ascii ".", 0, 0, 493 ||| modeDir, r.htree⟩ ∧
    (exec (memStore sumHash) (writeDir ents dot.entMode) () s').1 = .ok r := by
  rcases hrun : exec (memStore sumHash) (writeDir [⟨ascii "a", 3, 7, 420, ⟨0, Hash.zero⟩⟩,
      ⟨ascii "b", 0, 0, modeDir, ⟨2, Hash.zero⟩⟩] 493) () [] with ⟨x, w, s'⟩
  have hok : (exec (memStore sumHash) (writeDir [⟨ascii "a", 3, 7, 420, ⟨0, Hash.zero⟩⟩,
      ⟨ascii "b", 0, 0, modeDir, ⟨2, Hash.zero⟩⟩] 493) () []).1.isOk = true := by
    decide +kernel
  have hone : (exec (memStore sumHash) (writeDir [⟨ascii "a", 3, 7, 420, ⟨0, Hash.zero⟩⟩,
      ⟨ascii "b", 0, 0, modeDir, ⟨2, Hash.zero⟩⟩] 493) () []).2.2.length = 1 := by
    decide +kernel
  rw [hrun] at hok hone
  cases x with
  | error e => cases hok
  | ok r =>
    obtain ⟨c, rfl⟩ := List.length_eq_one_iff.mp hone
    obtain ⟨dot, ents, hread, hdot, -, -, -, -, hagain⟩ :=
      writeDir_canonical id (by simp) hrun (injOn_of_list (by simp))
    exact ⟨r, [c], dot, ents, rfl, hread, hdot, hagain () [c]⟩

end WriteDir

end Bpy.CanonicalDirs
