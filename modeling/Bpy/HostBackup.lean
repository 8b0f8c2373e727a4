import Bpy.TreeInsert
import Mathlib.Algebra.Order.BigOperators.Group.List

/-!
# What `fsutil.CpHostToFs` stores

`Saved` says that a hash tree holds a file or folder of the host. It is what a copy that
returned has stored, and a copy of files and folders with names that a directory can have
always returns. What is neither a file nor a folder is left out.
-/
namespace Bpy.HostBackup
open ByteWords InteractionPrograms ContentStore HashTreeWriter HashTreeRoundTrip HashTreeStreams
open Directories FileTrees PathElements DirTrees TreeEdits Method
open List

section Saved

variable (stored : Hash → Bytes → Prop)

mutual

/-- The tree holds the file or folder. -/
def Saved : HostNode → HTree → Prop
  | .file _ content, t => Tree stored t content.reads.flatten
  | .folder _ mode ents, t => ∃ dir, Folder stored t mode (sortEnts dir) ∧ SavedEnts ents dir
  | .denied _ _, _ => False

/-- The entries stand for the files and folders. -/
def SavedEnts : HostEnts → List DirEnt → Prop
  | .nil, dir => dir = []
  | .cons node ents, dir =>
    if isRegular node.info.mode || isDirMode node.info.mode then
      ∃ e dir', dir = e :: dir' ∧ e.entName = node.info.name ∧ e.entMode = node.info.mode ∧
        (e.isDir = true ↔ ∃ info mode sub, node = .folder info mode sub) ∧ Saved node e.htree ∧
        SavedEnts ents dir'
    else SavedEnts ents dir

end

variable {stored} {stored' : Hash → Bytes → Prop}

mutual

theorem Saved.mono (hst : ∀ h c, stored h c → stored' h c) :
    ∀ (node : HostNode) (t : HTree), Saved stored node t → Saved stored' node t
  | .file _ _, _, h => by
    rw [Saved] at h ⊢
    exact h.mono hst
  | .folder _ _ ents, _, h => by
    rw [Saved] at h ⊢
    obtain ⟨dir, hf, hents⟩ := h
    exact ⟨dir, hf.mono hst, SavedEnts.mono hst ents dir hents⟩
  | .denied _ _, _, h => by
    rw [Saved] at h
    exact h.elim

theorem SavedEnts.mono (hst : ∀ h c, stored h c → stored' h c) :
    ∀ (ents : HostEnts) (dir : List DirEnt), SavedEnts stored ents dir → SavedEnts stored' ents dir
  | .nil, _, h => by
    rw [SavedEnts] at h ⊢
    exact h
  | .cons node ents, dir, h => by
    rw [SavedEnts] at h ⊢
    split at h
    · rename_i hkind
      rw [if_pos hkind]
      obtain ⟨e, dir', hdir, hname, hmode, hfolder, hnode, hrest⟩ := h
      exact ⟨e, dir', hdir, hname, hmode, hfolder, Saved.mono hst node _ hnode, SavedEnts.mono hst ents dir' hrest⟩
    · rename_i hkind
      rw [if_neg hkind]
      exact SavedEnts.mono hst ents dir h

end

end Saved

section Copy

variable {ω : Type} {sha256 : Bytes → Hash} {w w' : ω} {s s' : List Bytes}

theorem isRegular_not_dir {mode : UInt32} (h : isRegular mode = true) : isDirMode mode = false := by
  simp only [isRegular, decide_eq_true_eq] at h
  have hsub : modeType &&& modeDir = modeDir := by decide
  have hzero : mode &&& modeDir = 0 := by
    rw [← hsub, ← UInt32.and_assoc, h, UInt32.zero_and]
  simp [isDirMode, hzero]

theorem exec_on_eq_ok {α ω₀ : Type} {w₀ w₁ : ω₀} {x : StoreM ω₀ α} {a : α}
    (h : exec (memStore sha256) (Method.on w₀ x : StoreM ω (α × ω₀)) w s = (.ok (a, w₁), w', s')) :
    exec (memStore sha256) x w₀ s = (.ok a, w₁, s') := by
  rw [exec_on] at h
  rcases hx : exec (memStore sha256) x w₀ s with ⟨r, w₂, s₂⟩
  rw [hx] at h
  cases r with
  | error e => simp [Except.map] at h
  | ok b =>
    cases h
    rfl

theorem copyToTree_eq {content : HostFile} (h : content.err = none) : copyToTree content = writeTree content.reads := by
  rw [copyToTree, h]
  rfl

theorem hostFile_saved {node : HostNode} {t : HTree}
    (hrun : exec (memStore sha256) (hostFileToHashTree node) w s = (.ok t, w', s')) :
    (∃ ws, s' = ws ++ s) ∧ t.depth < 256 ∧ (∃ info content, node = .file info content) ∧
      Saved (Stored sha256 s') node t := by
  cases node with
  | folder info mode ents => simp [hostFileToHashTree] at hrun
  | denied info e => simp [hostFileToHashTree] at hrun
  | file info content =>
    obtain ⟨⟨t₁, w₁⟩, w₂, s₂, hon, hpure⟩ := exec_bind_eq_ok hrun
    have hcopy := exec_on_eq_ok hon
    cases hpure
    cases herr : content.err with
    | some e =>
      obtain ⟨u, w₃, s₃, -, hraise⟩ := exec_bind_eq_ok hcopy
      simp [herr] at hraise
    | none =>
      rw [copyToTree_eq herr] at hcopy
      obtain ⟨ws, hgrow, htree⟩ := writeTree_ok (Nat.lt_trans content.small (by decide)) hcopy
      refine ⟨⟨ws, hgrow⟩, ?_, ⟨info, content, rfl⟩, ?_⟩
      · have hdepth := htree.depth_lt
        rw [nlevels] at hdepth
        omega
      · rw [Saved]
        exact htree

mutual

theorem hostDir_saved : ∀ (node : HostNode) {w w' : ω} {s s' : List Bytes} {r : DirEnt},
    exec (memStore sha256) (cpHostDirToFs node) w s = (.ok r, w', s') →
    (∃ ws, s' = ws ++ s) ∧ r.htree.depth < 256 ∧ (∃ info mode ents, node = .folder info mode ents ∧
        r = { rootEnt mode r.htree with entName := info.name }) ∧
      Saved (Stored sha256 s') node r.htree
  | .file _ _, _, _, _, _, _, hrun => by simp [cpHostDirToFs] at hrun
  | .denied _ _, _, _, _, _, _, hrun => by simp [cpHostDirToFs] at hrun
  | .folder info mode ents, w, w', s, s', r, hrun => by
    rw [cpHostDirToFs] at hrun
    obtain ⟨dir, w₁, s₁, hents, hrun⟩ := exec_bind_eq_ok hrun
    obtain ⟨dirEnt, w₂, s₂, hwrite, hpure⟩ := exec_bind_eq_ok hrun
    simp only [exec_pure, Prod.mk.injEq, Except.ok.injEq] at hpure
    obtain ⟨rfl, -, rfl⟩ := hpure
    obtain ⟨⟨ws, rfl⟩, hdepths, hsaved⟩ := hostEnts_saved ents hents
    obtain ⟨hgrow, hr, hdepth, hf⟩ := writeDir_folder hdepths hwrite
    refine ⟨?_, Nat.lt_of_le_of_lt hdepth (by decide), ⟨info, mode, ents, rfl, ?_⟩, ?_⟩
    · obtain ⟨ws', rfl⟩ := hgrow
      exact ⟨ws' ++ ws, by simp⟩
    · rw [hr]
      rfl
    · rw [Saved]
      exact ⟨dir, hf, SavedEnts.mono (stored_grows sha256 hgrow) ents dir hsaved⟩

theorem hostEnts_saved : ∀ (ents : HostEnts) {w w' : ω} {s s' : List Bytes} {dir : List DirEnt},
    exec (memStore sha256) (cpHostEnts ents) w s = (.ok dir, w', s') →
    (∃ ws, s' = ws ++ s) ∧ (∀ e ∈ dir, e.htree.depth < 256) ∧ SavedEnts (Stored sha256 s') ents dir
  | .nil, w, w', s, s', dir, hrun => by
    cases hrun
    exact ⟨⟨[], rfl⟩, by simp, by rw [SavedEnts]⟩
  | .cons node ents, w, w', s, s', dir, hrun => by
    rw [cpHostEnts] at hrun
    rw [SavedEnts]
    cases hregular : isRegular node.info.mode with
    | true =>
      rw [if_pos hregular] at hrun
      obtain ⟨t, w₁, s₁, hfile, hrun⟩ := exec_bind_eq_ok hrun
      obtain ⟨dir', w₂, s₂, hrest, hpure⟩ := exec_bind_eq_ok hrun
      simp only [exec_pure, Prod.mk.injEq, Except.ok.injEq] at hpure
      obtain ⟨rfl, -, rfl⟩ := hpure
      obtain ⟨⟨ws, rfl⟩, hdepth, ⟨info, content, rfl⟩, hsaved⟩ := hostFile_saved hfile
      obtain ⟨⟨ws', rfl⟩, hdepths, hents⟩ := hostEnts_saved ents hrest
      have hkept := Saved.mono (stored_grows sha256 ⟨ws', rfl⟩) _ t hsaved
      have hkind : isDirMode info.mode = false := isRegular_not_dir hregular
      refine ⟨⟨ws' ++ ws, by simp⟩, ?_, ?_⟩
      · exact forall_mem_cons.mpr ⟨hdepth, hdepths⟩
      · rw [if_pos (by rw [Bool.true_or])]
        refine ⟨_, dir', rfl, rfl, rfl, ⟨fun hdir => absurd (hkind.symm.trans hdir) Bool.false_ne_true, ?_⟩,
          hkept, hents⟩
        rintro ⟨_, _, _, hnode⟩
        cases hnode
    | false =>
      rw [if_neg (by rw [hregular]; exact Bool.false_ne_true)] at hrun
      cases hdir : isDirMode node.info.mode with
      | true =>
        rw [if_pos hdir] at hrun
        obtain ⟨r, w₁, s₁, hfolder, hrun⟩ := exec_bind_eq_ok hrun
        obtain ⟨dir', w₂, s₂, hrest, hpure⟩ := exec_bind_eq_ok hrun
        simp only [exec_pure, Prod.mk.injEq, Except.ok.injEq] at hpure
        obtain ⟨rfl, -, rfl⟩ := hpure
        obtain ⟨⟨ws, rfl⟩, hdepth, ⟨info, mode, sub, hnode, -⟩, hsaved⟩ := hostDir_saved node hfolder
        obtain ⟨⟨ws', rfl⟩, hdepths, hents⟩ := hostEnts_saved ents hrest
        have hkept := Saved.mono (stored_grows sha256 ⟨ws', rfl⟩) _ r.htree hsaved
        refine ⟨⟨ws' ++ ws, by simp⟩, ?_, ?_⟩
        · exact forall_mem_cons.mpr ⟨hdepth, hdepths⟩
        · rw [if_pos (by rw [Bool.or_true])]
          exact ⟨_, dir', rfl, rfl, rfl, ⟨fun _ => ⟨info, mode, sub, hnode⟩, fun _ => hdir⟩, hkept, hents⟩
      | false =>
        rw [if_neg (by rw [hdir]; exact Bool.false_ne_true)] at hrun
        rw [if_neg (by simp)]
        exact hostEnts_saved ents hrun

end

end Copy

section Names

def hostNames : HostEnts → List Bytes
  | .nil => []
  | .cons node ents => node.info.name :: hostNames ents

mutual

/-- In every folder the names are proper and distinct. -/
def NamedNode : HostNode → Prop
  | .folder _ _ ents => (∀ n ∈ hostNames ents, Proper n) ∧ (hostNames ents).Nodup ∧ NamedEnts ents
  | .file _ _ => True
  | .denied _ _ => True

def NamedEnts : HostEnts → Prop
  | .nil => True
  | .cons node ents => NamedNode node ∧ NamedEnts ents

end

variable {stored : Hash → Bytes → Prop}

theorem names_of_savedEnts : ∀ (ents : HostEnts) (dir : List DirEnt), SavedEnts stored ents dir →
    (dir.map DirEnt.entName).Sublist (hostNames ents)
  | .nil, dir, h => by
    rw [SavedEnts] at h
    simp [h, hostNames]
  | .cons node ents, dir, h => by
    rw [SavedEnts] at h
    split at h
    · obtain ⟨e, dir', rfl, hname, -, -, -, hrest⟩ := h
      rw [map_cons, hname, hostNames]
      exact (names_of_savedEnts ents dir' hrest).cons_cons _
    · exact (names_of_savedEnts ents dir h).cons _

theorem named_sortEnts {ents : HostEnts} {dir : List DirEnt} (hdir : SavedEnts stored ents dir)
    (hproper : ∀ n ∈ hostNames ents, Proper n) (hdistinct : (hostNames ents).Nodup) : Named (sortEnts dir) := by
  have hsub := names_of_savedEnts ents dir hdir
  have hperm : (sortEnts dir).Perm dir := perm_insertionSort _ _
  constructor
  · intro e he
    exact hproper _ (hsub.subset (mem_map_of_mem (mem_sortEnts.mp he)))
  · exact (hperm.map DirEnt.entName).nodup_iff.mpr (hdistinct.sublist hsub)

mutual

theorem dirTree_of_saved : ∀ (node : HostNode) (t : HTree), NamedNode node → Saved stored node t →
    (∃ info mode ents, node = .folder info mode ents) → DirTree stored Named t.data
  | .file _ _, _, _, _, hfolder => by simp at hfolder
  | .denied _ _, _, _, _, hfolder => by simp at hfolder
  | .folder _ _ ents, _, hnamed, hsaved, _ => by
    rw [NamedNode] at hnamed
    rw [Saved] at hsaved
    obtain ⟨hproper, hdistinct, hsub⟩ := hnamed
    obtain ⟨dir, hf, hdir⟩ := hsaved
    refine .intro hf (named_sortEnts hdir hproper hdistinct) (fun e he => ?_)
    exact dirTree_of_savedEnts ents dir hsub hdir e (mem_sortEnts.mp he)

theorem dirTree_of_savedEnts : ∀ (ents : HostEnts) (dir : List DirEnt), NamedEnts ents →
    SavedEnts stored ents dir → ∀ e ∈ dir, e.isDir = true → DirTree stored Named e.htree.data
  | .nil, dir, _, hdir, e, he, _ => by
    rw [SavedEnts] at hdir
    simp [hdir] at he
  | .cons node ents, dir, hnamed, hdir, e, he, hisDir => by
    rw [NamedEnts] at hnamed
    rw [SavedEnts] at hdir
    split at hdir
    · obtain ⟨a, dir', rfl, -, -, hkind, hsaved, hrest⟩ := hdir
      rcases mem_cons.mp he with rfl | he
      · exact dirTree_of_saved node e.htree hnamed.1 hsaved (hkind.mp hisDir)
      · exact dirTree_of_savedEnts ents dir' hnamed.2 hrest e he hisDir
    · exact dirTree_of_savedEnts ents dir hnamed.2 hdir e he hisDir

end

end Names

section Success

/-- The bytes of a directory with these names. -/
def dirSize (names : List Bytes) : ℕ := 56 + (names.map (fun n => n.length + 55)).sum

mutual

/-- A tree of regular files and folders that can be read. The names in a folder are proper,
distinct and not too long, and fit into memory together. -/
def WellFormed : HostNode → Prop
  | .file info content => isRegular info.mode = true ∧ content.err = none
  | .folder info mode ents => isDirMode info.mode = true ∧ mode = info.mode ∧
      (∀ n ∈ hostNames ents, Proper n ∧ n.length ≤ 65535) ∧ (hostNames ents).Nodup ∧
      dirSize (hostNames ents) < 2 ^ 63 ∧ AllWellFormed ents
  | .denied _ _ => False

def AllWellFormed : HostEnts → Prop
  | .nil => True
  | .cons node ents => WellFormed node ∧ AllWellFormed ents

end

theorem length_encode (e : DirEnt) : e.encode.length = e.entName.length + 55 := by
  simp only [DirEnt.encode, length_append, length_cons, length_leBytes, Hash.length_bytes]
  omega

theorem length_encodeEnts (ents : List DirEnt) :
    (encodeEnts ents).length = ((ents.map DirEnt.entName).map (fun n => n.length + 55)).sum := by
  rw [encodeEnts, length_flatMap, map_map]
  congr 1
  apply map_congr_left
  intro e _
  exact length_encode e

theorem checkNames_named {ents : List DirEnt} (h : Named ents) : checkNames ents = .ok () := by
  induction ents with
  | nil => rfl
  | cons a ents ih =>
    have hrest : Named ents := ⟨fun e he => h.proper e (mem_cons_of_mem a he), (nodup_cons.mp h.distinct).2⟩
    cases ents with
    | nil => rfl
    | cons b ents =>
      have hab : a.entName ≠ b.entName := by
        intro hab
        apply (nodup_cons.mp h.distinct).1
        rw [hab]
        exact mem_cons_self
      rw [checkNames, if_neg (h.proper a mem_cons_self).ne_dot, if_neg hab]
      exact ih hrest

theorem checkLengths_short {ents : List DirEnt} (h : ∀ e ∈ ents, e.entName.length ≤ 65535) :
    checkLengths ents = .ok () := by
  induction ents with
  | nil => rfl
  | cons e ents ih =>
    rw [checkLengths, if_neg (Nat.not_lt.mpr (h e mem_cons_self))]
    exact ih (fun x hx => h x (mem_cons_of_mem e hx))

variable {ω : Type} (sha256 : Bytes → Hash)

theorem writeDir_total {dir : List DirEnt} (mode : UInt32) (w : ω) (s : List Bytes) (hnamed : Named (sortEnts dir))
    (hlen : ∀ e ∈ dir, e.entName.length ≤ 65535) (hsize : dirSize (dir.map DirEnt.entName) < 2 ^ 63) :
    ∃ r s', exec (memStore sha256) (writeDir dir mode) w s = (.ok r, w, s') := by
  have hperm : (sortEnts dir).Perm dir := perm_insertionSort _ _
  have hbytes : (encodeEnts (dotEnt mode :: sortEnts dir)).length < 2 ^ 63 := by
    rw [length_encodeEnts, map_cons, map_cons, sum_cons,
      ((hperm.map DirEnt.entName).map (fun n => n.length + 55)).sum_eq]
    exact hsize
  have hshort : ∀ e ∈ dotEnt mode :: sortEnts dir, e.entName.length ≤ 65535 := by
    intro e he
    rcases mem_cons.mp he with rfl | he
    · exact (dotEnt_encodable mode).name
    · exact hlen e (mem_sortEnts.mp he)
  obtain ⟨t, written, hrun, -⟩ := writeEncoded_spec sha256 s w (Nat.lt_trans hbytes (by decide))
  have hcheck : checkSize (encodeEnts (dotEnt mode :: sortEnts dir)) = .ok () := if_pos hbytes
  refine ⟨{ dotEnt mode with htree := t }, written ++ s, ?_⟩
  simp [writeDir, exec_bind, checkNames_named hnamed, hcheck, checkLengths_short hshort, hrun]

theorem hostFile_total (info : HostInfo) {content : HostFile} (herr : content.err = none) (w : ω) (s : List Bytes) :
    ∃ t s', exec (memStore sha256) (hostFileToHashTree (.file info content)) w s = (.ok t, w, s') := by
  obtain ⟨t, w₁, written, hrun, -⟩ := writeTree_spec sha256 s (Nat.lt_trans content.small (by decide))
  refine ⟨t, written ++ s, ?_⟩
  simp [hostFileToHashTree, copyToTree_eq herr, exec_bind, exec_on, hrun content.reads rfl, Except.map]

mutual

theorem hostDir_total : ∀ (node : HostNode) (w : ω) (s : List Bytes), WellFormed node →
    isDirMode node.info.mode = true →
    ∃ r s', exec (memStore sha256) (cpHostDirToFs node) w s = (.ok r, w, s')
  | .file info content, w, s, hwf, hdir => by
    rw [WellFormed] at hwf
    exact absurd ((isRegular_not_dir hwf.1).symm.trans hdir) Bool.false_ne_true
  | .denied _ _, _, _, hwf, _ => by
    rw [WellFormed] at hwf
    exact hwf.elim
  | .folder info mode ents, w, s, hwf, _ => by
    rw [WellFormed] at hwf
    obtain ⟨-, -, hnames, hdistinct, hsize, hents⟩ := hwf
    obtain ⟨dir, s₁, hrun⟩ := hostEnts_total ents w s hents
    obtain ⟨-, -, hsaved⟩ := hostEnts_saved ents hrun
    have hsub := names_of_savedEnts ents dir hsaved
    have hnamed := named_sortEnts hsaved (fun n hn => (hnames n hn).1) hdistinct
    have hlen : ∀ e ∈ dir, e.entName.length ≤ 65535 := fun e he => (hnames _ (hsub.subset (mem_map_of_mem he))).2
    have hfits : dirSize (dir.map DirEnt.entName) < 2 ^ 63 := by
      have hle := (hsub.map (fun n : Bytes => n.length + 55)).sum_le_sum (by simp)
      rw [dirSize] at hsize ⊢
      omega
    obtain ⟨r, s₂, hwrite⟩ := writeDir_total sha256 mode w s₁ hnamed hlen hfits
    refine ⟨{ r with entName := info.name }, s₂, ?_⟩
    rw [cpHostDirToFs, exec_bind_ok _ hrun, exec_bind_ok _ hwrite, exec_pure]

theorem hostEnts_total : ∀ (ents : HostEnts) (w : ω) (s : List Bytes), AllWellFormed ents →
    ∃ dir s', exec (memStore sha256) (cpHostEnts ents) w s = (.ok dir, w, s')
  | .nil, w, s, _ => ⟨[], s, by rw [cpHostEnts, exec_pure]⟩
  | .cons node ents, w, s, hwf => by
    rw [AllWellFormed] at hwf
    rw [cpHostEnts]
    split
    · rename_i hregular
      cases node with
      | file info content =>
        have hfile := hwf.1
        rw [WellFormed] at hfile
        obtain ⟨t, s₁, hrun⟩ := hostFile_total sha256 info hfile.2 w s
        obtain ⟨dir, s₂, hrest⟩ := hostEnts_total ents w s₁ hwf.2
        refine ⟨⟨info.name, info.size, 0, info.mode, t⟩ :: dir, s₂, ?_⟩
        rw [exec_bind_ok _ hrun, exec_bind_ok _ hrest, exec_pure]
        rfl
      | folder info mode sub =>
        have hfolder := hwf.1
        rw [WellFormed] at hfolder
        exact absurd ((isRegular_not_dir hregular).symm.trans hfolder.1) Bool.false_ne_true
      | denied info e =>
        have hdenied := hwf.1
        rw [WellFormed] at hdenied
        exact hdenied.elim
    · split
      · rename_i hdir
        obtain ⟨r, s₁, hrun⟩ := hostDir_total node w s hwf.1 hdir
        obtain ⟨dir, s₂, hrest⟩ := hostEnts_total ents w s₁ hwf.2
        refine ⟨⟨node.info.name, 0, 0, node.info.mode, r.htree⟩ :: dir, s₂, ?_⟩
        rw [exec_bind_ok _ hrun, exec_bind_ok _ hrest, exec_pure]
      · exact hostEnts_total ents w s hwf.2

end

end Success

end Bpy.HostBackup
