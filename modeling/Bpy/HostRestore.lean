import Bpy.HostBackup
import Bpy.PathMaps

/-!
# Backup and restore

`fsutil.CpFsToHost` writes a tree of a drive to the host. The host is a map from paths to
files and folders. A tree that `CpHostToFs` copied is written as it was.
-/
namespace Bpy.HostRestore
open ByteWords InteractionPrograms ContentStore HashTreeWriter HashTreeReader HashTreeReading
open HashTreeStreams Directories FileTrees PathElements LinkedFolders DirTrees
open TreeInsert HostBackup PathMaps Method Function
open List hiding max_le_iff

section Model

inductive HostEntry where
  | file (mode : UInt32) (data : Bytes)
  | folder (mode : UInt32)
  deriving DecidableEq

/-- What stands at the path with these elements. -/
abbrev Host := List Bytes → Option HostEntry

/-- A path that can be created: it is not there yet, and the folder it is in is there. -/
def checkNew (host : Host) (path : List Bytes) : Except GoError Unit :=
  match host path, host path.dropLast with
  | none, some (.folder _) => .ok ()
  | none, some (.file _ _) => .error (.text "not a directory")
  | none, none => .error (.text "no such file or directory")
  | some _, _ => .error (.text "file exists")

def create (path : Bytes) (entry : HostEntry) : StoreM Host Unit := do
  let host ← Method.self
  Method.ofExcept (checkNew host (elems path))
  Method.update (fun host => update host (elems path) (some entry))

/-- `os.Mkdir`. -/
def mkdir (path : Bytes) (mode : UInt32) : StoreM Host Unit := create path (.folder mode)

/-- `os.OpenFile` for a new file that is written. -/
def openFile (path : Bytes) (mode : UInt32) : StoreM Host Unit := create path (.file mode [])

/-- `Write` to the file, after what was written before. -/
def appendFile (path : Bytes) (data : Bytes) : StoreM Host Unit := do
  let host ← Method.self
  match host (elems path) with
  | some (.file mode old) =>
    Method.update (fun host => update host (elems path) (some (.file mode (old ++ data))))
  | _ => Method.raise (.text "bad file descriptor")

/-- `filepath.Join`. -/
def join (dest name : Bytes) : Bytes := clean (rooted (dest ++ slash :: name))

/-- `io.Copy` reads with a buffer of 32 kilobytes. -/
def copyToFile (path : Bytes) : ℕ → Reader → StoreM Host Unit
  | 0, _ => goPanic "out of rounds"
  | rounds + 1, f => do
    let (out, f) ← Method.on f (Method.attempt (read 32768))
    match out with
    | .ok data => do
      appendFile path data
      copyToFile path rounds f
    | .error .eof => pure ()
    | .error e => Method.raise e

def hashTreeToHostFile (hash : Hash) (dst : Bytes) (mode : UInt32) : StoreM Host Unit := do
  let f ← newReader hash
  openFile dst mode
  copyToFile dst (2 ^ 64) f

/-- One round of the loop of `cpFsDirToHost`. -/
def cpFsEntToHost (cpDir : Hash → Bytes → StoreM Host Unit) (e : DirEnt) (subp : Bytes) : StoreM Host Unit :=
  if isDirMode e.entMode then cpDir e.htree.data subp
  else if isRegular e.entMode then hashTreeToHostFile e.htree.data subp e.entMode
  else pure ()

def cpFsEntsToHost (cpDir : Hash → Bytes → StoreM Host Unit) (dest : Bytes) :
    List DirEnt → StoreM Host Unit
  | [] => pure ()
  | e :: ents => do
    cpFsEntToHost cpDir e (join dest e.entName)
    cpFsEntsToHost cpDir dest ents

variable (room : ℕ → ℕ)

/-- Folders are nested at most `depth` deep. -/
def cpFsDirToHost : ℕ → Hash → Bytes → StoreM Host Unit
  | 0, _, _ => goPanic "stack overflow"
  | depth + 1, hash, dest => do
    let ents ← readDir room hash
    match ents with
    | [] => goPanic "index out of range"
    | dot :: ents => do
      mkdir dest dot.entMode
      cpFsEntsToHost (cpFsDirToHost depth) dest ents

def cpFsToHost (depth : ℕ) (root : Hash) (src dst : Bytes) : StoreM Host Unit := do
  let ent ← walk room root src
  if ent.isDir then cpFsDirToHost room depth ent.htree.data dst
  else hashTreeToHostFile ent.htree.data dst ent.entMode

end Model

section Tree

mutual

/-- What stands at the path in a tree of the host. -/
def nodeAt : HostNode → List Bytes → Option HostEntry
  | .file info content, [] => some (.file info.mode content.reads.flatten)
  | .folder info _ _, [] => some (.folder info.mode)
  | .folder _ _ ents, n :: p => entsAt ents n p
  | .file _ _, _ :: _ => none
  | .denied _ _, _ => none

def entsAt : HostEnts → Bytes → List Bytes → Option HostEntry
  | .nil, _, _ => none
  | .cons node ents, n, p => if node.info.name = n then nodeAt node p else entsAt ents n p

end

mutual

def height : HostNode → ℕ
  | .file _ _ => 0
  | .folder _ _ ents => entsHeight ents + 1
  | .denied _ _ => 0

def entsHeight : HostEnts → ℕ
  | .nil => 0
  | .cons node ents => max (height node) (entsHeight ents)

end

end Tree

section File

variable {stored : Hash → Bytes → Prop} {σ : Type} {hd : Handler σ} {s : σ} {host : Host}

theorem exec_create {path : Bytes} {entry : HostEntry} {mode : UInt32} (hfree : host (elems path) = none)
    (hparent : host (elems path).dropLast = some (.folder mode)) :
    exec hd (create path entry) host s = (.ok (), update host (elems path) (some entry), s) := by
  have hnew : checkNew host (elems path) = .ok () := by simp [checkNew, hfree, hparent]
  simp [create, exec_bind, hnew]

theorem exec_appendFile {path old : Bytes} {mode : UInt32} (data : Bytes)
    (h : host (elems path) = some (.file mode old)) :
    exec hd (appendFile path data) host s =
      (.ok (), update host (elems path) (some (.file mode (old ++ data))), s) := by
  simp [appendFile, exec_bind, h]

theorem exec_copyToFile {Y : Bytes} {r : Reader} (path old : Bytes) (mode : UInt32) (host : Host)
    (hs : Serves hd s stored) (rounds : ℕ) (hr : Reading stored r Y) (hY : Y.length < rounds) :
    exec hd (copyToFile path rounds r) (update host (elems path) (some (.file mode old))) s =
      (.ok (), update host (elems path) (some (.file mode (old ++ Y))), s) := by
  induction rounds generalizing r Y old with
  | zero => omega
  | succ rounds ih =>
    obtain ⟨hend, hmore⟩ := read_spec 32768 hs hr
    by_cases hnil : Y = []
    · simp [copyToFile, exec_bind, exec_on, exec_attempt, hend hnil, hnil, Except.map]
    · obtain ⟨r₁, out, hrun, hout⟩ := hmore hnil
      have hlen := hout.shorter (by decide) hnil
      have hrest := ih (old ++ out) hout.reading (by omega)
      rw [append_assoc, hout.append] at hrest
      have happend : exec hd (appendFile path out) (update host (elems path) (some (.file mode old))) s =
          (.ok (), update host (elems path) (some (.file mode (old ++ out))), s) := by
        rw [exec_appendFile out (update_self _ _ _), update_idem]
      simp [copyToFile, exec_bind, exec_on, exec_attempt, hrun, Except.map, happend, hrest]

theorem exec_hashTreeToHostFile {t : HTree} {d dst : Bytes} {mode parent : UInt32} (hs : Serves hd s stored)
    (ht : Tree stored t d) (hfree : host (elems dst) = none)
    (hparent : host (elems dst).dropLast = some (.folder parent)) :
    exec hd (hashTreeToHostFile t.data dst mode) host s =
      (.ok (), update host (elems dst) (some (.file mode d)), s) := by
  obtain ⟨r, hnew, hr, -⟩ := newReader_spec host hs ht.holds ht.depth_lt
  have hcopy := exec_copyToFile dst [] mode host hs (2 ^ 64) hr ht.length_lt
  rw [hashTreeToHostFile, exec_bind_ok _ hnew, openFile,
    exec_bind_ok _ (exec_create hfree hparent), hcopy, nil_append]

end File

section Restore

variable {sha256 : Bytes → Hash} {s : List Bytes} {host : Host}

/-- Where nothing is, the method puts the tree `m`. -/
def Restores (sha256 : Bytes → Hash) (s : List Bytes) (x : Bytes → StoreM Host Unit)
    (m : List Bytes → Option HostEntry) : Prop :=
  ∀ (path : Bytes) (host : Host) (parent : UInt32), Free host (elems path) →
    host (elems path).dropLast = some (.folder parent) →
    ∃ host', Method.exec (memStore sha256) (x path) host s = (.ok (), host', s) ∧
      Grafted host (elems path) m host'

theorem elems_join_name {name : Bytes} (dest : Bytes) (hname : Proper name) :
    elems (join dest name) = elems dest ++ [name] := by
  rw [join, clean_rooted, elems_clean (proper_elems _), elems_join_proper dest hname]

variable {m : Bytes → List Bytes → Option HostEntry} {mode : UInt32}

theorem exec_cpFsEntsToHost {cpDir : Hash → Bytes → StoreM Host Unit} {dest : Bytes} {dir : List DirEnt}
    {parent : UInt32} (hnamed : Named dir) (hents : ∀ e ∈ dir, Restores sha256 s (cpFsEntToHost cpDir e) (m e.entName))
    (hfree : ∀ e ∈ dir, Free host (elems dest ++ [e.entName])) (hfolder : host (elems dest) = some (.folder parent)) :
    ∃ host', exec (memStore sha256) (cpFsEntsToHost cpDir dest dir) host s = (.ok (), host', s) ∧
      Filled host (elems dest) m (dir.map DirEnt.entName) host' := by
  induction dir generalizing host with
  | nil => exact ⟨host, rfl, filled_nil⟩
  | cons e dir ih =>
    have hpath := elems_join_name dest (hnamed.proper e mem_cons_self)
    obtain ⟨host₁, hrun, hgraft⟩ := hents e mem_cons_self (join dest e.entName) host parent
      (by rw [hpath]; exact hfree e mem_cons_self)
      (by rw [hpath, dropLast_concat]; exact hfolder)
    rw [hpath] at hgraft
    obtain ⟨hnew, hdistinct⟩ := nodup_cons.mp hnamed.distinct
    have hfree₁ : ∀ a ∈ dir, Free host₁ (elems dest ++ [a.entName]) := by
      intro a ha
      have hne : e.entName ≠ a.entName := fun h => hnew (h ▸ mem_map_of_mem ha)
      exact (hfree a (mem_cons_of_mem e ha)).grafted hgraft (not_append_prefix_append hne [])
        (not_append_prefix_append hne.symm [])
    have hfolder₁ : host₁ (elems dest) = some (.folder parent) := by
      rw [hgraft.outside, hfolder]
      intro hpre
      have hlen := hpre.length_le
      rw [length_append, length_singleton] at hlen
      omega
    obtain ⟨host', hrest, hfilled⟩ := ih ⟨fun a ha => hnamed.proper a (mem_cons_of_mem e ha), hdistinct⟩
      (fun a ha => hents a (mem_cons_of_mem e ha)) hfree₁ hfolder₁
    refine ⟨host', ?_, hfilled.cons hgraft hnew⟩
    rw [cpFsEntsToHost, exec_bind_ok _ hrun, hrest]

theorem restores_folder (room : ℕ → ℕ) (depth : ℕ) {t : HTree} {ents : List DirEnt}
    (hinj : Set.InjOn sha256 {c | c ∈ s}) (hf : Folder (Stored sha256 s) t mode ents) (hnamed : Named ents)
    (hents : ∀ e ∈ ents, Restores sha256 s (cpFsEntToHost (cpFsDirToHost room depth) e) (m e.entName)) :
    Restores sha256 s (cpFsDirToHost room (depth + 1) t.data)
      (folderMap (.folder (mode ||| modeDir)) m (ents.map DirEnt.entName)) := by
  intro path host parent hfree hparent
  have hleaf := grafted_leaf hfree (HostEntry.folder (mode ||| modeDir))
  have hbelow : ∀ e ∈ ents, Free (update host (elems path) (some (.folder (mode ||| modeDir))))
      (elems path ++ [e.entName]) := by
    intro e _ p
    rw [append_assoc, singleton_append, hleaf.inside]
    rfl
  obtain ⟨host', hrun, hfilled⟩ := exec_cpFsEntsToHost hnamed hents hbelow (update_self _ _ _)
  refine ⟨host', ?_, hfilled.folder hfree⟩
  rw [cpFsDirToHost, exec_bind_ok _ (readDir_folder room host hinj hf)]
  dsimp only
  rw [mkdir, exec_bind_ok _ (exec_create hfree.self hparent)]
  exact hrun

theorem entsAt_of_notMem {n : Bytes} (p : List Bytes) : ∀ (ents : HostEnts), n ∉ hostNames ents →
    entsAt ents n p = none
  | .nil, _ => by rw [entsAt]
  | .cons node ents, hn => by
    rw [hostNames, mem_cons, not_or] at hn
    rw [entsAt, if_neg (fun h => hn.1 h.symm)]
    exact entsAt_of_notMem p ents hn.2

theorem getElem_modeDir : ∀ i (_ : i < 32), modeDir.toBitVec[i] = decide (i = 31) := by decide

theorem or_modeDir_of_isDir (h : isDirMode mode = true) : mode ||| modeDir = mode := by
  simp only [isDirMode, ne_eq, decide_not, Bool.not_eq_true', decide_eq_false_iff_not] at h
  -- the bit of `modeDir` is set, and no other bit of the mode changes
  have hbit : mode.toBitVec[31] = true := by
    by_contra hbit
    apply h
    apply UInt32.eq_of_toBitVec_eq
    ext i hi
    simp only [UInt32.toBitVec_and, BitVec.getElem_and, getElem_modeDir i hi]
    by_cases h31 : i = 31
    · subst h31
      rw [Bool.not_eq_true] at hbit
      simp [hbit]
    · simp [h31]
  apply UInt32.eq_of_toBitVec_eq
  ext i hi
  simp only [UInt32.toBitVec_or, BitVec.getElem_or, getElem_modeDir i hi]
  by_cases h31 : i = 31
  · subst h31
    simp [hbit]
  · simp [h31]

theorem kind_of_wellFormed {node : HostNode} (h : WellFormed node) :
    (isRegular node.info.mode || isDirMode node.info.mode) = true := by
  cases node with
  | file info content =>
    rw [WellFormed] at h
    rw [show (HostNode.file info content).info.mode = info.mode from rfl, h.1, Bool.true_or]
  | folder info mode ents =>
    rw [WellFormed] at h
    rw [show (HostNode.folder info mode ents).info.mode = info.mode from rfl, h.1, Bool.or_true]
  | denied info e =>
    rw [WellFormed] at h
    exact h.elim

theorem names_eq_of_savedEnts {stored : Hash → Bytes → Prop} : ∀ (ents : HostEnts) (dir : List DirEnt),
    AllWellFormed ents → SavedEnts stored ents dir → dir.map DirEnt.entName = hostNames ents
  | .nil, dir, _, h => by
    rw [SavedEnts] at h
    rw [h]
    rfl
  | .cons node ents, dir, hwf, h => by
    rw [AllWellFormed] at hwf
    rw [SavedEnts, if_pos (kind_of_wellFormed hwf.1)] at h
    obtain ⟨e, dir', rfl, hname, -, -, -, hrest⟩ := h
    rw [map_cons, hname, names_eq_of_savedEnts ents dir' hwf.2 hrest, hostNames]

mutual

theorem restores_node (room : ℕ → ℕ) (hinj : Set.InjOn sha256 {c | c ∈ s}) :
    ∀ (node : HostNode) (depth : ℕ) (e : DirEnt),
    WellFormed node → height node ≤ depth → Saved (Stored sha256 s) node e.htree →
    e.entMode = node.info.mode →
    Restores sha256 s (cpFsEntToHost (cpFsDirToHost room depth) e) (nodeAt node)
  | .denied _ _, _, _, hwf, _, _, _ => by
    rw [WellFormed] at hwf
    exact hwf.elim
  | .file info content, depth, e, hwf, _, hsaved, hmode => by
    rw [WellFormed] at hwf
    rw [Saved] at hsaved
    intro path host parent hfree hparent
    have hregular : isRegular e.entMode = true := by
      rw [hmode]
      exact hwf.1
    have hnode : nodeAt (.file info content) = leaf (.file e.entMode content.reads.flatten) := by
      funext p
      cases p with
      | nil => rw [nodeAt, leaf, hmode]; rfl
      | cons n p => rw [nodeAt, leaf]
    refine ⟨_, ?_, hnode ▸ grafted_leaf hfree _⟩
    rw [cpFsEntToHost, if_neg (by rw [isRegular_not_dir hregular]; exact Bool.false_ne_true), if_pos hregular]
    exact exec_hashTreeToHostFile (serves_self hinj) hsaved hfree.self hparent
  | .folder info mode ents, depth, e, hwf, hdepth, hsaved, hmode => by
    rw [WellFormed] at hwf
    obtain ⟨hdir, rfl, hnames, hdistinct, -, hents⟩ := hwf
    rw [Saved] at hsaved
    obtain ⟨dir, hf, hdirEnts⟩ := hsaved
    rw [height] at hdepth
    obtain ⟨depth, rfl⟩ : ∃ k, depth = k + 1 := ⟨depth - 1, by omega⟩
    have hnamed := named_sortEnts hdirEnts (fun n hn => (hnames n hn).1) hdistinct
    have hsub := restores_folder room depth (m := entsAt ents) hinj hf hnamed
      (fun a ha => restores_ents room hinj ents depth dir a hents hdistinct (by omega) hdirEnts (mem_sortEnts.mp ha))
    have hnode : nodeAt (.folder info info.mode ents) = folderMap (.folder (info.mode ||| modeDir))
        (entsAt ents) ((sortEnts dir).map DirEnt.entName) := by
      funext p
      cases p with
      | nil => rw [nodeAt, folderMap, or_modeDir_of_isDir hdir]
      | cons n p =>
        rw [nodeAt, folderMap]
        split
        · rfl
        · rename_i hn
          apply entsAt_of_notMem
          have hperm : (sortEnts dir).Perm dir := perm_insertionSort _ _
          rwa [(hperm.map DirEnt.entName).mem_iff, names_eq_of_savedEnts ents dir hents hdirEnts] at hn
    rw [hnode]
    intro path host parent hfree hparent
    rw [cpFsEntToHost, if_pos (by rw [hmode]; exact hdir)]
    exact hsub path host parent hfree hparent

theorem restores_ents (room : ℕ → ℕ) (hinj : Set.InjOn sha256 {c | c ∈ s}) : ∀ (ents : HostEnts) (depth : ℕ)
    (dir : List DirEnt) (e : DirEnt), AllWellFormed ents → (hostNames ents).Nodup →
    entsHeight ents ≤ depth → SavedEnts (Stored sha256 s) ents dir → e ∈ dir →
    Restores sha256 s (cpFsEntToHost (cpFsDirToHost room depth) e) (entsAt ents e.entName)
  | .nil, _, dir, e, _, _, _, hdir, he => by
    rw [SavedEnts] at hdir
    simp [hdir] at he
  | .cons node ents, depth, dir, e, hwf, hdistinct, hdepth, hdir, he => by
    rw [AllWellFormed] at hwf
    rw [hostNames, nodup_cons] at hdistinct
    rw [entsHeight, max_le_iff] at hdepth
    rw [SavedEnts, if_pos (kind_of_wellFormed hwf.1)] at hdir
    obtain ⟨a, dir', rfl, hname, hmode, -, hsaved, hrest⟩ := hdir
    rcases mem_cons.mp he with rfl | he
    · have hat : entsAt (.cons node ents) e.entName = nodeAt node := by
        funext p
        rw [entsAt, if_pos hname.symm]
      rw [hat]
      exact restores_node room hinj node depth e hwf.1 hdepth.1 hsaved hmode
    · have hne : node.info.name ≠ e.entName := by
        intro h
        apply hdistinct.1
        rw [h, ← names_eq_of_savedEnts ents dir' hwf.2 hrest]
        exact mem_map_of_mem he
      have hat : entsAt (.cons node ents) e.entName = entsAt ents e.entName := by
        funext p
        rw [entsAt, if_neg hne]
      rw [hat]
      exact restores_ents room hinj ents depth dir' e hwf.2 hdistinct.2 hdepth.2 hrest he

end

/-- A copy of a folder that is in the drive is written to a new folder as it was. -/
theorem backup_restore (sha256 : Bytes → Hash) (room : ℕ → ℕ) (node : HostNode) (hnode : WellFormed node)
    (hdir : isDirMode node.info.mode = true) (s : List Bytes) (host : Host) (dst : Bytes)
    (hfree : ∀ p, host (elems dst ++ p) = none)
    (hparent : ∃ mode, host (elems dst).dropLast = some (.folder mode)) (depth : ℕ)
    (hdepth : height node ≤ depth) :
    ∃ ent s', Method.exec (memStore sha256) (cpHostToFs node) () s = (.ok ent, (), s') ∧
      (Set.InjOn sha256 {c | c ∈ s'} → ∃ host',
        Method.exec (memStore sha256) (cpFsToHost room depth ent.htree.data [slash] dst) host s' =
          (.ok (), host', s') ∧
        (∀ p, host' (elems dst ++ p) = nodeAt node p) ∧ ∀ x, ¬ elems dst <+: x → host' x = host x) := by
  obtain ⟨ent, s', hrun⟩ := hostDir_total sha256 node () s hnode hdir
  obtain ⟨-, -, ⟨info, mode, ents, rfl, -⟩, hsaved⟩ := hostDir_saved node hrun
  obtain ⟨parent, hparent⟩ := hparent
  refine ⟨ent, s', ?_, fun hinj => ?_⟩
  · rw [cpHostToFs, if_pos hdir]
    exact hrun
  have hmode : mode = info.mode := by
    rw [WellFormed] at hnode
    exact hnode.2.1
  have hroot : (rootEnt mode ent.htree).entMode = info.mode := by
    rw [hmode]
    exact or_modeDir_of_isDir hdir
  have hrestores := restores_node room hinj _ depth (rootEnt mode ent.htree) hnode hdepth hsaved hroot
  obtain ⟨host', hcopy, hgraft⟩ := hrestores dst host parent hfree hparent
  rw [Saved] at hsaved
  obtain ⟨dir, hf, -⟩ := hsaved
  have hwalk := exec_walk room host hinj hf (p := [slash]) (.here _)
  refine ⟨host', ?_, hgraft.inside, hgraft.outside⟩
  rw [cpFsEntToHost, if_pos (by rw [hroot]; exact hdir)] at hcopy
  rw [cpFsToHost, Method.exec_bind_ok _ hwalk, isDir_rootEnt, if_pos rfl]
  exact hcopy

def smallFolder : HostNode :=
  .folder ⟨ascii "r", 0, 0x800001ED⟩ 0x800001ED
    (.cons (.file ⟨ascii "a", 3, 0x1A4⟩ ⟨[[1, 2], [3]], none, by decide⟩) .nil)

theorem wellFormed_smallFolder : WellFormed smallFolder := by
  rw [smallFolder, WellFormed]
  refine ⟨by decide, rfl, by decide, by decide, by decide, ?_⟩
  rw [AllWellFormed, AllWellFormed, WellFormed]
  exact ⟨⟨by decide, rfl⟩, trivial⟩

theorem backup_restore_small : ∃ ent s' host',
    Method.exec (memStore sumHash) (cpHostToFs smallFolder) () [] = (.ok ent, (), s') ∧
    Method.exec (memStore sumHash) (cpFsToHost id 1 ent.htree.data [slash] (ascii "/b"))
      (update (fun _ => none) [] (some (.folder 0x800001ED))) s' = (.ok (), host', s') ∧
    host' [ascii "b", ascii "a"] = some (.file 0x1A4 [1, 2, 3]) := by
  have hrun : Method.exec (memStore sumHash) (cpHostToFs smallFolder) () [] =
      (.ok { rootEnt 0x800001ED ⟨0, sumHash (dirChunk 0x800001ED
          [⟨ascii "a", 3, 0, 0x1A4, ⟨0, sumHash [0, 1, 2, 3]⟩⟩])⟩ with entName := ascii "r" }, (),
        [dirChunk 0x800001ED [⟨ascii "a", 3, 0, 0x1A4, ⟨0, sumHash [0, 1, 2, 3]⟩⟩], [0, 1, 2, 3]]) := by
    decide +kernel
  obtain ⟨ent, s', hcopy, hback⟩ := backup_restore sumHash id smallFolder wellFormed_smallFolder (by decide) []
    (update (fun _ => none) [] (some (.folder 0x800001ED))) (ascii "/b")
    (by
      intro p
      have helems : elems (ascii "/b") = [ascii "b"] := by decide
      rw [helems]
      rfl)
    ⟨0x800001ED, by decide⟩ 1 (by decide)
  rw [hrun] at hcopy
  obtain ⟨rfl, -, rfl⟩ := hcopy
  obtain ⟨host', hrestore, hinside, -⟩ := hback (injOn_of_list (by decide +kernel))
  refine ⟨_, _, host', hrun, hrestore, ?_⟩
  exact (hinside [ascii "a"]).trans (by decide)

end Restore

end Bpy.HostRestore
