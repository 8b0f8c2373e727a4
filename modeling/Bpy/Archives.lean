import Bpy.FileReaders
import Bpy.TreeInsert

/-!
# Archives of a directory

`archive.Tar` and `archive.Zip` go through a directory and the directories below it, and
open every file again by its name. The writers of archives record their members.
-/
namespace Bpy.Archives
open ByteWords InteractionPrograms ContentStore HashTreeWriter HashTreeReader HashTreeReading HashTreeStreams
open ObjectGraph Directories FileTrees PathElements LinkedFolders DirTrees FileReaders TreeInsert Method
open List hiding zip

section Paths

def relativeStep (out : List Bytes) (elem : Bytes) : List Bytes :=
  if elem = [] ∨ elem = ascii "." then out
  else if elem = ascii ".." then
    if out = [] ∨ out.getLast? = some (ascii "..") then out ++ [elem] else out.dropLast
  else out ++ [elem]

/-- `path.Clean`. -/
def pathClean (p : Bytes) : Bytes :=
  if p.head? = some slash then clean p
  else
    let out := (splitPath p).foldl relativeStep []
    if out = [] then ascii "." else joinPath out

/-- `path.Join` of two elements. -/
def pathJoin (dir name : Bytes) : Bytes :=
  let elems := [dir, name].filter (· ≠ [])
  if elems = [] then [] else pathClean (joinPath elems)

theorem foldl_relativeStep {es : List Bytes} (hes : ∀ e ∈ es, Proper e) (out : List Bytes) :
    es.foldl relativeStep out = out ++ es := by
  induction es generalizing out with
  | nil => simp
  | cons e es ih =>
    have he := hes e mem_cons_self
    have hstep : relativeStep out e = out ++ [e] := by simp [relativeStep, he.ne_nil, he.ne_dot, he.ne_dotdot]
    rw [foldl_cons, hstep, ih (fun a ha => hes a (mem_cons_of_mem e ha)), append_assoc]
    rfl

theorem pathClean_joinPath {es : List Bytes} (hes : ∀ e ∈ es, Proper e) (hne : es ≠ []) :
    pathClean (joinPath es) = joinPath es := by
  have hhead : (joinPath es).head? ≠ some slash := by
    cases es with
    | nil => exact absurd rfl hne
    | cons e es =>
      have he := hes e mem_cons_self
      obtain ⟨b, bs, rfl⟩ := exists_cons_of_ne_nil he.ne_nil
      have hb : b ≠ slash := fun hb => he.noSlash (hb ▸ mem_cons_self)
      cases es with
      | nil => simpa [joinPath] using hb
      | cons a es => simpa [joinPath, intercalate_cons_cons] using hb
  rw [pathClean, if_neg hhead, splitPath_joinPath (fun e he => (hes e he).noSlash) hne, foldl_relativeStep hes,
    nil_append]
  exact if_neg hne

theorem joinPath_ne_nil {es : List Bytes} (hes : ∀ e ∈ es, Proper e) (hne : es ≠ []) : joinPath es ≠ [] := by
  intro hnil
  have hsplit := splitPath_joinPath (fun e he => (hes e he).noSlash) hne
  rw [hnil] at hsplit
  have hmem : [] ∈ es := by
    rw [← hsplit]
    exact mem_singleton_self _
  exact (hes _ hmem).ne_nil rfl

theorem pathJoin_eq {path : List Bytes} {name : Bytes} (hpath : ∀ e ∈ path, Proper e) (hname : Proper name) :
    pathJoin (joinPath path) name = joinPath (path ++ [name]) := by
  have hall : ∀ e ∈ path ++ [name], Proper e := by
    intro e he
    rcases mem_append.mp he with he | he
    · exact hpath e he
    · rw [mem_singleton.mp he]
      exact hname
  rw [pathJoin]
  by_cases hnil : path = []
  · subst hnil
    have hclean := pathClean_joinPath hall (by simp)
    simpa [joinPath, hname.ne_nil] using hclean
  · have hboth : joinPath [joinPath path, name] = joinPath (path ++ [name]) := by
      rw [joinPath_append hnil]
      simp [joinPath, intercalate_cons_cons]
    simp only [filter_cons, ne_eq, joinPath_ne_nil hpath hnil, hname.ne_nil, not_false_eq_true, decide_true,
      if_true, filter_nil, reduceCtorEq, if_false, hboth]
    exact pathClean_joinPath hall (by simp)

theorem joinPath_inj {p q : List Bytes} (hp : ∀ e ∈ p, Proper e) (hq : ∀ e ∈ q, Proper e) (hpne : p ≠ [])
    (hqne : q ≠ []) (h : joinPath p = joinPath q) : p = q := by
  rw [← splitPath_joinPath (fun e he => (hp e he).noSlash) hpne, h,
    splitPath_joinPath (fun e he => (hq e he).noSlash) hqne]

end Paths

section Model

/-- The names and contents of the members, in the order in which they were written. -/
abbrev Archive := List (Bytes × Bytes)

/-- `WriteHeader` of a tar writer and `CreateHeader` of a zip writer. -/
def createMember (name : Bytes) : StoreM Archive Unit := update (· ++ [(name, [])])

/-- `Write` to the last member. -/
def writeMember (data : Bytes) : StoreM Archive Unit := do
  let members ← self
  match members.getLast? with
  | none => raise (.text "archive/tar: write too long")
  | some (name, old) => update (fun members => members.dropLast ++ [(name, old ++ data)])

/-- `io.Copy` reads with a buffer of 32 kilobytes. -/
def copyToMember : ℕ → FileReader → StoreM Archive Unit
  | 0, _ => goPanic "out of rounds"
  | rounds + 1, f => do
    let (out, f) ← on f (attempt (FileReaders.read 32768))
    match out with
    | .ok data => do
      writeMember data
      copyToMember rounds f
    | .error .eof => pure ()
    | .error e => raise e

/-- `tar.FileInfoHeader` knows the kinds of files that a tar archive can have. -/
def tarFileInfoHeader (mode : UInt32) : Except GoError Unit :=
  let modeSymlink : UInt32 := 134217728
  let modeDevice : UInt32 := 67108864
  let modeNamedPipe : UInt32 := 33554432
  if isRegular mode ∨ isDirMode mode ∨ mode &&& modeSymlink ≠ 0 ∨ mode &&& modeDevice ≠ 0 ∨
      mode &&& modeNamedPipe ≠ 0 then .ok ()
  else .error (.text "archive/tar: sockets not supported")

/-- `FileReader.Close`. -/
def closeFile : StoreM Archive Unit := pure ()

variable (room : ℕ → ℕ)

def tarFile (dir : Hash) (ent : DirEnt) (name : Bytes) : StoreM Archive Unit := do
  let f ← FileReaders.openFile room dir ent.entName
  ofExcept (tarFileInfoHeader ent.entMode)
  createMember name
  copyToMember (2 ^ 64) f
  closeFile

/-- What `writeZip` does for a file. It is closed when all files of the directory have been written. -/
def zipFile (dir : Hash) (ent : DirEnt) (name : Bytes) : StoreM Archive Unit := do
  let f ← FileReaders.openFile room dir ent.entName
  createMember name
  copyToMember (2 ^ 64) f

def writeEnts (file : DirEnt → Bytes → StoreM Archive Unit) (sub : Bytes → Hash → StoreM Archive Unit)
    (curpath : Bytes) : List DirEnt → StoreM Archive Unit
  | [] => pure ()
  | ent :: ents => do
    if ent.isDir then sub (pathJoin curpath ent.entName) ent.htree.data
    else file ent (pathJoin curpath ent.entName)
    writeEnts file sub curpath ents

/-- The way through a directory, with folders nested at most `depth` deep. -/
def writeArchive (file : Hash → DirEnt → Bytes → StoreM Archive Unit) : ℕ → Bytes → Hash → StoreM Archive Unit
  | 0, _, _ => goPanic "stack overflow"
  | depth + 1, curpath, dirHash => do
    let ents ← readDir room dirHash
    match ents with
    | [] => goPanic "slice bounds out of range"
    | dot :: ents => writeEnts (file dot.htree.data) (writeArchive file depth) curpath ents

def writeTar : ℕ → Bytes → Hash → StoreM Archive Unit := writeArchive room (tarFile room)

def writeZip : ℕ → Bytes → Hash → StoreM Archive Unit := writeArchive room (zipFile room)

def tar (depth : ℕ) (dirHash : Hash) : StoreM Archive Unit := writeTar room depth [] dirHash

def zip (depth : ℕ) (dirHash : Hash) : StoreM Archive Unit := writeZip room depth [] dirHash

end Model

section Files

variable {stored : Hash → Bytes → Prop}

/-- The file at the path below the directory has the contents. -/
inductive FileAt (stored : Hash → Bytes → Prop) : Hash → List Bytes → Bytes → Prop
  | here {t : HTree} {mode : UInt32} {ents : List DirEnt} {e : DirEnt} {d : Bytes} (hf : Folder stored t mode ents)
      (he : e ∈ ents) (hfile : e.isDir = false) (hd : Tree stored e.htree d) : FileAt stored t.data [e.entName] d
  | deeper {t : HTree} {mode : UInt32} {ents : List DirEnt} {e : DirEnt} {p : List Bytes} {d : Bytes}
      (hf : Folder stored t mode ents) (he : e ∈ ents) (hdir : e.isDir = true) (h : FileAt stored e.htree.data p d) :
      FileAt stored t.data (e.entName :: p) d

/-- The entries are regular files and directories with names that can be told apart. -/
structure Plain (stored : Hash → Bytes → Prop) (ents : List DirEnt) : Prop where
  named : Named ents
  regular : ∀ e ∈ ents, e.isDir = false → isRegular e.entMode = true ∧ ∃ d, Tree stored e.htree d

def EntryFile (stored : Hash → Bytes → Prop) (e : DirEnt) (p : List Bytes) (d : Bytes) : Prop :=
  if e.isDir then FileAt stored e.htree.data p d else p = [] ∧ Tree stored e.htree d

theorem fileAt_iff (hfun : Functional stored) {t : HTree} {mode : UInt32} {ents : List DirEnt}
    (hf : Folder stored t mode ents) {p : List Bytes} {d : Bytes} :
    FileAt stored t.data p d ↔ ∃ e ∈ ents, ∃ q, p = e.entName :: q ∧ EntryFile stored e q d := by
  constructor
  · intro h
    generalize ht : t.data = hash at h
    cases h with
    | @here t' mode' ents' e d hf' he hfile hd =>
      obtain ⟨-, -, rfl⟩ := hf.unique hfun hf' ht
      exact ⟨e, he, [], rfl, by rw [EntryFile, hfile]; exact ⟨rfl, hd⟩⟩
    | @deeper t' mode' ents' e p d hf' he hdir h =>
      obtain ⟨-, -, rfl⟩ := hf.unique hfun hf' ht
      exact ⟨e, he, p, rfl, by rw [EntryFile, hdir]; exact h⟩
  · rintro ⟨e, he, q, rfl, hentry⟩
    rw [EntryFile] at hentry
    split at hentry
    · next hdir => exact .deeper hf he hdir hentry
    · next hdir =>
      obtain ⟨rfl, hd⟩ := hentry
      exact .here hf he (Bool.not_eq_true _ ▸ hdir) hd

/-- The files of an entry or a directory, with their paths. -/
structure Lists (files : List (List Bytes × Bytes)) (P : List Bytes → Bytes → Prop) : Prop where
  mem_iff : ∀ p d, (p, d) ∈ files ↔ P p d
  nodup : (files.map Prod.fst).Nodup
  proper : ∀ x ∈ files, ∀ e ∈ x.1, Proper e

theorem Lists.cons {e : DirEnt} {ents : List DirEnt} {fs rest : List (List Bytes × Bytes)}
    (hname : Proper e.entName) (hnew : e.entName ∉ ents.map DirEnt.entName) (he : Lists fs (EntryFile stored e))
    (hrest : Lists rest (fun p d => ∃ a ∈ ents, ∃ q, p = a.entName :: q ∧ EntryFile stored a q d)) :
    Lists (fs.map (fun x => (e.entName :: x.1, x.2)) ++ rest)
      (fun p d => ∃ a ∈ e :: ents, ∃ q, p = a.entName :: q ∧ EntryFile stored a q d) := by
  refine ⟨fun p d => ?_, ?_, ?_⟩
  · rw [mem_append, hrest.mem_iff, mem_map]
    constructor
    · rintro (⟨x, hx, heq⟩ | ⟨a, ha, hfile⟩)
      · cases heq
        exact ⟨e, mem_cons_self, x.1, rfl, (he.mem_iff x.1 x.2).mp hx⟩
      · exact ⟨a, mem_cons_of_mem e ha, hfile⟩
    · rintro ⟨a, ha, q, rfl, hfile⟩
      rcases mem_cons.mp ha with rfl | ha
      · exact .inl ⟨(q, d), (he.mem_iff q d).mpr hfile, rfl⟩
      · exact .inr ⟨a, ha, q, rfl, hfile⟩
  · have hfst : (fs.map (fun x => (e.entName :: x.1, x.2))).map Prod.fst = (fs.map Prod.fst).map (e.entName :: ·) := by
      simp [Function.comp_def]
    rw [map_append, hfst, nodup_append]
    refine ⟨he.nodup.map cons_injective, hrest.nodup, fun p hp p' hp' heq => ?_⟩
    obtain ⟨q, -, rfl⟩ := mem_map.mp hp
    obtain ⟨⟨p'', d⟩, hmem, rfl⟩ := mem_map.mp hp'
    obtain ⟨a, ha, q', hcons, -⟩ := (hrest.mem_iff p'' d).mp hmem
    rw [hcons] at heq
    exact hnew ((List.cons.inj heq).1 ▸ mem_map_of_mem ha)
  · intro x hx
    rcases mem_append.mp hx with hx | hx
    · obtain ⟨y, hy, rfl⟩ := mem_map.mp hx
      intro a ha
      rcases mem_cons.mp ha with rfl | ha
      · exact hname
      · exact he.proper y hy a ha
    · exact hrest.proper x hx

end Files

section Runs

variable {sha256 : Bytes → Hash} {s : List Bytes} {room : ℕ → ℕ}

theorem exec_writeMember (members : Archive) (name old data : Bytes) :
    exec (memStore sha256) (writeMember data) (members ++ [(name, old)]) s =
      (.ok (), members ++ [(name, old ++ data)], s) := by
  simp [writeMember, exec_bind]

theorem exec_copyToMember {stored : Hash → Bytes → Prop} {Y : Bytes} {f : FileReader} (members : Archive)
    (name old : Bytes) (hs : Serves (memStore sha256) s stored) (rounds : ℕ) (hr : Reading stored f.rdr Y)
    (hY : Y.length < rounds) :
    exec (memStore sha256) (copyToMember rounds f) (members ++ [(name, old)]) s =
      (.ok (), members ++ [(name, old ++ Y)], s) := by
  induction rounds generalizing f Y old with
  | zero => omega
  | succ rounds ih =>
    obtain ⟨hend, hmore⟩ := read_spec 32768 hs hr
    by_cases hnil : Y = []
    · simp [copyToMember, exec_bind, exec_on, exec_attempt, FileReaders.exec_read, hend hnil, hnil, Except.map]
    · obtain ⟨r₁, out, hrun, hout⟩ := hmore hnil
      have hlen := hout.shorter (by decide) hnil
      obtain ⟨f₁, hread, rfl⟩ : ∃ f₁, exec (memStore sha256) (FileReaders.read 32768) f s = (.ok out, f₁, s) ∧
          f₁.rdr = r₁ := by
        rw [FileReaders.exec_read, hrun]
        exact ⟨_, rfl, rfl⟩
      have hrest := ih (old ++ out) hout.reading (by omega)
      rw [append_assoc, hout.append] at hrest
      simp [copyToMember, exec_bind, exec_on, exec_attempt, hread, Except.map, exec_writeMember, hrest]

variable {t : HTree} {mode : UInt32} {ents : List DirEnt} {e : DirEnt} {d : Bytes}

theorem exec_openFile (hinj : Set.InjOn sha256 {c | c ∈ s}) (hf : Folder (Stored sha256 s) t mode ents)
    (hnamed : Named ents) (he : e ∈ ents) (hfile : e.isDir = false) (hd : Tree (Stored sha256 s) e.htree d)
    (members : Archive) :
    ∃ f, exec (memStore sha256) (FileReaders.openFile room t.data e.entName) members s = (.ok f, members, s) ∧
      Reading (Stored sha256 s) f.rdr d := by
  have hname := hnamed.proper e he
  have helems : elems e.entName = [e.entName] := by
    have hjoin := elems_join_proper [] hname
    have hroot : rooted (slash :: e.entName) = rooted e.entName := by
      have hhead : e.entName.head? ≠ some slash := by
        obtain ⟨b, bs, hb⟩ := exists_cons_of_ne_nil hname.ne_nil
        have hslash := hname.noSlash
        rw [hb] at hslash ⊢
        simpa using (ne_of_not_mem_cons hslash).symm
      simp [rooted, hhead]
    rw [elems, ← hroot]
    exact hjoin
  have hfind : findEnt ents e.entName = some e := by
    obtain ⟨pre, post, rfl⟩ := append_of_mem he
    have hpre : ∀ a ∈ pre, a.entName ≠ e.entName := by
      intro a ha heq
      have hdistinct := hnamed.distinct
      rw [map_append, nodup_append] at hdistinct
      exact hdistinct.2.2 _ (mem_map_of_mem ha) _ mem_cons_self heq
    rw [findEnt, find?_append, find?_eq_none.mpr (by simpa using hpre)]
    simp
  have hwalk := exec_walk room members hinj hf (p := e.entName) (x := .ok e) (by
      rw [helems]
      exact .step (folder_eq_some (isDir_rootEnt mode t)) (hf.listing _ rfl) hfind (.here e))
  obtain ⟨rdr, hnew, hr, -⟩ := newReader_spec members (serves_self hinj) hd.holds hd.depth_lt
  refine ⟨⟨0, e.entSize, rdr⟩, ?_, hr⟩
  rw [FileReaders.openFile, exec_bind_ok _ hwalk]
  simp only [hfile, Bool.false_eq_true, if_false]
  rw [exec_bind_ok _ hnew]
  rfl

/-- A way to write files: it records the file as a member. -/
def Records (sha256 : Bytes → Hash) (s : List Bytes) (file : Hash → DirEnt → Bytes → StoreM Archive Unit) : Prop :=
  ∀ (t : HTree) (mode : UInt32) (ents : List DirEnt) (e : DirEnt) (d name : Bytes) (members : Archive),
    Folder (Stored sha256 s) t mode ents → Plain (Stored sha256 s) ents → e ∈ ents → e.isDir = false →
    Tree (Stored sha256 s) e.htree d →
    exec (memStore sha256) (file t.data e name) members s = (.ok (), members ++ [(name, d)], s)

theorem records_zipFile (hinj : Set.InjOn sha256 {c | c ∈ s}) : Records sha256 s (zipFile room) := by
  intro t mode ents e d name members hf hplain he hfile hd
  obtain ⟨f, hopen, hr⟩ := exec_openFile hinj hf hplain.named he hfile hd members
  have hcopy := exec_copyToMember members name [] (serves_self hinj) (2 ^ 64) hr hd.length_lt
  rw [zipFile, exec_bind_ok _ hopen, createMember, exec_bind_ok _ (exec_update _ _ _ _)]
  exact hcopy

theorem records_tarFile (hinj : Set.InjOn sha256 {c | c ∈ s}) : Records sha256 s (tarFile room) := by
  intro t mode ents e d name members hf hplain he hfile hd
  obtain ⟨f, hopen, hr⟩ := exec_openFile hinj hf hplain.named he hfile hd members
  have hcopy := exec_copyToMember members name [] (serves_self hinj) (2 ^ 64) hr hd.length_lt
  have hheader : tarFileInfoHeader e.entMode = .ok () := by
    simp [tarFileInfoHeader, (hplain.regular e he hfile).1]
  rw [tarFile, exec_bind_ok _ hopen, hheader, exec_bind_ok _ (exec_ofExcept _ _ _ _), createMember,
    exec_bind_ok _ (exec_update _ _ _ _), exec_bind_ok _ hcopy]
  rfl

/-- The members for files below the folder at the path. -/
def membersBelow (path : List Bytes) (files : List (List Bytes × Bytes)) : Archive :=
  files.map (fun x => (joinPath (path ++ x.1), x.2))

variable (sha256 s room) in
/-- From some depth on, every way to write files records the files as members. -/
def Writes (files : List (List Bytes × Bytes)) (hash : Hash) : Prop :=
  ∃ n, ∀ file, Records sha256 s file → ∀ depth, n ≤ depth → ∀ path members, (∀ a ∈ path, Proper a) →
    exec (memStore sha256) (writeArchive room file depth (joinPath path) hash) members s =
      (.ok (), members ++ membersBelow path files, s)

theorem exec_writeEnts (hinj : Set.InjOn sha256 {c | c ∈ s}) (hf : Folder (Stored sha256 s) t mode ents)
    (hplain : Plain (Stored sha256 s) ents) {rest : List DirEnt} (hrest : rest <:+ ents)
    (hsub : ∀ a ∈ ents, a.isDir = true → ∃ files, Lists files (FileAt (Stored sha256 s) a.htree.data) ∧
      Writes sha256 s room files a.htree.data) :
    ∃ files, Lists files (fun p d => ∃ a ∈ rest, ∃ q, p = a.entName :: q ∧ EntryFile (Stored sha256 s) a q d) ∧
      ∃ n, ∀ file, Records sha256 s file → ∀ depth, n ≤ depth → ∀ path members, (∀ a ∈ path, Proper a) →
        exec (memStore sha256)
          (writeEnts (file t.data) (writeArchive room file depth) (joinPath path) rest) members s =
          (.ok (), members ++ membersBelow path files, s) := by
  induction rest with
  | nil =>
    refine ⟨[], ⟨by simp, nodup_nil, by simp⟩, 0, ?_⟩
    intro file _ depth _ path members _
    simp [writeEnts, membersBelow]
  | cons a rest ih =>
    have ha : a ∈ ents := hrest.subset mem_cons_self
    have hname := hplain.named.proper a ha
    have hdistinct := (hrest.sublist.map DirEnt.entName).nodup hplain.named.distinct
    rw [map_cons, nodup_cons] at hdistinct
    obtain ⟨files, hlists, n, hwrites⟩ := ih ((suffix_cons a rest).trans hrest)
    have hjoin (path : List Bytes) (hpath : ∀ b ∈ path, Proper b) := pathJoin_eq hpath hname
    cases hdir : a.isDir with
    | true =>
      obtain ⟨fs, hfs, m, hm⟩ := hsub a ha hdir
      have hentry : Lists fs (EntryFile (Stored sha256 s) a) := by
        have hsame : EntryFile (Stored sha256 s) a = FileAt (Stored sha256 s) a.htree.data := by
          funext p d
          rw [EntryFile, if_pos hdir]
        rw [hsame]
        exact hfs
      refine ⟨_, hentry.cons hname hdistinct.1 hlists, max n m, ?_⟩
      intro file hfile depth hdepth path members hpath
      have hpath' : ∀ b ∈ path ++ [a.entName], Proper b := by
        intro b hb
        rcases mem_append.mp hb with hb | hb
        · exact hpath b hb
        · rw [mem_singleton.mp hb]
          exact hname
      rw [writeEnts, if_pos hdir, hjoin path hpath,
        exec_bind_ok _ (hm file hfile depth (le_of_max_le_right hdepth) _ members hpath'),
        hwrites file hfile depth (le_of_max_le_left hdepth) path _ hpath]
      simp [membersBelow, Function.comp_def]
    | false =>
      obtain ⟨-, d, hd⟩ := hplain.regular a ha hdir
      have hentry : Lists [([], d)] (EntryFile (Stored sha256 s) a) := by
        refine ⟨fun p d' => ?_, nodup_singleton _, by simp⟩
        rw [EntryFile, if_neg (by rw [hdir]; exact Bool.false_ne_true), mem_singleton, Prod.mk.injEq]
        refine and_congr_right fun _ => ⟨fun h => h ▸ hd, fun h => ?_⟩
        exact (tree_unique (functional_stored hinj) h hd rfl).2
      refine ⟨_, hentry.cons hname hdistinct.1 hlists, n, ?_⟩
      intro file hfile depth hdepth path members hpath
      rw [writeEnts, if_neg (by rw [hdir]; exact Bool.false_ne_true), hjoin path hpath,
        exec_bind_ok _ (hfile t mode ents a d _ members hf hplain ha hdir hd),
        hwrites file hfile depth hdepth path _ hpath]
      simp [membersBelow]

theorem writes_of_dirTree (hinj : Set.InjOn sha256 {c | c ∈ s}) {hash : Hash}
    (hdir : DirTree (Stored sha256 s) (Plain (Stored sha256 s)) hash) :
    ∃ files, Lists files (FileAt (Stored sha256 s) hash) ∧ Writes sha256 s room files hash := by
  induction hdir with
  | @intro t mode ents hf hplain _ ih =>
    obtain ⟨files, hlists, n, hwrites⟩ := exec_writeEnts hinj hf hplain suffix_rfl ih
    refine ⟨files, ⟨fun p d => ?_, hlists.nodup, hlists.proper⟩, n + 1, ?_⟩
    · rw [hlists.mem_iff]
      exact (fileAt_iff (functional_stored hinj) hf).symm
    · intro file hfile depth hdepth path members hpath
      obtain ⟨depth, rfl⟩ : ∃ k, depth = k + 1 := ⟨depth - 1, by omega⟩
      rw [writeArchive, exec_bind_ok _ (readDir_folder room members hinj hf)]
      exact hwrites file hfile depth (by omega) path members hpath

end Runs

theorem FileAt.ne_nil {stored : Hash → Bytes → Prop} {hash : Hash} {p : List Bytes} {d : Bytes}
    (h : FileAt stored hash p d) : p ≠ [] := by
  cases h with
  | here => exact cons_ne_nil _ _
  | deeper => exact cons_ne_nil _ _

/-- `Tar` and `Zip` record the same members, one for each file of the directory, with its path as the
name and its bytes as the contents. -/
theorem archives_complete (sha256 : Bytes → Hash) (room : ℕ → ℕ) (s : List Bytes) (dirHash : Hash)
    (hinj : Set.InjOn sha256 {c | c ∈ s}) (hdir : DirTree (Stored sha256 s) (Plain (Stored sha256 s)) dirHash) :
    ∃ files : List (List Bytes × Bytes), (∀ p d, (p, d) ∈ files ↔ FileAt (Stored sha256 s) dirHash p d) ∧
      ((files.map (fun x => (joinPath x.1, x.2))).map Prod.fst).Nodup ∧ ∃ n, ∀ depth, n ≤ depth →
        exec (memStore sha256) (tar room depth dirHash) [] s =
          (.ok (), files.map (fun x => (joinPath x.1, x.2)), s) ∧
        exec (memStore sha256) (zip room depth dirHash) [] s =
          (.ok (), files.map (fun x => (joinPath x.1, x.2)), s) := by
  have hfiles : ∃ files, Lists files (FileAt (Stored sha256 s) dirHash) ∧ Writes sha256 s room files dirHash :=
    writes_of_dirTree hinj hdir
  obtain ⟨files, hlists, n, hwrites⟩ := hfiles
  refine ⟨files, hlists.mem_iff, ?_, n, fun depth hdepth => ⟨?_, ?_⟩⟩
  · have hnames : (files.map (fun x => (joinPath x.1, x.2))).map Prod.fst = (files.map Prod.fst).map joinPath := by
      simp [Function.comp_def]
    rw [hnames]
    refine hlists.nodup.map_on ?_
    intro p hp q hq heq
    obtain ⟨x, hx, rfl⟩ := List.mem_map.mp hp
    obtain ⟨y, hy, rfl⟩ := List.mem_map.mp hq
    exact joinPath_inj (hlists.proper x hx) (hlists.proper y hy) ((hlists.mem_iff x.1 x.2).mp hx).ne_nil
      ((hlists.mem_iff y.1 y.2).mp hy).ne_nil heq
  · exact hwrites _ (records_tarFile hinj) depth hdepth [] [] (by simp)
  · exact hwrites _ (records_zipFile hinj) depth hdepth [] [] (by simp)

/-- A file of three bytes. -/
def noteEnt (name : Bytes) : DirEnt := ⟨name, 3, 0, 420, ⟨0, sumHash [0, 1, 2, 3]⟩⟩

def noteEnts : List DirEnt := [folderEnt (ascii "d") [noteEnt (ascii "a")], noteEnt (ascii "b")]

def noteStore : List Bytes := [dirChunk 0 noteEnts, dirChunk 0 [noteEnt (ascii "a")], [0, 1, 2, 3]]

theorem archives_complete_notes : ∃ members depth,
    (ascii "b", [1, 2, 3]) ∈ members ∧ (ascii "d/a", [1, 2, 3]) ∈ members ∧
    exec (memStore sumHash) (tar id depth (sumHash (dirChunk 0 noteEnts))) [] noteStore =
      (.ok (), members, noteStore) ∧
    exec (memStore sumHash) (zip id depth (sumHash (dirChunk 0 noteEnts))) [] noteStore =
      (.ok (), members, noteStore) := by
  have hfolder : Folder (Stored sumHash noteStore) ⟨0, sumHash (dirChunk 0 noteEnts)⟩ 0 noteEnts :=
    folder_dirChunk mem_cons_self (by decide +kernel)
  have hsub : Folder (Stored sumHash noteStore) (folderEnt (ascii "d") [noteEnt (ascii "a")]).htree 0
      [noteEnt (ascii "a")] :=
    folder_dirChunk (mem_cons_of_mem _ mem_cons_self) (by decide +kernel)
  have hnote : Tree (Stored sumHash noteStore) ⟨0, sumHash [0, 1, 2, 3]⟩ [1, 2, 3] :=
    ⟨⟨⟨mem_cons_of_mem _ (mem_cons_of_mem _ mem_cons_self), rfl⟩, by decide⟩, show 0 + 1 < nlevels by decide, by decide⟩
  have hplain {ents : List DirEnt} (hnamed : Named ents) (hfiles : ∀ e ∈ ents, e.isDir = false →
      isRegular e.entMode = true ∧ e.htree = ⟨0, sumHash [0, 1, 2, 3]⟩) : Plain (Stored sumHash noteStore) ents := by
    refine ⟨hnamed, fun e he hfile => ⟨(hfiles e he hfile).1, [1, 2, 3], ?_⟩⟩
    rw [(hfiles e he hfile).2]
    exact hnote
  have hdir : DirTree (Stored sumHash noteStore) (Plain (Stored sumHash noteStore)) (sumHash (dirChunk 0 noteEnts)) := by
    refine .intro hfolder (hplain ⟨by decide, by decide⟩ (by decide)) fun e he hdir => ?_
    rcases mem_pair.mp he with rfl | rfl
    · refine .intro hsub (hplain ⟨by decide, by decide⟩ (by decide)) fun e he hdir => ?_
      rw [mem_singleton.mp he] at hdir
      cases hdir
    · cases hdir
  obtain ⟨files, hmem, -, n, hruns⟩ := archives_complete sumHash id noteStore _ (injOn_of_list (by decide +kernel)) hdir
  have hfile := (hmem [ascii "b"] [1, 2, 3]).mpr (.here hfolder (mem_cons_of_mem _ mem_cons_self) rfl hnote)
  have hinner := (hmem [ascii "d", ascii "a"] [1, 2, 3]).mpr
    (.deeper hfolder mem_cons_self rfl (.here hsub mem_cons_self rfl hnote))
  exact ⟨_, n, mem_map.mpr ⟨_, hfile, rfl⟩, mem_map.mpr ⟨_, hinner, rfl⟩, hruns n le_rfl⟩

end Bpy.Archives
