import Bpy.NineServer
import Bpy.DirStreams

/-!
# The files of the `9p` command

Every attach makes a `fs9`, which reads the root of the drive again when it is older than 30
seconds. Files are made by `CreateFile` each time they are looked up or listed and do not change
afterwards, so a pointer to one is its value. The `fs9` and the handles change; they are numbered.
-/
namespace Bpy.NineFiles
open ByteWords InteractionPrograms ContentStore ByteSources ByteSlices HashTreeReader Directories FileTrees References
open HashTreeStreams NineMessages NineServer Method Function

def errReadOnly : GoError := .text "read only"

structure FileData where
  fs : ℕ
  path : Bytes
  qid : Qid
  stat : Stat
  ent : DirEnt

/-- `*file`. The field `parent` of the root is `nil`, and that of any other file is a file. -/
inductive File where
  | root (data : FileData)
  | child (parent : File) (data : FileData)

namespace File

def data : File → FileData
  | root data => data
  | child _ data => data

def parent : File → Option File
  | root _ => none
  | child parent _ => some parent

def qid (f : File) : Qid := f.data.qid

def ent (f : File) : DirEnt := f.data.ent

def stat (f : File) : Stat := f.data.stat

def path (f : File) : Bytes := f.data.path

end File

/-- The values of type `server9.File`. -/
inductive Node where
  | fs9 (i : ℕ)
  | file (f : File)

/-- `pathCounter` is a `uint64`; it is cut where it is used. -/
structure Fs9 where
  pathCounter : ℕ
  version : UInt32
  file : Option File
  lastUpdated : ℤ

/-- `&fs9{…}`. -/
def Fs9.new : Fs9 := ⟨0, 0, none, 0⟩

/-- How far a directory has been read. `stats` holds the children whose stats are left. -/
structure Cursor where
  offset : UInt64
  stats : List File

inductive Handle where
  | rootHandle (fs : ℕ) (cursor : Cursor)
  | dirHandle (file : File) (cursor : Cursor)
  | fileHandle (file : File) (rdr : Option Reader)

namespace Handle

def cursor : Handle → Cursor
  | rootHandle _ c => c
  | dirHandle _ c => c
  | fileHandle _ _ => ⟨0, []⟩

def setCursor (c : Cursor) : Handle → Handle
  | rootHandle i _ => rootHandle i c
  | dirHandle f _ => dirHandle f c
  | fileHandle f rdr => fileHandle f rdr

end Handle

/-- The objects of the program, and the state of what they use. -/
structure World (σ : Type) where
  fs : ℕ → Fs9
  attached : ℕ
  handles : ℕ → Handle
  opened : ℕ
  env : σ

/-- What the files use: the store, `remote.GetRoot` without the version, and the clock in
nanoseconds. There is no hash if the root is missing. -/
structure Drive (σ : Type) where
  store : Handler σ
  getRoot : SourceM σ (Option Hash)
  now : σ → ℤ × σ

abbrev NineM (σ α : Type) := SourceM (World σ) α

variable {σ α : Type} (D : Drive σ) (room : ℕ → ℕ)

section Env

def inStore (x : StoreM Unit α) : NineM σ α := fun w =>
  let r := Method.exec D.store x () w.env
  (r.1, { w with env := r.2.2 })

def getRoot : NineM σ (Option Hash) := fun w => ((D.getRoot w.env).1, { w with env := (D.getRoot w.env).2 })

def now : NineM σ ℤ := fun w => (.ok (D.now w.env).1, { w with env := (D.now w.env).2 })

/-- `if err != nil { return fmt.Errorf(msg, err) }`. -/
def errorf (msg : String) (x : NineM σ α) : NineM σ α := do
  match ← caught x with
  | .error e => throw (.format msg (Commands.errorText e))
  | .ok a => pure a

def getFs (i : ℕ) : NineM σ Fs9 := fun w => (.ok (w.fs i), w)

def setFs (i : ℕ) (fs : Fs9) : NineM σ Unit := fun w => (.ok (), { w with fs := Function.update w.fs i fs })

def getHandle (h : ℕ) : NineM σ Handle := fun w => (.ok (w.handles h), w)

def setHandle (h : ℕ) (handle : Handle) : NineM σ Unit := fun w =>
  (.ok (), { w with handles := Function.update w.handles h handle })

/-- The address of a new handle. -/
def makeHandle (handle : Handle) : NineM σ ℕ := fun w =>
  (.ok w.opened, { w with handles := Function.update w.handles w.opened handle, opened := w.opened + 1 })

end Env

section Fs9

/-- The file that `CreateFile` makes, after the counter has been advanced. -/
def newFile (i : ℕ) (fs : Fs9) (ent : DirEnt) (parent : Option File) (fspath : Bytes) : File :=
  let mode := ent.entMode &&& 0o777
  let qid : Qid := ⟨if ent.isDir then qtDir else qtFile, fs.version, UInt64.ofNat fs.pathCounter⟩
  let data : FileData := {
    fs := i
    path := fspath
    qid := qid
    stat := {
      type := 0
      dev := 0
      qid := qid
      mode := if ent.isDir then mode ||| dmDir else mode
      atime := 0
      mtime := 0
      length := ent.entSize.toUInt64
      name := ent.entName
      uid := ascii "nobody"
      gid := ascii "nobody"
      muid := ascii "nobody" }
    ent := ent }
  match parent with
  | none => .root data
  | some parent => .child parent data

def createFile (i : ℕ) (ent : DirEnt) (parent : Option File) (fspath : Bytes) : NineM σ File := do
  let fs ← getFs i
  let fs := { fs with pathCounter := fs.pathCounter + 1 }
  setFs i fs
  pure (newFile i fs ent parent fspath)

/-- Whether the root has been read in the last 30 seconds. -/
def isFresh (i : ℕ) : NineM σ Bool := do
  let fs ← getFs i
  match fs.file with
  | none => pure false
  | some _ => return decide ((← now D) - fs.lastUpdated < 30 * 1000000000)

/-- The part of `update` that looks up the root directory. -/
def fetchRoot : NineM σ Hash := do
  match ← errorf "error getting root: %s" (getRoot D) with
  | none => throw (.text "root missing\n")
  | some root => return (← errorf "error getting ref: %s" (inStore D (getRef room root))).root

/-- The part of `update` that reads a root directory with the hash `root`. -/
def readRoot (i : ℕ) (root : Hash) : NineM σ Unit := do
  match ← errorf "error reading root: %s" (inStore D (readDir room root)) with
  | [] => throw (.panic "index out of range")
  | dot :: _ =>
    let f ← createFile i dot none [slash]
    let t ← now D
    let fs ← getFs i
    setFs i { fs with file := some f, lastUpdated := t, version := fs.version + 1 }

def update (i : ℕ) : NineM σ Unit := do
  if ← isFresh D i then pure ()
  else
    let root ← fetchRoot D room
    if (← getFs i).file.any (fun f => decide (root = f.ent.htree.data)) then pure ()
    else readRoot D room i root

end Fs9

section File

/-- `path.Join` of a path with a slash in front and a name. -/
def joinName (dir name : Bytes) : Bytes := clean (dir ++ slash :: name)

/-- The loop of `getChildren`. -/
def createChildren (f : File) : List DirEnt → NineM σ (List File)
  | [] => pure []
  | ent :: ents => do
    let child ← createFile f.data.fs ent (some f) (joinName f.path ent.entName)
    let children ← createChildren f ents
    pure (child :: children)

def getChildren (f : File) : NineM σ (List File) := do
  if f.ent.isDir then
    match ← inStore D (readDir room f.ent.htree.data) with
    | [] => throw (.panic "slice bounds out of range")
    | _ :: ents => createChildren f ents
  else throw errNotDir

def childNamed (f : File) (name : Bytes) : NineM σ File := do
  if f.ent.isDir then
    match (← getChildren D room f).find? (fun child => child.ent.entName = name) with
    | some child => pure child
    | none => throw (.format "%s does not exist" (joinName f.path name))
  else throw (.format "%s is not a dir" f.path)

/-- The methods of `file`. -/
def fileOps : FileOps (World σ) File where
  parent f := pure f.parent
  child f name := some <$> childNamed D room f name
  qid f := pure f.qid

/-- The methods of `fs9` and of `file`. -/
def nodes : FileOps (World σ) Node where
  parent
    | .fs9 i => do
      update D room i
      pure none
    | .file f => Option.map .file <$> (fileOps D room).parent f
  child
    | .fs9 i, name => do
      update D room i
      return some (.file (← childNamed D room (← deref (← getFs i).file) name))
    | .file f, name => Option.map .file <$> (fileOps D room).child f name
  qid
    | .fs9 i => do
      update D room i
      return ⟨qtDir, (← getFs i).version, 0⟩
    | .file f => (fileOps D room).qid f

/-- The method `Stat` of `fs9`. -/
def statRoot (i : ℕ) : NineM σ Stat := do
  update D room i
  let f ← deref (← getFs i).file
  pure { f.stat with qid := f.qid }

def newHandle : Node → NineM σ (Option ℕ)
  | .fs9 i => do
    update D room i
    return some (← makeHandle (.rootHandle i ⟨0, []⟩))
  | .file f => do
    if f.ent.isDir then return some (← makeHandle (.dirHandle f ⟨0, []⟩))
    else return some (← makeHandle (.fileHandle f none))

end File

section Handle

/-- The file of a handle. That of a `rootHandle` is looked up again in each call. -/
def handleFile (h : ℕ) : NineM σ (Option File) := do
  match ← getHandle h with
  | .rootHandle i _ =>
    update D room i
    return (← getFs i).file
  | .dirHandle f _ => pure (some f)
  | .fileHandle f _ => pure (some f)

def twalk (h : ℕ) (names : List Bytes) : NineM σ (Option Node × List Qid) := do
  let f ← handleFile D room h
  walk (nodes D room) (f.map .file) names

def topen (h : ℕ) : NineM σ Qid := do
  match ← getHandle h with
  | .fileHandle f _ =>
    setHandle h (.fileHandle f none)
    let rdr ← inStore D (newReader f.ent.htree.data)
    setHandle h (.fileHandle f (some rdr))
    pure f.qid
  | _ =>
    let f ← deref (← handleFile D room h)
    pure f.qid

/-- The loop of `Tread` for a directory. The state is the buffer and the stats that are left. -/
def packStats (buf : Slice) : List File → UInt32 → SourceM (Memory × List File) UInt32
  | [], n => pure n
  | child :: children, n => do
    let statlen := UInt32.ofNat (statLen child.stat)
    if buf.len < (statlen + n).toNat then
      if n = 0 then throw errBuffTooSmall else pure n
    else
      onFirst (do packStat (← slice buf n.toNat (n + statlen).toNat) child.stat)
      modify (fun s => (s.1, children))
      packStats buf children (n + statlen)

/-- The part of `Tread` for a directory that fills the buffer. -/
def fillBuffer (h : ℕ) (nbytes : ℕ) : NineM σ ({buf : Bytes // buf.length = nbytes} × UInt32) := do
  let handle ← getHandle h
  let c := handle.cursor
  let (n, mem, stats) := packStats (Buffer.new nbytes).whole c.stats 0 ((Buffer.new nbytes).mem, c.stats)
  match n with
  | .error e =>
    setHandle h (handle.setCursor ⟨c.offset, stats⟩)
    throw e
  | .ok n =>
    setHandle h (handle.setCursor ⟨c.offset + n.toUInt64, stats⟩)
    pure (⟨mem.read 0 nbytes, Memory.length_read⟩, n)

/-- The part of `Tread` for a directory that looks up the children. -/
def loadStats (h : ℕ) (f : File) (offset : UInt64) : NineM σ Unit := do
  if offset = 0 then
    let children ← getChildren D room f
    let handle ← getHandle h
    setHandle h (handle.setCursor ⟨handle.cursor.offset, children⟩)

def treadDir (h : ℕ) (f : File) (offset : UInt64) (nbytes : ℕ) :
    NineM σ ({buf : Bytes // buf.length = nbytes} × UInt32) := do
  loadStats D room h f offset
  if offset ≠ (← getHandle h).cursor.offset then throw errBadRead
  else fillBuffer h nbytes

/-- `make([]byte, nbytes, nbytes)` with `out` copied to it. -/
def padded (nbytes : ℕ) (out : Bytes) : {buf : Bytes // buf.length = nbytes} :=
  ⟨(out ++ List.replicate nbytes 0).take nbytes, by simp⟩

/-- `f.rdr.Read(buf)`. -/
def readFile (h : ℕ) (f : File) (rdr : Reader) (nbytes : ℕ) : NineM σ (Except GoError Bytes) := fun w =>
  let r := Method.exec D.store (HashTreeReader.read nbytes) rdr w.env
  (.ok r.1, { w with handles := Function.update w.handles h (.fileHandle f (some r.2.1)), env := r.2.2 })

def treadFile (h : ℕ) (f : File) (rdr : Option Reader) (nbytes : ℕ) :
    NineM σ ({buf : Bytes // buf.length = nbytes} × UInt32) := do
  match rdr with
  | none => throw (.format "fid for '%s' is not open" f.path)
  | some rdr =>
    match ← readFile D h f rdr nbytes with
    | .ok out => pure (padded nbytes out, UInt32.ofNat out.length)
    | .error .eof => pure (padded nbytes [], 0)
    | .error e => throw e

def tread (h : ℕ) (offset : UInt64) (nbytes : ℕ) : NineM σ ({buf : Bytes // buf.length = nbytes} × UInt32) := do
  match ← getHandle h with
  | .fileHandle f rdr => treadFile D h f rdr nbytes
  | _ => treadDir D room h (← deref (← handleFile D room h)) offset nbytes

def tstat (h : ℕ) : NineM σ Stat := do
  match ← getHandle h with
  | .rootHandle i _ =>
    update D room i
    statRoot D room i
  | .dirHandle f _ => pure f.stat
  | .fileHandle f _ => pure f.stat

def clunk (h : ℕ) : NineM σ Unit := do
  match ← getHandle h with
  | .fileHandle f _ => setHandle h (.fileHandle f none)
  | _ => pure ()

end Handle

/-- Each attach makes a `fs9`. -/
def attach : NineM σ (Option Node) := fun w =>
  (.ok (some (.fs9 w.attached)), { w with fs := Function.update w.fs w.attached Fs9.new, attached := w.attached + 1 })

/-- The implementation that the command `9p` serves. -/
def files : Files (World σ) Node ℕ := { nodes D room with
  attach := fun _ => attach
  newHandle := newHandle D room
  getFile := fun h => return (← handleFile D room h).map .file
  getIounit := fun _ maxMessageSize => pure (maxMessageSize - writeOverhead)
  twalk := fun h msg => match msg with
    | .Twalk _ _ _ names => twalk D room h names
    | _ => throw (.panic "not a Twalk")
  topen := fun h _ => topen D room h
  tread := fun h msg nbytes => match msg with
    | .Tread _ _ offset _ => tread D room h offset nbytes
    | _ => throw (.panic "not a Tread")
  twrite := fun _ _ => throw errReadOnly
  tcreate := fun _ _ => throw errReadOnly
  twstat := fun _ _ => throw errReadOnly
  tremove := fun _ _ => throw errReadOnly
  tstat := fun h _ => tstat D room h
  clunk := clunk }

/-- The handles of the program walk from their files. -/
theorem walksFrom_files : WalksFrom (files D room) (fun h => Option.map .file <$> handleFile D room h) := by
  intro h tag fid newFid names
  rw [bind_map_left]
  rfl

section Directories

theorem decodeEnt_name {d rest : Bytes} {e : DirEnt} (h : decodeEnt d = .ok (e, rest)) : e.entName.length ≤ 65535 := by
  obtain ⟨htwo, h⟩ := DirStreams.cut_bind_ok h
  obtain ⟨hname, h⟩ := DirStreams.cut_bind_ok h
  obtain ⟨-, h⟩ := DirStreams.cut_bind_ok h
  obtain ⟨-, h⟩ := DirStreams.cut_bind_ok h
  obtain ⟨-, h⟩ := DirStreams.cut_bind_ok h
  dsimp only at h
  split at h
  · cases h
  · obtain ⟨-, h⟩ := DirStreams.cut_bind_ok h
    cases h
    have hbound := leNat_lt (d.take 2)
    rw [List.length_take, min_eq_left htwo] at hbound
    rw [List.length_take]
    exact (min_le_left _ _).trans (Nat.le_of_lt_succ hbound)

theorem decodeEnts_names {rounds : ℕ} {d : Bytes} {ents : List DirEnt} (h : decodeEnts rounds d = .ok ents) :
    ∀ e ∈ ents, e.entName.length ≤ 65535 := by
  induction rounds generalizing d ents with
  | zero => cases h
  | succ rounds ih =>
    rw [decodeEnts] at h
    split at h
    · cases h
      exact fun e he => absurd he (List.not_mem_nil)
    · cases hdecode : decodeEnt d with
      | error e =>
        rw [hdecode] at h
        cases h
      | ok record =>
        cases hrest : decodeEnts rounds record.2 with
        | error e =>
          simp only [hdecode, hrest, bind, Except.bind] at h
          cases h
        | ok rest =>
          simp only [hdecode, hrest, bind, Except.bind] at h
          cases h
          intro e he
          rcases List.mem_cons.mp he with rfl | he
          · exact decodeEnt_name hdecode
          · exact ih hrest e he

theorem exec_readDir_ok {hd : Handler σ} {hash : Hash} {ents : List DirEnt} {s s' : σ}
    (h : exec hd (readDir room hash) () s = (.ok ents, (), s')) :
    ∃ dot rest, ents = dot :: rest ∧ dot.htree.data = hash ∧ ∀ e ∈ rest, e.entName.length ≤ 65535 := by
  obtain ⟨⟨dirdata, rdr⟩, w₁, s₁, -, h⟩ := exec_bind_eq_ok _ h
  obtain ⟨dir, w₂, s₂, hdir, h⟩ := exec_bind_eq_ok _ h
  rw [exec_ofExcept] at hdir
  cases dir with
  | nil => cases h
  | cons dot rest =>
    cases h
    have hnames := decodeEnts_names (congrArg Prod.fst hdir)
    exact ⟨_, rest, rfl, rfl, fun e he => hnames e (List.mem_cons_of_mem dot he)⟩

end Directories

section Children

/-- The children of a directory, when `createChildren` starts with the counter of `fs`. -/
def childFiles (f : File) (fs : Fs9) : List DirEnt → List File
  | [] => []
  | ent :: ents =>
    let fs := { fs with pathCounter := fs.pathCounter + 1 }
    newFile f.data.fs fs ent (some f) (joinName f.path ent.entName) :: childFiles f fs ents

/-- The world after so many files have been made. -/
def World.advance (w : World σ) (i n : ℕ) : World σ :=
  { w with fs := Function.update w.fs i { w.fs i with pathCounter := (w.fs i).pathCounter + n } }

@[simp] theorem advance_fs_self (w : World σ) (i n : ℕ) :
    (w.advance i n).fs i = { w.fs i with pathCounter := (w.fs i).pathCounter + n } :=
  update_self _ _ _

theorem createFile_eq (i : ℕ) (ent : DirEnt) (parent : Option File) (fspath : Bytes) (w : World σ) :
    createFile i ent parent fspath w = (.ok (newFile i ((w.advance i 1).fs i) ent parent fspath), w.advance i 1) := by
  rw [advance_fs_self]
  rfl

theorem advance_advance (w : World σ) (i m n : ℕ) : (w.advance i m).advance i n = w.advance i (m + n) := by
  simp only [World.advance, update_self, update_idem, Nat.add_assoc]

theorem createChildren_eq (f : File) (ents : List DirEnt) (w : World σ) :
    createChildren f ents w = (.ok (childFiles f (w.fs f.data.fs) ents), w.advance f.data.fs ents.length) := by
  induction ents generalizing w with
  | nil => simp [createChildren, childFiles, World.advance]; rfl
  | cons ent ents ih =>
    rw [createChildren, bind_of_ok (createFile_eq _ _ _ _ _), bind_of_ok (ih _), advance_advance,
      Nat.add_comm 1 ents.length, List.length_cons, childFiles]
    simp only [World.advance, update_self]
    rfl

variable {D room} {f : File} {w w' : World σ}

variable {s' : σ} {ents : List DirEnt} {e : GoError} {name : Bytes}

theorem inStore_eq {x : StoreM Unit α} {r : Except GoError α}
    (h : exec D.store x () w.env = (r, (), s')) : inStore D x w = (r, { w with env := s' }) := by
  rw [inStore, h]

theorem getChildren_of_ok {dot : DirEnt} (hdir : f.ent.isDir = true)
    (h : exec D.store (readDir room f.ent.htree.data) () w.env = (.ok (dot :: ents), (), s')) :
    getChildren D room f w = (.ok (childFiles f (w.fs f.data.fs) ents),
      World.advance { w with env := s' } f.data.fs ents.length) := by
  rw [getChildren, if_pos hdir, bind_of_ok (inStore_eq h)]
  exact createChildren_eq f ents _

theorem getChildren_of_error (hdir : f.ent.isDir = true)
    (h : exec D.store (readDir room f.ent.htree.data) () w.env = (.error e, (), s')) :
    getChildren D room f w = (.error e, { w with env := s' }) := by
  rw [getChildren, if_pos hdir, bind_of_error (inStore_eq h)]

theorem getChildren_cases (D : Drive σ) (room : ℕ → ℕ) (f : File) (w : World σ) :
    (f.ent.isDir = false ∧ getChildren D room f w = (.error errNotDir, w)) ∨
    (f.ent.isDir = true ∧ ∃ e s', exec D.store (readDir room f.ent.htree.data) () w.env = (.error e, (), s') ∧
      getChildren D room f w = (.error e, { w with env := s' })) ∨
    (f.ent.isDir = true ∧ ∃ dot ents s', (∀ e ∈ ents, e.entName.length ≤ 65535) ∧
      exec D.store (readDir room f.ent.htree.data) () w.env = (.ok (dot :: ents), (), s') ∧
      getChildren D room f w = (.ok (childFiles f (w.fs f.data.fs) ents),
        World.advance { w with env := s' } f.data.fs ents.length)) := by
  cases hdir : f.ent.isDir with
  | false =>
    refine .inl ⟨rfl, ?_⟩
    rw [getChildren, hdir]
    rfl
  | true =>
    cases hread : exec D.store (readDir room f.ent.htree.data) () w.env with
    | mk r rest =>
      obtain ⟨⟨⟩, s'⟩ := rest
      cases r with
      | error e => exact .inr (.inl ⟨rfl, e, s', rfl, getChildren_of_error hdir hread⟩)
      | ok ents =>
        obtain ⟨dot, rest, rfl, -, hnames⟩ := exec_readDir_ok room hread
        exact .inr (.inr ⟨rfl, dot, rest, s', hnames, rfl, getChildren_of_ok hdir hread⟩)

theorem childNamed_eq_ok {g : File} (h : childNamed D room f name w = (.ok g, w')) :
    ∃ children, getChildren D room f w = (.ok children, w') ∧
      children.find? (fun child => child.ent.entName = name) = some g := by
  rw [childNamed] at h
  split at h
  · obtain ⟨children, w₁, hchildren, h⟩ := bind_eq_ok.mp h
    cases hfind : children.find? (fun child => child.ent.entName = name) with
    | none =>
      rw [hfind] at h
      cases h
    | some child =>
      rw [hfind] at h
      cases h
      exact ⟨children, hchildren, hfind⟩
  · cases h

theorem childNamed_eq_error (h : childNamed D room f name w = (.error e, w')) :
    e = .format "%s is not a dir" f.path ∨ e = .format "%s does not exist" (joinName f.path name) ∨
      getChildren D room f w = (.error e, w') := by
  rw [childNamed] at h
  split at h
  · cases hchildren : getChildren D room f w with
    | mk r w₁ =>
      cases r with
      | error e' =>
        rw [bind_of_error hchildren] at h
        cases h
        exact .inr (.inr rfl)
      | ok children =>
        rw [bind_of_ok hchildren] at h
        cases hfind : children.find? (fun child => child.ent.entName = name) with
        | none =>
          rw [hfind] at h
          cases h
          exact .inr (.inl rfl)
        | some child =>
          rw [hfind] at h
          cases h
  · cases h
    exact .inl rfl

theorem parent_newFile (i : ℕ) (fs : Fs9) (ent : DirEnt) (parent : Option File) (fspath : Bytes) :
    (newFile i fs ent parent fspath).parent = parent := by
  cases parent with
  | none => rfl
  | some parent => rfl

theorem parent_of_mem_childFiles {fs : Fs9} {c : File} (h : c ∈ childFiles f fs ents) : c.parent = some f := by
  induction ents generalizing fs with
  | nil => cases h
  | cons ent ents ih =>
    rcases List.mem_cons.mp h with rfl | h
    · exact parent_newFile _ _ _ _ _
    · exact ih h

theorem parent_of_childNamed {g : File} (h : childNamed D room f name w = (.ok g, w')) : g.parent = some f := by
  obtain ⟨children, hchildren, hfind⟩ := childNamed_eq_ok h
  rcases getChildren_cases D room f w with ⟨-, h⟩ | ⟨-, e, s', -, h⟩ | ⟨-, dot, ents, s', -, -, h⟩
  · cases h.symm.trans hchildren
  · cases h.symm.trans hchildren
  · cases h.symm.trans hchildren
    exact parent_of_mem_childFiles (List.mem_of_find?_eq_some hfind)

end Children

section Update

variable {D room} {β : Type} {x : NineM σ α} {f : α → NineM σ β}

variable {i : ℕ} {w : World σ}

/-- The `fs9` after a root directory has been read with `dot` as its first entry, at the time `t`. -/
def rereadFs (i : ℕ) (fs : Fs9) (dot : DirEnt) (t : ℤ) : Fs9 where
  pathCounter := fs.pathCounter + 1
  version := fs.version + 1
  file := some (newFile i { fs with pathCounter := fs.pathCounter + 1 } dot none [slash])
  lastUpdated := t

variable {root : Hash} {dot : DirEnt} {rest : List DirEnt}

theorem readRoot_of_ok {s₁ : σ}
    (h : errorf "error reading root: %s" (inStore D (readDir room root)) w = (.ok (dot :: rest), { w with env := s₁ })) :
    readRoot D room i root w =
      (.ok (), { w with fs := Function.update w.fs i (rereadFs i (w.fs i) dot (D.now s₁).1), env := (D.now s₁).2 }) := by
  rw [readRoot, bind_of_ok h]
  dsimp only
  rw [bind_of_ok (createFile_eq _ _ _ _ _)]
  have hnow (w : World σ) : now D w = (.ok (D.now w.env).1, { w with env := (D.now w.env).2 }) := rfl
  have hget (w : World σ) : getFs i w = (.ok (w.fs i), w) := rfl
  have hset (fs : Fs9) (w : World σ) : setFs i fs w = (.ok (), { w with fs := Function.update w.fs i fs }) := rfl
  rw [bind_of_ok (hnow _), bind_of_ok (hget _), hset]
  simp only [World.advance, update_self, update_idem]
  rfl

theorem update_first {s₁ s₂ : σ} (hfile : (w.fs i).file = none)
    (hfetch : fetchRoot D room w = (.ok root, { w with env := s₁ }))
    (hread : exec D.store (readDir room root) () s₁ = (.ok (dot :: rest), (), s₂)) :
    update D room i w =
      (.ok (), { w with fs := Function.update w.fs i (rereadFs i (w.fs i) dot (D.now s₂).1), env := (D.now s₂).2 }) := by
  have hfresh : isFresh D i w = (.ok false, w) := by
    have hget : getFs i w = (.ok (w.fs i), w) := rfl
    rw [isFresh, bind_of_ok hget, hfile]
    rfl
  have hget : getFs i { w with env := s₁ } = (.ok (w.fs i), { w with env := s₁ }) := rfl
  have hstore : errorf "error reading root: %s" (inStore D (readDir room root)) { w with env := s₁ } =
      (.ok (dot :: rest), { w with env := s₂ }) := by
    rw [errorf, bind_of_ok (caught_of_ok (inStore_eq hread))]
    rfl
  rw [update, bind_of_ok hfresh, if_neg Bool.false_ne_true, bind_of_ok hfetch, bind_of_ok hget, hfile,
    Option.any_none, if_neg Bool.false_ne_true]
  exact readRoot_of_ok hstore

theorem update_of_fresh {f : File} (hfile : (w.fs i).file = some f)
    (hnow : (D.now w.env).1 - (w.fs i).lastUpdated < 30 * 1000000000) :
    update D room i w = (.ok (), { w with env := (D.now w.env).2 }) := by
  have hfresh : isFresh D i w = (.ok true, { w with env := (D.now w.env).2 }) := by
    have hget : getFs i w = (.ok (w.fs i), w) := rfl
    have hclock : now D w = (.ok (D.now w.env).1, { w with env := (D.now w.env).2 }) := rfl
    rw [isFresh, bind_of_ok hget, hfile]
    dsimp only
    rw [bind_of_ok hclock, decide_eq_true hnow]
    rfl
  rw [update, bind_of_ok hfresh]
  rfl

end Update

section Small

def refHash : Hash := Hash.copy [1]

def dirHash : Hash := Hash.copy [2]

def fileHash : Hash := Hash.copy [3]

def smallDot : DirEnt := ⟨ascii ".", 0, 0, modeDir ||| 0o755, ⟨0, dirHash⟩⟩

def smallEnt : DirEnt := ⟨ascii "f", 2, 0, 0o644, ⟨0, fileHash⟩⟩

def smallRef : Ref := ⟨0, dirHash, false, Hash.zero⟩

def smallChunk (hash : Hash) : Option Bytes :=
  if hash = refHash then some (0 :: smallRef.encode)
  else if hash = dirHash then some (0 :: encodeEnts [smallDot, smallEnt])
  else if hash = fileHash then some (0 :: ascii "ab")
  else none

def smallDrive : Drive Unit where
  store
    | .put _, s => (.error (.text "read only store"), s)
    | .get hash, s => ((smallChunk hash).elim (.error (.text "chunk not found")) .ok, s)
  getRoot := pure (some refHash)
  now s := (0, s)

theorem serves_small : Serves smallDrive.store () (fun hash c => smallChunk hash = some c) := by
  intro hash c h
  simp only [smallDrive, h, Option.elim]

theorem tree_small (hash : Hash) (d : Bytes) (h : smallChunk hash = some (0 :: d))
    (hlen : d.length < HashTreeWriter.maxlen) :
    Tree (fun hash c => smallChunk hash = some c) ⟨0, hash⟩ d where
  holds := ⟨h, hlen⟩
  depth_lt := show 0 + 1 < HashTreeWriter.nlevels by decide
  length_lt := hlen.trans (by decide)

theorem unit_pair {x : α × Unit × Unit} {a : α} (h : x.1 = a) : x = (a, (), ()) := by
  cases h
  rfl

theorem small_readDir : exec smallDrive.store (readDir id dirHash) () () = (.ok [smallDot, smallEnt], (), ()) := by
  have hchunk : smallChunk dirHash = some (0 :: encodeEnts [smallDot, smallEnt]) := by
    rw [smallChunk, if_neg (by decide), if_pos rfl]
  have htree := tree_small _ _ hchunk (by decide)
  have hencodable : ∀ e ∈ [smallDot, smallEnt], e.Encodable := by
    intro e he
    rcases List.mem_pair.mp he with rfl | rfl
    · exact ⟨by decide, by decide⟩
    · exact ⟨by decide, by decide⟩
  have hexec := @DirStreams.exec_readDir Unit smallDrive.store () _ id ⟨0, dirHash⟩ _ serves_small htree
  rw [decodeEnts_encodeEnts hencodable _ (Nat.lt_succ_of_le (length_le_encodeEnts _))] at hexec
  exact unit_pair hexec

theorem small_getRef : exec smallDrive.store (getRef id refHash) () () = (.ok smallRef, (), ()) := by
  have hchunk : smallChunk refHash = some (0 :: smallRef.encode) := if_pos rfl
  obtain ⟨rdr, hread, -⟩ := readTree_spec id () serves_small (tree_small _ _ hchunk (by decide))
  rw [getRef, exec_bind_ok _ (exec_catchError_ok hread)]
  exact congrArg (·, (), ()) (Ref.decode_encode smallRef)

theorem small_fetchRoot (w : World Unit) : fetchRoot smallDrive id w = (.ok dirHash, w) := by
  have hroot : errorf "error getting root: %s" (getRoot smallDrive) w = (.ok (some refHash), w) := rfl
  have href : errorf "error getting ref: %s" (inStore smallDrive (getRef id refHash)) w = (.ok smallRef, w) := by
    rw [errorf, bind_of_ok (caught_of_ok (inStore_eq small_getRef))]
    rfl
  rw [fetchRoot, bind_of_ok hroot]
  dsimp only
  rw [bind_of_ok href]
  rfl

theorem small_update_first {i : ℕ} {w : World Unit} (hfile : (w.fs i).file = none) :
    update smallDrive id i w = (.ok (), { w with fs := Function.update w.fs i (rereadFs i (w.fs i) smallDot 0) }) :=
  update_first hfile (small_fetchRoot w) small_readDir

/-- The first `fs9`, when the root has been read. -/
def smallFs : Fs9 := rereadFs 0 Fs9.new smallDot 0

theorem small_update {i : ℕ} {w : World Unit} (hfs : w.fs i = smallFs) : update smallDrive id i w = (.ok (), w) := by
  have hfile : (w.fs i).file = smallFs.file := by rw [hfs]
  have hnow : (smallDrive.now w.env).1 - (w.fs i).lastUpdated < 30 * 1000000000 := by
    rw [hfs]
    exact (by decide : (0 : ℤ) - 0 < 30 * 1000000000)
  exact update_of_fresh hfile hnow

def smallWorld : World Unit := ⟨fun _ => Fs9.new, 0, fun _ => .rootHandle 0 ⟨0, []⟩, 0, ()⟩

def attachedServer : Server ℕ :=
  { (startServe (newServer 8192) : Server ℕ) with fids := Function.update (fun _ => none) 0 (some (some 0)) }

def attachedWorld : World Unit :=
  ⟨Function.update (fun _ => Fs9.new) 0 smallFs, 1, fun _ => .rootHandle 0 ⟨0, []⟩, 1, ()⟩

theorem small_attach :
    dispatch (files smallDrive id) (.Tattach 1 0 noFid [] []) (startServe (newServer 8192), smallWorld) =
      (.ok (.Rattach 1 ⟨qtDir, 1, 0⟩), (attachedServer, attachedWorld)) := by
  let w₁ : World Unit := { smallWorld with fs := Function.update smallWorld.fs 0 Fs9.new, attached := 1 }
  have hattach : (files smallDrive id).attach [] smallWorld = (.ok (some (.fs9 0)), w₁) := rfl
  have hread : update smallDrive id 0 w₁ = (.ok (), { w₁ with fs := Function.update w₁.fs 0 smallFs }) :=
    small_update_first rfl
  have hnew : (do (files smallDrive id).newHandle (← deref (some (Node.fs9 0)))) w₁ = (.ok (some 0), attachedWorld) := by
    rw [bind_of_ok (deref_some _)]
    have hfs : Function.update w₁.fs 0 smallFs = attachedWorld.fs := update_idem _ _ _
    have hhandles : Function.update smallWorld.handles 0 (.rootHandle 0 ⟨0, []⟩) = attachedWorld.handles :=
      update_eq_self _ _
    refine (bind_of_ok hread).trans ?_
    change (Except.ok (some 0), World.mk (Function.update w₁.fs 0 smallFs) 1
      (Function.update smallWorld.handles 0 (.rootHandle 0 ⟨0, []⟩)) 1 ()) = _
    rw [hfs, hhandles]
    rfl
  have hqid : (do (files smallDrive id).qid (← deref (some (Node.fs9 0)))) attachedWorld =
      (.ok ⟨qtDir, 1, 0⟩, attachedWorld) := by
    rw [bind_of_ok (deref_some _)]
    have hfs : attachedWorld.fs 0 = smallFs := by simp [attachedWorld]
    exact (bind_of_ok (small_update hfs)).trans rfl
  have hadd : addFid 0 (some 0) ((startServe (newServer 8192) : Server ℕ), attachedWorld) =
      (.ok (), (attachedServer, attachedWorld)) := addFid_of_free _ _ (by decide) rfl
  rw [dispatch, handleAttach, if_neg (not_not.mpr rfl), orReply_of_ok (call_eq hattach), orReply_of_ok (call_eq hnew),
    orReply_of_ok hadd, orReply_of_ok (call_eq hqid)]
  rfl

/-- The root and the file of the small drive, as the first walk from the root makes them. -/
def smallRoot : File := newFile 0 { Fs9.new with pathCounter := 1 } smallDot none [slash]

def smallFile : File := newFile 0 { smallFs with pathCounter := 2 } smallEnt (some smallRoot) (joinName [slash] (ascii "f"))

theorem small_handleFile {w : World Unit} {h : ℕ} {c : Cursor} (hfs : w.fs 0 = smallFs)
    (hhandle : w.handles h = .rootHandle 0 c) : handleFile smallDrive id h w = (.ok (some smallRoot), w) := by
  have hget : getHandle h w = (.ok (.rootHandle 0 c), w) := by rw [getHandle, hhandle]
  have hfile : getFs 0 w = (.ok smallFs, w) := by rw [getFs, hfs]
  rw [handleFile, bind_of_ok hget]
  dsimp only
  rw [bind_of_ok (small_update hfs), bind_of_ok hfile]
  rfl

theorem small_children (w : World Unit) :
    getChildren smallDrive id smallRoot w = (.ok (childFiles smallRoot (w.fs 0) [smallEnt]), w.advance 0 1) := by
  have hdir : smallRoot.ent.isDir = true := by decide
  have hread : exec smallDrive.store (readDir id smallRoot.ent.htree.data) () w.env =
    (.ok (smallDot :: [smallEnt]), (), ()) := small_readDir
  rw [getChildren_of_ok hdir hread]
  rfl

theorem attachedWorld_fs : attachedWorld.fs 0 = smallFs := by
  simp [attachedWorld]

theorem attachedWorld_file : handleFile smallDrive id 0 attachedWorld = (.ok (some smallRoot), attachedWorld) :=
  small_handleFile attachedWorld_fs (rfl : attachedWorld.handles 0 = .rootHandle 0 ⟨0, []⟩)

theorem attachedWorld_child : childNamed smallDrive id smallRoot (ascii "f") attachedWorld =
    (.ok smallFile, attachedWorld.advance 0 1) := by
  rw [childNamed, if_pos (by decide), bind_of_ok (small_children attachedWorld), attachedWorld_fs]
  rfl

end Small

end Bpy.NineFiles
