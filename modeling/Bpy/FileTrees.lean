import Bpy.Directories

/-!
# Operations on file trees

`fs.Walk`, `Insert`, `Remove`, `Copy` and `Move`, and `fsutil.CpHostToFs`. Each of them
returns the directory that it wrote last. A directory is changed by writing a new one,
and with it new directories up to the root.
-/
namespace Bpy.FileTrees
open ByteWords InteractionPrograms ContentStore HashTreeWriter Directories Method

section Paths

def slash : UInt8 := 47

/-- `strings.Split(p, "/")`. -/
def splitPath (p : Bytes) : List Bytes := p.splitOn slash

def joinPath (elems : List Bytes) : Bytes := [slash].intercalate elems

def rooted (p : Bytes) : Bytes := if p.head? = some slash then p else slash :: p

def cleanStep (out : List Bytes) (elem : Bytes) : List Bytes :=
  if elem = [] ∨ elem = ascii "." then out
  else if elem = ascii ".." then out.dropLast
  else out ++ [elem]

/-- `path.Clean` of a path with a slash in front. -/
def clean (p : Bytes) : Bytes := slash :: joinPath ((splitPath p).foldl cleanStep [])

/-- `path.Base` of a path with a slash in front and none at the end. -/
def base (p : Bytes) : Bytes := (splitPath p).getLastD []

/-- `path.Dir` of a path with a slash in front. -/
def dir (p : Bytes) : Bytes := clean (joinPath (splitPath p).dropLast ++ [slash])

def trimLast (elems : List Bytes) : List Bytes :=
  if elems.getLast? = some [] then elems.dropLast else elems

example : trimLast (splitPath (clean (ascii "/a/./b/../c/"))).tail = [ascii "a", ascii "c"] := by decide

end Paths

section Trees

variable {ω : Type} (room : ℕ → ℕ)

def findEnt (ents : List DirEnt) (name : Bytes) : Option DirEnt :=
  ents.find? (fun e => e.entName = name)

/-- The loop of `Walk` over the rest of the path. -/
def walkElems (result : DirEnt) : Hash → List Bytes → StoreM ω DirEnt
  | _, [] => pure result
  | hash, elem :: elems => do
    let entname := if elem = [] then ascii "." else elem
    let ents ← readDir room hash
    match findEnt ents entname with
    | none => raise (.format "no such directory: %s" entname)
    | some e =>
      if elems = [] then pure e
      else if e.isDir then walkElems result e.htree.data elems
      else raise (.format "not a directory: %s" e.entName)

def walk (hash : Hash) (fpath : Bytes) : StoreM ω DirEnt := do
  let ents ← readDir room hash
  match ents with
  | [] => goPanic "index out of range"
  | dot :: _ => walkElems room dot hash (trimLast (splitPath (clean (rooted fpath))))

/-- `destEnts[i].HTree = tree` for the first entry with the name. -/
def setTree (name : Bytes) (tree : HTree) : List DirEnt → List DirEnt
  | [] => []
  | e :: ents => if e.entName = name then { e with htree := tree } :: ents else e :: setTree name tree ents

/-- What `insert` and `remove` do in a directory on the way: change the folder `elem` by
`change`, and write the directory with it. -/
def changeFolder (change : Hash → StoreM ω DirEnt) (elem : Bytes) (ents : List DirEnt) :
    StoreM ω DirEnt :=
  match findEnt ents elem, ents with
  | some e, dot :: _ =>
    if e.isDir then do
      let newEnt ← change e.htree.data
      writeDir (setTree elem newEnt.htree ents).tail dot.entMode
    else raise (.format "%s is not a directory" e.entName)
  | _, _ => raise (.format "no folder or file '%s'" elem)

/-- `insert`. The place of the entry `.` is used for the new entry. -/
def insertAt (ent : DirEnt) : List Bytes → Hash → StoreM ω DirEnt
  | [], dest => do
    let destEnts ← readDir room dest
    match destEnts with
    | [] => goPanic "index out of range"
    | dot :: ents => writeDir (ent :: ents) dot.entMode
  | elem :: destPath, dest => do
    let destEnts ← readDir room dest
    changeFolder (insertAt ent destPath) elem destEnts

def insert (dest : Hash) (destPath : Bytes) (ent : DirEnt) : StoreM ω DirEnt :=
  let destPath := rooted destPath
  if destPath.getLast? = some slash then
    insertAt room ent (trimLast (splitPath (clean destPath)).tail) dest
  else
    insertAt room { ent with entName := base destPath }
      (trimLast (splitPath (clean (dir destPath))).tail) dest

/-- The new directory of `remove`, without the entry `name`. The capacity of the new list
is negative for a directory that is empty. -/
def removeEnt (name : Bytes) : List DirEnt → StoreM ω DirEnt
  | [] => goPanic "index out of range"
  | dot :: ents =>
    if ents = [] then goPanic "makeslice: cap out of range"
    else
      let newDir := ents.filter (fun e => e.entName ≠ name)
      if newDir.length > ents.length - 1 then raise (.format "no file called '%s'" name)
      else writeDir newDir dot.entMode

/-- `remove`, with `filePath` split into its first element and the rest. -/
def removeAt : Bytes → List Bytes → Hash → StoreM ω DirEnt
  | elem, [], root => do
    let dirEnts ← readDir room root
    removeEnt elem dirEnts
  | elem, next :: filePath, root => do
    let dirEnts ← readDir room root
    changeFolder (removeAt next filePath) elem dirEnts

def remove (root : Hash) (filePath : Bytes) : StoreM ω DirEnt :=
  let filePath := clean (rooted filePath)
  if filePath = [slash] then raise (.text "cannot remove root directory")
  else
    match trimLast (splitPath filePath).tail with
    | [] => goPanic "index out of range"
    | elem :: rest => removeAt room elem rest root

def copy (root : Hash) (destPath srcPath : Bytes) : StoreM ω DirEnt := do
  let srcEnt ← walk room root srcPath
  insert room root destPath srcEnt

def move (root : Hash) (destPath srcPath : Bytes) : StoreM ω DirEnt := do
  let copyRoot ← copy room root destPath srcPath
  remove room copyRoot.htree.data srcPath

def emptyDir (mode : UInt32) : StoreM ω DirEnt := writeDir [] mode

end Trees

section Host

structure HostInfo where
  name : Bytes
  size : Int64
  mode : UInt32

/-- `os.ModeType`. -/
def modeType : UInt32 := 0x8F000000

def isRegular (mode : UInt32) : Bool := mode &&& modeType = 0

def isDirMode (mode : UInt32) : Bool := mode &&& modeDir ≠ 0

/-- What reading a file returns, read by read, and the error that ends it unless the end of
the file is reached. -/
structure HostFile where
  reads : List Bytes
  err : Option GoError
  small : reads.flatten.length < 2 ^ 63

mutual

/-- What is found on the host. A folder also has the mode that `os.Stat` returns when it is
entered. -/
inductive HostNode where
  | file (info : HostInfo) (content : HostFile)
  | folder (info : HostInfo) (mode : UInt32) (ents : HostEnts)
  /-- a file or folder that cannot be opened -/
  | denied (info : HostInfo) (e : GoError)

inductive HostEnts where
  | nil
  | cons (ent : HostNode) (ents : HostEnts)

end

def HostNode.info : HostNode → HostInfo
  | .file info _ => info
  | .folder info _ _ => info
  | .denied info _ => info

variable {ω : Type}

/-- `io.Copy` into a new tree, and `Close`. -/
def copyToTree (content : HostFile) : WriterM HTree := do
  writeAll content.reads
  match content.err with
  | some e => raise e
  | none => close

def hostFileToHashTree : HostNode → StoreM ω HTree
  | .file _ content => do
    let (tree, _) ← on newWriter (copyToTree content)
    pure tree
  | .folder _ _ _ => raise (.text "is a directory")
  | .denied _ e => raise e

mutual

def cpHostDirToFs : HostNode → StoreM ω DirEnt
  | .folder info mode ents => do
    let dir ← cpHostEnts ents
    let dirEnt ← writeDir dir mode
    pure { dirEnt with entName := info.name }
  | .file _ _ => raise (.text "not a directory")
  | .denied _ e => raise e

/-- The loop of `cpHostDirToFs`. What is neither a file nor a folder is left out. -/
def cpHostEnts : HostEnts → StoreM ω (List DirEnt)
  | .nil => pure []
  | .cons e ents =>
    if isRegular e.info.mode then do
      let hash ← hostFileToHashTree e
      let dir ← cpHostEnts ents
      pure (⟨e.info.name, e.info.size, 0, e.info.mode, hash⟩ :: dir)
    else if isDirMode e.info.mode then do
      let newEnt ← cpHostDirToFs e
      let dir ← cpHostEnts ents
      pure (⟨e.info.name, 0, 0, e.info.mode, newEnt.htree⟩ :: dir)
    else cpHostEnts ents

end

def cpHostToFs (src : HostNode) : StoreM ω DirEnt :=
  if isDirMode src.info.mode then cpHostDirToFs src
  else do
    let hash ← hostFileToHashTree src
    pure ⟨src.info.name, src.info.size, 0, src.info.mode, hash⟩

end Host

end Bpy.FileTrees
