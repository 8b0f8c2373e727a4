import Bpy.FileTrees
import Bpy.GcMark
import Bpy.GcSweep

/-!
# The commands that change a drive

`put`, `mv`, `cp`, `rm`, `mkdir`, `revert` and `gc` after their arguments have been
parsed. A command talks to the server, to a content store that it opens, to the host's
file system and to the clock. `common.Die` ends a command. A loop of the source that
repeats until its swap succeeds runs for a number of rounds here.
-/
namespace Bpy.Commands
open ByteWords InteractionPrograms ContentStore References FileTrees Method
open GcMark GcSweep PackFile

/-- The part of a command that calls the store. -/
inductive Site where
  | getRef
  | tree
  | putRef
  /-- the deferred call of `PutRef` -/
  | deferred
  | mark
  deriving DecidableEq

inductive CmdRequest where
  | getEpoch
  /-- `remote.GetRoot`, with the check of the signature -/
  | getRoot
  | casRoot (hash : Hash) (version epoch : Bytes)
  | startGC
  | stopGC
  /-- `common.GetCStore` -/
  | openStore
  | store (site : Site) (q : StoreRequest)
  | flushStore
  | closeStore
  /-- `common.GetCacheClient` -/
  | openCache
  | sweep (q : SweepRequest)
  | readHost (path : Bytes)
  /-- `time.Now().Unix()` -/
  | now
  /-- `when.Parse`, as a unix time and as a text -/
  | parseWhen (arg : Bytes)

/-- The root is missing if the answer to `getRoot` has no hash. -/
abbrev CmdRequest.Response : CmdRequest → Type
  | .getEpoch => Except GoError Bytes
  | .getRoot => Except GoError (Option Hash × Bytes)
  | .casRoot _ _ _ => Except GoError Bool
  | .startGC => Except GoError Bytes
  | .store _ q => q.Response
  | .sweep q => q.Response
  | .readHost _ => Except GoError HostNode
  | .now => Int64
  | .parseWhen _ => Except GoError (Int64 × Bytes)
  | _ => Except GoError Unit

abbrev CmdM (ω α : Type) := Method CmdRequest CmdRequest.Response GoError ω α

variable {ω α : Type}

def inStore (site : Site) (x : StoreM ω α) : CmdM ω α :=
  fun w => (x w).relabel (.store site) (fun _ r => r)

def inSweep (x : SweepM α) : CmdM GcState α :=
  fun gc => (x gc).relabel .sweep (fun _ r => r)

section Errors

def sprintf (arg : Bytes) : List Char → Bytes
  | '%' :: 's' :: rest => arg ++ sprintf arg rest
  | c :: rest => UInt8.ofNat c.toNat :: sprintf arg rest
  | [] => []

/-- `err.Error()`. -/
def errorText : GoError → Bytes
  | .eof => ascii "EOF"
  | .unexpectedEOF => ascii "unexpected EOF"
  | .text msg => ascii msg
  | .format msg arg => sprintf arg msg.toList
  | .panic msg => ascii msg

/-- `if err != nil { common.Die(msg, err.Error()) }`. -/
def orDie (msg : String) (x : CmdM ω α) : CmdM ω α := do
  match ← catchError x with
  | .error e => raise (.format msg (errorText e))
  | .ok a => pure a

end Errors

def hexDigit (n : UInt8) : UInt8 := if n < 10 then n + 48 else n + 87

def hexEncode (data : Bytes) : Bytes := data.flatMap (fun b => [hexDigit (b / 16), hexDigit (b % 16)])

variable (sha256 : Bytes → Hash) (room : ℕ → ℕ)

def nextRootVersion (value : Bytes) : Bytes := hexEncode (sha256 value).bytes

section Parts

def getEpoch : CmdM ω Bytes := orDie "error getting current epoch: %s\n" (send .getEpoch id)

def getCStore : CmdM ω Unit := orDie "error getting content store: %s\n" (send .openStore id)

def getRoot : CmdM ω (Hash × Bytes) := do
  let (rootHash, rootVersion) ← orDie "error fetching root hash: %s\n" (send .getRoot id)
  match rootHash with
  | none => raise (.text "root missing\n")
  | some rootHash => pure (rootHash, rootVersion)

def fetchRef (hash : Hash) : CmdM ω Ref :=
  orDie "error fetching ref: %s\n" (inStore .getRef (getRef room hash))

def now : CmdM ω Int64 := send .now .ok

/-- `refs.PutRef`. -/
def storeRef (ref : Ref) : CmdM ω Hash := do
  let (r, w) ← inStore .putRef (startRef ref)
  inStore .deferred (deferredClose w)
  ofExcept r

/-- `PutRef` where the next assignment to `err` hides its error. The hash is the zero hash
then. -/
def storeRefUnchecked (ref : Ref) : CmdM ω Hash := do
  match ← catchError (storeRef ref) with
  | .error _ => pure Hash.zero
  | .ok hash => pure hash

def casRoot (msg : String) (newRefHash : Hash) (rootVersion epoch : Bytes) : CmdM ω Bool :=
  orDie msg (send (.casRoot newRefHash (nextRootVersion sha256 rootVersion) epoch) id)

def closeStore (msg : String) : CmdM ω Unit := orDie msg (send .closeStore id)

/-- `for { … if ok { break } }`. -/
def retry (once : CmdM ω Bool) : ℕ → CmdM ω Unit
  | 0 => raise (.panic "out of rounds")
  | rounds + 1 => do
    if ← once then pure () else retry once rounds

/-- What `mkdir` and `revert` do when the root has been modified. -/
def orModified (ok : Bool) : CmdM ω Unit :=
  if ok then pure () else raise (.text "root concurrently modified, try again\n")

end Parts

section Bodies

def putOnce (srcPath destPath epoch : Bytes) : CmdM ω Bool := do
  getCStore
  let (rootHash, rootVersion) ← getRoot
  let ref ← fetchRef room rootHash
  let src ← orDie "error copying data: %s\n" (send (.readHost srcPath) id)
  let srcDirEnt ← orDie "error copying data: %s\n" (inStore .tree (cpHostToFs src))
  let newRootEnt ← orDie "error inserting src into folder: %s\n"
    (inStore .tree (insert room ref.root destPath srcDirEnt))
  let createdAt ← now
  let newRefHash ← storeRefUnchecked ⟨createdAt, newRootEnt.htree.data, true, rootHash⟩
  closeStore "error closing remote: %s\n"
  casRoot sha256 "error swapping root: %s\n" newRefHash rootVersion epoch

def put (srcPath destPath : Bytes) (rounds : ℕ) : CmdM ω Unit := do
  let epoch ← getEpoch
  retry (putOnce sha256 room srcPath destPath epoch) rounds

def mvOnce (srcPath destPath epoch : Bytes) : CmdM ω Bool := do
  getCStore
  let (rootHash, rootVersion) ← getRoot
  let ref ← fetchRef room rootHash
  let newRoot ← orDie "error moving folder: %s\n"
    (inStore .tree (move room ref.root destPath srcPath))
  let createdAt ← now
  let newRefHash ← orDie "error creating new ref: %s\n"
    (storeRef ⟨createdAt, newRoot.htree.data, true, rootHash⟩)
  closeStore "error closing remote: %s\n"
  casRoot sha256 "creating ref: %s\n" newRefHash rootVersion epoch

def mv (srcPath destPath : Bytes) (rounds : ℕ) : CmdM ω Unit := do
  let epoch ← getEpoch
  retry (mvOnce sha256 room srcPath destPath epoch) rounds

/-- The ref that `-when` selects. `history` bounds the number of refs that are read. -/
def refAtWhen (whenArg : Bytes) (history : ℕ) (ref : Ref) : CmdM ω Ref :=
  if whenArg = [] then pure ref
  else do
    let (refTime, refTimeText) ← orDie "error parsing 'when' arg: %s\n" (send (.parseWhen whenArg) id)
    let refPast ← orDie "error looking at ref history: %s\n"
      (inStore .getRef (getAtTime room refTime history ref))
    match refPast with
    | none => raise (.format "ref did not exist at %s\n" refTimeText)
    | some refPast => pure refPast

def cpOnce (whenArg : Bytes) (history : ℕ) (srcPath destPath epoch : Bytes) : CmdM ω Bool := do
  getCStore
  let (rootHash, rootVersion) ← getRoot
  let ref ← fetchRef room rootHash
  let ref ← refAtWhen room whenArg history ref
  let newRoot ← orDie "error copying src to dest: %s\n"
    (inStore .tree (copy room ref.root destPath srcPath))
  let createdAt ← now
  let newRefHash ← orDie "error creating new ref: %s\n"
    (storeRef ⟨createdAt, newRoot.htree.data, true, rootHash⟩)
  closeStore "error closing remote: %s\n"
  casRoot sha256 "error swapping root: %s\n" newRefHash rootVersion epoch

def cp (whenArg : Bytes) (history : ℕ) (srcPath destPath : Bytes) (rounds : ℕ) : CmdM ω Unit := do
  let epoch ← getEpoch
  retry (cpOnce sha256 room whenArg history srcPath destPath epoch) rounds

def removePaths : List Bytes → Hash → CmdM ω Hash
  | [], newRoot => pure newRoot
  | toRemove :: rest, newRoot => do
    let newRootEnt ← orDie "error removing file: %s\n" (inStore .tree (remove room newRoot toRemove))
    removePaths rest newRootEnt.htree.data

def rmOnce (paths : List Bytes) (epoch : Bytes) : CmdM ω Bool := do
  let (rootHash, rootVersion) ← getRoot
  let ref ← fetchRef room rootHash
  let newRoot ← removePaths room paths ref.root
  let createdAt ← now
  let newRefHash ← storeRefUnchecked ⟨createdAt, newRoot, true, rootHash⟩
  closeStore "error closing store: %s\n"
  casRoot sha256 "error swapping root: %s\n" newRefHash rootVersion epoch

/-- The store is opened once. It is used again after it has been closed if the swap fails. -/
def rm (paths : List Bytes) (rounds : ℕ) : CmdM ω Unit := do
  let epoch ← getEpoch
  getCStore
  retry (rmOnce sha256 room paths epoch) rounds

def mkdir (destPath : Bytes) : CmdM ω Unit := do
  let epoch ← getEpoch
  getCStore
  let (rootHash, rootVersion) ← getRoot
  let ref ← fetchRef room rootHash
  let emptyDirEnt ← orDie "error copying data: %s\n" (inStore .tree (emptyDir 0o755))
  let newRootEnt ← orDie "error inserting empty dir into folder: %s\n"
    (inStore .tree (insert room ref.root destPath emptyDirEnt))
  let createdAt ← now
  let newRefHash ← storeRefUnchecked ⟨createdAt, newRootEnt.htree.data, true, rootHash⟩
  closeStore "error closing remote: %s\n"
  let ok ← casRoot sha256 "swapping root: %s\n" newRefHash rootVersion epoch
  orModified ok

def revert (revertToHash : Hash) : CmdM ω Unit := do
  let epoch ← getEpoch
  getCStore
  let (rootHash, rootVersion) ← getRoot
  let revertToRef ← fetchRef room revertToHash
  let createdAt ← now
  let newRefHash ← orDie "error writing updated ref: %s\n"
    (storeRef { revertToRef with prev := rootHash, hasPrev := true, createdAt := createdAt })
  closeStore "error closing content store: %s\n"
  let ok ← casRoot sha256 "error swapping root: %s\n" newRefHash rootVersion epoch
  orModified ok

end Bodies

section Collect

variable (byOffset : Index → Index)

/-- The part of `gc` that drops the history of the drive. -/
def clearHistory : CmdM ω Unit := do
  let epoch ← getEpoch
  let (rootHash, rootVersion) ← getRoot
  let ref ← fetchRef room rootHash
  let newRefHash ← orDie "error writing updated ref: %s\n" (storeRef { ref with hasPrev := false })
  orDie "error flushing content store: %s\n" (send .flushStore id)
  let ok ← casRoot sha256 "error swapping root: %s\n" newRefHash rootVersion epoch
  orModified ok

/-- `gc.GC`. `depth` bounds the depth of the calls of the mark phase. -/
def collect (depth : ℕ) : CmdM ω Unit := do
  let epoch ← send .startGC id
  let (hash, _) ← send .getRoot id
  match hash with
  | none => raise (.text "root missing")
  | some hash =>
    let (_, visited) ← on [] (inStore .mark (markRef room depth hash))
    send .closeStore id
    let _ ← on GcState.start (inSweep (sweep epoch visited true byOffset))
    send .stopGC id

/-- The store is opened before the epoch is read. -/
def gc (cancel keepHistory : Bool) (depth : ℕ) : CmdM ω Unit := do
  getCStore
  orDie "error stopping gc: %s\n" (send .stopGC id)
  if cancel then
    pure ()
  else
    if keepHistory then pure () else clearHistory sha256 room
    orDie "error getting cache connection: %s\n" (send .openCache id)
    orDie "error running gc: %s\n" (collect room byOffset depth)

end Collect

end Bpy.Commands
