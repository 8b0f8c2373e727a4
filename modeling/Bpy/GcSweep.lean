import Bpy.StoreReader

/-!
# The sweep phase of `gc`

Reachable values are moved from the listed packs to new packs, and a pack is removed
once its values are in closed packs. A large pack that has only reachable values which
are nowhere else stays. Sorting by offset leaves entries with equal offsets in any order,
so the sorted index is a parameter.
-/
namespace Bpy.GcSweep
open ByteWords InteractionPrograms ContentStore PackFile StoreReader Method

inductive SweepRequest where
  | listPacks
  /-- `Open`, `NewEncryptedReader` and `ReadIndex` -/
  | readIndex (pack : PackListing)
  /-- `packReader.GetAt` -/
  | readAt (name : Bytes) (offset size : ℕ)
  | getRaw (hash : Hash)
  | putRaw (hash : Hash) (val : Bytes)
  | randomFileName
  | newPack (name : Bytes)
  /-- `bpack.NewEncryptedWriter` -/
  | initPack (name : Bytes)
  | writePack (name val : Bytes)
  /-- the writes of the index and `TClosePack` -/
  | closePack (name : Bytes) (idx : Index)
  | remove (name epoch : Bytes)
  deriving DecidableEq

abbrev SweepRequest.Response : SweepRequest → Type
  | .listPacks => Except GoError (List PackListing)
  | .readIndex _ => Except GoError Index
  | .readAt _ _ _ => Except GoError Bytes
  | .getRaw _ => Except GoError (Option Bytes)
  | .randomFileName => Except GoError Bytes
  | _ => Except GoError Unit

/-- The sweeping state of `gcState`. The paths of packs are `packs/` and their names. -/
structure GcState where
  newPackSize : ℕ
  newPack : Option PackWriter
  moved : List Hash
  canDelete : List Bytes

def GcState.start : GcState := ⟨0, none, [], []⟩

abbrev SweepM (α : Type) := Method SweepRequest SweepRequest.Response GoError GcState α

def mib : ℕ := 1024 * 1024

/-- `copy(hash[:], idxEnt.Key)`. -/
def entHash (e : IndexEnt) : Hash := Hash.copy e.key

section

variable (epoch : Bytes)

def removeAll : List Bytes → SweepM Unit
  | [] => pure ()
  | toDelete :: rest => do
    send (.remove toDelete epoch) id
    removeAll rest

def closeNewPack : SweepM Unit := do
  let gc ← self
  match gc.newPack with
  | none => pure ()
  | some p => send (.closePack p.name (sortIndex p.index)) id

def closeCurrentWriterAndDeleteOldPacks : SweepM Unit := do
  closeNewPack
  update (fun gc => { gc with newPack := none, newPackSize := 0 })
  let gc ← self
  removeAll epoch gc.canDelete
  update (fun gc => { gc with canDelete := [] })

/-- The pack that `putValue` adds to, created if there is none. -/
def openNewPack : SweepM PackWriter := do
  let gc ← self
  match gc.newPack with
  | some p => pure p
  | none =>
    let name ← send .randomFileName id
    let name := name ++ ascii ".ebpack"
    send (.newPack name) id
    send (.initPack name) id
    update (fun gc => { gc with newPack := some ⟨name, [], 0⟩ })
    pure ⟨name, [], 0⟩

/-- `putValue` for a hash that has not been moved, after the rotation. -/
def addValue (hash : Hash) (val : Bytes) : SweepM Unit := do
  let p ← openNewPack
  let p' ← p.add (fun val => send (.writePack p.name val) id) hash.bytes val
  update (fun gc => { gc with
    newPack := some p'
    newPackSize := gc.newPackSize + 32 + val.length
    moved := hash :: gc.moved })

def putValue (hash : Hash) (val : Bytes) : SweepM Unit := do
  let gc ← self
  if hash ∈ gc.moved then
    pure ()
  else if gc.newPackSize + val.length + 32 > 128 * mib then
    closeCurrentWriterAndDeleteOldPacks epoch
    addValue hash val
  else
    addValue hash val

variable (visited : List Hash) (cache : Bool)

/-- The entry is reachable and has not been moved. -/
def toMove (moved : List Hash) (e : IndexEnt) : Bool :=
  decide (entHash e ∈ visited) && !decide (entHash e ∈ moved)

def cacheGet (hash : Hash) : SweepM (Option Bytes) :=
  if cache then send (.getRaw hash) id else pure none

def cachePut (hash : Hash) (val : Bytes) : SweepM Unit :=
  if cache then send (.putRaw hash val) id else pure ()

/-- The values of a run, from the bytes that were read for it. -/
def moveRun : Index → Bytes → SweepM Unit
  | [], _ => pure ()
  | e :: run, runData =>
    if runData.length < e.size then raise (.panic "slice bounds out of range")
    else do
      putValue epoch (entHash e) (runData.take e.size)
      cachePut cache (entHash e) (runData.take e.size)
      moveRun run (runData.drop e.size)

def runSize (run : Index) : ℕ := (run.map IndexEnt.size).sum % 2 ^ 32

/-- The loop of `sweepPack` over the rest of the index. The entry behind a run is skipped
by the step of the loop. -/
def sweepEnts (name : Bytes) : ℕ → Index → SweepM Unit
  | 0, _ => pure ()
  | _ + 1, [] => pure ()
  | rounds + 1, e :: idx => do
    let gc ← self
    if toMove visited gc.moved e then
      match ← cacheGet cache (entHash e) with
      | some val =>
        putValue epoch (entHash e) val
        sweepEnts name rounds idx
      | none =>
        let run := (e :: idx).takeWhile (toMove visited gc.moved)
        let runData ← send (.readAt name e.offset (runSize run)) id
        moveRun epoch cache run runData
        sweepEnts name rounds (((e :: idx).dropWhile (toMove visited gc.moved)).drop 1)
    else
      sweepEnts name rounds idx

def sweepPack (byOffset : Index → Index) (pack : PackListing) : SweepM Unit := do
  let idx ← send (.readIndex pack) id
  let idx := byOffset idx
  let gc ← self
  -- a full pack with reachable values only and without duplicates
  if pack.size > 100 * mib ∧ ∀ e ∈ idx, toMove visited gc.moved e = true then
    update (fun gc => { gc with moved := (idx.map entHash).reverse ++ gc.moved })
  else
    sweepEnts epoch visited cache pack.name idx.length idx
    update (fun gc => { gc with canDelete := gc.canDelete ++ [pack.name] })

def sweepPacks (byOffset : Index → Index) : List PackListing → SweepM Unit
  | [] => pure ()
  | pack :: packs => do
    sweepPack epoch visited cache byOffset pack
    sweepPacks byOffset packs

def sweep (byOffset : Index → Index) : SweepM Unit := do
  let packs ← send .listPacks id
  sweepPacks epoch visited cache byOffset packs
  closeCurrentWriterAndDeleteOldPacks epoch

end

end Bpy.GcSweep
