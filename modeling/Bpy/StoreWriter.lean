import Bpy.ProgramLogic
import Bpy.StoreReader

/-!
# `cstore.Writer`

The writer collects chunks in an open pack, which is visible to others only after it
has been closed. A chunk that is in the working set or in the index of the reader is not
stored again. Every request below may fail; deflating is a parameter.
-/
namespace Bpy.StoreWriter
open ByteWords InteractionPrograms ContentStore PackFile StoreReader Method

inductive Request where
  | randomName
  | newPack (name : Bytes)
  /-- `bpack.NewEncryptedWriter` -/
  | initPack (name : Bytes)
  | cancelPack (name : Bytes)
  /-- the value of an entry, through the encrypted and buffered file of the pack -/
  | writePack (name val : Bytes)
  /-- the writes of the index and `TClosePack` -/
  | closePack (name : Bytes) (idx : Index)
  | cacheIndex (name : Bytes) (idx : Index)
  /-- `readAndCacheMetaIndex` -/
  | loadIndex
  /-- `getPackReader`, `GetAt` and inflating -/
  | readChunk (info : PackInfo) (ent : IndexEnt)
  | closeReader

abbrev Request.Response : Request → Type
  | .randomName => Except GoError Bytes
  | .loadIndex => Except GoError MetaIndex
  | .readChunk _ _ => Except GoError Bytes
  | _ => Except GoError Unit

/-- `rdr` is the index of the reader; it is lost when `Flush` cannot open a new one. -/
structure Writer where
  pack : Option PackWriter
  workingSet : List (Hash × Bytes)
  workingSetSz : ℕ
  rdr : Option MetaIndex

abbrev WriterM (α : Type) := Method Request Request.Response GoError Writer α

variable (sha256 : Bytes → Hash) (deflate : Bytes → Bytes)

def newWriter {ω : Type} : Method Request Request.Response GoError ω Writer := do
  let midx ← send .loadIndex id
  pure ⟨none, [], 0, some midx⟩

/-- The index of the open pack is sorted in place by the attempt to close it. -/
def flushWorkingSet : WriterM Unit := do
  let w ← self
  match w.pack with
  | none => pure ()
  | some p =>
    let p := { p with index := sortIndex p.index }
    update (fun w => { w with pack := some p })
    send (.closePack p.name p.index) id
    send (.cacheIndex p.name p.index) id
    update (fun w => { w with pack := none, workingSetSz := 0, workingSet := [] })

def nilReader {α : Type} : WriterM α :=
  raise (.panic "invalid memory address or nil pointer dereference")

/-- `Reader.Has`. -/
def has (hash : Hash) : WriterM Bool := do
  let w ← self
  match w.rdr with
  | none => nilReader
  | some midx =>
    let found ← ofExcept (searchMetaIndex midx hash)
    pure found.isSome

/-- The pack that `Put` adds to, created if there is none. -/
def openPack : WriterM PackWriter := do
  let w ← self
  match w.pack with
  | some p => pure p
  | none =>
    let name ← send .randomName id
    let name := name ++ ascii ".ebpack"
    send (.newPack name) id
    match ← attempt (send (.initPack name) id) with
    | .error e =>
      let _ ← attempt (send (.cancelPack name) id)
      raise e
    | .ok () =>
      update (fun w => { w with pack := some ⟨name, [], 0⟩ })
      pure ⟨name, [], 0⟩

/-- `w.pack.Add`. -/
def add (p : PackWriter) (key val : Bytes) : WriterM Unit := do
  let p ← p.add (fun val => send (.writePack p.name val) id) key val
  update (fun w => { w with pack := some p })

def put (data : Bytes) : WriterM Hash := do
  let w ← self
  let h := sha256 data
  if (w.workingSet.lookup h).isSome then
    pure h
  else if ← has h then
    pure h
  else
    let p ← openPack
    let compressed := deflate data
    add p h.bytes compressed
    update (fun w => { w with
      workingSetSz := w.workingSetSz + compressed.length
      workingSet := (h, data) :: w.workingSet })
    let w ← self
    if w.workingSetSz > 1024 * 1024 * 128 then
      flushWorkingSet
      pure h
    else
      pure h

/-- `Writer.Get`, with `Reader.Get` for a hash that is not in the working set. -/
def get (hash : Hash) : WriterM Bytes := do
  let w ← self
  match w.workingSet.lookup hash, w.rdr with
  | some val, _ => pure val
  | none, none => nilReader
  | none, some midx =>
    match ← ofExcept (searchMetaIndex midx hash) with
    | some found => send (.readChunk found.1 found.2) id
    | none =>
      let midx ← send .loadIndex id
      update (fun w => { w with rdr := some midx })
      match ← ofExcept (searchMetaIndex midx hash) with
      | some found => send (.readChunk found.1 found.2) id
      | none => raise (.text "hash not in cstore")

/-- An error of `flushWorkingSet` is dropped: the source returns `nil` for it. -/
def flush : WriterM Unit := do
  match ← attempt flushWorkingSet with
  | .error _ => pure ()
  | .ok () =>
    send .closeReader id
    match ← attempt (send .loadIndex id) with
    | .error e =>
      update (fun w => { w with rdr := none })
      raise e
    | .ok midx => update (fun w => { w with rdr := some midx })

/-- As in `Flush`, an error of `flushWorkingSet` is dropped. -/
def close : WriterM Unit := do
  match ← attempt flushWorkingSet with
  | .error _ => pure ()
  | .ok () => send .closeReader id

end Bpy.StoreWriter
