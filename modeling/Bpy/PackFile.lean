import Bpy.ByteSources
import Bpy.CryptFile

/-!
# `bpack`

A pack is the values of its entries one after the other, an index that gives for each
key the place of its value, and the offset of the index. It is stored as an encrypted
file.
-/
namespace Bpy.PackFile
open ByteWords InteractionPrograms ContentStore ByteSources CounterMode CryptFile

structure IndexEnt where
  key : Bytes
  size : ℕ
  offset : ℕ
  deriving DecidableEq

abbrev Index := List IndexEnt

/-- The loop of `Index.Search` between `lo` and `hi`. The range shrinks in every round. -/
def searchLoop (idx : Index) (key : Bytes) : ℕ → ℤ → ℤ → Option IndexEnt
  | 0, _, _ => none
  | rounds + 1, lo, hi =>
    if hi < lo then none
    else
      let mid := (hi + lo) / 2
      match idx[mid.toNat]? with
      | none => none
      | some e =>
        if key = e.key then some e
        else if key < e.key then searchLoop idx key rounds lo (mid - 1)
        else searchLoop idx key rounds (mid + 1) hi

/-- The entry that `Index.Search` finds. -/
def search (idx : Index) (key : Bytes) : Option IndexEnt :=
  searchLoop idx key (idx.length + 1) 0 (idx.length - 1)

/-- `sort.Sort(idx)`. -/
def sortIndex (idx : Index) : Index := idx.mergeSort (fun a b => decide (a.key ≤ b.key))

def keys (idx : Index) : List Bytes := idx.map IndexEnt.key

@[simp] theorem mem_keys_sortIndex {idx : Index} {key : Bytes} :
    key ∈ keys (sortIndex idx) ↔ key ∈ keys idx := by simp [keys, sortIndex]

/-- The bytes that `WriteIndex` writes for a sorted index. -/
def encodeIndex (idx : Index) : Bytes :=
  leBytes 8 idx.length ++ idx.flatMap (fun e =>
    leBytes 3 e.key.length ++ e.key ++ leBytes 3 e.size ++ leBytes 8 e.offset)

section ReadIndex

variable {ρ : Type} (read : ReadFn ρ)

def readIndexEnts : ℕ → SourceM (BufReader ρ) Index
  | 0 => pure []
  | n + 1 => do
    let key ← readSlice (bufRead read)
    let size ← readUint24 (bufRead read)
    let offset ← readUint64 (bufRead read)
    let idx ← readIndexEnts n
    pure (⟨key, size, offset⟩ :: idx)

/-- `ReadIndex(r)`. -/
def readIndex (r : ρ) : Except GoError Index :=
  ((do let n ← readUint64 (bufRead read); readIndexEnts read n : SourceM (BufReader ρ) Index) ⟨r, []⟩).1

end ReadIndex

/-- `bpack.Reader` over an encrypted file. `size` is the length of the decrypted data. Every
use of the file seeks first, so the position that earlier reads left behind is not kept. -/
structure PackReader (B : Block) where
  r : CryptFile.Reader
  size : ℤ
  opened : Opened B r

variable (B : Block)

def newEncryptedReader (file : Bytes) (fsize : ℤ) : Except GoError (PackReader B) :=
  match h : newReader B file fsize with
  | .error e => .error e
  | .ok cryptof =>
    match cryptof.dataSize B with
    | .error e => .error e
    | .ok dataLen => .ok ⟨cryptof, dataLen, newReader_opened h⟩

def cryptRead : ReadFn CryptFile.Reader := fun r n => r.read B n

variable {B}

/-- `GetAt`. The error of `Seek` is dropped, but this `Seek` has none. -/
def PackReader.getAt (p : PackReader B) (offset sz : ℕ) : Except GoError Bytes :=
  (readFull (cryptRead B) sz (p.r.seek (int64 offset)).2).1

/-- `Reader.ReadIndex`. -/
def PackReader.readIndex (p : PackReader B) : Except GoError Index :=
  match readUint64 (cryptRead B) (p.r.seek (p.size - 8)).2 with
  | (.error e, _) => .error e
  | (.ok offset, r) => PackFile.readIndex (cryptRead B) (r.seek (int64 offset)).2

section Read

variable {ρ : Type}

/-- `bpack.Reader`. -/
structure Reader (ρ : Type) where
  r : ρ
  size : ℕ
  idx : Index

def newReader (r : ρ) (size : ℕ) : Reader ρ := ⟨r, size, []⟩

variable (f : Handle ρ)

/-- `Reader.GetAt`. The error of `Seek` is dropped. -/
def Reader.getAt (offset sz : ℕ) : SourceM (Reader ρ) Bytes := fun p =>
  let x := readFull f.read sz (f.seek p.r (int64 offset)).2
  (x.1, { p with r := x.2 })

def notFound : GoError := .text "Not Found"

def Reader.get (key : Bytes) : SourceM (Reader ρ) Bytes := fun p =>
  match search p.idx key with
  | none => (.error notFound, p)
  | some e => p.getAt f e.offset e.size

/-- `Reader.ReadIndex`. The position behind the index and the entries in front of an error
are not kept. -/
def Reader.readIndex : SourceM (Reader ρ) Unit := fun p =>
  match f.seek p.r (int64 p.size - 8) with
  | (.error e, r) => (.error e, { p with r := r })
  | (.ok (), r) =>
    match readUint64 f.read r with
    | (.error e, r) => (.error e, { p with r := r })
    | (.ok offset, r) =>
      match f.seek r (int64 offset) with
      | (.error e, r) => (.error e, { p with r := r })
      | (.ok (), r) =>
        match PackFile.readIndex f.read r with
        | .error e => (.error e, { p with r := r })
        | .ok idx => (.ok (), { p with r := r, idx := idx })

end Read

section Write

variable {Q : Type} {R : Q → Type} {ω : Type}

def maxPackEntrySize : ℕ := 16777215

/-- `bpack.Writer`. Its set of keys is the set of keys of its index. -/
structure PackWriter where
  name : Bytes
  index : Index
  offset : ℕ

/-- `bpack.Writer.Add`, with `write` for the write to the file of the pack. -/
def PackWriter.add (p : PackWriter) (write : Bytes → Method Q R GoError ω Unit) (key val : Bytes) :
    Method Q R GoError ω PackWriter :=
  if key ∈ keys p.index then pure p
  else if val.length > maxPackEntrySize then Method.raise (.text "value too large for bpack")
  else do
    write val
    pure { p with
      index := p.index ++ [⟨key, val.length, p.offset⟩]
      offset := p.offset + val.length }

section Close

variable (write : Bytes → Method Q R GoError ω Unit)

def writeUInt64 (v : ℕ) : Method Q R GoError ω Unit := write (leBytes 8 v)

def writeUInt24 (v : ℕ) : Method Q R GoError ω Unit := write (leBytes 3 v)

def writeSlice (v : Bytes) : Method Q R GoError ω Unit :=
  if v.length > maxPackEntrySize then Method.raise (.text "value too large for bpack")
  else do
    writeUInt24 write v.length
    write v

def writeIndexEnts : Index → Method Q R GoError ω Unit
  | [] => pure ()
  | e :: idx => do
    writeSlice write e.key
    writeUInt24 write e.size
    writeUInt64 write e.offset
    writeIndexEnts idx

/-- `WriteIndex` sorts its argument in place and returns no value; the value here is the
sorted index. -/
def writeIndex (idx : Index) : Method Q R GoError ω Index := do
  let idx := sortIndex idx
  writeUInt64 write idx.length
  writeIndexEnts write idx
  pure idx

/-- `bpack.Writer.Close`, with `closeFile` for the close of the file of the pack. -/
def PackWriter.close (closeFile : Method Q R GoError ω Unit) (p : PackWriter) :
    Method Q R GoError ω Index := do
  let idx ← writeIndex write p.index
  writeUInt64 write p.offset
  closeFile
  pure idx

def PackWriter.addAll (p : PackWriter) : List (Bytes × Bytes) → Method Q R GoError ω PackWriter
  | [] => pure p
  | (key, val) :: ops => do
    let p ← p.add write key val
    p.addAll ops

end Close

end Write

end Bpy.PackFile
