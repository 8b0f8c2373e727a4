import Bpy.HashTreeWriter

/-!
# `htree.Reader`

The buffers of the reader are arrays that keep the bytes of earlier, longer chunks, so
a level is a zero-extended list and `length` says how much of it is valid. `pos` is an
`int` that `Seek` can move by any signed amount.
-/
namespace Bpy.HashTreeReader
open ByteWords InteractionPrograms ContentStore HashTreeWriter Method

structure Reader where
  root : Hash
  height : ℕ
  lvls : ℕ → Bytes
  pos : ℕ → ℤ
  length : ℕ → ℕ
  offset : ℕ

namespace Reader

/-- `&Reader{root: root, store: store}`. -/
def ofRoot (root : Hash) : Reader := ⟨root, 0, fun _ => [], fun _ => 0, fun _ => 0, 0⟩

/-- `copy(r.lvls[lvl][:], buf)` with `length` and `pos` set for the new chunk. -/
def load (r : Reader) (lvl : ℕ) (buf : Bytes) : Reader :=
  { r with
    lvls := Function.update r.lvls lvl (overwrite (r.lvls lvl) (buf.take maxlen))
    pos := Function.update r.pos lvl 1
    length := Function.update r.length lvl buf.length }

def setPos (r : Reader) (lvl : ℕ) (pos : ℤ) : Reader :=
  { r with pos := Function.update r.pos lvl pos }

/-- `r.pos[lvl] += 40`. -/
def skipEntry (r : Reader) (lvl : ℕ) : Reader := r.setPos lvl (r.pos lvl + 40)

/-- `r.pos[0] += n` and `r.offset += uint64(n)`. -/
def advance (r : Reader) (n : ℕ) : Reader :=
  { r.setPos 0 (r.pos 0 + n) with offset := (r.offset + n) % 2 ^ 64 }

/-- `NewReader` and `Seek` start from the root chunk in the same way. -/
def loadRoot (r : Reader) : Bytes → Except GoError Reader
  | [] => .error (.panic "index out of range")
  | b :: bs =>
    if b.toNat < nlevels then
      .ok (Reader.load { r with height := b.toNat } b.toNat (b :: bs))
    else
      .error (.panic "index out of range")

/-- `binary.LittleEndian.Uint64(r.lvls[lvl][pos:])`. -/
def uint64At (r : Reader) (lvl : ℕ) (pos : ℤ) : Except GoError ℕ :=
  if 0 ≤ pos ∧ pos + 8 ≤ maxlen then
    .ok (leNat (window (r.lvls lvl) pos.toNat 8))
  else
    .error (.panic "slice bounds out of range")

/-- `copy(hash[:], r.lvls[lvl][pos:maxlen])` into a zeroed hash. -/
def hashAt (r : Reader) (lvl : ℕ) (pos : ℤ) : Except GoError Hash :=
  if 0 ≤ pos ∧ pos ≤ maxlen then
    .ok (Hash.copy (window (r.lvls lvl) pos.toNat (min 32 (maxlen - pos.toNat))))
  else
    .error (.panic "slice bounds out of range")

/-- The value of `nextoff` in `Seek`. -/
def nextoff (r : Reader) (absoff lvl : ℕ) : Except GoError ℕ :=
  if r.pos lvl < r.length lvl then r.uint64At lvl (r.pos lvl) else .ok ((absoff + 1) % 2 ^ 64)

/-- `r.lvls[0][r.pos[0]:r.length[0]]`. -/
def src (r : Reader) : Except GoError Bytes :=
  if 0 ≤ r.pos 0 ∧ r.pos 0 ≤ r.length 0 ∧ r.length 0 ≤ maxlen then
    .ok (window (r.lvls 0) (r.pos 0).toNat (r.length 0 - (r.pos 0).toNat))
  else
    .error (.panic "slice bounds out of range")

end Reader

abbrev ReaderM (α : Type) := StoreM Reader α

def newReader {ω : Type} (root : Hash) : StoreM ω Reader := do
  let buf ← get root
  ofExcept ((Reader.ofRoot root).loadRoot buf)

def getHeight (r : Reader) : ℕ := r.height

/-- The inner loop of `Seek` at level `lvl`: find the entry that covers `absoff`, load
its chunk into the level below and return its offset. The position grows by 40 in each
round and a read past the buffer panics, so the loop never takes more than 1640 rounds. -/
def seekEntry (absoff lvl : ℕ) : ℕ → ReaderM ℕ
  | 0 => goPanic "out of rounds"
  | rounds + 1 => do
    let r ← self
    let curoff ← ofExcept (r.uint64At lvl (r.pos lvl))
    let enthash ← ofExcept (r.hashAt lvl (r.pos lvl + 8))
    update (fun r => r.skipEntry lvl)
    let r ← self
    let nextoff ← ofExcept (r.nextoff absoff lvl)
    if absoff < nextoff then
      let buf ← get enthash
      update (fun r => r.load (lvl - 1) buf)
      pure curoff
    else
      seekEntry absoff lvl rounds

/-- The outer loop of `Seek`. -/
def seekDown (absoff : ℕ) : ℕ → ℕ → ReaderM ℕ
  | 0, curoff => pure curoff
  | lvl + 1, _ => do
    let curoff ← seekEntry absoff (lvl + 1) 1640
    seekDown absoff lvl curoff

def seek (absoff : ℕ) : ReaderM ℕ := do
  let r ← self
  if r.offset = absoff then
    pure r.offset
  else
    let buf ← get r.root
    let r ← ofExcept (r.loadRoot buf)
    update (fun _ => r)
    let curoff ← seekDown absoff r.height 0
    let skipamnt := int64 (absoff - curoff)
    let r ← self
    if int64 (skipamnt + r.pos 0) > r.length 0 then
      update (fun r => r.setPos 0 (r.length 0))
      pure ((absoff - (int64 (skipamnt + r.pos 0) - r.length 0)) % 2 ^ 64).toNat
    else
      update (fun r => r.setPos 0 (int64 (r.pos 0 + skipamnt)))
      pure absoff

/-- `next(lvl)` with `n` levels above `lvl`. It returns `true` at the end of the tree. -/
def nextFrom : ℕ → ℕ → ReaderM Bool
  | 0, lvl => do
    let r ← self
    if lvl > r.height then
      raise (.text "corrupt hash tree: overflowed")
    else
      goPanic "index out of range"
  | n + 1, lvl => do
    let r ← self
    if lvl > r.height then
      raise (.text "corrupt hash tree: overflowed")
    else
      let eof ←
        if r.pos (lvl + 1) < r.length (lvl + 1) then pure false
        else if lvl + 1 > r.height then pure true
        else nextFrom n (lvl + 1)
      if eof then
        pure true
      else
        let r ← self
        let hash ← ofExcept (r.hashAt (lvl + 1) (r.pos (lvl + 1) + 8))
        let buf ← get hash
        if buf.length > maxlen then
          goPanic "slice bounds out of range"
        else
          update (fun r => (r.skipEntry (lvl + 1)).load lvl buf)
          pure false

def next (lvl : ℕ) : ReaderM Bool := nextFrom (nlevels - 1 - lvl) lvl

/-- The end of `Read`: copy from `src` into a buffer of `n` bytes. -/
def copyOut (n : ℕ) (src : Bytes) : ReaderM Bytes := do
  let out := src.take n
  update (fun r => r.advance out.length)
  pure out

/-- `Read` with a buffer of `n` bytes returns the bytes copied into it. -/
def read (n : ℕ) : ReaderM Bytes := do
  let r ← self
  let src ← ofExcept r.src
  if src = [] then
    let eof ← next 0
    if eof then
      raise .eof
    else
      let r ← self
      let src ← ofExcept r.src
      copyOut n src
  else
    copyOut n src

end Bpy.HashTreeReader
