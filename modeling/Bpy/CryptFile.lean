import Bpy.ContentStore
import Bpy.CounterMode

/-!
# `cryptofile`

An encrypted file is the initialisation vector followed by the encrypted data, which is
padded with `0x80` and zeros to whole blocks. The writer runs over a sink that may fail.
The reader runs over the bytes of a file; it seeks before every read, so the file has no
position of its own. Sizes and offsets are `int64` values.
-/
namespace Bpy.CryptFile
open ByteWords InteractionPrograms ContentStore CounterMode Method

inductive SinkRequest where
  | write (data : Bytes)
  | close

/-- Code with a receiver `ω` that writes to an `io.WriteCloser`. -/
abbrev SinkM (ω α : Type) := Method SinkRequest (fun _ => Except GoError Unit) GoError ω α

/-- A file that takes everything that is written. -/
def fileSink : SinkRequest → Bytes → Except GoError Unit × Bytes
  | .write data, file => (.ok (), file ++ data)
  | .close, file => (.ok (), file)

/-- `vec` is the counter. -/
structure Writer where
  buf : Bytes
  nbuf : ℕ
  vec : Bytes

section Writer

variable (B : Block)

/-- `NewWriter`, with the random bytes `iv`. -/
def newWriter {ω : Type} (iv : Bytes) : SinkM ω Writer := do
  send (.write iv) id
  pure ⟨List.replicate B.size 0, 0, iv⟩

/-- The block is given up and the counter advances even if the write fails. -/
def flushBlock : SinkM Writer Unit := fun w =>
  let buf := xor w.buf (B.encrypt w.vec)
  .call (.write buf) (fun err => .done (err, ⟨buf, 0, add w.vec 1⟩))

/-- `copy(w.buf[w.nbuf:], data)` of the first `n` bytes of `data`. -/
def Writer.fill (w : Writer) (data : Bytes) (n : ℕ) : Writer :=
  { w with buf := w.buf.take w.nbuf ++ data.take n ++ w.buf.drop (w.nbuf + n), nbuf := w.nbuf + n }

/-- The recursion of `Write`. A round that goes on has filled a block, so `len(buf) + 1`
rounds are enough. -/
def writeRounds : ℕ → Bytes → SinkM Writer ℕ
  | 0, _ => raise (.panic "out of rounds")
  | rounds + 1, data => do
    let w ← self
    let n := min (w.buf.length - w.nbuf) data.length
    update (fun w => w.fill data n)
    let w ← self
    if w.nbuf ≠ w.buf.length then
      pure n
    else
      flushBlock B
      let nw ← writeRounds rounds (data.drop n)
      pure (n + nw)

def write (data : Bytes) : SinkM Writer ℕ := writeRounds B (data.length + 1) data

/-- The padding that `Close` puts behind the data in the buffer. -/
def Writer.pad (w : Writer) : Writer :=
  { w with buf := (w.buf.take w.nbuf ++ List.replicate (w.buf.length - w.nbuf) 0).set w.nbuf 0x80 }

def close : SinkM Writer Unit := do
  let w ← self
  if w.nbuf < w.buf.length then
    update Writer.pad
    flushBlock B
    send .close id
  else
    raise (.panic "index out of range")

def writeAll : List Bytes → SinkM Writer Unit
  | [] => pure ()
  | buf :: bufs => do
    let _ ← write B buf
    writeAll bufs

def writeFile (iv : Bytes) (bufs : List Bytes) : SinkM Unit Unit := do
  let w ← newWriter B iv
  let _ ← on w (do writeAll B bufs; close B)

end Writer

section Reader

/-- What a file holds behind a `Seek` to `off`. A negative offset is far behind the end. -/
def behind (file : Bytes) (off : ℤ) : Bytes := if off < 0 then [] else file.drop off.toNat

/-- `io.ReadFull` of `n` bytes after a `Seek` to `off`. -/
def readFullAt (file : Bytes) (off : ℤ) (n : ℕ) : Except GoError Bytes :=
  if n ≤ (behind file off).length then .ok ((behind file off).take n)
  else if behind file off = [] then .error .eof
  else .error .unexpectedEOF

structure Reader where
  file : Bytes
  size : ℤ
  offset : ℤ
  iv : Bytes

variable (B : Block)

def newReader (file : Bytes) (fsize : ℤ) : Except GoError Reader :=
  if fsize % B.size ≠ 0 then .error (.text "file size is not a multiple of block size")
  else do
    let iv ← readFullAt file 0 B.size
    .ok ⟨file, fsize - B.size, 0, iv⟩

/-- `Seek(offset, io.SeekStart)`. -/
def Reader.seek (r : Reader) (offset : ℤ) : ℤ × Reader :=
  let offset := if offset < 0 then 0 else offset
  let offset := if offset > r.size then r.size else offset
  (offset, { r with offset := offset })

def uint64 (x : ℤ) : ℕ := (if 0 ≤ x then x else x + 2 ^ 64).toNat

/-- The decryption loop. Blocks behind the end of a shortened buffer lie inside its
capacity and are never looked at again, so the loop stops there. -/
def decryptBlocks (vec : Bytes) : ℕ → Bytes → Bytes
  | 0, _ => []
  | n + 1, buf =>
    if buf = [] then []
    else xor (buf.take B.size) (B.encrypt vec) ++ decryptBlocks (add vec 1) n (buf.drop B.size)

/-- The bytes in front of the last `0x80`. -/
def stripPadding (buf : Bytes) : Except GoError Bytes :=
  match buf.reverse.dropWhile (· ≠ 0x80) with
  | [] => .error (.panic "index out of range")
  | _ :: rest => .ok rest.reverse

/-- `readBlocks(idx, buf)` with `len(buf) = len`. It returns the bytes left in `buf`. -/
def readBlocks (r : Reader) (idx : ℤ) (len : ℕ) : Except GoError Bytes :=
  if len % B.size ≠ 0 then .error (.panic "bufsize not multiple of blocksize")
  else if idx * B.size ≥ r.size then .error .eof
  else do
    let n := if r.size < idx * B.size + len then (r.size - idx * B.size).toNat else len
    let enc ← readFullAt r.file ((1 + idx) * B.size) n
    let buf := decryptBlocks B (add r.iv (uint64 idx)) (len / B.size) enc
    let buf ← if idx * B.size + n = r.size then stripPadding buf else .ok buf
    if buf = [] then .error .eof else .ok buf

/-- `Size`: the last block may hold no data, which is no error here. -/
def Reader.dataSize (r : Reader) : Except GoError ℤ :=
  match readBlocks B r (r.size / B.size - 1) B.size with
  | .ok buf => .ok (r.size - B.size + buf.length)
  | .error .eof => .ok (r.size - B.size)
  | .error e => .error e

/-- The end of `Read`: copy the bytes behind the first `shiftamnt` to the caller. -/
def Reader.deliver (r : Reader) (n shiftamnt : ℕ) : Except GoError Bytes → Except GoError Bytes × Reader
  | .ok buf2 =>
    if shiftamnt > buf2.length then (.error (.panic "slice bounds out of range"), r)
    else
      let out := (buf2.drop shiftamnt).take n
      (if out = [] then .error .eof else .ok out, { r with offset := r.offset + out.length })
  | .error (.panic msg) => (.error (.panic msg), r)
  | .error e =>
    -- nothing was read, and the slice of the buffer starts at `shiftamnt`
    if shiftamnt > 0 then (.error (.panic "slice bounds out of range"), r) else (.error e, r)

def roundUp (b n : ℕ) : ℕ := if n % b ≠ 0 then n + (b - n % b) else n

/-- `Read` with a buffer of `n` bytes returns the bytes copied into it. -/
def Reader.read (r : Reader) (n : ℕ) : Except GoError Bytes × Reader :=
  if n = 0 then (.ok [], r)
  else
    let shiftamnt := (r.offset % B.size).toNat
    let aligned := r.offset - shiftamnt
    r.deliver n shiftamnt (readBlocks B r (aligned / B.size) (roundUp B.size (n + shiftamnt)))

variable {B}

@[simp] theorem behind_natCast (file : Bytes) (off : ℕ) : behind file off = file.drop off := by
  rw [behind, if_neg (by omega), Int.toNat_natCast]

theorem decryptBlocks_eq {iv : Bytes} (hiv : iv.length = B.size) (i n : ℕ) (buf : Bytes) :
    decryptBlocks B (add iv i) n buf = xor buf (keystream B iv i n) := by
  induction n generalizing i buf with
  | zero => simp [decryptBlocks, keystream, CounterMode.xor]
  | succ n ih =>
    by_cases hbuf : buf = []
    · simp [decryptBlocks, hbuf, CounterMode.xor]
    · rw [decryptBlocks, if_neg hbuf, keystream, xor_append_right,
        B.length_encrypt _ (by rw [length_add, hiv]), add_add, ih]

theorem roundUp_spec (n : ℕ) : ∃ m, roundUp B.size n = B.size * m ∧ n ≤ B.size * m := by
  have hlt := Nat.mod_lt n B.size_pos
  have hdiv := Nat.div_add_mod n B.size
  by_cases h : n % B.size = 0
  · exact ⟨n / B.size, by rw [roundUp, if_neg (not_not.mpr h)]; omega, by omega⟩
  · refine ⟨n / B.size + 1, ?_, ?_⟩
    · rw [roundUp, if_pos h, Nat.mul_succ]
      omega
    · rw [Nat.mul_succ]
      omega

/-- `Seek` only moves the position: to the offset, or to the end of the blocks if that is
before it. -/
theorem seek_eq (r : Reader) (offset : ℤ) : ∃ off, (r.seek offset).2 = { r with offset := off } ∧
    (off = r.size ∨ off = offset.toNat) := by
  refine ⟨_, rfl, ?_⟩
  by_cases h : (if offset < 0 then 0 else offset) > r.size
  · exact Or.inl (if_pos h)
  · rw [if_neg h]
    refine Or.inr ?_
    split <;> omega

/-- What `NewReader` checks. -/
structure Opened (B : Block) (r : Reader) : Prop where
  length_iv : r.iv.length = B.size
  size_mod : r.size % B.size = 0

theorem newReader_opened {file : Bytes} {fsize : ℤ} {r : Reader} (h : newReader B file fsize = .ok r) : Opened B r := by
  rw [newReader] at h
  split at h
  · simp at h
  · next hmod =>
    cases hiv : readFullAt file 0 B.size with
    | error e => simp only [hiv, bind, Except.bind, reduceCtorEq] at h
    | ok iv =>
      simp only [hiv, bind, Except.bind, Except.ok.injEq] at h
      subst h
      refine ⟨?_, ?_⟩
      · rw [readFullAt] at hiv
        split at hiv
        · next hle => rw [← Except.ok.inj hiv, List.length_take_of_le hle]
        · split at hiv <;> simp at hiv
      · rw [not_not] at hmod
        simp [hmod]

theorem read_eq_deliver {r : Reader} {pos n : ℕ} (hpos : r.offset = pos) (hn : 0 < n) :
    r.read B n = r.deliver n (pos % B.size)
      (readBlocks B r (pos / B.size : ℕ) (roundUp B.size (n + pos % B.size))) := by
  have hdiv := Nat.div_add_mod pos B.size
  have hshift : ((pos : ℤ) % B.size).toNat = pos % B.size := by
    rw [← Int.natCast_mod, Int.toNat_natCast]
  have halign : ((pos : ℤ) - (pos % B.size : ℕ)) / B.size = (pos / B.size : ℕ) := by
    rw [show ((pos : ℤ) - (pos % B.size : ℕ)) = B.size * (pos / B.size : ℕ) by
      rw [← Nat.cast_mul]; omega]
    exact Int.mul_ediv_cancel_left _ (by have := B.size_pos; omega)
  simp only [Reader.read, if_neg hn.ne', hpos, hshift, halign]

theorem deliver_ok {r r' : Reader} {n shiftamnt : ℕ} {res : Except GoError Bytes} {out : Bytes}
    (h : r.deliver n shiftamnt res = (.ok out, r')) :
    ∃ buf2, res = .ok buf2 ∧ out = (buf2.drop shiftamnt).take n ∧
      r' = { r with offset := r.offset + out.length } := by
  cases res with
  | ok buf2 =>
    simp only [Reader.deliver] at h
    split at h
    · simp at h
    · split at h
      · simp at h
      · simp only [Prod.mk.injEq, Except.ok.injEq] at h
        exact ⟨buf2, rfl, h.1.symm, by rw [← h.1, ← h.2]⟩
  | error e =>
    cases e <;> simp only [Reader.deliver] at h
    case panic msg => simp at h
    all_goals split at h <;> simp at h

end Reader

end Bpy.CryptFile
