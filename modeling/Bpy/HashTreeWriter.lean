import Bpy.ContentStore

/-!
# `htree.Writer`

The writer keeps one buffer for each level. Only the part of a buffer in front of
`nbytes` is ever read, so a level is the list of these bytes and `nbytes` is its
length; a level that was never used is empty. Every store call is a `put`.
-/
namespace Bpy.HashTreeWriter
open ByteWords InteractionPrograms ContentStore
open List Method

def nlevels : ℕ := 10
def maxlen : ℕ := 65535

/-- `htree.HTree`. -/
structure HTree where
  depth : ℕ
  data : Hash
  deriving DecidableEq

structure Writer where
  lvls : ℕ → Bytes
  offset : ℕ

def newWriter : Writer := ⟨fun i => if i = 0 then [0] else [], 0⟩

namespace Writer

def nbytes (w : Writer) (lvl : ℕ) : ℕ := (w.lvls lvl).length

def setLvl (w : Writer) (lvl : ℕ) (buf : Bytes) : Writer :=
  { w with lvls := Function.update w.lvls lvl buf }

@[simp] theorem setLvl_same (w : Writer) (lvl : ℕ) (buf : Bytes) :
    (w.setLvl lvl buf).lvls lvl = buf := by simp [setLvl]

@[simp] theorem setLvl_other (w : Writer) {lvl i : ℕ} (buf : Bytes) (h : i ≠ lvl) :
    (w.setLvl lvl buf).lvls i = w.lvls i := by simp [setLvl, h]

@[simp] theorem setLvl_offset (w : Writer) (lvl : ℕ) (buf : Bytes) : (w.setLvl lvl buf).offset = w.offset := rfl

/-- The end of `flushLvl`: the entry for the flushed node goes to the level above,
which is tagged when it is used for the first time. -/
def addEntry (w : Writer) (lvl : ℕ) (hash : Hash) : Writer :=
  let above := if w.nbytes (lvl + 1) = 0 then [UInt8.ofNat (lvl + 1)] else w.lvls (lvl + 1)
  let off := if lvl = 0 then leBytes 8 w.offset else ((w.lvls lvl).drop 1).take 8
  let offset := if lvl = 0 then (w.offset + (w.nbytes 0 - 1)) % 2 ^ 64 else w.offset
  { (w.setLvl (lvl + 1) (above ++ off ++ hash.bytes)).setLvl lvl [UInt8.ofNat lvl] with
    offset := offset }

end Writer

abbrev WriterM (α : Type) := StoreM Writer α

/-- `flushLvl(lvl)` with `n` levels above `lvl`. -/
def flushFrom : ℕ → ℕ → WriterM Unit
  | 0, lvl => do
    let w ← self
    let _ ← put (w.lvls lvl)
    goPanic "index out of range"
  | n + 1, lvl => do
    let w ← self
    let hash ← put (w.lvls lvl)
    -- ensure there is enough room for offset:hash
    if maxlen - w.nbytes (lvl + 1) < 8 + 32 then
      flushFrom n (lvl + 1)
    else
      pure ()
    update (fun w => w.addEntry lvl hash)

def flushLvl (lvl : ℕ) : WriterM Unit := flushFrom (nlevels - 1 - lvl) lvl

/-- The loop of `Write`. It runs once for every byte range that is copied and once
more for every flush, so `2 * len(buf) + 1` rounds are enough. -/
def writeLoop : ℕ → Bytes → WriterM Unit
  | 0, _ => goPanic "out of rounds"
  | rounds + 1, buf => do
    if buf = [] then
      pure ()
    else
      let w ← self
      let n := min buf.length (maxlen - w.nbytes 0)
      if n = 0 then
        flushLvl 0
        update (fun w => w.setLvl 0 [0])
        writeLoop rounds buf
      else
        update (fun w => w.setLvl 0 (w.lvls 0 ++ buf.take n))
        writeLoop rounds (buf.drop n)

def write (buf : Bytes) : WriterM ℕ := do
  writeLoop (2 * buf.length + 1) buf
  pure buf.length

/-- The search for the highest level in use, below level `i`. -/
def highestBelow (w : Writer) : ℕ → Option ℕ
  | 0 => none
  | i + 1 => if w.nbytes i ≠ 0 then some i else highestBelow w i

def flushLevels : List ℕ → WriterM Unit
  | [] => pure ()
  | i :: is => do
    let w ← self
    if w.nbytes i = 0 then pure () else flushLvl i
    flushLevels is

def close : WriterM HTree := do
  let w ← self
  match highestBelow w nlevels with
  | none => goPanic "index out of range"
  | some highest => do
    flushLevels (List.range (highest + 1))
    let w ← self
    if nlevels ≤ highest + 1 then
      goPanic "index out of range"
    else if w.nbytes (highest + 1) = 41 then
      pure ⟨highest, Hash.copy (((w.lvls (highest + 1)).drop 9).take 32)⟩
    else
      let hash ← put (w.lvls (highest + 1))
      pure ⟨highest + 1, hash⟩

def writeAll : List Bytes → WriterM Unit
  | [] => pure ()
  | buf :: bufs => do
    let _ ← write buf
    writeAll bufs

/-! `Write` has the same effect as writing byte by byte. -/

/-- Append one byte to the current leaf, after the leaf has been flushed if it is full. -/
def writeByte (b : UInt8) : WriterM Unit := do
  let w ← self
  if maxlen - w.nbytes 0 = 0 then
    flushLvl 0
    update (fun w => w.setLvl 0 [0])
    update (fun w => w.setLvl 0 (w.lvls 0 ++ [b]))
  else
    update (fun w => w.setLvl 0 (w.lvls 0 ++ [b]))

def writeBytes : Bytes → WriterM Unit
  | [] => pure ()
  | b :: bs => do
    writeByte b
    writeBytes bs

theorem writeBytes_append (xs ys : Bytes) : writeBytes (xs ++ ys) = writeBytes xs >>= fun _ => writeBytes ys := by
  induction xs with
  | nil => rfl
  | cons b xs ih => simp only [cons_append, writeBytes, ih, bind_assoc]

private theorem setLvl_setLvl (w : Writer) (lvl : ℕ) (a b : Bytes) :
    (w.setLvl lvl a).setLvl lvl b = w.setLvl lvl b := by simp [Writer.setLvl]

theorem writeByte_room {w : Writer} (b : UInt8) (h : maxlen - w.nbytes 0 ≠ 0) :
    writeByte b w = .done (.ok (), w.setLvl 0 (w.lvls 0 ++ [b])) := by
  change (if maxlen - w.nbytes 0 = 0 then _ else _ : WriterM Unit) w = _
  rw [if_neg h]
  rfl

theorem writeByte_full {w : Writer} (b : UInt8) (h : maxlen - w.nbytes 0 = 0) :
    writeByte b w = (flushLvl 0 w).bind (follow fun _ =>
      update (fun w => (w.setLvl 0 [0]).setLvl 0 ((w.setLvl 0 [0]).lvls 0 ++ [b]))) := by
  change (if maxlen - w.nbytes 0 = 0 then _ else _ : WriterM Unit) w = _
  rw [if_pos h]
  rfl

theorem writeBytes_fits (xs : Bytes) (w : Writer) (h : w.nbytes 0 + xs.length ≤ maxlen) :
    writeBytes xs w = .done (.ok (), w.setLvl 0 (w.lvls 0 ++ xs)) := by
  induction xs generalizing w with
  | nil => simp [writeBytes, Writer.setLvl]; rfl
  | cons b xs ih =>
    have hroom : maxlen - w.nbytes 0 ≠ 0 := by
      simp only [length_cons] at h
      omega
    have hlen : (w.setLvl 0 (w.lvls 0 ++ [b])).nbytes 0 + xs.length ≤ maxlen := by
      simp only [Writer.nbytes, Writer.setLvl_same, length_append, length_cons] at h ⊢
      simp only [length_nil]
      omega
    change (writeByte b w).bind (follow fun _ => writeBytes xs) = _
    rw [writeByte_room b hroom]
    simp only [Prog.done_bind, follow, ih _ hlen, Writer.setLvl_same, setLvl_setLvl,
      append_assoc, singleton_append]

/-- The leaf never outgrows its buffer. -/
def Fits (w : Writer) : Prop := w.nbytes 0 ≤ maxlen

theorem fits_newWriter : Fits newWriter := by simp [Fits, Writer.nbytes, newWriter, maxlen]

private theorem fits_setLvl (w : Writer) {buf : Bytes} (h : buf.length ≤ maxlen) :
    Fits (w.setLvl 0 buf) := by simpa [Fits, Writer.nbytes] using h

/-- A method that leaves the writer with a leaf that fits, unless it fails. -/
def KeepsFit (x : WriterM Unit) : Prop :=
  ∀ w, Fits w → (x w).Always (fun r => r.1.isOk → Fits r.2)

theorem keepsFit_writeByte (b : UInt8) : KeepsFit (writeByte b) := by
  intro w hw
  by_cases h : maxlen - w.nbytes 0 = 0
  · rw [writeByte_full b h]
    refine (Prog.always_of_forall (P := fun _ => True) _ (fun _ => trivial)).bind ?_
    rintro ⟨r, w'⟩ -
    cases r with
    | error e => simp [follow, Prog.Always, Except.isOk, Except.toBool]
    | ok a => exact fun _ => fits_setLvl _ (by simp [maxlen])
  · rw [writeByte_room b h]
    refine fun _ => fits_setLvl w ?_
    simp only [Writer.nbytes] at h
    simp only [length_append, length_singleton]
    omega

theorem keepsFit_writeBytes (xs : Bytes) : KeepsFit (writeBytes xs) := by
  induction xs with
  | nil => exact fun w hw _ => hw
  | cons b xs ih =>
    intro w hw
    refine (keepsFit_writeByte b w hw).bind ?_
    rintro ⟨r, w'⟩ h
    cases r with
    | error e => simp [follow, Prog.Always, Except.isOk, Except.toBool]
    | ok a => exact ih w' (h rfl)

/-- With enough rounds the loop of `Write` writes its bytes one by one. A flush takes
a round of its own, so a full leaf needs one round more. -/
theorem writeLoop_eq (rounds : ℕ) (buf : Bytes) (w : Writer) (hw : Fits w) (hpos : 1 ≤ rounds)
    (hr : 2 * buf.length + (if maxlen - w.nbytes 0 = 0 then 1 else 0) ≤ rounds) :
    writeLoop rounds buf w = writeBytes buf w := by
  induction rounds generalizing buf w with
  | zero => omega
  | succ rounds ih =>
    cases buf with
    | nil => rfl
    | cons b bs =>
      by_cases h : maxlen - w.nbytes 0 = 0
      · have hflush : writeLoop (rounds + 1) (b :: bs) w = (flushLvl 0 w).bind
            (follow fun _ w => writeLoop rounds (b :: bs) (w.setLvl 0 [0])) := by
          change (if min (b :: bs).length (maxlen - w.nbytes 0) = 0 then _ else _ : WriterM Unit) w = _
          rw [if_pos (by omega)]
          rfl
        change _ = (writeByte b w).bind (follow fun _ => writeBytes bs)
        rw [hflush, writeByte_full b h, Prog.bind_assoc]
        congr 1
        funext r
        rcases r with ⟨r, w'⟩
        cases r with
        | error e => rfl
        | ok a =>
          have hroom : maxlen - (w'.setLvl 0 [0]).nbytes 0 ≠ 0 := by
            simp [Writer.nbytes, maxlen]
          have hloop := ih (b :: bs) (w'.setLvl 0 [0]) (fits_setLvl w' (by simp [maxlen]))
            (by simp only [length_cons, h, if_true] at hr; omega)
            (by rw [if_neg hroom]; simp only [h, if_true] at hr; omega)
          change writeLoop rounds (b :: bs) (w'.setLvl 0 [0]) = _
          rw [hloop]
          change (writeByte b (w'.setLvl 0 [0])).bind (follow fun _ => writeBytes bs) = _
          rw [writeByte_room b hroom]
          rfl
      · obtain ⟨n, hn⟩ : ∃ n, n = min (b :: bs).length (maxlen - w.nbytes 0) := ⟨_, rfl⟩
        have hn0 : n ≠ 0 := by simp only [length_cons] at hn; omega
        have hcopy : writeLoop (rounds + 1) (b :: bs) w =
            writeLoop rounds ((b :: bs).drop n) (w.setLvl 0 (w.lvls 0 ++ (b :: bs).take n)) := by
          change (if min (b :: bs).length (maxlen - w.nbytes 0) = 0 then _ else _ : WriterM Unit) w = _
          rw [← hn, if_neg hn0]
          rfl
        have hfit : w.nbytes 0 + ((b :: bs).take n).length ≤ maxlen := by
          simp only [length_take]
          omega
        have hlen : ((b :: bs).drop n).length + n = (b :: bs).length := by
          simp only [length_drop]
          omega
        rw [if_neg h] at hr
        have hstep : (if maxlen - (w.setLvl 0 (w.lvls 0 ++ (b :: bs).take n)).nbytes 0 = 0
            then 1 else 0) ≤ 1 := by split <;> omega
        rw [hcopy, ih _ _ (fits_setLvl w (by simpa [Writer.nbytes] using hfit)) (by omega) (by omega)]
        conv_rhs => rw [← take_append_drop n (b :: bs), writeBytes_append, bind_apply,
          writeBytes_fits _ w hfit]
        rfl

theorem write_eq (buf : Bytes) (w : Writer) (hw : Fits w) :
    write buf w = (writeBytes buf w).bind (follow fun _ => pure buf.length) := by
  change (writeLoop (2 * buf.length + 1) buf w).bind _ = _
  rw [writeLoop_eq _ buf w hw (by omega) (by split <;> omega)]

/-- The effect of a sequence of `Write` calls depends on the bytes written only, for
every store and whichever of its calls fail. -/
theorem writeAll_eq (bufs : List Bytes) (w : Writer) (hw : Fits w) : writeAll bufs w = writeBytes bufs.flatten w := by
  induction bufs generalizing w with
  | nil => rfl
  | cons buf bufs ih =>
    change (write buf w).bind (follow fun _ => writeAll bufs) = _
    rw [write_eq buf w hw, Prog.bind_assoc, flatten_cons, writeBytes_append, bind_apply]
    apply (keepsFit_writeBytes buf w hw).bind_congr
    rintro ⟨r, w'⟩ h
    cases r with
    | error e => rfl
    | ok a => exact ih w' (h rfl)

end Bpy.HashTreeWriter
