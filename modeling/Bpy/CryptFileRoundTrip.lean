import Mathlib.Data.List.TakeWhile
import Bpy.CryptFile

/-!
# Writing an encrypted file and reading it at any position
-/
namespace Bpy.CryptFileRoundTrip
open ByteWords InteractionPrograms ContentStore CounterMode CryptFile Method
open List

variable {B : Block} {iv : Bytes}

/-- The data with its padding. -/
def padded (b : ℕ) (d : Bytes) : Bytes := d ++ 0x80 :: List.replicate (b - d.length % b - 1) 0

/-- The file that holds the data `d`. -/
def sealedFile (B : Block) (iv d : Bytes) : Bytes :=
  iv ++ xor (padded B.size d) (keystream B iv 0 (d.length / B.size + 1))

theorem length_padded (d : Bytes) : (padded B.size d).length = B.size * (d.length / B.size + 1) := by
  have hlt := Nat.mod_lt d.length B.size_pos
  have hdiv := Nat.div_add_mod d.length B.size
  simp only [padded, length_append, length_cons, length_replicate, Nat.mul_add, Nat.mul_one]
  omega

theorem length_sealedFile (hiv : iv.length = B.size) (d : Bytes) :
    (sealedFile B iv d).length = B.size * (d.length / B.size + 2) := by
  simp only [sealedFile, length_append, length_xor, length_padded, length_keystream hiv, hiv,
    Nat.min_self, Nat.mul_add]
  omega

section Write

variable {w : Writer} {file d data : Bytes}

/-- The writer has taken the data `d`: the whole blocks are in the file, the rest is in
the buffer. -/
structure Written (B : Block) (iv : Bytes) (w : Writer) (file d : Bytes) : Prop where
  length_buf : w.buf.length = B.size
  nbuf_lt : w.nbuf < B.size
  blocks : ∃ full k, d = full ++ w.buf.take w.nbuf ∧ full.length = B.size * k ∧
    w.vec = add iv k ∧ file = iv ++ xor full (keystream B iv 0 k)

theorem written_new (B : Block) (iv : Bytes) : Written B iv ⟨replicate B.size 0, 0, iv⟩ iv [] where
  length_buf := by simp
  nbuf_lt := B.size_pos
  blocks := ⟨[], 0, rfl, rfl, (add_zero iv).symm, by simp [CounterMode.xor]⟩

theorem flush_file (hiv : iv.length = B.size) {full : Bytes} {k : ℕ} (hfull : full.length = B.size * k)
    (block : Bytes) : iv ++ xor full (keystream B iv 0 k) ++ xor block (B.encrypt (add iv k)) =
      iv ++ xor (full ++ block) (keystream B iv 0 (k + 1)) := by
  rw [keystream_add, xor_append (by rw [hfull, length_keystream hiv]), append_assoc]
  simp [keystream]

private theorem exec_flushBlock (w : Writer) (file : Bytes) : exec fileSink (flushBlock B) w file =
      (.ok (), ⟨xor w.buf (B.encrypt w.vec), 0, add w.vec 1⟩, file ++ xor w.buf (B.encrypt w.vec)) := rfl

private theorem exec_writeRounds_part {n : ℕ} (rounds : ℕ) (hn : n = min (w.buf.length - w.nbuf) data.length)
    (hpart : (w.fill data n).nbuf ≠ (w.fill data n).buf.length) :
    exec fileSink (writeRounds B (rounds + 1) data) w file = (.ok n, w.fill data n, file) := by
  subst hn
  simp only [writeRounds, exec_bind, exec_self, exec_update, if_pos hpart, exec_pure]

private theorem exec_writeRounds_block {n m rounds : ℕ} {w' : Writer} {file' : Bytes}
    (hn : n = min (w.buf.length - w.nbuf) data.length)
    (hblock : (w.fill data n).nbuf = (w.fill data n).buf.length)
    (hrec : exec fileSink (writeRounds B rounds (data.drop n))
      ⟨xor (w.fill data n).buf (B.encrypt w.vec), 0, add w.vec 1⟩
      (file ++ xor (w.fill data n).buf (B.encrypt w.vec)) = (.ok m, w', file')) :
    exec fileSink (writeRounds B (rounds + 1) data) w file = (.ok (n + m), w', file') := by
  subst hn
  have hvec : (w.fill data (min (w.buf.length - w.nbuf) data.length)).vec = w.vec := rfl
  simp only [writeRounds, exec_bind, exec_self, exec_update,
    if_neg (not_not.mpr hblock), exec_flushBlock, hvec, hrec, exec_pure]

theorem writeRounds_spec {rounds : ℕ} (hiv : iv.length = B.size) (hw : Written B iv w file d)
    (hr : data.length < rounds) :
    ∃ w' file', exec fileSink (writeRounds B rounds data) w file = (.ok data.length, w', file') ∧
      Written B iv w' file' (d ++ data) := by
  induction rounds generalizing w file d data with
  | zero => omega
  | succ rounds ih =>
    obtain ⟨full, k, hd, hfull, hvec, hfile⟩ := hw.blocks
    have hlb := hw.length_buf
    have hnb := hw.nbuf_lt
    obtain ⟨n, hn⟩ : ∃ n, n = min (w.buf.length - w.nbuf) data.length := ⟨_, rfl⟩
    have hlen : (w.fill data n).buf.length = B.size := by
      simp only [Writer.fill, length_append, length_take, length_drop]
      omega
    have hnbuf : (w.fill data n).nbuf = w.nbuf + n := rfl
    have htake : (w.fill data n).buf.take (w.nbuf + n) = w.buf.take w.nbuf ++ data.take n := by
      rw [Writer.fill, List.take_left']
      simp only [length_append, length_take]
      omega
    by_cases hpart : (w.fill data n).nbuf ≠ (w.fill data n).buf.length
    · have hall : n = data.length := by omega
      refine ⟨w.fill data n, file, by rw [exec_writeRounds_part rounds hn hpart, hall], hlen, by omega,
        full, k, ?_, hfull, hvec, hfile⟩
      rw [hnbuf, htake, hall, take_length, hd, append_assoc]
    · have hblock := not_not.mp hpart
      have hbuf : (w.fill data n).buf = w.buf.take w.nbuf ++ data.take n := by
        rw [← htake, take_of_length_le (by omega)]
      have hsplit : d ++ data = full ++ (w.fill data n).buf ++ data.drop n := by
        rw [hbuf, hd]
        simp only [append_assoc, take_append_drop]
      have hw₁ : Written B iv ⟨xor (w.fill data n).buf (B.encrypt w.vec), 0, add w.vec 1⟩
          (file ++ xor (w.fill data n).buf (B.encrypt w.vec)) (full ++ (w.fill data n).buf) := by
        refine ⟨?_, B.size_pos, full ++ (w.fill data n).buf, k + 1, by simp, ?_, ?_, ?_⟩
        · rw [length_xor, hlen, B.length_encrypt _ (by rw [hvec, length_add, hiv]), Nat.min_self]
        · rw [length_append, hfull, hlen, Nat.mul_succ]
        · rw [hvec, add_add]
        · rw [hfile, hvec, flush_file hiv hfull]
      have hrest : (data.drop n).length < rounds := by
        rw [length_drop]
        omega
      obtain ⟨w', file', hrun, hw'⟩ := ih hw₁ hrest
      refine ⟨w', file', ?_, hsplit ▸ hw'⟩
      rw [exec_writeRounds_block hn hblock hrun, length_drop]
      congr
      omega

theorem write_spec (hiv : iv.length = B.size) (data : Bytes) (hw : Written B iv w file d) :
    ∃ w' file', exec fileSink (write B data) w file = (.ok data.length, w', file') ∧
      Written B iv w' file' (d ++ data) := writeRounds_spec hiv hw (Nat.lt_succ_self data.length)

theorem writeAll_spec (hiv : iv.length = B.size) (bufs : List Bytes) (hw : Written B iv w file d) :
    ∃ w' file', exec fileSink (writeAll B bufs) w file = (.ok (), w', file') ∧
      Written B iv w' file' (d ++ bufs.flatten) := by
  induction bufs generalizing w file d with
  | nil => exact ⟨w, file, rfl, by simpa using hw⟩
  | cons buf bufs ih =>
    obtain ⟨w₁, file₁, hrun₁, hw₁⟩ := write_spec hiv buf hw
    obtain ⟨w', file', hrun, hw'⟩ := ih hw₁
    refine ⟨w', file', ?_, by simpa using hw'⟩
    rw [writeAll, exec_bind_ok _ hrun₁, hrun]

private theorem exec_close (h : w.nbuf < w.buf.length) (file : Bytes) :
    ∃ w', exec fileSink (close B) w file = (.ok (), w', file ++ xor w.pad.buf (B.encrypt w.vec)) := by
  refine ⟨⟨xor w.pad.buf (B.encrypt w.vec), 0, add w.vec 1⟩, ?_⟩
  have hvec : w.pad.vec = w.vec := rfl
  simp only [close, exec_bind, exec_self, if_pos h, exec_update, exec_flushBlock, exec_send, fileSink, id, hvec]

private theorem pad_buf (h : w.nbuf < w.buf.length) :
    w.pad.buf = w.buf.take w.nbuf ++ 0x80 :: replicate (w.buf.length - w.nbuf - 1) 0 := by
  obtain ⟨m, hm⟩ : ∃ m, w.buf.length - w.nbuf = m + 1 := ⟨w.buf.length - w.nbuf - 1, by omega⟩
  have hlen : (w.buf.take w.nbuf).length = w.nbuf := by
    rw [length_take]
    omega
  simp only [Writer.pad, hm, replicate_succ, Nat.add_sub_cancel]
  rw [set_append_right _ _ (by omega), hlen, Nat.sub_self, set_cons_zero]

theorem close_spec (hiv : iv.length = B.size) (hw : Written B iv w file d) :
    ∃ w', exec fileSink (close B) w file = (.ok (), w', sealedFile B iv d) := by
  obtain ⟨full, k, hd, hfull, hvec, hfile⟩ := hw.blocks
  have hlb := hw.length_buf
  have hnb := hw.nbuf_lt
  have hlen : d.length = w.nbuf + B.size * k := by
    simp only [hd, length_append, hfull, length_take]
    omega
  have hdiv : d.length / B.size = k := by
    rw [hlen, Nat.add_mul_div_left _ _ B.size_pos, Nat.div_eq_of_lt hnb, Nat.zero_add]
  have hmod : d.length % B.size = w.nbuf := by
    rw [hlen, Nat.add_mul_mod_self_left, Nat.mod_eq_of_lt hnb]
  have hpad : full ++ w.pad.buf = padded B.size d := by
    rw [pad_buf (by omega), ← append_assoc, ← hd, padded, hmod, hlb]
  obtain ⟨w', hrun⟩ := exec_close (B := B) (show w.nbuf < w.buf.length by omega) file
  refine ⟨w', ?_⟩
  rw [hrun, hfile, hvec, flush_file hiv hfull, hpad, sealedFile, hdiv]

theorem writeFile_spec (hiv : iv.length = B.size) (bufs : List Bytes) :
    exec fileSink (writeFile B iv bufs) () [] = (.ok (), (), sealedFile B iv bufs.flatten) := by
  obtain ⟨w₁, file₁, hrun₁, hw₁⟩ := writeAll_spec hiv bufs (written_new B iv)
  obtain ⟨w₂, hrun₂⟩ := close_spec hiv hw₁
  have hboth : exec fileSink (do writeAll B bufs; close B)
      ⟨replicate B.size 0, 0, iv⟩ iv = (.ok (), w₂, sealedFile B iv bufs.flatten) := by
    rw [exec_bind_ok _ hrun₁, hrun₂, nil_append]
  simp [writeFile, newWriter, exec_bind, exec_on, fileSink, hboth, Except.map]

end Write

section Read

variable {d : Bytes}

/-- The reader of the file of `d`, at position `pos`. -/
def readerAt (B : Block) (iv d : Bytes) (pos : ℕ) : Reader :=
  ⟨sealedFile B iv d, (B.size * (d.length / B.size + 1) : ℕ), pos, iv⟩

theorem newReader_spec (hiv : iv.length = B.size) (d : Bytes) :
    newReader B (sealedFile B iv d) (sealedFile B iv d).length = .ok (readerAt B iv d 0) := by
  have hlen := length_sealedFile hiv d
  have hle : B.size ≤ (sealedFile B iv d).length := by
    rw [hlen]
    exact Nat.le_mul_of_pos_right _ (Nat.succ_pos _)
  have hmod : ((sealedFile B iv d).length : ℤ) % B.size = 0 := by
    rw [hlen]
    exact_mod_cast Nat.mul_mod_right B.size _
  have hsize : ((sealedFile B iv d).length : ℤ) - B.size = (B.size * (d.length / B.size + 1) : ℕ) := by
    rw [hlen, Nat.mul_succ B.size (d.length / B.size + 1)]
    push_cast
    ring
  have hread : readFullAt (sealedFile B iv d) 0 B.size = .ok iv := by
    rw [readFullAt, show (0 : ℤ) = (0 : ℕ) from rfl, behind_natCast, drop_zero, if_pos hle,
      sealedFile, ← hiv, take_left]
  rw [newReader, if_neg (not_not.mpr hmod), hread, hsize]
  rfl

private theorem sealedFile_blocks (hiv : iv.length = B.size) (d : Bytes) (i m : ℕ) :
    xor (((sealedFile B iv d).drop (B.size * (1 + i))).take (B.size * m)) (keystream B iv i m) =
      ((padded B.size d).drop (B.size * i)).take (B.size * m) := by
  have hks : keystream B iv 0 (i + (m + (d.length / B.size + 1))) = keystream B iv 0 i ++
      (keystream B iv i m ++ keystream B iv (i + m) (d.length / B.size + 1)) := by
    rw [keystream_add, keystream_add, Nat.zero_add]
  have hcipher : ((sealedFile B iv d).drop (B.size * (1 + i))).take (B.size * m) =
      xor (((padded B.size d).drop (B.size * i)).take (B.size * m)) (keystream B iv i m) := by
    rw [sealedFile, ← xor_keystream_of_le hiv (length_padded d).le
      (show d.length / B.size + 1 ≤ i + (m + (d.length / B.size + 1)) by omega), hks,
      Nat.mul_add, Nat.mul_one, ← hiv, drop_length_add_append, hiv, CounterMode.xor,
      drop_zipWith, take_zipWith]
    congr 1
    have hi : (keystream B iv 0 i).length = B.size * i := length_keystream hiv 0 i
    have hm : (keystream B iv i m).length = B.size * m := length_keystream hiv i m
    rw [← hi, drop_left, ← hm, take_left]
  rw [hcipher, xor_xor]
  simp [length_keystream hiv]

theorem dropWhile_unmarked {pad : Bytes} (h : 0x80 ∉ pad) : pad.reverse.dropWhile (· ≠ 0x80) = [] := by
  rw [dropWhile_eq_nil_iff]
  intro y hy
  rw [decide_eq_true_eq]
  rintro rfl
  exact h (mem_reverse.mp hy)

theorem stripPadding_marked (x : Bytes) {pad : Bytes} (h : 0x80 ∉ pad) : stripPadding (x ++ 0x80 :: pad) = .ok x := by
  simp only [stripPadding, reverse_append, reverse_cons, append_assoc]
  rw [dropWhile_append, dropWhile_unmarked h]
  simp

theorem stripPadding_unmarked {buf : Bytes} (h : 0x80 ∉ buf) :
    stripPadding buf = .error (.panic "index out of range") := by
  rw [stripPadding, dropWhile_unmarked h]

theorem stripPadding_append (x : Bytes) (j : ℕ) : stripPadding (x ++ 0x80 :: replicate j 0) = .ok x :=
  stripPadding_marked x (fun h => absurd (eq_of_mem_replicate h) (by decide))

private theorem readFullAt_blocks (hiv : iv.length = B.size) {i m n : ℕ}
    (hn : n = min (B.size * m) (B.size * (d.length / B.size + 1) - B.size * i)) :
    readFullAt (sealedFile B iv d) (B.size * (1 + i) : ℕ) n =
      .ok (((sealedFile B iv d).drop (B.size * (1 + i))).take (B.size * m)) := by
  have hlen : ((sealedFile B iv d).drop (B.size * (1 + i))).length =
      B.size * (d.length / B.size + 1) - B.size * i := by
    have hfile : B.size * (d.length / B.size + 2) = B.size + B.size * (d.length / B.size + 1) := by ring
    have hoff : B.size * (1 + i) = B.size + B.size * i := by ring
    rw [length_drop, length_sealedFile hiv, hfile, hoff, Nat.add_sub_add_left]
  rw [readFullAt, behind_natCast, if_pos (by omega)]
  congr 1
  rw [take_eq_take_iff, hlen]
  omega

theorem readBlocks_spec (hiv : iv.length = B.size) (pos i m : ℕ) (hi : B.size * i ≤ d.length) :
    readBlocks B (readerAt B iv d pos) i (B.size * m) =
      if (d.drop (B.size * i)).take (B.size * m) = [] then .error .eof
      else .ok ((d.drop (B.size * i)).take (B.size * m)) := by
  obtain ⟨S, hS⟩ : ∃ S, S = B.size * (d.length / B.size + 1) := ⟨_, rfl⟩
  have hlt : d.length < S := by
    rw [hS]
    exact Nat.lt_mul_div_succ _ B.size_pos
  have hcast : (i : ℤ) * B.size = (B.size * i : ℕ) := by push_cast; ring
  have hcast' : (1 + (i : ℤ)) * B.size = (B.size * (1 + i) : ℕ) := by push_cast; ring
  have hsize : (readerAt B iv d pos).size = S := by rw [hS]; rfl
  obtain ⟨n, hn⟩ : ∃ n, n = min (B.size * m) (S - B.size * i) := ⟨_, rfl⟩
  have hnif : (if (S : ℤ) < (B.size * i : ℕ) + (B.size * m : ℕ) then
      ((S : ℤ) - (B.size * i : ℕ)).toNat else B.size * m) = n := by
    split <;> omega
  have hdec : decryptBlocks B (add iv i) (B.size * m / B.size)
      (((sealedFile B iv d).drop (B.size * (1 + i))).take (B.size * m)) =
      ((padded B.size d).drop (B.size * i)).take (B.size * m) := by
    rw [Nat.mul_div_cancel_left _ B.size_pos, decryptBlocks_eq hiv, sealedFile_blocks hiv]
  have hu : uint64 (i : ℤ) = i := by simp [uint64]
  rw [readBlocks, if_neg (by simp), hcast, hcast', hsize, if_neg (by omega), hnif, hu]
  have hiv' : (readerAt B iv d pos).iv = iv := rfl
  have hfile : (readerAt B iv d pos).file = sealedFile B iv d := rfl
  simp only [hiv', hfile, readFullAt_blocks hiv (hS ▸ hn)]
  change (do
    let buf ← if ((B.size * i : ℕ) : ℤ) + n = S then
        stripPadding (decryptBlocks B (add iv i) (B.size * m / B.size)
          (((sealedFile B iv d).drop (B.size * (1 + i))).take (B.size * m)))
      else .ok (decryptBlocks B (add iv i) (B.size * m / B.size)
          (((sealedFile B iv d).drop (B.size * (1 + i))).take (B.size * m)))
    if buf = [] then .error .eof else .ok buf : Except GoError Bytes) = _
  rw [hdec]
  by_cases hend : S ≤ B.size * i + B.size * m
  · have hpad : ((padded B.size d).drop (B.size * i)).take (B.size * m) =
        d.drop (B.size * i) ++ 0x80 :: replicate (B.size - d.length % B.size - 1) 0 := by
      rw [take_of_length_le (by rw [length_drop, length_padded, ← hS]; omega), padded,
        drop_append_of_le_length hi]
    rw [if_pos (by omega), hpad, stripPadding_append, take_of_length_le (by simp; omega)]
    rfl
  · have hle : B.size * i + B.size * m ≤ d.length := by
      rw [← Nat.mul_add] at hend ⊢
      have hlt' : i + m < d.length / B.size + 1 := by
        by_contra hcon
        exact hend (hS ▸ Nat.mul_le_mul_left _ (by omega))
      exact (Nat.mul_le_mul_left _ (by omega)).trans (Nat.mul_div_le d.length B.size)
    rw [if_neg (by omega), padded, drop_append_of_le_length hi, take_append_of_le_length (by simp; omega)]
    rfl

theorem dataSize_spec (hiv : iv.length = B.size) (d : Bytes) (pos : ℕ) :
    (readerAt B iv d pos).dataSize B = .ok d.length := by
  have hsize : (readerAt B iv d pos).size = (B.size * (d.length / B.size + 1) : ℕ) := rfl
  have hidx : (readerAt B iv d pos).size / B.size - 1 = (d.length / B.size : ℕ) := by
    rw [hsize]
    push_cast
    rw [Int.mul_ediv_cancel_left _ (by have := B.size_pos; omega), Int.add_sub_cancel]
  have hlen := Nat.div_add_mod d.length B.size
  have hlt := Nat.mod_lt d.length B.size_pos
  have hblocks := readBlocks_spec hiv pos (d.length / B.size) 1 (Nat.mul_div_le d.length B.size)
  have hrest : (d.drop (B.size * (d.length / B.size))).length = d.length % B.size := by
    rw [length_drop]
    omega
  rw [Nat.mul_one, take_of_length_le (by omega)] at hblocks
  rw [Reader.dataSize, hidx, hblocks, hsize, Nat.mul_succ]
  split
  · next heq =>
    split at heq
    · simp at heq
    · cases heq
      rw [hrest]
      congr 1
      omega
  · next heq =>
    split at heq
    · next hnil =>
      rw [hnil, length_nil] at hrest
      congr 1
      omega
    · simp at heq
  · next hne heq =>
    split at heq
    · cases heq
      exact absurd rfl hne
    · simp at heq

def paddedLength (B : Block) (d : Bytes) : ℕ := B.size * (d.length / B.size + 1)

theorem length_lt_paddedLength (B : Block) (d : Bytes) : d.length < paddedLength B d :=
  Nat.lt_mul_div_succ _ B.size_pos

theorem mod_paddedLength (B : Block) (d : Bytes) : paddedLength B d % B.size = 0 := Nat.mul_mod_right _ _

/-- A position in front of the end of the last block is not behind the block with the end of the data. -/
theorem div_le_of_lt {pos : ℕ} (h : pos < paddedLength B d) : B.size * (pos / B.size) ≤ d.length := by
  have hlt : pos / B.size < d.length / B.size + 1 := (Nat.div_lt_iff_lt_mul B.size_pos).mpr (by
    rw [Nat.mul_comm]
    exact h)
  exact (Nat.mul_le_mul_left _ (by omega)).trans (Nat.mul_div_le _ _)

/-- The blocks of the reader decrypt to `d`, with padding behind it. -/
structure Deciphers (B : Block) (r : Reader) (d : Bytes) : Prop where
  size : r.size = paddedLength B d
  blocks : ∀ i m : ℕ, B.size * i ≤ d.length → readBlocks B r i (B.size * m) =
    if (d.drop (B.size * i)).take (B.size * m) = [] then .error .eof
    else .ok ((d.drop (B.size * i)).take (B.size * m))

theorem deciphers_readerAt (hiv : iv.length = B.size) (pos : ℕ) : Deciphers B (readerAt B iv d pos) d :=
  ⟨rfl, fun i m => readBlocks_spec hiv pos i m⟩

section Deciphers

variable {r : Reader} {pos n : ℕ} (h : Deciphers B r d) (hoff : r.offset = pos)
include h

theorem Deciphers.at (off : ℤ) : Deciphers B { r with offset := off } d := ⟨h.size, h.blocks⟩

include hoff

theorem Deciphers.read (hpos : pos ≤ d.length) (hn : 0 < n) :
    r.read B n = (if pos = d.length then .error .eof else .ok ((d.drop pos).take n),
      { r with offset := (pos + ((d.drop pos).take n).length : ℕ) }) := by
  have hdiv := Nat.div_add_mod pos B.size
  have hlt := Nat.mod_lt pos B.size_pos
  obtain ⟨m, hm, hle⟩ := roundUp_spec (B := B) (n + pos % B.size)
  have hout : (((d.drop (B.size * (pos / B.size))).take (B.size * m)).drop (pos % B.size)).take n =
      (d.drop pos).take n := by
    rw [drop_take, take_take, drop_drop, hdiv, Nat.min_eq_left (by omega)]
  rw [read_eq_deliver hoff hn, hm, h.blocks (pos / B.size) m (by omega)]
  by_cases hnil : (d.drop (B.size * (pos / B.size))).take (B.size * m) = []
  · have hend : pos = d.length := by
      have hlen := congrArg length hnil
      simp only [length_take, length_drop, length_nil] at hlen
      omega
    have hzero : ¬ pos % B.size > 0 := by
      have hlen := congrArg length hnil
      simp only [length_take, length_drop, length_nil] at hlen
      omega
    rw [if_pos hnil, Reader.deliver, if_neg hzero, if_pos hend]
    · simp only [hend, drop_length, take_nil, length_nil, Nat.add_zero, Prod.mk.injEq, true_and]
      rw [← hend, ← hoff]
    · simp
  · rw [if_neg hnil, Reader.deliver, if_neg ?_]
    · simp only [hout, hoff, Nat.cast_add]
      congr 1
      by_cases hend : pos = d.length
      · simp [hend]
      · have hne : (d.drop pos).take n ≠ [] := by
          rw [ne_eq, take_eq_nil_iff, drop_eq_nil_iff]
          omega
        rw [if_neg hne, if_neg hend]
    · simp only [length_take, length_drop]
      omega

theorem Deciphers.read_padding (hpos : d.length < pos) (hlt : pos < paddedLength B d) (hn : 0 < n) :
    r.read B n = (.error (.panic "slice bounds out of range"), r) := by
  have hdiv := Nat.div_add_mod pos B.size
  have hle := div_le_of_lt hlt
  obtain ⟨m, hm, -⟩ := roundUp_spec (B := B) (n + pos % B.size)
  rw [read_eq_deliver hoff hn, hm, h.blocks (pos / B.size) m hle]
  split
  · rw [Reader.deliver, if_pos (by omega)]
    intro msg h
    cases h
  · rw [Reader.deliver, if_pos]
    simp only [length_take, length_drop]
    omega

end Deciphers

theorem read_spec (hiv : iv.length = B.size) {pos n : ℕ} (hpos : pos ≤ d.length) (hn : 0 < n) :
    (readerAt B iv d pos).read B n = (if pos = d.length then .error .eof else .ok ((d.drop pos).take n),
        readerAt B iv d (pos + ((d.drop pos).take n).length)) :=
  (deciphers_readerAt hiv pos).read rfl hpos hn

end Read

section Run

inductive Access where
  | seek (offset : ℕ)
  | read (n : ℕ)

inductive Answer where
  | sought (offset : ℤ)
  | got (res : Except GoError Bytes)

def accessFile (B : Block) : Access → Reader → Answer × Reader
  | .seek offset, r => (.sought (r.seek offset).1, (r.seek offset).2)
  | .read n, r => (.got (r.read B n).1, (r.read B n).2)

/-- The same access to a byte string at position `pos`. -/
def accessBytes (d : Bytes) : Access → ℕ → Answer × ℕ
  | .seek offset, _ => (.sought offset, offset)
  | .read n, pos =>
    (.got (if pos = d.length then .error .eof else .ok ((d.drop pos).take n)),
      pos + ((d.drop pos).take n).length)

def answers {σ : Type} (step : Access → σ → Answer × σ) : List Access → σ → List Answer
  | [], _ => []
  | a :: as, s => (step a s).1 :: answers step as (step a s).2

/-- An access inside the data, with a buffer that is not empty. -/
def Access.Inside (d : Bytes) : Access → Prop
  | .seek offset => offset ≤ d.length
  | .read n => 0 < n

theorem accessFile_eq (hiv : iv.length = B.size) {d : Bytes} {pos : ℕ} (hpos : pos ≤ d.length)
    (a : Access) (ha : a.Inside d) :
    accessFile B a (readerAt B iv d pos) = ((accessBytes d a pos).1, readerAt B iv d (accessBytes d a pos).2) ∧
    (accessBytes d a pos).2 ≤ d.length := by
  cases a with
  | seek offset =>
    have hle : offset ≤ d.length := ha
    have hsize : ¬ (offset : ℤ) > (readerAt B iv d pos).size := by
      have hlt : d.length < B.size * (d.length / B.size + 1) := Nat.lt_mul_div_succ _ B.size_pos
      simp only [readerAt]
      omega
    refine ⟨?_, hle⟩
    simp only [accessFile, Reader.seek, if_neg (show ¬ (offset : ℤ) < 0 by omega), if_neg hsize, accessBytes]
    rfl
  | read n =>
    refine ⟨by simp only [accessFile, read_spec hiv hpos ha, accessBytes], ?_⟩
    simp only [accessBytes, length_take, length_drop]
    omega

theorem answers_eq (hiv : iv.length = B.size) {d : Bytes} {pos : ℕ} (hpos : pos ≤ d.length)
    (as : List Access) (has : ∀ a ∈ as, a.Inside d) :
    answers (accessFile B) as (readerAt B iv d pos) = answers (accessBytes d) as pos := by
  induction as generalizing pos with
  | nil => rfl
  | cons a as ih =>
    obtain ⟨hstep, hle⟩ := accessFile_eq hiv hpos a (has a (by simp))
    rw [answers, answers, hstep, ih hle (fun a' ha' => has a' (by simp [ha']))]

end Run

/-- A file written in any pieces has one block for the initialisation vector and one for
every started block of the padded data, and every access to it answers as the same
access to the data. -/
theorem cryptFile_roundTrip (B : Block) (iv : Bytes) (hiv : iv.length = B.size) (d : Bytes)
    (bufs : List Bytes) (hbufs : bufs.flatten = d) :
    ∃ file r, Method.exec fileSink (writeFile B iv bufs) () [] = (.ok (), (), file) ∧
      file.length = B.size * (d.length / B.size + 2) ∧
      newReader B file file.length = .ok r ∧ r.dataSize B = .ok d.length ∧
      ∀ as : List Access, (∀ a ∈ as, a.Inside d) →
        answers (accessFile B) as r = answers (accessBytes d) as 0 := by
  subst hbufs
  exact ⟨_, _, writeFile_spec hiv bufs, length_sealedFile hiv _, newReader_spec hiv _,
    dataSize_spec hiv _ 0, fun as has => answers_eq hiv (Nat.zero_le _) as has⟩

/-- Five bytes in blocks of two under a cipher that flips bits. -/
theorem cryptFile_roundTrip_five_bytes : ∃ file r,
    Method.exec fileSink (writeFile ⟨2, by decide, List.map (· ^^^ 0xf0), by simp⟩ [255, 255]
      [[1, 2, 3], [], [4, 5]]) () [] = (.ok (), (), file) ∧
    newReader ⟨2, by decide, List.map (· ^^^ 0xf0), by simp⟩ file file.length = .ok r ∧
    answers (accessFile ⟨2, by decide, List.map (· ^^^ 0xf0), by simp⟩) [.seek 3, .read 4, .read 1] r =
      [.sought 3, .got (.ok [4, 5]), .got (.error .eof)] := by
  obtain ⟨file, r, hrun, -, hnew, -, hans⟩ := cryptFile_roundTrip
    ⟨2, by decide, List.map (· ^^^ 0xf0), by simp⟩ [255, 255] rfl [1, 2, 3, 4, 5]
    [[1, 2, 3], [], [4, 5]] rfl
  refine ⟨file, r, hrun, hnew, (hans _ ?_).trans rfl⟩
  simp [Access.Inside]

def fourBlock : Block := ⟨4, by decide, List.map (· ^^^ 0xf0), by simp⟩

end Bpy.CryptFileRoundTrip
