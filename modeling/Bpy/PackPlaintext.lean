import Bpy.PackFile
import Mathlib.Data.List.Infix

/-!
# What is read from an arbitrary encrypted file

Decryption does not authenticate: whatever bytes stand in the place of a pack, a read
that succeeds returns a part of their xor with the key stream.
-/
namespace Bpy.PackPlaintext
open ByteWords ByteSources CounterMode CryptFile PackFile
open List

variable {B : Block}

/-- The decrypted bytes of a file behind its initialisation vector. -/
def plaintext (B : Block) (file iv : Bytes) : Bytes :=
  xor (file.drop B.size) (keystream B iv 0 file.length)

theorem stripPadding_ok {buf out : Bytes} (h : stripPadding buf = .ok out) : out <+: buf := by
  rw [stripPadding] at h
  split at h
  · simp at h
  · next x rest heq =>
    have hsuf : x :: rest <:+ buf.reverse := heq ▸ dropWhile_suffix _
    have hrest : rest <:+ buf.reverse := (suffix_cons x rest).trans hsuf
    rw [← Except.ok.inj h, ← reverse_suffix, reverse_reverse]
    exact hrest

theorem xor_blocks_take {file iv : Bytes} (hiv : iv.length = B.size) (i m n : ℕ) :
    xor ((file.drop (B.size * (1 + i))).take n) (keystream B iv i m) <+: (plaintext B file iv).drop (B.size * i) := by
  have hks : (keystream B iv 0 (i + (m + file.length))).drop (B.size * i) =
      keystream B iv i m ++ keystream B iv (i + m) file.length := by
    rw [keystream_add, keystream_add, Nat.zero_add, ← length_keystream hiv 0 i, drop_left]
  have hlen : (file.drop B.size).length ≤ B.size * file.length := by
    have := Nat.le_mul_of_pos_left file.length B.size_pos
    rw [length_drop]
    omega
  have hplain : (plaintext B file iv).drop (B.size * i) =
      xor (file.drop (B.size * (1 + i))) (keystream B iv i m ++ keystream B iv (i + m) file.length) := by
    rw [plaintext, ← xor_keystream_of_le hiv hlen (show file.length ≤ i + (m + file.length) by omega),
      CounterMode.xor, drop_zipWith, hks, drop_drop, Nat.mul_add, Nat.mul_one]
    rfl
  rw [hplain]
  exact xor_prefix_xor ( take_prefix _ _) (prefix_append _ _)

theorem readFullAt_ok {file buf : Bytes} {off n : ℕ} (h : readFullAt file off n = .ok buf) :
    buf = (file.drop off).take n := by
  rw [readFullAt, behind_natCast] at h
  split at h
  · exact (Except.ok.inj h).symm
  · split at h <;> simp at h

variable {r : CryptFile.Reader} {raw : Bytes}

theorem readBlocks_ok (hiv : r.iv.length = B.size) {i len : ℕ} {buf : Bytes}
    (h : readBlocks B r i len = .ok buf) : buf <+: (plaintext B r.file r.iv).drop (B.size * i) := by
  have hoff : (1 + (i : ℤ)) * B.size = (B.size * (1 + i) : ℕ) := by push_cast; ring
  have hu : uint64 (i : ℤ) = i := by simp [uint64]
  rw [readBlocks, hoff, hu] at h
  split at h
  · simp at h
  · split at h
    · simp at h
    · obtain ⟨n, hn⟩ : ∃ n, n = if r.size < (i : ℤ) * B.size + len
        then (r.size - (i : ℤ) * B.size).toNat else len := ⟨_, rfl⟩
      simp only [← hn] at h
      cases hread : readFullAt r.file (B.size * (1 + i) : ℕ) n with
      | error e => simp only [hread, bind, Except.bind, reduceCtorEq] at h
      | ok enc =>
        have henc := readFullAt_ok hread
        have hdec : decryptBlocks B (add r.iv i) (len / B.size) enc <+:
            (plaintext B r.file r.iv).drop (B.size * i) := by
          rw [decryptBlocks_eq hiv, henc]
          exact xor_blocks_take hiv i _ n
        simp only [hread, bind, Except.bind] at h
        by_cases hend : (i : ℤ) * B.size + n = r.size
        · rw [if_pos hend] at h
          cases hstrip : stripPadding (decryptBlocks B (add r.iv i) (len / B.size) enc) with
          | error e => simp [hstrip] at h
          | ok out =>
            simp only [hstrip] at h
            split at h
            · simp at h
            · exact Except.ok.inj h ▸ (stripPadding_ok hstrip).trans hdec
        · simp only [if_neg hend] at h
          split at h
          · simp at h
          · exact Except.ok.inj h ▸ hdec

/-- The reader is at a place of its file. -/
structure Positioned (B : Block) (r : CryptFile.Reader) : Prop where
  length_iv : r.iv.length = B.size
  offset_nonneg : 0 ≤ r.offset

/-- The plaintext from the position of the reader on. -/
def stream (B : Block) (r : CryptFile.Reader) : Bytes :=
  (plaintext B r.file r.iv).drop r.offset.toNat

theorem read_ok {r' : CryptFile.Reader} {n : ℕ} {out : Bytes} (hr : Positioned B r) (hn : 0 < n)
    (h : r.read B n = (.ok out, r')) : Positioned B r' ∧ out.length ≤ n ∧ stream B r = out ++ stream B r' := by
  obtain ⟨pos, hpos⟩ := Int.eq_ofNat_of_zero_le hr.offset_nonneg
  rw [read_eq_deliver hpos hn] at h
  obtain ⟨buf2, hb, hout, rfl⟩ := deliver_ok h
  have hpre : out <+: stream B r := by
    rw [stream, hpos, Int.toNat_natCast, ← Nat.div_add_mod pos B.size, ← drop_drop, hout]
    exact ( take_prefix n _).trans (List.IsPrefix.drop (readBlocks_ok hr.length_iv hb) _)
  refine ⟨⟨hr.length_iv, ?_⟩, ?_, ?_⟩
  · have := hr.offset_nonneg
    simp only
    omega
  · rw [hout]
    exact length_take_le _ _
  · have hnext : stream B { r with offset := r.offset + out.length } = (stream B r).drop out.length := by
      rw [stream, stream, drop_drop]
      congr 1
      simp only [hpos]
      omega
    rw [hnext]
    exact (prefix_iff_eq_append.mp hpre).symm

theorem read_at_end {n : ℕ} (hoff : r.offset = r.size)
    (hmod : r.size % B.size = 0) (hn : 0 < n) : r.read B n = (.error .eof, r) := by
  have hmul : r.size / B.size * B.size = r.size := Int.ediv_mul_cancel (Int.dvd_of_emod_eq_zero hmod)
  have hblocks : readBlocks B r (r.size / B.size) (roundUp B.size n) = .error .eof := by
    have hround : roundUp B.size n % B.size = 0 := by
      obtain ⟨m, hm, -⟩ := roundUp_spec (B := B) n
      rw [hm, Nat.mul_mod_right]
    rw [readBlocks, if_neg (not_not.mpr hround), if_pos hmul.ge]
  simp [CryptFile.Reader.read, hn.ne', hoff, hmod, hblocks, CryptFile.Reader.deliver]

theorem readFull_seek_ok (hr : Opened B r) {offset : ℤ} {sz : ℕ}
    (h : (readFull (cryptRead B) sz (r.seek offset).2).1 = .ok raw) :
    raw = ((plaintext B r.file r.iv).drop offset.toNat).take sz := by
  obtain ⟨off, hseek, hoff⟩ := seek_eq r offset
  obtain ⟨r', hread⟩ : ∃ r', readFullLoop (cryptRead B) sz sz [] { r with offset := off } = (.ok raw, r') := by
    rw [hseek] at h
    exact ⟨_, Prod.ext h rfl⟩
  rcases Nat.eq_zero_or_pos sz with rfl | hsz
  · simp only [readFullLoop, if_true, Prod.mk.injEq, Except.ok.injEq] at hread
    simp [← hread.1]
  · rcases hoff with hend | hoff
    · have hstop := read_at_end (B := B) (r := { r with offset := off }) hend hr.size_mod hsz
      obtain ⟨m, rfl⟩ : ∃ m, sz = m + 1 := ⟨sz - 1, by omega⟩
      simp [readFullLoop, cryptRead, hstop] at hread
    · have hpos : Positioned B { r with offset := off } := ⟨hr.length_iv, by simp only; omega⟩
      obtain ⟨-, hlen, hstream⟩ := readFullLoop_ok (cryptRead B)
        (fun r n out r' hr hn h => read_ok hr hn h) hpos hread
      simp only [nil_append, stream, hoff, Int.toNat_natCast] at hstream
      rw [length_nil, Nat.zero_add] at hlen
      rw [hstream, ← hlen, take_left]

/-- The decrypted bytes that an index entry names. -/
def slice (p : PackReader B) (offset sz : ℕ) : Bytes :=
  ((plaintext B p.r.file p.r.iv).drop (int64 offset).toNat).take sz

/-- A value read from a pack is the slice of the plaintext that its entry names, whoever
supplied the file. -/
theorem getAt_ok {p : PackReader B} {offset sz : ℕ} (h : p.getAt offset sz = .ok raw) :
    raw = slice p offset sz := readFull_seek_ok p.opened h

end Bpy.PackPlaintext
