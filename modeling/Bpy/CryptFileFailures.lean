import Bpy.ByteSources
import Bpy.CryptFileRoundTrip

/-!
# `cryptofile.Reader` over a file that may fail

`Read` cuts the bytes in front of its position off what it has read from the start of the
block. It does so even if it has read nothing because the file failed, or less because the
position lies in the padding.
-/
namespace Bpy.CryptFileFailures
open ByteWords ContentStore ByteSources CounterMode CryptFile CryptFileRoundTrip

/-- `cryptofile.Reader` over a handle with the state `r`. -/
structure Reader (ρ : Type) where
  r : ρ
  size : ℤ
  offset : ℤ
  iv : Bytes

section Reader

variable {ρ : Type} (f : Handle ρ) (B : Block)

def newReader (r : ρ) (fsize : ℤ) : Except GoError (Reader ρ) :=
  if fsize % B.size ≠ 0 then .error (.text "file size is not a multiple of block size")
  else match f.fetch 0 B.size r with
    | (.error e, _) => .error e
    | (.ok iv, r') => .ok ⟨r', fsize - B.size, 0, iv⟩

/-- `Seek`, with `io.SeekStart` for 0. -/
def Reader.seek (R : Reader ρ) (offset : ℤ) (whence : ℕ) : Except GoError ℤ × Reader ρ :=
  if whence ≠ 0 then (.error (.text "unsupported whence"), R)
  else
    let offset := if offset < 0 then 0 else offset
    let offset := if offset > R.size then R.size else offset
    (.ok offset, { R with offset := offset })

/-- The length of the buffer of `readBlocks(idx, buf)`, which does not reach behind the last block. -/
def span (size idx : ℤ) (len : ℕ) : ℕ :=
  if size < idx * B.size + len then (size - idx * B.size).toNat else len

/-- The end of `readBlocks`, when `enc` has been read. -/
def decrypt (size : ℤ) (iv : Bytes) (idx : ℤ) (len : ℕ) (enc : Bytes) : Except GoError Bytes := do
  let buf := decryptBlocks B (add iv (uint64 idx)) (len / B.size) enc
  let buf ← if idx * B.size + span B size idx len = size then stripPadding buf else .ok buf
  if buf = [] then .error .eof else .ok buf

def readBlocks (R : Reader ρ) (idx : ℤ) (len : ℕ) : Except GoError Bytes × ρ :=
  if len % B.size ≠ 0 then (.error (.panic "bufsize not multiple of blocksize"), R.r)
  else if idx * B.size ≥ R.size then (.error .eof, R.r)
  else match f.fetch ((1 + idx) * B.size) (span B R.size idx len) R.r with
    | (.error e, r) => (.error e, r)
    | (.ok enc, r) => (decrypt B R.size R.iv idx len enc, r)

/-- The end of `Read`, with `len(buf) = n`. `nread` is 0 if there is an error. -/
def Reader.deliver (R : Reader ρ) (n shiftamnt : ℕ) : Except GoError Bytes → Except GoError Bytes × Reader ρ
  | .ok buf2 =>
    if shiftamnt > buf2.length then (.error (.panic "slice bounds out of range"), R)
    else
      let out := (buf2.drop shiftamnt).take n
      (if out = [] then .error .eof else .ok out, { R with offset := R.offset + out.length })
  | .error (.panic msg) => (.error (.panic msg), R)
  | .error e => if shiftamnt > 0 then (.error (.panic "slice bounds out of range"), R) else (.error e, R)

/-- The length of the buffer of whole blocks for `Read` of `n` bytes. -/
def Reader.buflen (R : Reader ρ) (n : ℕ) : ℕ := roundUp B.size (n + (R.offset % B.size).toNat)

def Reader.read (R : Reader ρ) (n : ℕ) : Except GoError Bytes × Reader ρ :=
  if n = 0 then (.ok [], R)
  else
    let shiftamnt := (R.offset % B.size).toNat
    let aligned := R.offset - shiftamnt
    match readBlocks f B R (aligned / B.size) (R.buflen B n) with
    | (res, r) => Reader.deliver { R with r := r } n shiftamnt res

/-- The readers that `NewReader` returns, and then after any `Seek` and `Read` calls. -/
inductive Reached (fsize : ℤ) : Reader ρ → Prop
  | new {r : ρ} {R : Reader ρ} (h : newReader f B r fsize = .ok R) : Reached fsize R
  | seek {R : Reader ρ} (h : Reached fsize R) (offset : ℤ) (whence : ℕ) : Reached fsize (R.seek offset whence).2
  | read {R : Reader ρ} (h : Reached fsize R) (n : ℕ) : Reached fsize (R.read f B n).2

/-- A call to the file fails with `e` in `Read` of `n` bytes. At the end of the blocks and for an empty
buffer there is no call. -/
def Reader.Failing (R : Reader ρ) (n : ℕ) (e : GoError) : Prop :=
  0 < n ∧ R.offset < R.size ∧
    f.FetchFails ((1 + R.offset / B.size) * B.size) (span B R.size (R.offset / B.size) (R.buflen B n)) e R.r

end Reader

section Plain

variable {ρ : Type} {f : Handle ρ} {B : Block}

/-- The reader over the bytes of the file. -/
def Reader.over (R : Reader ρ) (file : Bytes) : CryptFile.Reader := ⟨file, R.size, R.offset, R.iv⟩

theorem over_deliver (R : Reader ρ) (file : Bytes) (n shiftamnt : ℕ) (res : Except GoError Bytes) :
    (R.over file).deliver n shiftamnt res = ((R.deliver n shiftamnt res).1, (R.deliver n shiftamnt res).2.over file) := by
  cases res with
  | ok buf2 =>
    rw [CryptFile.Reader.deliver, Reader.deliver]
    split <;> rfl
  | error e =>
    cases e with
    | panic msg => rfl
    | _ =>
      simp only [CryptFile.Reader.deliver, Reader.deliver]
      split <;> rfl

theorem readBlocks_over {R : Reader ρ} {file enc : Bytes} {idx : ℤ} {len : ℕ} {r : ρ}
    (hfetch : f.fetch ((1 + idx) * B.size) (span B R.size idx len) R.r = (.ok enc, r))
    (hread : readFullAt file ((1 + idx) * B.size) (span B R.size idx len) = .ok enc) :
    (readBlocks f B R idx len).1 = CryptFile.readBlocks B (R.over file) idx len := by
  have hsize : (R.over file).size = R.size := rfl
  have hfile : (R.over file).file = file := rfl
  rw [span] at hread
  rw [readBlocks, CryptFile.readBlocks]
  split
  · rfl
  · rw [hsize]
    split
    · rfl
    · simp only [hfetch, hfile, hread]
      rfl

end Plain

section WellFormed

variable {ρ : Type} {f : Handle ρ} {B : Block} {iv d : Bytes} {stream : ρ → Bytes} {R : Reader ρ} {pos n : ℕ}

/-- The reader of the file of `d` at the position `pos`, which may lie in the padding. -/
structure At (B : Block) (iv d : Bytes) (pos : ℕ) (R : Reader ρ) : Prop where
  size : R.size = paddedLength B d
  offset : R.offset = pos
  iv : R.iv = iv
  le : pos ≤ paddedLength B d

theorem At.over (h : At B iv d pos R) : R.over (sealedFile B iv d) = readerAt B iv d pos := by
  rw [Reader.over, h.size, h.offset, h.iv]
  rfl

theorem at_of_over (h : R.over (sealedFile B iv d) = readerAt B iv d pos) (hle : pos ≤ paddedLength B d) :
    At B iv d pos R :=
  ⟨congrArg CryptFile.Reader.size h, congrArg CryptFile.Reader.offset h, congrArg CryptFile.Reader.iv h, hle⟩

theorem At.shift (h : At B iv d pos R) : (R.offset % B.size).toNat = pos % B.size := by
  rw [h.offset, ← Int.natCast_mod, Int.toNat_natCast]

theorem At.block (h : At B iv d pos R) : R.offset / B.size = (pos / B.size : ℕ) := by
  rw [h.offset]
  rfl

theorem At.fetch_off (h : At B iv d pos R) : (1 + R.offset / B.size) * B.size = (B.size * (1 + pos / B.size) : ℕ) := by
  rw [h.block]
  push_cast
  ring

theorem At.read_eq (h : At B iv d pos R) (hn : 0 < n) : R.read f B n =
    Reader.deliver { R with r := (readBlocks f B R (R.offset / B.size) (R.buflen B n)).2 } n (pos % B.size)
      (readBlocks f B R (R.offset / B.size) (R.buflen B n)).1 := by
  have hdiv : (R.offset - (pos % B.size : ℕ)) / B.size = R.offset / B.size := by
    have hsum : ((B.size * (pos / B.size) : ℕ) : ℤ) + (pos % B.size : ℕ) = pos := by
      exact_mod_cast Nat.div_add_mod pos B.size
    rw [h.block, show R.offset - ((pos % B.size : ℕ) : ℤ) = B.size * (pos / B.size : ℕ) by
      rw [h.offset, ← hsum]
      push_cast
      ring]
    exact Int.mul_ediv_cancel_left _ (by have := B.size_pos; omega)
  rw [Reader.read, if_neg hn.ne']
  simp only [h.shift, hdiv]

theorem At.read_end (h : At B iv d (paddedLength B d) R) (hn : 0 < n) : R.read f B n = (.error .eof, R) := by
  obtain ⟨m, hm, -⟩ := roundUp_spec (B := B) (n + (R.offset % B.size).toNat)
  have hblocks : readBlocks f B R (R.offset / B.size) (R.buflen B n) = (.error .eof, R.r) := by
    have hidx : (R.offset / B.size) * B.size = R.size := by
      rw [h.block, h.size, paddedLength, Nat.mul_div_cancel_left _ B.size_pos]
      push_cast
      ring
    rw [readBlocks, Reader.buflen, hm, if_neg (by simp), if_pos (by rw [hidx])]
  rw [h.read_eq hn, hblocks, mod_paddedLength, Reader.deliver]
  · rfl
  · exact nofun

/-- In front of the end, `Read` does what it does over the bytes of the file, or a call to the file
fails and the bytes in front of the position are cut off nothing. -/
theorem At.read_cases (h : At B iv d pos R) (hf : f.Backed (sealedFile B iv d) stream) (hn : 0 < n)
    (hlt : pos < paddedLength B d) :
    ((∀ e, ¬ R.Failing f B n e) ∧ (R.read f B n).1 = ((readerAt B iv d pos).read B n).1 ∧
      (R.read f B n).2.over (sealedFile B iv d) = ((readerAt B iv d pos).read B n).2) ∨
    ∃ e r, R.Failing f B n e ∧ R.read f B n = Reader.deliver { R with r := r } n (pos % B.size) (.error e) := by
  obtain ⟨m, hm, -⟩ := roundUp_spec (B := B) (n + (R.offset % B.size).toNat)
  have hin : ¬ R.offset / B.size * B.size ≥ R.size := by
    have hle := div_le_of_lt hlt
    have hlen := length_lt_paddedLength B d
    rw [h.block, h.size, ge_iff_le, not_le]
    calc ((pos / B.size : ℕ) : ℤ) * B.size = (B.size * (pos / B.size) : ℕ) := by push_cast; ring
      _ < (paddedLength B d : ℕ) := by omega
  have hlt' : R.offset < R.size := by
    rw [h.offset, h.size]
    exact_mod_cast hlt
  rcases hf.fetch_cases (B.size * (1 + pos / B.size)) (span B R.size (R.offset / B.size) (R.buflen B n)) R.r with
    ⟨r, hfetch, hle, hno⟩ | ⟨e, r, hfail, hfetch⟩
  · rw [← h.fetch_off] at hfetch hno
    have hread : readFullAt (sealedFile B iv d) ((1 + R.offset / B.size) * B.size)
        (span B R.size (R.offset / B.size) (R.buflen B n)) =
        .ok (((sealedFile B iv d).drop (B.size * (1 + pos / B.size))).take
          (span B R.size (R.offset / B.size) (R.buflen B n))) := by
      rw [readFullAt, h.fetch_off, behind_natCast, if_pos hle]
    have hblocks := readBlocks_over hfetch hread
    refine .inl ⟨fun e hfailing => hno e hfailing.2.2, ?_⟩
    have hplain : (readerAt B iv d pos).read B n = (readerAt B iv d pos).deliver n (pos % B.size)
        (readBlocks f B R (R.offset / B.size) (R.buflen B n)).1 := by
      rw [read_eq_deliver rfl hn, hblocks, h.over, h.block, Reader.buflen, h.shift]
    rw [h.read_eq hn, hplain, ← h.over]
    have hover := over_deliver { R with r := (readBlocks f B R (R.offset / B.size) (R.buflen B n)).2 }
      (sealedFile B iv d) n (pos % B.size) (readBlocks f B R (R.offset / B.size) (R.buflen B n)).1
    exact ⟨(congrArg Prod.fst hover).symm, (congrArg Prod.snd hover).symm⟩
  · rw [← h.fetch_off] at hfetch hfail
    refine .inr ⟨e, r, ⟨hn, hlt', hfail⟩, ?_⟩
    have hblocks : readBlocks f B R (R.offset / B.size) (R.buflen B n) = (.error e, r) := by
      rw [readBlocks, if_neg (by rw [Reader.buflen, hm]; simp), if_neg hin, hfetch]
    rw [h.read_eq hn, hblocks]

theorem At.seek (h : At B iv d pos R) (offset : ℤ) (whence : ℕ) : ∃ pos', At B iv d pos' (R.seek offset whence).2 := by
  rw [Reader.seek]
  split
  · exact ⟨pos, h⟩
  · refine ⟨min offset.toNat (paddedLength B d), h.size, ?_, h.iv, Nat.min_le_right _ _⟩
    dsimp only
    rw [h.size]
    split <;> split <;> omega

theorem deliver_error_at {r : ρ} {e : GoError} (h : At B iv d pos R) :
    At B iv d pos (Reader.deliver { R with r := r } n (pos % B.size) (.error e)).2 := by
  have hR : At B iv d pos { R with r := r } := ⟨h.size, h.offset, h.iv, h.le⟩
  rw [Reader.deliver.eq_def]
  split
  · next heq => cases heq
  · exact hR
  · split <;> exact hR

theorem At.read (h : At B iv d pos R) (hiv : iv.length = B.size) (hf : f.Backed (sealedFile B iv d) stream) (n : ℕ) :
    ∃ pos', At B iv d pos' (R.read f B n).2 := by
  rcases Nat.eq_zero_or_pos n with rfl | hn
  · exact ⟨pos, by rw [Reader.read, if_pos rfl]; exact h⟩
  rcases h.le.eq_or_lt with rfl | hlt
  · exact ⟨paddedLength B d, by rw [h.read_end hn]; exact h⟩
  rcases h.read_cases hf hn hlt with ⟨-, -, hover⟩ | ⟨e, r, -, hread⟩
  · by_cases hpos : pos ≤ d.length
    · rw [read_spec hiv hpos hn] at hover
      refine ⟨_, at_of_over hover (le_trans ?_ (length_lt_paddedLength B d).le)⟩
      simp only [List.length_take, List.length_drop]
      omega
    · rw [(deciphers_readerAt hiv pos).read_padding rfl (by omega) hlt hn] at hover
      exact ⟨pos, at_of_over hover h.le⟩
  · exact ⟨pos, by rw [hread]; exact deliver_error_at h⟩

theorem newReader_at (hiv : iv.length = B.size) (hf : f.Backed (sealedFile B iv d) stream) {r : ρ}
    (h : newReader f B r (sealedFile B iv d).length = .ok R) : At B iv d 0 R := by
  have hlen := length_sealedFile hiv d
  rw [newReader] at h
  split at h
  · cases h
  · rcases hf.fetch_cases 0 B.size r with ⟨r', hfetch, -, -⟩ | ⟨e, r', -, hfetch⟩
    · rw [Nat.cast_zero] at hfetch
      rw [hfetch, List.drop_zero, sealedFile, List.take_left' hiv, ← sealedFile] at h
      cases h
      refine ⟨?_, rfl, rfl, Nat.zero_le _⟩
      change ((sealedFile B iv d).length : ℤ) - B.size = _
      rw [hlen, paddedLength]
      push_cast
      ring
    · rw [Nat.cast_zero] at hfetch
      rw [hfetch] at h
      cases h

theorem Reached.at (hiv : iv.length = B.size) (hf : f.Backed (sealedFile B iv d) stream)
    (h : Reached f B (sealedFile B iv d).length R) : ∃ pos, At B iv d pos R := by
  induction h with
  | new h => exact ⟨0, newReader_at hiv hf h⟩
  | seek _ offset whence ih =>
    obtain ⟨pos, hpos⟩ := ih
    exact hpos.seek offset whence
  | read _ n ih =>
    obtain ⟨pos, hpos⟩ := ih
    exact hpos.read hiv hf n

/-- `Read` does not panic. It returns the error of a call that failed, and `io.EOF` if none did and the
position is not in front of the end of the data. -/
structure Total (f : Handle ρ) (B : Block) (d : Bytes) (R : Reader ρ) (n : ℕ) : Prop where
  returns : ∀ msg, (R.read f B n).1 ≠ .error (.panic msg)
  failed : ∀ e, R.Failing f B n e → (R.read f B n).1 = .error e
  ended : (∀ e, ¬ R.Failing f B n e) → (d.length : ℤ) ≤ R.offset → (R.read f B n).1 = .error .eof

theorem Failing.unique {e e' : GoError} (h : R.Failing f B n e) (h' : R.Failing f B n e') : e = e' :=
  h.2.2.unique h'.2.2

theorem total_empty_iff : Total f B d R 0 ↔ R.offset < d.length := by
  have hread : R.read f B 0 = (.ok [], R) := rfl
  have hno (e : GoError) : ¬ R.Failing f B 0 e := fun h => Nat.lt_irrefl 0 h.1
  constructor
  · intro h
    by_contra hge
    have heof := h.ended hno (not_lt.mp hge)
    rw [hread] at heof
    cases heof
  · intro hlt
    exact ⟨fun msg => by rw [hread]; exact nofun, fun e he => absurd he (hno e), fun _ hge => absurd hge (not_le.mpr hlt)⟩

theorem At.total_iff (h : At B iv d pos R) (hiv : iv.length = B.size) (hf : f.Backed (sealedFile B iv d) stream)
    (hn : 0 < n) (hlt : pos < paddedLength B d) : Total f B d R n ↔
      pos ≤ d.length ∧ (pos % B.size = 0 ∨ ∀ e, ¬ R.Failing f B n e) := by
  rcases h.read_cases hf hn hlt with ⟨hno, hres, -⟩ | ⟨e, r, hfail, hread⟩
  · by_cases hpos : pos ≤ d.length
    · refine iff_of_true ⟨fun msg => ?_, fun e he => absurd he (hno e), fun _ hge => ?_⟩ ⟨hpos, .inr hno⟩
      · rw [hres, read_spec hiv hpos hn]
        dsimp only
        split <;> exact nofun
      · rw [h.offset] at hge
        rw [hres, read_spec hiv hpos hn, if_pos (by omega)]
    · refine iff_of_false (fun htotal => ?_) (fun hcond => hpos hcond.1)
      rw [(deciphers_readerAt hiv pos).read_padding rfl (by omega) hlt hn] at hres
      exact htotal.returns _ hres
  · have hle : pos % B.size = 0 → pos ≤ d.length := fun hmod => by
      have hdiv := Nat.div_add_mod pos B.size
      have hle := div_le_of_lt hlt
      omega
    by_cases hmod : pos % B.size = 0
    · have hres : (R.read f B n).1 = .error e := by
        rw [hread, hmod, Reader.deliver]
        · rfl
        · exact fun msg => hf.ne_panic_of_fetchFails hfail.2.2 msg
      refine iff_of_true ⟨fun msg => ?_, fun e' he' => ?_, fun hno => absurd hfail (hno e)⟩ ⟨hle hmod, .inl hmod⟩
      · rw [hres]
        exact fun heq => hf.ne_panic_of_fetchFails hfail.2.2 msg (Except.error.inj heq)
      · rw [hres, Failing.unique hfail he']
    · refine iff_of_false (fun htotal => ?_) (fun hcond => hcond.2.elim hmod (fun hno => hno e hfail))
      refine htotal.returns "slice bounds out of range" ?_
      rw [hread, Reader.deliver, if_pos (Nat.pos_of_ne_zero hmod)]
      exact fun msg => hf.ne_panic_of_fetchFails hfail.2.2 msg

/-- For every reader of a well-formed file that may fail: `Read` returns as it should exactly if the
buffer is not empty and the position is at the end of the blocks, or it is not behind the data and
the file does not fail unless the position is at the start of a block. With an empty buffer `Read`
returns no error at the end of the data. -/
theorem read_total_iff {ρ : Type} (f : Handle ρ) (stream : ρ → Bytes) (B : Block) (iv d : Bytes)
    (hiv : iv.length = B.size) (hf : f.Backed (sealedFile B iv d) stream) (R : Reader ρ)
    (hR : Reached f B (sealedFile B iv d).length R) (n : ℕ) :
    Total f B d R n ↔ if n = 0 then R.offset < d.length else
      R.offset = R.size ∨
        R.offset ≤ d.length ∧ (R.offset % B.size = 0 ∨ ∀ e, ¬ R.Failing f B n e) := by
  obtain ⟨pos, h⟩ := hR.at hiv hf
  rcases Nat.eq_zero_or_pos n with rfl | hn
  · rw [if_pos rfl]
    exact total_empty_iff
  rw [if_neg hn.ne']
  rcases h.le.eq_or_lt with rfl | hlt
  · have hread := h.read_end (f := f) hn
    have hno (e : GoError) : ¬ R.Failing f B n e := fun hfail =>
      absurd hfail.2.1 (by rw [h.offset, h.size]; exact lt_irrefl _)
    refine iff_of_true ⟨fun msg => ?_, fun e he => absurd he (hno e), fun _ _ => ?_⟩ (.inl (by rw [h.offset, h.size]))
    · rw [hread]
      exact nofun
    · rw [hread]
  · rw [h.total_iff hiv hf hn hlt, h.offset, h.size]
    have hne : ¬ ((pos : ℤ) = paddedLength B d) := by
      exact_mod_cast hlt.ne
    have hmod : ((pos : ℤ) % B.size = 0) ↔ pos % B.size = 0 := by
      rw [← Int.natCast_mod]
      exact_mod_cast Iff.rfl
    rw [hmod, or_iff_right hne, Nat.cast_le]

end WellFormed

section Example

/-- The file of which call number `i` fails if `fails i` is an error. The state is the position and the
number of calls so far. -/
def failing (file : Bytes) (fails : ℕ → Option GoError) : Handle (ℕ × ℕ) where
  read r n := match fails r.2 with
    | some e => (.error e, (r.1, r.2 + 1))
    | none => if file.length ≤ r.1 then (.error .eof, (r.1, r.2 + 1))
      else (.ok ((file.drop r.1).take n), (r.1 + n, r.2 + 1))
  seek r off := match fails r.2 with
    | some e => (.error e, (r.1, r.2 + 1))
    | none => if off < 0 then (.error (.text "negative position"), (r.1, r.2 + 1)) else (.ok (), (off.toNat, r.2 + 1))

theorem backed_failing (file : Bytes) {fails : ℕ → Option GoError} (hfails : ∀ i msg, fails i ≠ some (.panic msg)) :
    (failing file fails).Backed file (fun r => file.drop r.1) where
  read_ok := by
    intro r r' n out hn hread
    simp only [failing] at hread
    split at hread
    · cases hread
    · split at hread
      · cases hread
      · next hlt =>
        cases hread
        refine ⟨?_, List.length_take_le _ _, ?_⟩
        · simp only [ne_eq, List.take_eq_nil_iff, List.drop_eq_nil_iff]
          omega
        · rw [← List.drop_drop, List.take_append_drop]
  seek_ok := by
    intro r r' n hseek
    simp only [failing] at hseek
    split at hseek
    · cases hseek
    · rw [if_neg (by omega), Int.toNat_natCast] at hseek
      cases hseek
      rfl
  read_returns := by
    intro r n msg
    simp only [failing]
    split
    · next e he =>
      rintro ⟨⟩
      exact hfails _ msg he
    · split <;> exact nofun
  seek_returns := by
    intro r off msg
    simp only [failing]
    split
    · next e he =>
      rintro ⟨⟩
      exact hfails _ msg he
    · split <;> exact nofun

def fiveFile : Bytes := sealedFile fourBlock [0, 0, 0, 0] [1, 2, 3, 4, 5]

/-- The reader after `NewReader`, which makes two calls. -/
def fiveReader : Reader (ℕ × ℕ) := ⟨(4, 2), 8, 0, [0, 0, 0, 0]⟩

def lost (i : ℕ) : Option GoError := if i < 2 then none else some (.text "lost")

theorem lost_ne_panic (i : ℕ) (msg : String) : lost i ≠ some (.panic msg) := by
  rw [lost]
  split <;> exact nofun

theorem reached_five_lost : Reached (failing fiveFile lost) fourBlock fiveFile.length fiveReader :=
  .new (show newReader (failing fiveFile lost) fourBlock (0, 0) fiveFile.length = .ok fiveReader from rfl)

theorem read_total_lost : fiveReader.offset % fourBlock.size = 0 ∧
    Total (failing fiveFile lost) fourBlock [1, 2, 3, 4, 5] fiveReader 3 :=
  ⟨rfl, (read_total_iff (failing fiveFile lost) _ fourBlock [0, 0, 0, 0] [1, 2, 3, 4, 5] rfl
    (backed_failing _ lost_ne_panic) fiveReader reached_five_lost 3).mpr (.inr ⟨by decide, .inl rfl⟩)⟩

/-- After `Seek(7)` the position is in the padding and `Read` panics. After `Seek(1)` it panics if the
file fails. -/
theorem read_panics :
    Reached (failing fiveFile fun _ => none) fourBlock fiveFile.length (fiveReader.seek 7 0).2 ∧
    ((fiveReader.seek 7 0).2.read (failing fiveFile fun _ => none) fourBlock 1).1 =
      .error (.panic "slice bounds out of range") ∧
    Reached (failing fiveFile lost) fourBlock fiveFile.length (fiveReader.seek 1 0).2 ∧
    ((fiveReader.seek 1 0).2.read (failing fiveFile lost) fourBlock 1).1 =
      .error (.panic "slice bounds out of range") ∧
    ¬ Total (failing fiveFile fun _ => none) fourBlock [1, 2, 3, 4, 5] (fiveReader.seek 7 0).2 1 ∧
    ¬ Total (failing fiveFile lost) fourBlock [1, 2, 3, 4, 5] (fiveReader.seek 1 0).2 1 := by
  have hpadding : ((fiveReader.seek 7 0).2.read (failing fiveFile fun _ => none) fourBlock 1).1 =
      .error (.panic "slice bounds out of range") := by decide
  have hlost : ((fiveReader.seek 1 0).2.read (failing fiveFile lost) fourBlock 1).1 =
      .error (.panic "slice bounds out of range") := by decide
  refine ⟨.seek (.new (show newReader _ fourBlock (0, 0) fiveFile.length = .ok fiveReader from rfl)) 7 0, hpadding,
    .seek reached_five_lost 1 0, hlost, fun htotal => htotal.returns _ hpadding, fun htotal => htotal.returns _ hlost⟩

end Example

end Bpy.CryptFileFailures
