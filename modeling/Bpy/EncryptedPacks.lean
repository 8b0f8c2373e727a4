import Bpy.CryptFileRoundTrip
import Bpy.PackRoundTrip

/-!
# Packs in encrypted files

A pack that was written through the encrypting writer can be opened: its index and its
values are those that were written.
-/
namespace Bpy.EncryptedPacks
open ByteWords InteractionPrograms ContentStore ByteSources CounterMode CryptFile CryptFileRoundTrip
open PackFile PackRoundTrip Method
open List

variable {B : Block} {iv : Bytes}

section Write

/-- `Write` of the encrypted file; the number it returns is not used. -/
def cryptWrite (B : Block) (data : Bytes) : SinkM CryptFile.Writer Unit := do
  let _ ← CryptFile.write B data
  pure ()

theorem cryptWrite_emits (hiv : iv.length = B.size) (data : Bytes) :
    Emits fileSink (Written B iv) (cryptWrite B data) () data := by
  intro w file d hw
  obtain ⟨w', file', hrun, hw'⟩ := write_spec hiv data hw
  refine ⟨w', file', ?_, hw'⟩
  rw [cryptWrite, exec_bind_ok fileSink hrun, exec_pure]

theorem close_encrypted (hiv : iv.length = B.size) {w : CryptFile.Writer} {file data : Bytes}
    (hw : Written B iv w file data) {p : PackWriter} (hoff : p.offset = data.length)
    (hidx : ∀ e ∈ p.index, e.key.length ≤ maxPackEntrySize) :
    ∃ w', exec fileSink (p.close (cryptWrite B) (CryptFile.close B)) w file =
      (.ok (sortIndex p.index), w', sealedFile B iv (packBytes data (sortIndex p.index))) := by
  obtain ⟨w₁, file₁, hrun₁, hw₁⟩ := writeIndex_emits (cryptWrite_emits hiv) hidx w file data hw
  obtain ⟨w₂, file₂, hrun₂, hw₂⟩ := cryptWrite_emits hiv (leBytes 8 p.offset) w₁ file₁ _ hw₁
  obtain ⟨w₃, hrun₃⟩ := close_spec hiv hw₂
  refine ⟨w₃, ?_⟩
  rw [PackWriter.close, exec_bind_ok fileSink hrun₁, writeUInt64, exec_bind_ok fileSink hrun₂,
    exec_bind_ok fileSink hrun₃, exec_pure, packBytes, hoff]

end Write

section Read

/-- The reader of an encrypted file as `ReadSeekCloser`. Its `Seek` returns no error. -/
def cryptHandle (B : Block) : Handle CryptFile.Reader where
  read := cryptRead B
  seek r off := (.ok (), (r.seek off).2)

/-- The reader stands inside its data. -/
def Inside (r₀ : CryptFile.Reader) (d : Bytes) (r : CryptFile.Reader) : Prop :=
  ∃ pos : ℕ, pos ≤ d.length ∧ r = { r₀ with offset := pos }

theorem delivers_of_deciphers {r₀ : CryptFile.Reader} {d : Bytes} (h : Deciphers B r₀ d) :
    Delivers (cryptRead B) (fun r => d.drop r.offset.toNat) (Inside r₀ d) := by
  rintro r n ⟨pos, hpos, rfl⟩ hn hne
  simp only [Int.toNat_natCast] at hne ⊢
  have hlt : pos < d.length := by simpa [drop_eq_nil_iff] using hne
  refine ⟨(d.drop pos).take n, { r₀ with offset := (pos + ((d.drop pos).take n).length : ℕ) }, ?_,
    ⟨_, ?_, rfl⟩, ?_, length_take_le _ _, ?_⟩
  · rw [cryptRead, (h.at pos).read rfl hpos hn, if_neg (by omega)]
  · simp only [length_take, length_drop]
    omega
  · simp only [ne_eq, take_eq_nil_iff, not_or]
    exact ⟨hn.ne', hne⟩
  · rw [Int.toNat_natCast, ← drop_drop]
    exact (prefix_iff_eq_append.mp ( take_prefix n _)).symm

theorem cryptHandle_serves (hiv : iv.length = B.size) (d : Bytes) :
    (cryptHandle B).Serves d (fun r => d.drop r.offset.toNat)
      (fun r => ∃ pos, pos ≤ d.length ∧ r = readerAt B iv d pos) where
  delivers := delivers_of_deciphers (deciphers_readerAt hiv 0)
  seek_ok := by
    rintro r n ⟨pos, hpos, rfl⟩ hn
    have hseek := (accessFile_eq hiv hpos (.seek n) hn).1
    simp only [accessFile, accessBytes, Prod.mk.injEq] at hseek
    refine ⟨readerAt B iv d n, ?_, ⟨n, hn, rfl⟩, ?_⟩
    · simp only [cryptHandle, hseek.2]
    · simp only [readerAt, Int.toNat_natCast]

theorem length_le_sealedFile (hiv : iv.length = B.size) (d : Bytes) : d.length ≤ (sealedFile B iv d).length := by
  have hdiv := Nat.lt_mul_div_succ d.length B.size_pos
  rw [length_sealedFile hiv, Nat.mul_add B.size _ 2]
  rw [Nat.mul_add] at hdiv
  omega

theorem newEncryptedReader_sealed (hiv : iv.length = B.size) (d : Bytes) (hlen : (sealedFile B iv d).length < 2 ^ 63) :
    ∃ p, newEncryptedReader B (sealedFile B iv d) (int64 (sealedFile B iv d).length) = .ok p ∧
      p.r = readerAt B iv d 0 ∧ p.size = d.length := by
  rw [int64_natCast hlen, newEncryptedReader]
  split
  · next e heq =>
    rw [newReader_spec hiv] at heq
    cases heq
  · next r heq =>
    have hr : readerAt B iv d 0 = r := Except.ok.inj ((newReader_spec hiv d).symm.trans heq)
    subst hr
    simp only [dataSize_spec hiv]
    exact ⟨_, rfl, rfl, rfl⟩

theorem getAt_eq (p : PackReader B) (n offset sz : ℕ) :
    p.getAt offset sz = ((PackFile.newReader p.r n).getAt (cryptHandle B) offset sz).1 := by
  simp only [PackReader.getAt, PackFile.Reader.getAt, PackFile.newReader, cryptHandle]

theorem readIndex_of_offset {p : PackReader B} {offset : ℕ} {r : CryptFile.Reader}
    (h : readUint64 (cryptRead B) (p.r.seek (p.size - 8)).2 = (.ok offset, r)) :
    p.readIndex = PackFile.readIndex (cryptRead B) (r.seek (int64 offset)).2 := by
  delta PackReader.readIndex
  rw [h]

theorem readIndex_of_error {p : PackReader B} {e : GoError} {r : CryptFile.Reader}
    (h : readUint64 (cryptRead B) (p.r.seek (p.size - 8)).2 = (.error e, r)) : p.readIndex = .error e := by
  delta PackReader.readIndex
  rw [h]

/-- A file that is opened as a pack with the index `idx`. -/
structure Opens (file : Bytes) (p : PackReader B) (idx : Index) : Prop where
  reader : newEncryptedReader B file (int64 file.length) = .ok p
  index : p.readIndex = .ok idx

theorem opens_sealed (hiv : iv.length = B.size) {data : Bytes} {idx : Index}
    (hlen : (sealedFile B iv (packBytes data idx)).length < 2 ^ 63) (hidx : ∀ e ∈ idx, Fits e) :
    ∃ p : PackReader B, Opens (sealedFile B iv (packBytes data idx)) p idx ∧
      ∀ off sz, off + sz ≤ data.length → p.getAt off sz = .ok ((data.drop off).take sz) := by
  obtain ⟨p, hp, hr, hsize⟩ := newEncryptedReader_sealed hiv _ hlen
  have hserves := cryptHandle_serves hiv (packBytes data idx)
  have hle := length_le_sealedFile hiv (packBytes data idx)
  have hpack := length_packBytes data idx
  have hstart : ∃ pos, pos ≤ (packBytes data idx).length ∧ p.r = readerAt B iv (packBytes data idx) pos :=
    ⟨0, Nat.zero_le _, hr⟩
  refine ⟨p, ⟨hp, ?_⟩, fun off sz hend => ?_⟩
  · obtain ⟨r₁, r₂, r₃, hseek₁, hread, hseek₃, hindex, -⟩ := index_served hserves (by omega) hidx hstart
    have hsize8 : p.size - 8 = ((packBytes data idx).length - 8 : ℕ) := by
      rw [hsize]
      omega
    have hr₁ : (p.r.seek (p.size - 8)).2 = r₁ := by
      rw [hsize8]
      exact congrArg Prod.snd hseek₁
    have hr₃ : (r₂.seek (int64 data.length)).2 = r₃ := by
      rw [int64_natCast (by omega)]
      exact congrArg Prod.snd hseek₃
    rw [readIndex_of_offset (hr₁ ▸ hread), hr₃]
    exact hindex
  · obtain ⟨r, hget, -⟩ := getAt_served hserves (by omega) off sz (by omega) (p := PackFile.newReader p.r 0) hstart
    rw [getAt_eq p 0, hget, packBytes, append_assoc, take_drop_append hend]

end Read

end Bpy.EncryptedPacks
