import Bpy.EncryptedPacks
import Bpy.PackPlaintext

/-!
# Packs with any content

The bytes of a pack come from a server and are not authenticated. The scan for the end
marker in the last block has no lower bound, and an offset of the pack may lead into the
padding, where `Read` cuts off more bytes than it has.
-/
namespace Bpy.MalformedPacks
open ByteWords ContentStore ByteSources CounterMode CryptFile CryptFileRoundTrip
open PackFile PackPlaintext PackRoundTrip EncryptedPacks
open List

section Code

/-- The loop of `Index.Search`, with the panic of an index that is out of range. -/
def searchChecked (idx : Index) (key : Bytes) : ℕ → ℤ → ℤ → Except GoError (Option IndexEnt)
  | 0, _, _ => .error (.panic "out of rounds")
  | rounds + 1, lo, hi =>
    if hi < lo then .ok none
    else
      let mid := (hi + lo) / 2
      if mid < 0 then .error (.panic "index out of range")
      else match idx[mid.toNat]? with
        | none => .error (.panic "index out of range")
        | some e =>
          if key = e.key then .ok (some e)
          else if key < e.key then searchChecked idx key rounds lo (mid - 1)
          else searchChecked idx key rounds (mid + 1) hi

/-- `NewEncryptedReader`, `ReadIndex` and `Get` of a file. -/
def openAndGet (B : Block) (file key : Bytes) : Except GoError Bytes := do
  let p ← newEncryptedReader B file file.length
  let idx ← p.readIndex
  match ← searchChecked idx key (idx.length + 1) 0 (idx.length - 1) with
  | none => .error notFound
  | some e => p.getAt e.offset e.size

theorem searchChecked_eq (idx : Index) (key : Bytes) {rounds : ℕ} {lo hi : ℤ} (hlo : 0 ≤ lo) (hhi : hi < idx.length)
    (hle : lo ≤ hi + 1) (hrounds : hi - lo + 1 < rounds) :
    searchChecked idx key rounds lo hi = .ok (searchLoop idx key rounds lo hi) := by
  induction rounds generalizing lo hi with
  | zero => omega
  | succ rounds ih =>
    rw [searchChecked, searchLoop]
    split
    · rfl
    · obtain ⟨mid, hmid⟩ : ∃ mid, mid = (hi + lo) / 2 := ⟨_, rfl⟩
      have hin : mid.toNat < idx.length := by omega
      simp only [← hmid, if_neg (show ¬ mid < 0 by omega), getElem?_eq_getElem hin]
      split
      · rfl
      · split
        · exact ih hlo (by omega) (by omega) (by omega)
        · exact ih (by omega) hhi (by omega) (by omega)

theorem searchChecked_search (idx : Index) (key : Bytes) :
    searchChecked idx key (idx.length + 1) 0 (idx.length - 1) = .ok (search idx key) :=
  searchChecked_eq idx key (by omega) (by omega) (by omega) (by omega)

end Code

section Condition

/-- The last block as `Size` decrypts it. In a file of one block this is the initialisation vector,
which gets the number -1. -/
def lastBlock (B : Block) (file : Bytes) : Bytes :=
  xor (file.drop (file.length - B.size))
    (B.encrypt (add (file.take B.size) (uint64 ((file.length / B.size : ℕ) - 2))))

/-- `data` is what stands in front of the last end marker. -/
def Marked (plain data : Bytes) : Prop := ∃ pad, plain = data ++ 0x80 :: pad ∧ 0x80 ∉ pad

/-- The offset leads into the padding. -/
def InPadding (plain data : Bytes) (offset : ℕ) : Prop :=
  (data.length : ℤ) < int64 offset ∧ int64 offset < plain.length

def trailer (data : Bytes) : ℕ := leNat (data.drop (data.length - 8))

/-- The offset of the index does not lead into the padding, and neither does that of the entry that is
found for `key`, unless its value is empty. -/
def Leads (plain data key : Bytes) : Prop :=
  ¬ InPadding plain data (trailer data) ∧ ∀ idx : Index, idx.length < 2 ^ 64 → (∀ e ∈ idx, Fits e) →
    encodeIndex idx <+: data.drop (int64 (trailer data)).toNat →
    ∀ e, search idx key = some e → 0 < e.size → ¬ InPadding plain data e.offset

/-- The file is empty, or its last block has an end marker, and the offsets in the data in front of it
lead to places outside the padding. -/
def Sound (B : Block) (file key : Bytes) : Prop :=
  file = [] ∨ 0x80 ∈ lastBlock B file ∧ ∀ data, Marked (plaintext B file (file.take B.size)) data →
    8 ≤ data.length → Leads (plaintext B file (file.take B.size)) data key

theorem Marked.unique {plain data data' : Bytes} (h : Marked plain data) (h' : Marked plain data') : data = data' := by
  obtain ⟨pad, rfl, hpad⟩ := h
  obtain ⟨pad', heq, hpad'⟩ := h'
  have hstrip := stripPadding_marked data hpad
  rw [heq, stripPadding_marked data' hpad', Except.ok.injEq] at hstrip
  exact hstrip.symm

theorem exists_marked {plain : Bytes} (h : 0x80 ∈ plain) : ∃ data, Marked plain data := by
  obtain ⟨as, bs, hsplit, hnot⟩ := eq_append_cons_of_mem (mem_reverse.mpr h)
  refine ⟨bs.reverse, as.reverse, ?_, fun hmem => hnot (mem_reverse.mp hmem)⟩
  rw [← reverse_reverse plain, hsplit]
  simp

theorem Marked.append {plain data : Bytes} (h : Marked plain data) (front : Bytes) :
    Marked (front ++ plain) (front ++ data) := by
  obtain ⟨pad, rfl, hpad⟩ := h
  exact ⟨pad, (append_assoc _ _ _).symm, hpad⟩

theorem Marked.length_lt {plain data : Bytes} (h : Marked plain data) : data.length < plain.length := by
  obtain ⟨pad, rfl, -⟩ := h
  rw [length_append, length_cons]
  omega

end Condition

section Opening

theorem newEncryptedReader_nil (B : Block) : newEncryptedReader B [] (([] : Bytes).length : ℕ) = .error .eof := by
  have hpos := B.size_pos
  have hnew : CryptFile.newReader B [] (0 : ℕ) = .error .eof := by
    rw [CryptFile.newReader, if_neg (by simp), readFullAt, show (0 : ℤ) = (0 : ℕ) from rfl, behind_natCast,
      if_neg (by simp; omega)]
    rfl
  rw [newEncryptedReader]
  split
  · next e heq =>
    rw [length_nil, hnew] at heq
    cases heq
    rfl
  · next r heq =>
    rw [length_nil, hnew] at heq
    cases heq

variable {B : Block} {file : Bytes} {k : ℕ}

/-- The reader of the file, at its start. -/
def opened (B : Block) (file : Bytes) (k : ℕ) : CryptFile.Reader :=
  ⟨file, (B.size * k : ℕ), 0, file.take B.size⟩

variable (hlen : file.length = B.size * (k + 1))
include hlen

theorem length_iv : (file.take B.size).length = B.size :=
  length_take_of_le (by rw [hlen, Nat.mul_succ]; omega)

theorem newReader_eq : CryptFile.newReader B file file.length = .ok (opened B file k) := by
  have hmod : (file.length : ℤ) % B.size = 0 := by
    rw [hlen]
    exact_mod_cast Nat.mul_mod_right B.size _
  have hread : readFullAt file 0 B.size = .ok (file.take B.size) := by
    rw [readFullAt, show (0 : ℤ) = (0 : ℕ) from rfl, behind_natCast, drop_zero, if_pos]
    rw [hlen, Nat.mul_succ]
    omega
  rw [CryptFile.newReader, if_neg (not_not.mpr hmod), hread, hlen, Nat.mul_succ]
  simp only [bind, Except.bind, opened, Except.ok.injEq, CryptFile.Reader.mk.injEq, true_and, and_true]
  push_cast
  ring

theorem readBlocks_last : readBlocks B (opened B file k) ((k : ℤ) - 1) B.size =
    (stripPadding (lastBlock B file)).bind (fun buf => if buf = [] then .error .eof else .ok buf) := by
  have hpos := B.size_pos
  have hend : ((k : ℤ) - 1) * B.size + B.size = (B.size * k : ℕ) := by push_cast; ring
  have hoff : (1 + ((k : ℤ) - 1)) * B.size = (B.size * k : ℕ) := by push_cast; ring
  have hdrop : file.length - B.size = B.size * k := by
    rw [hlen, Nat.mul_succ]
    omega
  have hrest : (file.drop (B.size * k)).length = B.size := by
    rw [length_drop, hlen, Nat.mul_succ]
    omega
  have hdiv : ((file.length / B.size : ℕ) : ℤ) - 2 = (k : ℤ) - 1 := by
    rw [hlen, Nat.mul_div_cancel_left _ hpos]
    omega
  have hread : readFullAt file (B.size * k : ℕ) B.size = .ok (file.drop (B.size * k)) := by
    rw [readFullAt, behind_natCast, if_pos hrest.ge, take_of_length_le hrest.le]
  have hdec : decryptBlocks B (add (file.take B.size) (uint64 ((k : ℤ) - 1))) (B.size / B.size)
      (file.drop (B.size * k)) = lastBlock B file := by
    have hne : file.drop (B.size * k) ≠ [] := ne_nil_of_length_pos (by omega)
    rw [Nat.div_self hpos, decryptBlocks, if_neg hne, decryptBlocks, append_nil,
      take_of_length_le hrest.le, lastBlock, hdrop, hdiv]
  have hsize : (opened B file k).size = (B.size * k : ℕ) := rfl
  have hfile : (opened B file k).file = file := rfl
  have hiv : (opened B file k).iv = file.take B.size := rfl
  rw [readBlocks, if_neg (by simp), hsize, if_neg (by omega), if_neg (by omega), hoff, hfile, hiv]
  simp only [hread, bind, Except.bind, hdec, if_pos hend]

theorem dataSize_opened : (opened B file k).dataSize B =
    (stripPadding (lastBlock B file)).map (fun buf => ((B.size * k : ℕ) : ℤ) - B.size + buf.length) := by
  have hsize : (opened B file k).size = (B.size * k : ℕ) := rfl
  have hidx : (opened B file k).size / B.size - 1 = (k : ℤ) - 1 := by
    rw [hsize]
    push_cast
    rw [Int.mul_ediv_cancel_left _ (by have := B.size_pos; omega)]
  rw [CryptFile.Reader.dataSize, hidx, readBlocks_last hlen, hsize]
  by_cases hmark : 0x80 ∈ lastBlock B file
  · obtain ⟨data, pad, hsplit, hpad⟩ := exists_marked hmark
    rw [hsplit, stripPadding_marked data hpad]
    cases data with
    | nil => simp [Except.bind, Except.map]
    | cons x data => rfl
  · rw [stripPadding_unmarked hmark]
    rfl

theorem newEncryptedReader_marked {data : Bytes} (hdata : Marked (lastBlock B file) data) :
    ∃ p : PackReader B, newEncryptedReader B file file.length = .ok p ∧ p.r = opened B file k ∧
      p.size = ((B.size * k : ℕ) : ℤ) - B.size + data.length := by
  obtain ⟨pad, hsplit, hpad⟩ := hdata
  have hsize := dataSize_opened hlen
  rw [hsplit, stripPadding_marked data hpad] at hsize
  rw [newEncryptedReader]
  split
  · next e heq =>
    rw [newReader_eq hlen] at heq
    cases heq
  · next r heq =>
    obtain rfl : opened B file k = r := Except.ok.inj ((newReader_eq hlen).symm.trans heq)
    rw [hsize]
    exact ⟨_, rfl, rfl, rfl⟩

theorem newEncryptedReader_unmarked (hmark : 0x80 ∉ lastBlock B file) :
    newEncryptedReader B file file.length = .error (.panic "index out of range") := by
  have hsize := dataSize_opened hlen
  rw [stripPadding_unmarked hmark] at hsize
  rw [newEncryptedReader]
  split
  · next e heq =>
    rw [newReader_eq hlen] at heq
    cases heq
  · next r heq =>
    obtain rfl : opened B file k = r := Except.ok.inj ((newReader_eq hlen).symm.trans heq)
    rw [hsize]
    rfl

theorem length_plaintext : (plaintext B file (file.take B.size)).length = B.size * k := by
  have hle := Nat.le_mul_of_pos_left file.length B.size_pos
  have hmul : B.size * (k + 1) = B.size * k + B.size := Nat.mul_succ _ _
  rw [plaintext, length_xor, length_keystream (length_iv hlen), length_drop]
  omega

theorem xor_blocks (i m : ℕ) :
    xor ((file.drop (B.size * (1 + i))).take (B.size * m)) (keystream B (file.take B.size) i m) =
      ((plaintext B file (file.take B.size)).drop (B.size * i)).take (B.size * m) := by
  have hoff : B.size * (1 + i) = B.size + B.size * i := by ring
  have hmul : B.size * (k + 1) = B.size * k + B.size := Nat.mul_succ _ _
  have hprefix : xor ((file.drop (B.size * (1 + i))).take (B.size * m)) (keystream B (file.take B.size) i m) <+:
      (plaintext B file (file.take B.size)).drop (B.size * i) := xor_blocks_take (length_iv hlen) i m (B.size * m)
  have hpre := prefix_iff_eq_take.mp hprefix
  rw [hpre, take_eq_take_iff, length_drop, length_plaintext hlen, length_xor,
    length_keystream (length_iv hlen), length_take, length_drop, hlen]
  omega

theorem lastBlock_eq (hk : 0 < k) :
    lastBlock B file = (plaintext B file (file.take B.size)).drop (B.size * (k - 1)) := by
  have hmul : B.size * (k + 1) = B.size * k + B.size := Nat.mul_succ _ _
  have hk' : B.size * k = B.size * (k - 1) + B.size := by
    rw [← Nat.mul_succ, Nat.succ_eq_add_one, Nat.sub_add_cancel hk]
  have hblocks := xor_blocks hlen (k - 1) 1
  have hu : uint64 ((file.length / B.size : ℕ) - 2) = k - 1 := by
    rw [hlen, Nat.mul_div_cancel_left _ B.size_pos, uint64, if_pos (by omega)]
    omega
  have hcipher : (file.drop (B.size * k)).take B.size = file.drop (B.size * k) :=
    take_of_length_le (by rw [length_drop]; omega)
  have hplain : ((plaintext B file (file.take B.size)).drop (B.size * (k - 1))).take B.size =
      (plaintext B file (file.take B.size)).drop (B.size * (k - 1)) :=
    take_of_length_le (by rw [length_drop, length_plaintext hlen]; omega)
  rw [Nat.add_sub_cancel' hk, Nat.mul_one, hcipher, hplain] at hblocks
  rw [← hblocks, lastBlock, hu, hlen, hmul, Nat.add_sub_cancel, keystream, keystream, append_nil]

theorem marked_plaintext (hk : 0 < k) {out : Bytes} (hout : Marked (lastBlock B file) out) :
    ∃ data, Marked (plaintext B file (file.take B.size)) data ∧ data.length = B.size * (k - 1) + out.length := by
  have hk' : B.size * k = B.size * (k - 1) + B.size := by
    rw [← Nat.mul_succ, Nat.succ_eq_add_one, Nat.sub_add_cancel hk]
  have hmarked := hout.append ((plaintext B file (file.take B.size)).take (B.size * (k - 1)))
  rw [lastBlock_eq hlen hk, take_append_drop] at hmarked
  refine ⟨_, hmarked, ?_⟩
  rw [length_append, length_take, length_plaintext hlen]
  omega

theorem readBlocks_opened {i m : ℕ} (hi : i < k) : readBlocks B (opened B file k) i (B.size * m) =
    (if B.size * k ≤ B.size * i + B.size * m then
        stripPadding ((plaintext B file (file.take B.size)).drop (B.size * i))
      else .ok (((plaintext B file (file.take B.size)).drop (B.size * i)).take (B.size * m))).bind
        (fun buf => if buf = [] then .error .eof else .ok buf) := by
  have hmul : B.size * (k + 1) = B.size * k + B.size := Nat.mul_succ _ _
  have hoff : B.size * (1 + i) = B.size + B.size * i := by ring
  have hik : B.size * i < B.size * k := Nat.mul_lt_mul_of_pos_left hi B.size_pos
  have hcast : (i : ℤ) * B.size = (B.size * i : ℕ) := by push_cast; ring
  have hcast' : (1 + (i : ℤ)) * B.size = (B.size * (1 + i) : ℕ) := by push_cast; ring
  have hu : uint64 (i : ℤ) = i := by simp [uint64]
  obtain ⟨n, hn⟩ : ∃ n, n = min (B.size * m) (B.size * k - B.size * i) := ⟨_, rfl⟩
  have hnif : (if ((B.size * k : ℕ) : ℤ) < (B.size * i : ℕ) + (B.size * m : ℕ) then
      (((B.size * k : ℕ) : ℤ) - (B.size * i : ℕ)).toNat else B.size * m) = n := by
    split <;> omega
  have hrest : (file.drop (B.size * (1 + i))).length = B.size * k - B.size * i := by
    rw [length_drop, hlen]
    omega
  have hread : readFullAt file (B.size * (1 + i) : ℕ) n = .ok ((file.drop (B.size * (1 + i))).take (B.size * m)) := by
    rw [readFullAt, behind_natCast, if_pos (by omega)]
    congr 1
    rw [take_eq_take_iff, hrest]
    omega
  have hdec : decryptBlocks B (add (file.take B.size) i) (B.size * m / B.size)
      ((file.drop (B.size * (1 + i))).take (B.size * m)) =
      ((plaintext B file (file.take B.size)).drop (B.size * i)).take (B.size * m) := by
    rw [Nat.mul_div_cancel_left _ B.size_pos, decryptBlocks_eq (length_iv hlen), xor_blocks hlen]
  have hsize : (opened B file k).size = (B.size * k : ℕ) := rfl
  have hfile : (opened B file k).file = file := rfl
  have hiv : (opened B file k).iv = file.take B.size := rfl
  rw [readBlocks, if_neg (by simp), hcast, hcast', hsize, if_neg (by omega), hnif, hu, hfile, hiv]
  simp only [hread, bind, Except.bind, hdec]
  by_cases hend : B.size * k ≤ B.size * i + B.size * m
  · rw [if_pos (by omega), if_pos hend,
      take_of_length_le (by rw [length_drop, length_plaintext hlen]; omega)]
  · rw [if_neg (by omega), if_neg hend]

theorem deciphers_opened {data : Bytes} (hdata : Marked (plaintext B file (file.take B.size)) data)
    (hle : B.size * (k - 1) ≤ data.length) (hk : 0 < k) : Deciphers B (opened B file k) data := by
  have hlt := hdata.length_lt
  rw [length_plaintext hlen] at hlt
  have hk' : B.size * k = B.size * (k - 1) + B.size := by
    rw [← Nat.mul_succ, Nat.succ_eq_add_one, Nat.sub_add_cancel hk]
  have hdiv : data.length / B.size = k - 1 :=
    Nat.div_eq_of_lt_le (by rw [Nat.mul_comm]; exact hle) (by rw [Nat.mul_comm, Nat.mul_succ]; omega)
  have hpadded : paddedLength B data = B.size * k := by
    rw [paddedLength, hdiv, Nat.sub_add_cancel hk]
  refine ⟨by rw [hpadded]; rfl, fun i m hi => ?_⟩
  have hik : i < k := by
    have hlt' : B.size * i < B.size * k := by omega
    exact Nat.lt_of_mul_lt_mul_left hlt'
  obtain ⟨pad, hsplit, hpad⟩ := hdata
  rw [readBlocks_opened hlen hik, hsplit, drop_append_of_le_length hi]
  by_cases hend : B.size * k ≤ B.size * i + B.size * m
  · rw [if_pos hend, stripPadding_marked _ hpad, take_of_length_le (by rw [length_drop]; omega)]
    rfl
  · have hm : B.size * i + B.size * m ≤ data.length := by
      have him : i + m < k := by
        by_contra hcon
        rw [← Nat.mul_add] at hend
        exact hend (Nat.mul_le_mul_left _ (by omega))
      rw [← Nat.mul_add]
      exact (Nat.mul_le_mul_left _ (by omega)).trans hle
    rw [if_neg hend, take_append_of_le_length (by rw [length_drop]; omega)]
    rfl

end Opening

section Reading

variable {B : Block} {r₀ : CryptFile.Reader} {data : Bytes}

/-- The reader stands inside its data or behind its last block. -/
def Clear (B : Block) (r₀ : CryptFile.Reader) (data : Bytes) (r : CryptFile.Reader) : Prop :=
  ∃ pos : ℕ, r = { r₀ with offset := pos } ∧ (pos ≤ data.length ∨ pos = paddedLength B data)

variable (h : Deciphers B r₀ data)
include h

theorem read_clear {pos n : ℕ} (hpos : pos ≤ data.length ∨ pos = paddedLength B data) (hn : 0 < n) :
    (data.length ≤ pos ∧ cryptRead B { r₀ with offset := pos } n = (.error .eof, { r₀ with offset := pos })) ∨
    (pos < data.length ∧ cryptRead B { r₀ with offset := pos } n =
      (.ok ((data.drop pos).take n), { r₀ with offset := (pos + ((data.drop pos).take n).length : ℕ) })) := by
  have hpad := length_lt_paddedLength B data
  rw [cryptRead]
  rcases hpos with hle | rfl
  · rw [(h.at pos).read rfl hle hn]
    by_cases hend : pos = data.length
    · exact .inl ⟨hend.ge, by simp [hend]⟩
    · exact .inr ⟨by omega, by rw [if_neg hend]⟩
  · refine .inl ⟨hpad.le, ?_⟩
    have hsize := h.size
    exact read_at_end hsize.symm (by rw [hsize]; exact_mod_cast mod_paddedLength B data) hn

theorem calmRead_clear : CalmRead (cryptRead B) (Clear B r₀ data) := by
  rintro r n ⟨pos, rfl, hpos⟩ hn
  rcases read_clear h hpos hn with ⟨-, hread⟩ | ⟨hlt, hread⟩
  · rw [hread]
    exact ⟨nofun, nofun, pos, rfl, hpos⟩
  · rw [hread]
    refine ⟨nofun, fun out hout => ?_, _, rfl, .inl ?_⟩
    · cases hout
      rw [ne_eq, take_eq_nil_iff, drop_eq_nil_iff]
      omega
    · simp only [length_take, length_drop]
      omega

theorem takesRead_clear : TakesRead (cryptRead B) (fun r => data.drop r.offset.toNat) (Clear B r₀ data) := by
  rintro r n out r' ⟨pos, rfl, hpos⟩ hn hread
  rcases read_clear h hpos hn with ⟨-, hread'⟩ | ⟨hlt, hread'⟩
  · cases hread.symm.trans hread'
  · cases hread.symm.trans hread'
    refine ⟨⟨_, rfl, .inl ?_⟩, length_take_le _ _, ?_⟩
    · simp only [length_take, length_drop]
      omega
    · simp only [Int.toNat_natCast]
      rw [← drop_drop]
      exact (prefix_iff_eq_append.mp ( take_prefix n _)).symm

omit h in
theorem seek_to {off : ℤ} {pos : ℕ} (hpos : (if (if off < 0 then 0 else off) > r₀.size then r₀.size
    else if off < 0 then 0 else off) = pos) : (r₀.seek off).2 = { r₀ with offset := pos } := by
  rw [← hpos]
  rfl

theorem seek_clear {off : ℤ} (hoff : ¬ (data.length < off ∧ off < paddedLength B data)) :
    Clear B r₀ data (r₀.seek off).2 ∧ data.drop (r₀.seek off).2.offset.toNat = data.drop off.toNat := by
  have hpad := length_lt_paddedLength B data
  by_cases hle : off ≤ data.length
  · rw [seek_to (show _ = ((off.toNat : ℕ) : ℤ) by rw [h.size]; split <;> split <;> omega)]
    exact ⟨⟨off.toNat, rfl, .inl (by omega)⟩, by rw [Int.toNat_natCast]⟩
  · rw [seek_to (show _ = ((paddedLength B data : ℕ) : ℤ) by rw [h.size]; split <;> split <;> omega)]
    refine ⟨⟨paddedLength B data, rfl, .inr rfl⟩, ?_⟩
    rw [Int.toNat_natCast, drop_eq_nil_of_le hpad.le, drop_eq_nil_of_le (by omega)]

theorem read_seek_padding {off : ℤ} (hlt : data.length < off) (hoff : off < paddedLength B data) {n : ℕ} (hn : 0 < n) :
    cryptRead B (r₀.seek off).2 n = (.error (.panic "slice bounds out of range"), (r₀.seek off).2) := by
  rw [seek_to (show _ = ((off.toNat : ℕ) : ℤ) by rw [h.size]; split <;> split <;> omega)]
  exact (h.at _).read_padding rfl (by omega) (by omega) hn

variable {p : PackReader B} (hp : p.r = r₀)
include hp

theorem getAt_returns_iff (offset sz : ℕ) : (∀ msg, p.getAt offset sz ≠ .error (.panic msg)) ↔
    (0 < sz → ¬ (data.length < int64 offset ∧ int64 offset < paddedLength B data)) := by
  rw [PackReader.getAt, hp]
  constructor
  · intro hreturns hsz hpad
    refine hreturns "slice bounds out of range" ?_
    rw [readFull_of_panic hsz (read_seek_padding h hpad.1 hpad.2 hsz)]
  · intro hout msg
    rcases Nat.eq_zero_or_pos sz with rfl | hsz
    · intro hpanic
      cases hpanic
    · exact (calm_readFull (calmRead_clear h) sz _ (seek_clear h (hout hsz)).1).1 msg

variable (hsize : p.size = data.length)
include hsize

theorem readIndex_short (hlt : data.length < 8) : ∃ e, p.readIndex = .error e ∧ ∀ msg, e ≠ .panic msg := by
  obtain ⟨hclear, hdrop⟩ := seek_clear h (show ¬ ((data.length : ℤ) < p.size - 8 ∧ _) by omega)
  obtain ⟨hcalm, -⟩ := calm_readUint64 (calmRead_clear h) _ hclear
  rcases hread : readUint64 (cryptRead B) (r₀.seek (p.size - 8)).2 with ⟨res, r⟩
  rw [hread] at hcalm
  cases res with
  | error e =>
    rw [← hp] at hread
    exact ⟨e, readIndex_of_error hread, fun msg he => hcalm msg (by rw [he])⟩
  | ok v =>
    obtain ⟨-, t, ⟨-, rfl⟩, hs⟩ := takes_readUint64 (takesRead_clear h) _ _ _ hclear hread
    have hlen := congrArg length hs
    simp only [hdrop, length_append, length_leBytes, length_drop] at hlen
    omega

theorem readIndex_long (hle : 8 ≤ data.length) :
    p.readIndex = PackFile.readIndex (cryptRead B) (r₀.seek (int64 (trailer data))).2 := by
  have hlast : (data.drop (data.length - 8)).length = 8 := by
    rw [length_drop]
    omega
  have hlt := leNat_lt (data.drop (data.length - 8))
  rw [hlast] at hlt
  have hpad := length_lt_paddedLength B data
  have hseek : (r₀.seek ((data.length : ℤ) - 8)).2 = { r₀ with offset := (data.length - 8 : ℕ) } :=
    seek_to (by rw [h.size]; split <;> split <;> omega)
  have hstream : data.drop (data.length - 8) = leBytes 8 (trailer data) ++ [] := by
    have hbytes := leBytes_leNat (data.drop (data.length - 8))
    rw [hlast] at hbytes
    rw [append_nil]
    exact hbytes.symm
  obtain ⟨r, hread, ⟨pos, -, hr⟩, -⟩ := readUint64_yields (delivers_of_deciphers h)
    (r := { r₀ with offset := (data.length - 8 : ℕ) }) ⟨data.length - 8, by omega, rfl⟩ hstream hlt
  rw [← hseek, ← hp, ← hsize] at hread
  rw [readIndex_of_offset hread, hr]
  rfl

end Reading

section Total

variable {B : Block} {file key : Bytes} {k : ℕ} {p : PackReader B}

theorem openAndGet_eq (hopen : newEncryptedReader B file file.length = .ok p) :
    openAndGet B file key = p.readIndex.bind (fun idx => match search idx key with
      | none => .error notFound
      | some e => p.getAt e.offset e.size) := by
  simp only [openAndGet, hopen, bind, Except.bind, searchChecked_search]

theorem encodeIndex_ne_nil (idx : Index) : encodeIndex idx ≠ [] := by
  refine ne_nil_of_length_pos ?_
  rw [encodeIndex_eq, length_append, length_leBytes]
  omega

theorem returns_iff_leads {plain data : Bytes} (h : Deciphers B p.r data) (hsize : p.size = data.length)
    (hopen : newEncryptedReader B file file.length = .ok p) (hplain : plain.length = paddedLength B data)
    (hle : 8 ≤ data.length) : (∀ msg, openAndGet B file key ≠ .error (.panic msg)) ↔ Leads plain data key := by
  have hin (off : ℕ) : InPadding plain data off ↔ data.length < int64 off ∧ int64 off < paddedLength B data := by
    rw [InPadding, hplain]
  rw [openAndGet_eq hopen, readIndex_long h rfl hsize hle]
  simp only [Leads, hin]
  by_cases hpad : (data.length : ℤ) < int64 (trailer data) ∧ int64 (trailer data) < paddedLength B data
  · have hindex := readIndex_of_panic (read_seek_padding h hpad.1 hpad.2 (show 0 < 65536 by decide))
    refine iff_of_false (fun hreturns => hreturns "slice bounds out of range" ?_) (fun hleads => hleads.1 hpad)
    rw [hindex]
    rfl
  obtain ⟨hclear, hdrop⟩ := seek_clear h hpad
  constructor
  · intro hreturns
    refine ⟨hpad, fun idx hlen hfits hpre e he hsz => ?_⟩
    have hindex : PackFile.readIndex (cryptRead B) (p.r.seek (int64 (trailer data))).2 = .ok idx := by
      obtain ⟨rest, hrest⟩ := hpre
      rw [← hdrop] at hrest
      refine readIndex_encodeIndex (delivers_of_deciphers h) hfits hlen ?_ hrest.symm
      obtain ⟨pos, hr, hpos⟩ := hclear
      refine ⟨pos, hpos.resolve_right ?_, hr⟩
      rintro rfl
      rw [hr, Int.toNat_natCast, drop_eq_nil_of_le (length_lt_paddedLength B data).le] at hrest
      exact encodeIndex_ne_nil idx (append_eq_nil_iff.mp hrest).1
    refine (getAt_returns_iff h rfl e.offset e.size).mp (fun msg hmsg => hreturns msg ?_) hsz
    rw [hindex]
    simp only [Except.bind, he, hmsg]
  · intro hleads msg
    cases hindex : PackFile.readIndex (cryptRead B) (p.r.seek (int64 (trailer data))).2 with
    | error e =>
      intro he
      cases he
      exact readIndex_returns (calmRead_clear h) hclear msg hindex
    | ok idx =>
      obtain ⟨hlen, hfits, hpre⟩ := readIndex_ok (takesRead_clear h) hclear hindex
      simp only [hdrop] at hpre
      simp only [Except.bind]
      cases he : search idx key with
      | none => exact nofun
      | some e =>
        exact (getAt_returns_iff h rfl e.offset e.size).mpr (hleads.2 idx hlen hfits hpre e he) msg

theorem readIndex_bare (hr : p.r = opened B file 0) (hsize : p.size < 8) : p.readIndex = .error .eof := by
  have hzero : (opened B file 0).size = 0 := by simp [opened]
  have hseek : (p.r.seek (p.size - 8)).2 = opened B file 0 := by
    rw [hr]
    refine seek_to (show _ = ((0 : ℕ) : ℤ) from ?_)
    rw [hzero, if_pos (show p.size - 8 < 0 by omega)]
    simp
  have hread : cryptRead B (opened B file 0) 8 = (.error .eof, opened B file 0) :=
    read_at_end (by simp [opened]) (by simp [opened]) (by decide)
  refine readIndex_of_error (r := opened B file 0) ?_
  rw [hseek]
  refine bind_of_error ?_
  rw [readFull, readFullLoop, if_neg (by decide), hread]
  rfl

theorem returns_iff_sound (hlen : file.length = B.size * (k + 1)) :
    (∀ msg, openAndGet B file key ≠ .error (.panic msg)) ↔ Sound B file key := by
  have hne : file ≠ [] := by
    refine ne_nil_of_length_pos ?_
    have hpos := B.size_pos
    rw [hlen, Nat.mul_succ]
    omega
  by_cases hmark : 0x80 ∈ lastBlock B file
  · obtain ⟨out, hout⟩ := exists_marked hmark
    obtain ⟨p, hopen, hr, hsize⟩ := newEncryptedReader_marked hlen hout
    rw [Sound, or_iff_right hne, and_iff_right hmark]
    rcases Nat.eq_zero_or_pos k with rfl | hk
    · have hindex := readIndex_bare hr (by
        have hlt := hout.length_lt
        have hblock : (lastBlock B file).length ≤ B.size := by
          rw [lastBlock, length_xor, length_drop]
          omega
        simp only [Nat.mul_zero, Nat.cast_zero] at hsize
        omega)
      refine iff_of_true (fun msg => ?_) (fun data hdata => ?_)
      · rw [openAndGet_eq hopen, hindex]
        exact nofun
      · have hlt := hdata.length_lt
        rw [length_plaintext hlen] at hlt
        omega
    · obtain ⟨data, hdata, hdlen⟩ := marked_plaintext hlen hk hout
      have hk' : B.size * k = B.size * (k - 1) + B.size := by
        rw [← Nat.mul_succ, Nat.succ_eq_add_one, Nat.sub_add_cancel hk]
      have hd : Deciphers B p.r data := by
        rw [hr]
        exact deciphers_opened hlen hdata (by omega) hk
      have hsize' : p.size = data.length := by omega
      have hplain : (plaintext B file (file.take B.size)).length = paddedLength B data := by
        have hpad : ((B.size * k : ℕ) : ℤ) = paddedLength B data := by
          rw [← hd.size, hr]
          rfl
        rw [length_plaintext hlen]
        exact_mod_cast hpad
      by_cases hle : 8 ≤ data.length
      · rw [returns_iff_leads hd hsize' hopen hplain hle]
        refine ⟨fun hleads data' hdata' _ => hdata.unique hdata' ▸ hleads, fun hall => hall data hdata hle⟩
      · obtain ⟨e, he, hnot⟩ := readIndex_short hd rfl hsize' (by omega)
        refine iff_of_true (fun msg => ?_) (fun data' hdata' hle' => absurd (hdata.unique hdata' ▸ hle') hle)
        rw [openAndGet_eq hopen, he]
        exact fun hmsg => hnot msg (Except.error.inj hmsg)
  · refine iff_of_false (fun hreturns => hreturns "index out of range" ?_) ?_
    · rw [openAndGet, newEncryptedReader_unmarked hlen hmark]
      rfl
    · rw [Sound, or_iff_right hne]
      exact fun hsound => hmark hsound.1

/-- For every file whose length is a multiple of the block size, every cipher and every key: opening the
pack, reading its index and getting a value does not panic exactly if the file is `Sound`. -/
theorem pack_total_iff (B : Block) (file : Bytes) (hlen : file.length % B.size = 0) (key : Bytes) :
    (∀ msg, openAndGet B file key ≠ .error (.panic msg)) ↔ Sound B file key := by
  have hmul : B.size * (file.length / B.size) = file.length := Nat.mul_div_cancel' (Nat.dvd_of_mod_eq_zero hlen)
  cases hk : file.length / B.size with
  | zero =>
    rw [hk, Nat.mul_zero] at hmul
    obtain rfl : file = [] := List.eq_nil_of_length_eq_zero hmul.symm
    refine iff_of_true (fun msg => ?_) (.inl rfl)
    rw [openAndGet, newEncryptedReader_nil]
    exact nofun
  | succ k =>
    rw [hk] at hmul
    exact returns_iff_sound hmul.symm

def smallPack : Bytes := sealedFile fourBlock [0, 0, 0, 0] (packBytes [7] [⟨[1], 1, 0⟩])

theorem pack_total_small : openAndGet fourBlock smallPack [1] = .ok [7] ∧ Sound fourBlock smallPack [1] := by
  have hget : openAndGet fourBlock smallPack [1] = .ok [7] := by decide +kernel
  exact ⟨hget, (pack_total_iff fourBlock smallPack (by decide +kernel) [1]).mp (fun msg => by rw [hget]; exact nofun)⟩

/-- There is no end marker in the last block, or the offset of the index leads into the padding. -/
theorem pack_panics :
    openAndGet fourBlock (List.replicate 8 0) [1] = .error (.panic "index out of range") ∧
    openAndGet fourBlock (sealedFile fourBlock [0, 0, 0, 0] (leBytes 8 9)) [1] =
      .error (.panic "slice bounds out of range") := by
  constructor
  · decide +kernel
  · decide +kernel

end Total

end Bpy.MalformedPacks
