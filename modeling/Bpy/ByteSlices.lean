import Bpy.ByteSources

/-!
# Slices of a memory

A slice is a range of addresses, with a capacity up to which it can be resliced. The code
that packs and unpacks words goes through slices at computed offsets, and a slice
expression out of range is a panic. Four judgements follow such code step by step: what it
writes, what it reads from given bytes, which address it leaves alone, and that it fails.
-/
namespace Bpy.ByteSlices
open ByteWords ContentStore ByteSources List

@[ext] structure Memory where
  byte : ℕ → UInt8

namespace Memory

def read (mem : Memory) (p n : ℕ) : Bytes := (range n).map (fun i => mem.byte (p + i))

def write (mem : Memory) (p : ℕ) (bs : Bytes) : Memory :=
  ⟨fun i => if p ≤ i then bs[i - p]?.getD (mem.byte i) else mem.byte i⟩

variable {mem : Memory} {p q i n : ℕ} {bs cs : Bytes}

@[simp] theorem length_read : (mem.read p n).length = n := by simp [read]

theorem read_add (m : ℕ) : mem.read p (n + m) = mem.read p n ++ mem.read (p + n) m := by
  simp [read, range_add, Function.comp_def, Nat.add_assoc]

theorem read_append : mem.read p (bs ++ cs).length = bs ++ cs ↔
    mem.read p bs.length = bs ∧ mem.read (p + bs.length) cs.length = cs := by
  rw [length_append, read_add]
  exact ⟨fun h => append_inj h length_read, fun h => by rw [h.1, h.2]⟩

theorem write_nil : mem.write p [] = mem := by
  ext i
  simp [write]

theorem write_byte_of_lt (h : i < p) : (mem.write p bs).byte i = mem.byte i := by
  simp only [write]
  rw [if_neg (by omega)]

theorem write_byte_of_le (h : p + bs.length ≤ i) : (mem.write p bs).byte i = mem.byte i := by
  simp only [write]
  rw [if_pos (by omega), getElem?_eq_none (by omega), Option.getD_none]

theorem write_byte (h : i < bs.length) : (mem.write p bs).byte (p + i) = bs[i] := by
  simp only [write]
  rw [if_pos (by omega), Nat.add_sub_cancel_left, getElem?_eq_getElem h, Option.getD_some]

theorem write_append (hq : q = p + bs.length) : (mem.write p bs).write q cs = mem.write p (bs ++ cs) := by
  subst hq
  ext i
  rcases Nat.lt_or_ge i p with hi | hi
  · rw [write_byte_of_lt (by omega), write_byte_of_lt hi, write_byte_of_lt hi]
  · obtain ⟨j, rfl⟩ := Nat.exists_eq_add_of_le hi
    simp only [write, Nat.le_add_right, if_true, Nat.add_sub_cancel_left, Nat.add_le_add_iff_left]
    rcases Nat.lt_or_ge j bs.length with hj | hj
    · rw [if_neg (by omega), getElem?_append_left hj]
    · rw [if_pos hj, getElem?_append_right hj, getElem?_eq_none hj, Nat.add_sub_add_left]
      rfl

theorem write_comm (h : p + bs.length ≤ q) : (mem.write q cs).write p bs = (mem.write p bs).write q cs := by
  ext i
  rcases Nat.lt_or_ge i q with hi | hi
  · rw [write_byte_of_lt hi]
    simp only [write]
    rw [if_neg (by omega : ¬ q ≤ i)]
  · rw [write_byte_of_le (by omega)]
    have hbs : bs[i - p]? = none := getElem?_eq_none (by omega)
    simp [write, hbs]

theorem read_write : (mem.write p bs).read p bs.length = bs := by
  apply ext_getElem
  · simp
  · intro i hi hi'
    simp [read, write_byte hi']

end Memory

structure Slice where
  off : ℕ
  len : ℕ
  cap : ℕ
  len_le : len ≤ cap

/-- The slice expression `b[lo:hi]` in range. -/
def Slice.part (b : Slice) (lo hi : ℕ) (h : lo ≤ hi ∧ hi ≤ b.cap) : Slice where
  off := b.off + lo
  len := hi - lo
  cap := b.cap - lo
  len_le := by omega

section Part

variable (b : Slice) {lo hi : ℕ} (h : lo ≤ hi ∧ hi ≤ b.cap)

@[simp] theorem part_off : (b.part lo hi h).off = b.off + lo := rfl

@[simp] theorem part_len : (b.part lo hi h).len = hi - lo := rfl

@[simp] theorem part_cap : (b.part lo hi h).cap = b.cap - lo := rfl

end Part

abbrev MemM (α : Type) := SourceM Memory α

section Operations

/-- `b[lo:hi]`. -/
def slice (b : Slice) (lo hi : ℕ) : MemM Slice :=
  if h : lo ≤ hi ∧ hi ≤ b.cap then pure (b.part lo hi h) else throw (.panic "slice bounds out of range")

def indexOutOfRange : GoError := .panic "index out of range"

/-- `b[i]`. -/
def byteAt (b : Slice) (i : ℕ) : MemM UInt8 :=
  if i < b.len then do return (← get).byte (b.off + i) else throw indexOutOfRange

/-- `b[i] = v`. -/
def setByte (b : Slice) (i : ℕ) (v : UInt8) : MemM Unit :=
  if i < b.len then modify (fun mem => mem.write (b.off + i) [v]) else throw indexOutOfRange

/-- `binary.LittleEndian.PutUint16`, `PutUint32` or `PutUint64` of `b[lo:hi]`, as `w` is 2, 4
or 8. The value is cut to its low bits. -/
def putUint (w : ℕ) (b : Slice) (lo hi v : ℕ) : MemM Unit := do
  let s ← slice b lo hi
  if w ≤ s.len then modify (fun mem => mem.write s.off (leBytes w v)) else throw indexOutOfRange

/-- `binary.LittleEndian.Uint16`, `Uint32` or `Uint64` of `b[lo:hi]`. -/
def uint (w : ℕ) (b : Slice) (lo hi : ℕ) : MemM ℕ := do
  let s ← slice b lo hi
  if w ≤ s.len then return leNat ((← get).read s.off w) else throw indexOutOfRange

/-- `copy(b[lo:hi], src)`. -/
def copyTo (b : Slice) (lo hi : ℕ) (src : Bytes) : MemM Unit := do
  let s ← slice b lo hi
  modify (fun mem => mem.write s.off (src.take s.len))

/-- The bytes of `b[lo:hi]`. -/
def bytesOf (b : Slice) (lo hi : ℕ) : MemM Bytes := do
  let s ← slice b lo hi
  return (← get).read s.off s.len

end Operations

section Apply

variable {b : Slice} {lo hi w v i : ℕ} {mem : Memory} {src : Bytes}

theorem slice_ok (h : lo ≤ hi ∧ hi ≤ b.cap) : slice b lo hi mem = (.ok (b.part lo hi h), mem) := by
  rw [slice, dif_pos h]
  rfl

theorem slice_error (h : ¬ (lo ≤ hi ∧ hi ≤ b.cap)) :
    slice b lo hi mem = (.error (.panic "slice bounds out of range"), mem) := by
  rw [slice, dif_neg h]
  rfl

theorem byteAt_ok (h : i < b.len) : byteAt b i mem = (.ok (mem.byte (b.off + i)), mem) := by
  rw [byteAt, if_pos h]
  rfl

theorem setByte_ok (v : UInt8) (h : i < b.len) : setByte b i v mem = (.ok (), mem.write (b.off + i) [v]) := by
  rw [setByte, if_pos h]
  rfl

theorem putUint_ok (h : lo + w ≤ hi) (hcap : hi ≤ b.cap) :
    putUint w b lo hi v mem = (.ok (), mem.write (b.off + lo) (leBytes w v)) := by
  rw [putUint, bind_of_ok (slice_ok ⟨by omega, hcap⟩), if_pos (by simp only [part_len]; omega)]
  rfl

theorem uint_ok (h : lo + w ≤ hi) (hcap : hi ≤ b.cap) :
    uint w b lo hi mem = (.ok (leNat (mem.read (b.off + lo) w)), mem) := by
  rw [uint, bind_of_ok (slice_ok ⟨by omega, hcap⟩), if_pos (by simp only [part_len]; omega)]
  rfl

theorem copyTo_ok (h : lo ≤ hi) (hcap : hi ≤ b.cap) :
    copyTo b lo hi src mem = (.ok (), mem.write (b.off + lo) (src.take (hi - lo))) := by
  rw [copyTo, bind_of_ok (slice_ok ⟨h, hcap⟩)]
  rfl

theorem bytesOf_ok (h : lo ≤ hi) (hcap : hi ≤ b.cap) :
    bytesOf b lo hi mem = (.ok (mem.read (b.off + lo) (hi - lo)), mem) := by
  rw [bytesOf, bind_of_ok (slice_ok ⟨h, hcap⟩)]
  rfl

end Apply

/-- The code writes `bs` to the address `p`. -/
def Fills (x : MemM Unit) (p : ℕ) (bs : Bytes) : Prop := ∀ mem, x mem = (.ok (), mem.write p bs)

section Fills

variable {b : Slice} {p q lo hi w v i : ℕ} {x y : MemM Unit} {bs cs src : Bytes}

theorem Fills.seq (hx : Fills x p bs) (hy : Fills y q cs) (hq : q = p + bs.length) :
    Fills (x >>= fun _ => y) p (bs ++ cs) := by
  intro mem
  rw [bind_of_ok (hx mem), hy, Memory.write_append hq]

theorem fills_pure : Fills (pure ()) p [] := by
  intro mem
  rw [Memory.write_nil]
  rfl

theorem fills_putUint (h : lo + w ≤ hi ∧ hi ≤ b.cap) :
    Fills (putUint w b lo hi v) (b.off + lo) (leBytes w v) := fun _ => putUint_ok h.1 h.2

theorem fills_setByte {u : UInt8} (h : i < b.len) : Fills (setByte b i u) (b.off + i) [u] :=
  fun _ => setByte_ok u h

theorem fills_copyTo (h : lo + src.length ≤ hi ∧ hi ≤ b.cap) : Fills (copyTo b lo hi src) (b.off + lo) src := by
  intro mem
  rw [copyTo_ok (by omega) h.2, take_of_length_le (by omega)]

theorem fills_slice {f : Slice → MemM Unit} (h : lo ≤ hi ∧ hi ≤ b.cap)
    (hf : Fills (f (b.part lo hi h)) p bs) : Fills (slice b lo hi >>= f) p bs := by
  intro mem
  rw [bind_of_ok (slice_ok h), hf]

end Fills

/-- The code returns `a` if the bytes `bs` are at the address `p`. -/
def Parses {α : Type} (x : MemM α) (p : ℕ) (bs : Bytes) (a : α) : Prop :=
  ∀ mem : Memory, mem.read p bs.length = bs → x mem = (.ok a, mem)

section Parses

variable {α β : Type} {b : Slice} {p q lo hi w v i : ℕ} {x : MemM α} {f : α → MemM β} {a : α} {r : β}
  {bs cs : Bytes}

theorem Parses.bind (hx : Parses x p bs a) (hf : Parses (f a) q cs r) (hq : q = p + bs.length) :
    Parses (x >>= f) p (bs ++ cs) r := by
  intro mem hmem
  obtain ⟨hbs, hcs⟩ := Memory.read_append.mp hmem
  rw [← hq] at hcs
  rw [bind_of_ok (hx mem hbs), hf mem hcs]

theorem Parses.skip (hx : Parses x q cs a) (hq : q = p + bs.length) : Parses x p (bs ++ cs) a := by
  intro mem hmem
  rw [hx mem (hq ▸ (Memory.read_append.mp hmem).2)]

theorem Parses.eval {mem : Memory} (hx : Parses x p bs a) (hmem : mem.read q bs.length = bs) (hp : p = q) :
    x mem = (.ok a, mem) := hx mem (hp ▸ hmem)

theorem Parses.after (hx : Parses x p [] a) (hf : Parses (f a) p bs r) : Parses (x >>= f) p bs r :=
  hx.bind hf rfl

theorem parses_pure (a : α) : Parses (pure a) p [] a := fun _ _ => rfl

theorem Parses.map {g : α → β} (hx : Parses x p bs a) (hr : g a = r) : Parses (x >>= fun a => pure (g a)) p bs r := by
  have hlast := hx.bind (parses_pure (g a)) (f := fun a => pure (g a)) rfl
  rw [append_nil] at hlast
  rwa [hr] at hlast

theorem parses_uint (h : lo + w ≤ hi ∧ hi ≤ b.cap) (hv : v < 256 ^ w) :
    Parses (uint w b lo hi) (b.off + lo) (leBytes w v) v := by
  intro mem hmem
  rw [length_leBytes] at hmem
  rw [uint_ok h.1 h.2, hmem, leNat_leBytes_of_lt hv]

theorem parses_byteAt {u : UInt8} (h : i < b.len) : Parses (byteAt b i) (b.off + i) [u] u := by
  intro mem hmem
  rw [byteAt_ok h]
  have hbyte : mem.byte (b.off + i) = u := by simpa [Memory.read] using hmem
  rw [hbyte]

theorem parses_bytesOf (h : hi = lo + bs.length) (hcap : hi ≤ b.cap) : Parses (bytesOf b lo hi) (b.off + lo) bs bs := by
  intro mem hmem
  rw [bytesOf_ok (by omega) hcap, h, Nat.add_sub_cancel_left, hmem]

theorem parses_slice {f : Slice → MemM α} (h : lo ≤ hi ∧ hi ≤ b.cap)
    (hf : Parses (f (b.part lo hi h)) p bs a) : Parses (slice b lo hi >>= f) p bs a := by
  intro mem hmem
  rw [bind_of_ok (slice_ok h), hf mem hmem]

end Parses

/-- The code does not change the byte at the address `i`. -/
def Spares {α : Type} (i : ℕ) (x : MemM α) : Prop := ∀ mem : Memory, (x mem).2.byte i = mem.byte i

section Spares

variable {α β : Type} {b : Slice} {lo hi w v i k : ℕ} {x : MemM α} {f : α → MemM β} {src : Bytes}

theorem Spares.bind (hx : Spares i x) (hf : ∀ a, Spares i (f a)) : Spares i (x >>= f) := by
  intro mem
  have hmem := hx mem
  cases hres : x mem with
  | mk r mem' =>
    rw [hres] at hmem
    cases r with
    | ok a => rw [bind_of_ok hres, hf a, hmem]
    | error e => rw [bind_of_error hres, hmem]

theorem spares_slice : Spares i (slice b lo hi) := by
  intro mem
  by_cases h : lo ≤ hi ∧ hi ≤ b.cap
  · rw [slice_ok h]
  · rw [slice_error h]

theorem spares_slice_bind {f : Slice → MemM β} (h : lo ≤ hi ∧ hi ≤ b.cap)
    (hf : Spares i (f (b.part lo hi h))) : Spares i (slice b lo hi >>= f) := by
  intro mem
  rw [bind_of_ok (slice_ok h), hf]

theorem spares_setByte {u : UInt8} (h : i ≠ b.off + k) : Spares i (setByte b k u) := by
  intro mem
  by_cases hk : k < b.len
  · rw [setByte_ok u hk]
    rcases Nat.lt_or_ge i (b.off + k) with hi | hi
    · exact Memory.write_byte_of_lt hi
    · exact Memory.write_byte_of_le (by simp only [length_singleton]; omega)
  · rw [setByte, if_neg hk]
    rfl

theorem spares_putUint (h : i < b.off + lo ∨ b.off + lo + w ≤ i) : Spares i (putUint w b lo hi v) := by
  intro mem
  by_cases hslice : lo ≤ hi ∧ hi ≤ b.cap
  · rw [putUint, bind_of_ok (slice_ok hslice)]
    by_cases hw : w ≤ (b.part lo hi hslice).len
    · rw [if_pos hw]
      rcases h with h | h
      · exact Memory.write_byte_of_lt h
      · exact Memory.write_byte_of_le (by simpa using h)
    · rw [if_neg hw]
      rfl
  · rw [putUint, bind_of_error (slice_error hslice)]

theorem spares_copyTo (h : i < b.off + lo ∨ b.off + lo + src.length ≤ i) : Spares i (copyTo b lo hi src) := by
  intro mem
  by_cases hslice : lo ≤ hi ∧ hi ≤ b.cap
  · rw [copyTo_ok hslice.1 hslice.2]
    rcases h with h | h
    · exact Memory.write_byte_of_lt h
    · apply Memory.write_byte_of_le
      rw [length_take]
      omega
  · rw [copyTo, bind_of_error (slice_error hslice)]

end Spares

/-- The code does not return. -/
def Fails {α : Type} (x : MemM α) : Prop := ∀ mem a mem', x mem ≠ (.ok a, mem')

section Fails

variable {α β : Type} {b : Slice} {lo hi w v : ℕ} {x : MemM α} {f : α → MemM β} {src : Bytes}

theorem Fails.bind (hx : Fails x) : Fails (x >>= f) := by
  intro mem r mem' h
  obtain ⟨a, mem₁, hok, -⟩ := bind_eq_ok.mp h
  exact hx mem a mem₁ hok

theorem fails_of_rest (hf : ∀ a, Fails (f a)) : Fails (x >>= f) := by
  intro mem r mem' h
  obtain ⟨a, mem₁, -, hok⟩ := bind_eq_ok.mp h
  exact hf a mem₁ r mem' hok

theorem fails_slice (h : hi < lo) : Fails (slice b lo hi) := by
  intro mem a mem' hok
  rw [slice_error (by omega)] at hok
  cases hok

theorem fails_putUint (h : hi < lo) : Fails (putUint w b lo hi v) := (fails_slice h).bind

theorem fails_copyTo (h : hi < lo) : Fails (copyTo b lo hi src) := (fails_slice h).bind

end Fails

end Bpy.ByteSlices
