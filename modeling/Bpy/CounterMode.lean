import Bpy.ByteWords

/-!
# The counter of `cryptofile`

`ctrState.Add` adds a number to a big-endian byte vector, modulo its size. Encryption
xors the data with the encrypted successive counter values, so encrypting and
decrypting are the same operation at any block.
-/
namespace Bpy.CounterMode
open ByteWords
open List

/-- The loop of `Add`, from the last byte of the vector to the first. -/
def addLoop : Bytes → ℕ → ℕ → Bytes
  | [], _, _ => []
  | v :: vs, val, carry =>
    if val = 0 ∧ carry = 0 then v :: vs
    else
      let newb := v.toNat + val % 256 + carry
      UInt8.ofNat newb :: addLoop vs (val / 256) (if newb.testBit 8 then 1 else 0)

/-- `ctrState.Add`. -/
def add (vec : Bytes) (val : ℕ) : Bytes := (addLoop vec.reverse val 0).reverse

/-- `Xor` of two buffers of the same length. -/
def xor (dest src : Bytes) : Bytes := List.zipWith (· ^^^ ·) dest src

/-- `cipher.Block`: any function on blocks of a fixed size. -/
structure Block where
  size : ℕ
  size_pos : 0 < size
  encrypt : Bytes → Bytes
  length_encrypt : ∀ x, x.length = size → (encrypt x).length = size

@[simp] theorem length_addLoop (vs : Bytes) (val carry : ℕ) : (addLoop vs val carry).length = vs.length := by
  induction vs generalizing val carry with
  | nil => rfl
  | cons v vs ih =>
    rw [addLoop]
    split <;> simp [ih]

@[simp] theorem length_add (vec : Bytes) (val : ℕ) : (add vec val).length = vec.length := by
  simp [add]

private theorem carry_eq {n : ℕ} (h : n < 512) : (if n.testBit 8 then 1 else 0) = n / 256 := by
  have hbit : n.testBit 8 = decide (n / 256 = 1) := by
    rw [Nat.testBit_eq_decide_div_mod_eq]
    congr 1
    exact propext (by omega)
  rw [hbit]
  by_cases h1 : n / 256 = 1
  · simp [h1]
  · simp only [h1, decide_false, Bool.false_eq_true, if_false]
    omega

theorem leNat_addLoop (vs : Bytes) (val : ℕ) {carry : ℕ} (hc : carry ≤ 1) :
    leNat (addLoop vs val carry) = (leNat vs + val + carry) % 256 ^ vs.length := by
  induction vs generalizing val carry with
  | nil => simp [addLoop, leNat, Nat.mod_one]
  | cons v vs ih =>
    have hv : v.toNat < 256 := v.toNat_lt
    rw [addLoop]
    split
    · next h => simp only [h, Nat.add_zero, Nat.mod_eq_of_lt (leNat_lt _)]
    · have hlt : v.toNat + val % 256 + carry < 512 := by omega
      simp only [leNat, carry_eq hlt, length_cons, UInt8.toNat_ofNat', Nat.reducePow]
      rw [ih _ (by omega), pow_succ, mul_comm (256 ^ vs.length) 256, Nat.mod_mul]
      have hsum : v.toNat + 256 * leNat vs + val + carry =
          (v.toNat + val % 256 + carry) + 256 * (leNat vs + val / 256) := by omega
      rw [hsum]
      congr 1
      · omega
      · congr 2
        omega

private theorem leNat_inj {xs ys : Bytes} (hlen : xs.length = ys.length) (h : leNat xs = leNat ys) :
    xs = ys := by rw [← leBytes_leNat xs, ← leBytes_leNat ys, hlen, h]

theorem add_add (vec : Bytes) (m n : ℕ) : add (add vec m) n = add vec (m + n) := by
  simp only [add, reverse_reverse]
  congr 1
  apply leNat_inj (by simp)
  simp only [leNat_addLoop _ _ (Nat.zero_le 1), length_addLoop, Nat.add_zero, Nat.mod_add_mod, Nat.add_assoc]

theorem add_zero (vec : Bytes) : add vec 0 = vec := by
  have hloop : ∀ vs : Bytes, addLoop vs 0 0 = vs := by
    intro vs
    cases vs <;> simp [addLoop]
  simp [add, hloop]

section Keystream

variable (B : Block) (iv : Bytes)

/-- The encrypted counters of `n` blocks, from block `i` on. -/
def keystream (i : ℕ) : ℕ → Bytes
  | 0 => []
  | n + 1 => B.encrypt (add iv i) ++ keystream (i + 1) n

variable {B iv}

theorem length_keystream (hiv : iv.length = B.size) (i n : ℕ) : (keystream B iv i n).length = B.size * n := by
  induction n generalizing i with
  | zero => rfl
  | succ n ih =>
    rw [keystream, length_append, B.length_encrypt _ (by simpa using hiv), ih, Nat.mul_succ, Nat.add_comm]

theorem keystream_add (i m n : ℕ) : keystream B iv i (m + n) = keystream B iv i m ++ keystream B iv (i + m) n := by
  induction m generalizing i with
  | zero => simp [keystream]
  | succ m ih => rw [Nat.succ_add, keystream, ih, keystream, append_assoc, Nat.add_right_comm,
      Nat.add_assoc i m 1, Nat.add_comm m 1]

@[simp] theorem length_xor (xs ys : Bytes) : (xor xs ys).length = min xs.length ys.length := by
  simp [xor]

theorem xor_append {xs ks : Bytes} (h : xs.length = ks.length) (ys ls : Bytes) :
    xor (xs ++ ys) (ks ++ ls) = xor xs ks ++ xor ys ls := zipWith_append h

theorem xor_append_right (xs ys zs : Bytes) :
    xor xs (ys ++ zs) = xor (xs.take ys.length) ys ++ xor (xs.drop ys.length) zs := by
  induction ys generalizing xs with
  | nil => simp [xor]
  | cons y ys ih =>
    cases xs with
    | nil => simp [xor]
    | cons x xs => simpa [xor] using ih xs

theorem xor_prefix_xor {xs xs' ks ks' : Bytes} (hx : xs <+: xs') (hk : ks <+: ks') : xor xs ks <+: xor xs' ks' := by
  obtain ⟨us, rfl⟩ := hx
  obtain ⟨vs, rfl⟩ := hk
  induction xs generalizing ks with
  | nil => simp [xor]
  | cons x xs ih =>
    cases ks with
    | nil => simp [xor]
    | cons k ks => simpa [xor] using ih

theorem xor_keystream_of_le (hiv : iv.length = B.size) {xs : Bytes} {i n n' : ℕ} (h : xs.length ≤ B.size * n)
    (hn : n ≤ n') : xor xs (keystream B iv i n') = xor xs (keystream B iv i n) := by
  obtain ⟨m, rfl⟩ := Nat.exists_eq_add_of_le hn
  rw [keystream_add, xor_append_right, length_keystream hiv, take_of_length_le h, drop_of_length_le h]
  simp [xor]

theorem xor_xor {xs ks : Bytes} (h : xs.length ≤ ks.length) : xor (xor xs ks) ks = xs := by
  apply ext_getElem
  · simp only [length_xor]
    omega
  · intro i hi hi'
    simp only [xor, getElem_zipWith, UInt8.xor_assoc, UInt8.xor_self, UInt8.xor_zero]

end Keystream

end Bpy.CounterMode
