import Mathlib.Data.List.Basic
import Mathlib.Tactic.Ring

/-!
# Byte strings, little-endian words and zero-extended buffers

A fixed array of bytes that starts zeroed is represented by any list that agrees
with it up to trailing zeros: `window` reads a range of the array, past the end of
the list as zeros, and `overwrite` is a copy to the front of the array, which leaves
the stale bytes behind the copied ones in place.
-/
namespace Bpy.ByteWords
open List

abbrev Bytes := List UInt8

instance : LawfulBEq Bytes := inferInstance

def ascii (s : String) : Bytes := s.toList.map (fun c => UInt8.ofNat c.toNat)

/-- The `w` low bytes of `n`, least significant first. -/
def leBytes : ℕ → ℕ → Bytes
  | 0, _ => []
  | w + 1, n => UInt8.ofNat n :: leBytes w (n / 256)

def leNat : Bytes → ℕ
  | [] => 0
  | b :: bs => b.toNat + 256 * leNat bs

@[simp] theorem length_leBytes (w n : ℕ) : (leBytes w n).length = w := by
  induction w generalizing n with
  | zero => rfl
  | succ w ih => simp [leBytes, ih]

theorem leNat_leBytes (w n : ℕ) : leNat (leBytes w n) = n % 256 ^ w := by
  induction w generalizing n with
  | zero => simp [leBytes, leNat, Nat.mod_one]
  | succ w ih =>
    simp only [leBytes, leNat, ih, UInt8.toNat_ofNat', Nat.reducePow]
    rw [pow_succ, mul_comm (256 ^ w) 256, Nat.mod_mul]

theorem leNat_leBytes_of_lt {w n : ℕ} (h : n < 256 ^ w) : leNat (leBytes w n) = n := by
  rw [leNat_leBytes, Nat.mod_eq_of_lt h]

theorem leBytes_leNat (bs : Bytes) : leBytes bs.length (leNat bs) = bs := by
  induction bs with
  | nil => rfl
  | cons b bs ih =>
    have hb : b.toNat < 256 := b.toNat_lt
    have hdiv : (b.toNat + 256 * leNat bs) / 256 = leNat bs := by omega
    have hmod : UInt8.ofNat (b.toNat + 256 * leNat bs) = b := by
      apply UInt8.toNat_inj.mp
      simp only [UInt8.toNat_ofNat', Nat.reducePow]
      omega
    simp only [length_cons, leBytes, leNat, hdiv, hmod, ih]

theorem leNat_lt (bs : Bytes) : leNat bs < 256 ^ bs.length := by
  induction bs with
  | nil => simp [leNat]
  | cons b bs ih =>
    have hb : b.toNat < 256 := b.toNat_lt
    simp only [leNat, length_cons, pow_succ]
    omega

/-- The `w` low bytes of `n`, most significant first. -/
def beBytes (w n : ℕ) : Bytes := (leBytes w n).reverse

def beNat (bs : Bytes) : ℕ := leNat bs.reverse

@[simp] theorem length_beBytes (w n : ℕ) : (beBytes w n).length = w := by simp [beBytes]

theorem beNat_beBytes_of_lt {w n : ℕ} (h : n < 256 ^ w) : beNat (beBytes w n) = n := by
  rw [beNat, beBytes, reverse_reverse, leNat_leBytes_of_lt h]

theorem beBytes_beNat {w : ℕ} {bs : Bytes} (h : bs.length = w) : beBytes w (beNat bs) = bs := by
  rw [beBytes, beNat, ← h, ← length_reverse, leBytes_leNat, reverse_reverse]

theorem beNat_lt (bs : Bytes) : beNat bs < 256 ^ bs.length := by
  rw [← length_reverse]
  exact leNat_lt bs.reverse

/-- Conversion to a 64-bit signed integer. -/
def int64 (x : ℤ) : ℤ := Int.bmod x (2 ^ 64)

theorem int64_of_lt {x : ℤ} (h0 : 0 ≤ x) (h : x < 2 ^ 63) : int64 x = x :=
  Int.bmod_eq_of_le (by omega) (by omega)

/-- The bytes `off, …, off + n - 1` of the array that `buf` stands for. -/
def window (buf : Bytes) (off n : ℕ) : Bytes :=
  (List.range n).map (fun i => buf.getD (off + i) 0)

@[simp] theorem length_window (buf : Bytes) (off n : ℕ) : (window buf off n).length = n := by
  simp [window]

@[simp] theorem window_zero (buf : Bytes) (off : ℕ) : window buf off 0 = [] := rfl

theorem window_add (buf : Bytes) (off m n : ℕ) :
    window buf off (m + n) = window buf off m ++ window buf (off + m) n := by
  simp [window, range_add, Function.comp_def, Nat.add_assoc]

theorem window_eq_take_drop {buf : Bytes} {off n : ℕ} (h : off + n ≤ buf.length) :
    window buf off n = (buf.drop off).take n := by
  apply ext_getElem
  · simp only [length_window, length_take, length_drop]
    omega
  · intro i hi hi'
    have hlt : off + i < buf.length := by
      simp only [length_window] at hi
      omega
    simp [window, getD_eq_getElem?_getD, getElem?_eq_getElem hlt]

/-- `copy` of `src` to the start of the array. -/
def overwrite (buf src : Bytes) : Bytes := src ++ buf.drop src.length

theorem window_overwrite {buf src : Bytes} {off n : ℕ} (h : off + n ≤ src.length) :
    window (overwrite buf src) off n = (src.drop off).take n := by
  rw [window_eq_take_drop (by simp [overwrite]; omega), overwrite,
    drop_append_of_le_length (by omega), take_append_of_le_length (by simp; omega)]

end Bpy.ByteWords
