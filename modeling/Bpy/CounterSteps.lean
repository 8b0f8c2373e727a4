import Bpy.CryptFile
import Mathlib.Data.Nat.Bitwise

/-!
# The counters of blocks

The loop of `ctrState.Add` as the machine runs it, on words of 64 bits and from the last
byte of the vector to the first. It is left after at most one round for each byte and one
more. The reader adds the number of a block to the first counter, the writer adds one for
each block that it has written, and both come to the same counter.
-/
namespace Bpy.CounterSteps
open ByteWords InteractionPrograms ContentStore CounterMode CryptFile Method

section Loop

structure AddLoop where
  vec : Bytes
  idx : ℤ
  val : UInt64
  carry : UInt64

namespace AddLoop

def start (vec : Bytes) (val : UInt64) : AddLoop := ⟨vec, vec.length - 1, val, 0⟩

/-- The carry of a round. -/
def carryOf (newb : UInt64) : UInt64 := if newb &&& ((1 : UInt64) <<< (8 : UInt64)) ≠ 0 then 1 else 0

/-- One round, or none if the loop is left. -/
def next (l : AddLoop) : Option AddLoop :=
  if l.val = 0 ∧ l.carry = 0 then none
  else if l.idx < 0 then none
  else
    let newb := (l.vec.getD l.idx.toNat 0).toUInt64 + (l.val &&& 0xff) + l.carry
    some ⟨l.vec.set l.idx.toNat newb.toUInt8, l.idx - 1, l.val >>> 8, carryOf newb⟩

/-- The vector when the loop is left, if it is left within the rounds. -/
def finish : ℕ → AddLoop → Option Bytes
  | 0, _ => none
  | rounds + 1, l =>
    match l.next with
    | none => some l.vec
    | some l' => finish rounds l'

end AddLoop

theorem toNat_low (val : UInt64) : (val &&& 0xff).toNat = val.toNat % 256 := by
  rw [UInt64.toNat_and]
  exact Nat.and_two_pow_sub_one_eq_mod val.toNat 8

theorem toNat_shift (val : UInt64) : (val >>> 8).toNat = val.toNat / 256 := by
  rw [UInt64.toNat_shiftRight]
  exact Nat.shiftRight_eq_div_pow val.toNat 8

theorem toNat_newb (b : UInt8) (val : UInt64) {carry : UInt64} (hc : carry.toNat ≤ 1) :
    (b.toUInt64 + (val &&& 0xff) + carry).toNat = b.toNat + val.toNat % 256 + carry.toNat := by
  have hb : b.toNat < 256 := b.toNat_lt
  rw [UInt64.toNat_add, UInt64.toNat_add, toNat_low, UInt8.toNat_toUInt64]
  omega

theorem toNat_carryOf (n : UInt64) : (AddLoop.carryOf n).toNat = if n.toNat.testBit 8 then 1 else 0 := by
  have hone : ((1 : UInt64) <<< (8 : UInt64)).toNat = 2 ^ 8 := rfl
  have hzero : n &&& ((1 : UInt64) <<< (8 : UInt64)) = 0 ↔ n.toNat.testBit 8 = false := by
    rw [← UInt64.toNat_inj, UInt64.toNat_and, hone, Nat.and_two_pow]
    cases n.toNat.testBit 8 <;> decide
  rw [AddLoop.carryOf]
  cases hbit : n.toNat.testBit 8 with
  | true => simp [hzero, hbit]
  | false => simp [hzero, hbit]

theorem finish_eq (rs tail : Bytes) (val : UInt64) {carry : UInt64} {rounds : ℕ} (hc : carry.toNat ≤ 1)
    (hrounds : rs.length < rounds) :
    AddLoop.finish rounds ⟨rs.reverse ++ tail, rs.length - 1, val, carry⟩ =
      some ((addLoop rs val.toNat carry.toNat).reverse ++ tail) := by
  induction rs generalizing tail val carry rounds with
  | nil =>
    obtain ⟨rounds, rfl⟩ : ∃ k, rounds = k + 1 := ⟨rounds - 1, by omega⟩
    have hnext : AddLoop.next ⟨tail, -1, val, carry⟩ = none := by
      rw [AddLoop.next]
      split <;> rfl
    simp [AddLoop.finish, hnext, addLoop]
  | cons b rs ih =>
    obtain ⟨rounds, rfl⟩ : ∃ k, rounds = k + 1 := ⟨rounds - 1, by omega⟩
    rw [List.length_cons] at hrounds
    have hzero : (val = 0 ∧ carry = 0) ↔ (val.toNat = 0 ∧ carry.toNat = 0) := by
      rw [← UInt64.toNat_inj, ← UInt64.toNat_inj]
      rfl
    have hvec : (b :: rs).reverse ++ tail = rs.reverse ++ b :: tail := by simp
    have hidx : ((b :: rs).length : ℤ) - 1 = rs.length := by simp
    rw [hvec, hidx, AddLoop.finish, AddLoop.next, addLoop]
    by_cases hstop : val = 0 ∧ carry = 0
    · rw [if_pos hstop, if_pos (hzero.mp hstop)]
      simp
    · rw [if_neg hstop, if_neg (hzero.not.mp hstop), if_neg (by simp)]
      have hget : (rs.reverse ++ b :: tail).getD rs.length 0 = b := by simp
      have hset (x : UInt8) : (rs.reverse ++ b :: tail).set rs.length x = rs.reverse ++ x :: tail := by simp
      simp only [Int.toNat_natCast, hget, hset]
      have hnewb := toNat_newb b val hc
      have hbyte : (b.toUInt64 + (val &&& 0xff) + carry).toUInt8 =
          UInt8.ofNat (b.toNat + val.toNat % 256 + carry.toNat) := by
        apply UInt8.toNat_inj.mp
        rw [UInt64.toNat_toUInt8, hnewb, UInt8.toNat_ofNat']
      have hcarry := toNat_carryOf (b.toUInt64 + (val &&& 0xff) + carry)
      rw [hnewb] at hcarry
      have hle : (AddLoop.carryOf (b.toUInt64 + (val &&& 0xff) + carry)).toNat ≤ 1 := by
        rw [hcarry]
        split <;> decide
      rw [ih _ _ hle (by omega), hbyte, hcarry, toNat_shift]
      simp

theorem finish_start (vec : Bytes) (val : UInt64) {rounds : ℕ} (h : vec.length < rounds) :
    AddLoop.finish rounds (.start vec val) = some (add vec val.toNat) := by
  have hloop := @finish_eq vec.reverse [] val 0 rounds (by decide) (by simpa using h)
  simpa [AddLoop.start, add] using hloop

theorem beNat_add (vec : Bytes) (val : ℕ) : beNat (add vec val) = (beNat vec + val) % 256 ^ vec.length := by
  rw [beNat, add, List.reverse_reverse, leNat_addLoop _ _ (Nat.zero_le 1), List.length_reverse, Nat.add_zero, beNat]

end Loop

/-- `ctrState`. -/
structure CtrState where
  iv : Bytes
  vec : Bytes
  length_eq : vec.length = iv.length

namespace CtrState

def reset (ctr : CtrState) : CtrState := ⟨ctr.iv, ctr.iv, rfl⟩

def add (ctr : CtrState) (val : UInt64) : CtrState :=
  ⟨ctr.iv, CounterMode.add ctr.vec val.toNat, by rw [length_add, ctr.length_eq]⟩

theorem add_one_iterate (ctr : CtrState) (n : ℕ) : (fun c : CtrState => c.add 1)^[n] ctr =
      ⟨ctr.iv, CounterMode.add ctr.vec n, by rw [length_add, ctr.length_eq]⟩ := by
  induction n with
  | zero => simp only [Function.iterate_zero, id_eq, CounterMode.add_zero]
  | succ n ih =>
    have hone : (1 : UInt64).toNat = 1 := rfl
    rw [Function.iterate_succ_apply', ih]
    simp only [add, hone, add_add]

end CtrState

section Blocks

variable {σ : Type} (B : Block)

/-- The writer flushes `n` blocks, and goes on if a write fails. -/
def flushes : ℕ → SinkM Writer Unit
  | 0 => pure ()
  | n + 1 => do
    flushes n
    let _ ← Method.attempt (flushBlock B)

variable {B}

theorem vec_flushes (hd : SinkRequest → σ → Except GoError Unit × σ) (n : ℕ) (w : Writer) (s : σ) :
    (exec hd (flushes B n) w s).1 = .ok () ∧ (exec hd (flushes B n) w s).2.1.vec = add w.vec n := by
  induction n with
  | zero => exact ⟨rfl, (add_zero w.vec).symm⟩
  | succ n ih =>
    obtain ⟨r, w', s', hrun⟩ : ∃ r w' s', exec hd (flushes B n) w s = (r, w', s') := ⟨_, _, _, rfl⟩
    rw [hrun] at ih
    obtain ⟨rfl, hvec⟩ := ih
    rw [flushes, exec_bind_ok _ hrun]
    refine ⟨rfl, ?_⟩
    change add w'.vec 1 = _
    rw [hvec, add_add]

end Blocks

/-- `Add` adds to the vector as a big-endian number and terminates, adding a number at once is
adding one so many times, and so the reader starts at the counter that the writer has reached. -/
theorem counter_arithmetic (ctr : CtrState) (v : UInt64) :
    AddLoop.finish (ctr.vec.length + 1) (.start ctr.vec v) = some (ctr.add v).vec ∧
    beNat (ctr.add v).vec = (beNat ctr.vec + v.toNat) % 256 ^ ctr.vec.length ∧
    (ctr.add v).vec.length = ctr.vec.length ∧
    ctr.reset.add v = (fun c : CtrState => c.add 1)^[v.toNat] ctr.reset ∧
    ∀ (B : Block) (σ : Type) (hd : SinkRequest → σ → Except GoError Unit × σ) (s : σ) (buf : Bytes) (nbuf idx n : ℕ),
      (Method.exec hd (flushes B (idx + n)) ⟨buf, nbuf, ctr.iv⟩ s).2.1.vec =
        (fun vec => add vec 1)^[n] (add ctr.iv (uint64 idx)) := by
  refine ⟨finish_start ctr.vec v (Nat.lt_succ_self _), beNat_add _ _, length_add _ _, ?_, ?_⟩
  · rw [CtrState.add_one_iterate]
    rfl
  · intro B σ hd s buf nbuf idx n
    have hjump : uint64 idx = idx := by simp [uint64]
    rw [(vec_flushes hd (idx + n) _ s).2, hjump]
    induction n with
    | zero => rfl
    | succ n ih => rw [Function.iterate_succ_apply', ← ih, add_add, Nat.add_assoc]

end Bpy.CounterSteps
