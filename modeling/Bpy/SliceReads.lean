import Bpy.ByteSlices

/-!
# Code that reads a slice

A slice can be resliced up to its capacity, so code that is given a slice can read what stands
behind it. Three judgements about code on a slice with given bytes: it returns a value that
these bytes alone decide, it stays inside the bytes, or it needs more bytes than there are and
panics where the slice ends the memory.
-/
namespace Bpy.SliceReads
open ByteWords ContentStore ByteSources ByteSlices

variable {α β : Type} {bs : Bytes}

/-- The slice holds the bytes `bs`. -/
def Holds (s : Slice) (mem : Memory) (bs : Bytes) : Prop := mem.read s.off s.len = bs

/-- The code returns `a`, whatever stands behind the slice. -/
def Gives (bs : Bytes) (x : Slice → MemM α) (a : α) : Prop :=
  ∀ s mem, Holds s mem bs → x s mem = (.ok a, mem)

/-- The code does not panic and does the same whatever stands behind the slice. What it returns
has the property `post`. -/
def Inside (bs : Bytes) (x : Slice → MemM α) (post : α → Prop) : Prop :=
  ∃ r : Except GoError α, (∀ msg, r ≠ .error (.panic msg)) ∧ (∀ a, r = .ok a → post a) ∧
    ∀ s mem, Holds s mem bs → x s mem = (r, mem)

/-- The code panics if the slice cannot be resliced beyond its end. -/
def Outside (bs : Bytes) (x : Slice → MemM α) : Prop :=
  ∀ s mem, s.cap = s.len → Holds s mem bs → ∃ msg, (x s mem).1 = .error (.panic msg)

/-- The word of `w` bytes at offset `k`. -/
def word (w k : ℕ) (bs : Bytes) : ℕ := leNat ((bs.drop k).take w)

theorem word_lt (w k : ℕ) (bs : Bytes) : word w k bs < 256 ^ w :=
  (leNat_lt _).trans_le (Nat.pow_le_pow_right (by decide) (List.length_take_le _ _))

variable {lo hi w i : ℕ} {x : Slice → MemM α} {f : Slice → α → MemM β} {a : α}

section Holds

variable {s : Slice} {mem : Memory}

theorem Holds.len_eq (h : Holds s mem bs) : s.len = bs.length := by
  rw [← h, Memory.length_read]

theorem Holds.le_cap (h : Holds s mem bs) (hle : hi ≤ bs.length) : hi ≤ s.cap :=
  (hle.trans h.len_eq.ge).trans s.len_le

theorem read_part {p n : ℕ} (h : lo + w ≤ n) : mem.read (p + lo) w = ((mem.read p n).drop lo).take w := by
  obtain ⟨rest, rfl⟩ := Nat.exists_eq_add_of_le h
  rw [Nat.add_assoc, Memory.read_add, Memory.read_add, List.drop_left' Memory.length_read,
    List.take_left' Memory.length_read]

variable (h : Holds s mem bs)
include h

theorem Holds.read_eq (hle : lo + w ≤ bs.length) : mem.read (s.off + lo) w = (bs.drop lo).take w := by
  rw [read_part (hle.trans h.len_eq.ge), h]

theorem Holds.byte_eq (hi : i < bs.length) : mem.byte (s.off + i) = bs[i] := by
  subst h
  simp [Memory.read]

theorem Holds.part (hlo : lo ≤ hi) (hle : hi ≤ bs.length) :
    Holds (s.part lo hi ⟨hlo, h.le_cap hle⟩) mem ((bs.drop lo).take (hi - lo)) :=
  h.read_eq (w := hi - lo) (by omega)

theorem Holds.rest (hlo : lo ≤ s.len ∧ s.len ≤ s.cap) : Holds (s.part lo s.len hlo) mem (bs.drop lo) := by
  have hlen := h.len_eq
  have hread : mem.read (s.off + lo) (s.len - lo) = (bs.drop lo).take (s.len - lo) := h.read_eq (by omega)
  rwa [List.take_of_length_le (by rw [List.length_drop]; omega)] at hread

end Holds

section Gives

variable {b : β}

theorem gives_pure (a : α) : Gives bs (fun _ => pure a) a := fun _ _ _ => rfl

theorem Gives.bind (hx : Gives bs x a) (hf : Gives bs (fun s => f s a) b) : Gives bs (fun s => x s >>= f s) b := by
  intro s mem h
  exact (bind_of_ok (hx s mem h)).trans (hf s mem h)

theorem gives_uint (h : lo + w ≤ hi) (hle : hi ≤ bs.length) : Gives bs (fun s => uint w s lo hi) (word w lo bs) := by
  intro s mem hs
  rw [word, ← hs.read_eq (by omega)]
  exact uint_ok h (hs.le_cap hle)

theorem gives_byteAt (h : i < bs.length) : Gives bs (fun s => byteAt s i) bs[i] := by
  intro s mem hs
  rw [← hs.byte_eq h]
  exact byteAt_ok (hs.len_eq ▸ h)

theorem gives_bytesOf (h : lo ≤ hi) (hle : hi ≤ bs.length) :
    Gives bs (fun s => bytesOf s lo hi) ((bs.drop lo).take (hi - lo)) := by
  intro s mem hs
  rw [← hs.read_eq (by omega)]
  exact bytesOf_ok h (hs.le_cap hle)

theorem gives_slice (h : lo ≤ hi) (hle : hi ≤ bs.length) (hx : Gives ((bs.drop lo).take (hi - lo)) x a) :
    Gives bs (fun s => slice s lo hi >>= x) a := by
  intro s mem hs
  exact (bind_of_ok (slice_ok ⟨h, hs.le_cap hle⟩)).trans (hx _ mem (hs.part h hle))

end Gives

section Inside

variable {P : α → Prop} {Q : β → Prop}

theorem inside_pure (h : P a) : Inside bs (fun _ => pure a) P := by
  refine ⟨.ok a, nofun, fun a' ha => ?_, fun _ _ _ => rfl⟩
  cases ha
  exact h

theorem inside_throw {e : GoError} (h : ∀ msg, e ≠ .panic msg) : Inside bs (fun _ => throw e) P :=
  ⟨.error e, fun msg he => h msg (by cases he; rfl), nofun, fun _ _ _ => rfl⟩

theorem Gives.inside (h : Gives bs x a) (hP : P a) : Inside bs x P := by
  refine ⟨.ok a, nofun, fun a' ha => ?_, h⟩
  cases ha
  exact hP

theorem Inside.bind (hx : Inside bs x P) (hf : ∀ a, P a → Inside bs (fun s => f s a) Q) :
    Inside bs (fun s => x s >>= f s) Q := by
  obtain ⟨r, hr, hP, hrun⟩ := hx
  cases r with
  | error e =>
    refine ⟨.error e, fun msg he => hr msg (by cases he; rfl), nofun, fun s mem h => ?_⟩
    exact bind_of_error (hrun s mem h)
  | ok a =>
    obtain ⟨r', hr', hQ, hrun'⟩ := hf a (hP a rfl)
    refine ⟨r', hr', hQ, fun s mem h => ?_⟩
    exact (bind_of_ok (hrun s mem h)).trans (hrun' s mem h)

theorem Inside.congr {y : Slice → MemM α} (hy : Inside bs y P) (h : ∀ s mem, Holds s mem bs → x s mem = y s mem) :
    Inside bs x P := by
  obtain ⟨r, hr, hP, hrun⟩ := hy
  exact ⟨r, hr, hP, fun s mem hs => (h s mem hs).trans (hrun s mem hs)⟩

theorem Gives.next (hx : Gives bs x a) (hf : Inside bs (fun s => f s a) Q) : Inside bs (fun s => x s >>= f s) Q := by
  refine (hx.inside (P := fun a' => a' = a) rfl).bind (fun a' ha => ?_)
  rw [ha]
  exact hf

theorem inside_uint (h : lo + w ≤ hi) (hle : hi ≤ bs.length) : Inside bs (fun s => uint w s lo hi) (fun _ => True) :=
  (gives_uint h hle).inside trivial

theorem inside_field {f : ℕ → Slice → MemM β} {P : β → Prop} (h : lo + w ≤ hi ∧ hi ≤ bs.length)
    (hf : ∀ v, Inside bs (f v) P) : Inside bs (fun s => uint w s lo hi >>= fun v => f v s) P :=
  (inside_uint h.1 h.2).bind (fun v _ => hf v)

theorem inside_rest (h : lo ≤ bs.length) (hx : Inside (bs.drop lo) x P) :
    Inside bs (fun s => slice s lo s.len >>= x) P := by
  obtain ⟨r, hr, hP, hrun⟩ := hx
  refine ⟨r, hr, hP, fun s mem hs => ?_⟩
  have hlen : lo ≤ s.len ∧ s.len ≤ s.cap := ⟨hs.len_eq ▸ h, s.len_le⟩
  exact (bind_of_ok (slice_ok hlen)).trans (hrun _ mem (hs.rest hlen))

theorem Inside.part_bind {y : Slice → MemM Slice} (hx : Inside bs (fun s => y s >>= x) P)
    (hf : ∀ a, P a → Inside bs (fun s => f s a) Q) : Inside bs (fun s => y s >>= fun s' => x s' >>= f s) Q := by
  have hbind := hx.bind hf
  simp only [bind_assoc] at hbind
  exact hbind

end Inside

section Outside

theorem Outside.bind (hx : Outside bs x) : Outside bs (fun s => x s >>= f s) := by
  intro s mem hcap hs
  obtain ⟨msg, h⟩ := hx s mem hcap hs
  cases hrun : x s mem with
  | mk r mem' =>
    rw [hrun] at h
    cases h
    exact ⟨msg, congrArg Prod.fst (bind_of_error hrun)⟩

theorem Outside.congr {y : Slice → MemM α} (hy : Outside bs y) (h : ∀ s mem, Holds s mem bs → x s mem = y s mem) :
    Outside bs x := by
  intro s mem hcap hs
  rw [h s mem hs]
  exact hy s mem hcap hs

theorem Gives.outside (hx : Gives bs x a) (hf : Outside bs (fun s => f s a)) : Outside bs (fun s => x s >>= f s) := by
  intro s mem hcap hs
  obtain ⟨msg, h⟩ := hf s mem hcap hs
  exact ⟨msg, (congrArg Prod.fst (bind_of_ok (hx s mem hs))).trans h⟩

theorem Gives.part_outside {y : Slice → MemM Slice} (hx : Gives bs (fun s => y s >>= x) a)
    (hf : Outside bs (fun s => f s a)) : Outside bs (fun s => y s >>= fun s' => x s' >>= f s) := by
  have hbind := hx.outside hf
  simp only [bind_assoc] at hbind
  exact hbind

theorem outside_rest (h : lo ≤ bs.length) (hx : Outside (bs.drop lo) x) :
    Outside bs (fun s => slice s lo s.len >>= x) := by
  intro s mem hcap hs
  have hlen : lo ≤ s.len ∧ s.len ≤ s.cap := ⟨hs.len_eq ▸ h, s.len_le⟩
  obtain ⟨msg, hmsg⟩ := hx (s.part lo s.len hlen) mem (by rw [part_cap, part_len, hcap]) (hs.rest hlen)
  exact ⟨msg, (congrArg Prod.fst (bind_of_ok (slice_ok hlen))).trans hmsg⟩

theorem outside_slice (h : hi < lo ∨ bs.length < hi) : Outside bs (fun s => slice s lo hi) := by
  intro s mem hcap hs
  have hlen := hs.len_eq
  exact ⟨_, congrArg Prod.fst (slice_error (by omega))⟩

theorem outside_uint (h : hi < lo ∨ bs.length < hi) : Outside bs (fun s => uint w s lo hi) :=
  (outside_slice h).bind

theorem outside_bytesOf (h : hi < lo ∨ bs.length < hi) : Outside bs (fun s => bytesOf s lo hi) :=
  (outside_slice h).bind

theorem Outside.not_inside {P : α → Prop} (h : Outside bs x) : ¬ Inside bs x P := by
  intro hin
  obtain ⟨r, hr, -, hrun⟩ := hin
  have hholds : Holds ⟨0, bs.length, bs.length, le_rfl⟩ ((⟨fun _ => 0⟩ : Memory).write 0 bs) bs := Memory.read_write
  obtain ⟨msg, hpanic⟩ := h _ _ rfl hholds
  rw [hrun _ _ hholds] at hpanic
  exact hr msg hpanic

end Outside

end Bpy.SliceReads
