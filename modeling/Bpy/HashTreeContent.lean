import Bpy.HashTreeWriter

/-!
# What a hash tree holds

`Holds stored k off h d`: the chunks of `stored` contain, under the hash `h`, a tree of
depth `k` with the byte string `d` in its leaves, whose first byte stands at offset
`off` of the stream. The predicate follows the chunk format: a leaf is the tag `0` and
its data, a node of level `k + 1` is its tag and one entry `offset:hash` for each child.
-/
namespace Bpy.HashTreeContent
open ByteWords ContentStore HashTreeWriter
open List hiding Chain

/-- The children of a node: the hash of each one and the data below it. -/
abbrev Children := List (Hash × Bytes)

/-- The entries of the children of a node whose data starts at offset `off`. -/
def encodeEntries : ℕ → Children → Bytes
  | _, [] => []
  | off, e :: es => leBytes 8 off ++ e.1.bytes ++ encodeEntries (off + e.2.length) es

def contents (es : Children) : Bytes := es.flatMap Prod.snd

/-- `P` holds of every child, at the offset where its data starts. -/
def Chain (P : ℕ → Hash → Bytes → Prop) : ℕ → Children → Prop
  | _, [] => True
  | off, e :: es => P off e.1 e.2 ∧ Chain P (off + e.2.length) es

/-- The number of entries that fit into a node. -/
def fanout : ℕ := 1638

abbrev tag (k : ℕ) : UInt8 := UInt8.ofNat k

def Holds (stored : Hash → Bytes → Prop) : ℕ → ℕ → Hash → Bytes → Prop
  | 0, _, h, d => stored h (0 :: d) ∧ d.length < maxlen
  | k + 1, off, h, d => ∃ es, es ≠ [] ∧ es.length ≤ fanout ∧ contents es = d ∧
      stored h (tag (k + 1) :: encodeEntries off es) ∧
      Chain (fun off h d => Holds stored k off h d ∧ d ≠ []) off es

/-- The number of bytes below a node of level `k` that cannot grow any more. -/
def capacity : ℕ → ℕ
  | 0 => maxlen - 1
  | k + 1 => fanout * capacity k

/-- A tree of depth `k` with as many bytes as possible. -/
def Full (stored : Hash → Bytes → Prop) (k off : ℕ) (h : Hash) (d : Bytes) : Prop :=
  Holds stored k off h d ∧ d.length = capacity k

/-- A tree of depth `k` that may still grow at its right end: all children of a node but the
last one are full. -/
def Spine (stored : Hash → Bytes → Prop) : ℕ → ℕ → Hash → Bytes → Prop
  | 0, _, h, d => stored h (0 :: d) ∧ d.length < maxlen
  | k + 1, off, h, d => ∃ es last X, d = contents es ++ X ∧ X ≠ [] ∧ es.length < fanout ∧
      stored h (tag (k + 1) :: encodeEntries off (es ++ [(last, X)])) ∧
      Chain (Full stored k) off es ∧ Spine stored k (off + (contents es).length) last X

@[simp] theorem contents_nil : contents [] = [] := rfl

@[simp] theorem contents_cons (e : Hash × Bytes) (es : Children) :
    contents (e :: es) = e.2 ++ contents es := by simp [contents]

@[simp] theorem contents_append (es fs : Children) :
    contents (es ++ fs) = contents es ++ contents fs := by simp [contents]

@[simp] theorem length_encodeEntries (off : ℕ) (es : Children) : (encodeEntries off es).length = 40 * es.length := by
  induction es generalizing off with
  | nil => rfl
  | cons e es ih =>
    simp only [encodeEntries, length_append, length_leBytes, e.1.length_bytes, ih, length_cons]
    omega

theorem encodeEntries_append (off : ℕ) (es fs : Children) : encodeEntries off (es ++ fs) =
      encodeEntries off es ++ encodeEntries (off + (contents es).length) fs := by
  induction es generalizing off with
  | nil => simp [encodeEntries]
  | cons e es ih =>
    simp only [cons_append, encodeEntries, ih, contents_cons, length_append,
      append_assoc, Nat.add_assoc]

section Chain

variable {P P' : ℕ → Hash → Bytes → Prop} {off : ℕ} {es fs : Children}

theorem Chain.mono (hP : ∀ off h d, P off h d → P' off h d) (h : Chain P off es) : Chain P' off es := by
  induction es generalizing off with
  | nil => trivial
  | cons e es ih => exact ⟨hP _ _ _ h.1, ih h.2⟩

theorem chain_append : Chain P off (es ++ fs) ↔ Chain P off es ∧ Chain P (off + (contents es).length) fs := by
  induction es generalizing off with
  | nil => simp [Chain]
  | cons e es ih =>
    simp only [cons_append, Chain, ih, contents_cons, length_append, Nat.add_assoc, and_assoc]

theorem Chain.of_mem (hc : Chain P off es) {h : Hash} (hh : h ∈ es.map Prod.fst) : ∃ off' d, P off' h d := by
  induction es generalizing off with
  | nil => simp at hh
  | cons e es ih =>
    rcases mem_cons.mp hh with rfl | hh
    · exact ⟨off, e.2, hc.1⟩
    · exact ih hc.2 hh

theorem chain_singleton (h : Hash) (d : Bytes) : Chain P off [(h, d)] ↔ P off h d := by
  simp [Chain]

end Chain

theorem capacity_pos (k : ℕ) : 0 < capacity k := by
  induction k with
  | zero => decide
  | succ k ih => exact Nat.mul_pos (by decide) ih

theorem capacity_strictMono : StrictMono capacity := by
  apply strictMono_nat_of_lt_succ
  intro k
  have h := capacity_pos k
  simp only [capacity, fanout]
  omega

theorem depth_lt_of_capacity_lt {k : ℕ} (h : capacity k < 2 ^ 64) : k < 5 := by
  by_contra hk
  have h5 : 2 ^ 64 ≤ capacity 5 := by decide
  have := capacity_strictMono.monotone (show 5 ≤ k by omega)
  omega

section Holds

variable {stored stored' : Hash → Bytes → Prop} {k off : ℕ} {h : Hash} {d : Bytes}

theorem Holds.mono (hst : ∀ h c, stored h c → stored' h c) (hh : Holds stored k off h d) : Holds stored' k off h d := by
  induction k generalizing off h d with
  | zero => exact ⟨hst _ _ hh.1, hh.2⟩
  | succ k ih =>
    obtain ⟨es, hne, hlen, hd, hs, hc⟩ := hh
    exact ⟨es, hne, hlen, hd, hst _ _ hs, hc.mono (fun _ _ _ he => ⟨ih he.1, he.2⟩)⟩

theorem Full.mono (hst : ∀ h c, stored h c → stored' h c) (hf : Full stored k off h d) :
    Full stored' k off h d := ⟨hf.1.mono hst, hf.2⟩

theorem Full.ne_nil (hf : Full stored k off h d) : d ≠ [] := by
  rintro rfl
  have := capacity_pos k
  simp [← hf.2] at this

theorem Full.nonempty (hf : Full stored k off h d) : Holds stored k off h d ∧ d ≠ [] :=
  ⟨hf.1, hf.ne_nil⟩

theorem Spine.mono (hst : ∀ h c, stored h c → stored' h c) (hh : Spine stored k off h d) : Spine stored' k off h d := by
  induction k generalizing off h d with
  | zero => exact ⟨hst _ _ hh.1, hh.2⟩
  | succ k ih =>
    obtain ⟨es, last, X, hd, hX, hlen, hs, hc, hlast⟩ := hh
    exact ⟨es, last, X, hd, hX, hlen, hst _ _ hs, hc.mono (fun _ _ _ hf => hf.mono hst), ih hlast⟩

theorem Spine.holds (hh : Spine stored k off h d) : Holds stored k off h d := by
  induction k generalizing off h d with
  | zero => exact hh
  | succ k ih =>
    obtain ⟨es, last, X, hd, hX, hlen, hs, hc, hlast⟩ := hh
    refine ⟨es ++ [(last, X)], by simp, by simpa using Nat.succ_le_of_lt hlen, by simp [hd], hs, ?_⟩
    apply chain_append.mpr
    constructor
    · exact hc.mono (fun _ _ _ hf => hf.nonempty)
    · exact (chain_singleton _ _).mpr ⟨ih hlast, hX⟩

theorem chain_length_le {P : ℕ → Hash → Bytes → Prop} {cap : ℕ} (hP : ∀ off h d, P off h d → d.length ≤ cap)
    {es : Children} (hc : Chain P off es) : (contents es).length ≤ es.length * cap ∧
      ((contents es).length = es.length * cap → Chain (fun off h d => P off h d ∧ d.length = cap) off es) := by
  induction es generalizing off with
  | nil => exact ⟨by simp, fun _ => trivial⟩
  | cons e es ih =>
    obtain ⟨hle, hfull⟩ := ih hc.2
    have he := hP _ _ _ hc.1
    simp only [contents_cons, length_append, length_cons, Nat.succ_mul]
    refine ⟨by omega, fun heq => ⟨⟨hc.1, by omega⟩, hfull (by omega)⟩⟩

theorem Holds.length_le (hh : Holds stored k off h d) : d.length ≤ capacity k := by
  induction k generalizing off h d with
  | zero =>
    have := hh.2
    simp only [capacity]
    omega
  | succ k ih =>
    obtain ⟨es, hne, hlen, rfl, hs, hc⟩ := hh
    have hle := (chain_length_le (fun _ _ _ he => ih he.1) hc).1
    have hmul : es.length * capacity k ≤ fanout * capacity k := Nat.mul_le_mul_right _ hlen
    simp only [capacity]
    omega

theorem Full.children (hf : Full stored (k + 1) off h d) : ∃ es, es.length = fanout ∧ contents es = d ∧
    stored h (tag (k + 1) :: encodeEntries off es) ∧ Chain (Full stored k) off es := by
  obtain ⟨⟨es, hne, hlen, rfl, hs, hc⟩, hfull⟩ := hf
  obtain ⟨hle, hall⟩ := chain_length_le (fun _ _ _ he => he.1.length_le) hc
  have hpos := capacity_pos k
  simp only [capacity] at hfull
  have hcount : es.length = fanout := by
    by_contra hcount
    have hlt : es.length * capacity k < fanout * capacity k :=
      Nat.mul_lt_mul_of_pos_right (lt_of_le_of_ne hlen hcount) hpos
    omega
  refine ⟨es, hcount, rfl, hs, ?_⟩
  exact (hall (by rw [hfull, hcount])).mono (fun _ _ _ he => ⟨he.1.1, he.2⟩)

theorem exists_last {es : Children} (h : es ≠ []) : ∃ front last, es = front ++ [last] :=
  ⟨_, _, (dropLast_append_getLast h).symm⟩

theorem Full.spine (hf : Full stored k off h d) : Spine stored k off h d := by
  induction k generalizing off h d with
  | zero => exact hf.1
  | succ k ih =>
    obtain ⟨es, hlen, rfl, hs, hc⟩ := hf.children
    obtain ⟨front, last, rfl⟩ := exists_last (show es ≠ [] by
      rintro rfl
      simp [fanout] at hlen)
    obtain ⟨hfront, hlast⟩ := chain_append.mp hc
    have hlast := (chain_singleton _ _).mp hlast
    refine ⟨front, last.1, last.2, by simp, hlast.ne_nil, ?_, hs, hfront, ih hlast⟩
    rw [length_append, length_singleton] at hlen
    omega

theorem length_contents_full {es : Children} (hc : Chain (Full stored k) off es) :
    (contents es).length = es.length * capacity k := by
  induction es generalizing off with
  | nil => simp
  | cons e es ih =>
    simp only [contents_cons, length_append, length_cons, hc.1.2, ih hc.2, Nat.succ_mul]
    omega

end Holds

end Bpy.HashTreeContent
