import Bpy.HashTreeContent
import Bpy.HashTreeReader

/-!
# The invariant of `htree.Reader`

A reader in the middle of a tree holds, on each level above the leaf, the entries of
the children it has not descended into yet. What is left to read is the rest of the
leaf followed by the data below these entries, from the lowest level up.
-/
namespace Bpy.HashTreeReading
open ByteWords InteractionPrograms ContentStore HashTreeWriter HashTreeContent HashTreeReader Method
open List (append_assoc length_cons nil_append)

/-- Level `k + 1`, from position `p` on, consists of the entries of the trees `es`. -/
structure EntriesLeft (stored : Hash → Bytes → Prop) (r : Reader) (k p off : ℕ) (es : Children) :
    Prop where
  pos : r.pos (k + 1) = p
  length : r.length (k + 1) = p + 40 * es.length
  length_le : r.length (k + 1) ≤ maxlen
  entries : window (r.lvls (k + 1)) p (40 * es.length) = encodeEntries off es
  chain : Chain (fun off h d => Holds stored k off h d ∧ d ≠ []) off es

/-- The rest of the leaf, from position `p` on, is `X`. -/
structure LeafLeft (r : Reader) (p : ℕ) (X : Bytes) : Prop where
  pos : r.pos 0 = p
  length : r.length 0 = p + X.length
  length_le : r.length 0 ≤ maxlen
  bytes : window (r.lvls 0) p X.length = X

/-- The chunk of level `k` has just been loaded, and the data below it is `d`. -/
def Fresh (stored : Hash → Bytes → Prop) (r : Reader) : ℕ → ℕ → Bytes → Prop
  | 0, _, d => LeafLeft r 1 d
  | k + 1, off, d => ∃ es, es ≠ [] ∧ es.length ≤ fanout ∧ contents es = d ∧ EntriesLeft stored r k 1 off es

/-- On the `n` levels above level `k` the bytes `Y` are left. -/
def Ahead (stored : Hash → Bytes → Prop) (r : Reader) : ℕ → ℕ → Bytes → Prop
  | 0, _, Y => Y = []
  | n + 1, k, Y => ∃ p off es B, Y = contents es ++ B ∧ EntriesLeft stored r k p off es ∧
      Ahead stored r n (k + 1) B

/-- Level `i` is the same in two readers. -/
structure SameLevel (r r' : Reader) (i : ℕ) : Prop where
  pos : r'.pos i = r.pos i
  length : r'.length i = r.length i
  lvls : r'.lvls i = r.lvls i

variable {stored : Hash → Bytes → Prop} {r r' : Reader} {n k p off : ℕ} {d Y : Bytes} {σ : Type}
  {hd : Handler σ} {s : σ}

section Levels

variable {es : Children}

theorem SameLevel.trans {r'' : Reader} {i : ℕ} (h : SameLevel r r' i) (h' : SameLevel r' r'' i) :
    SameLevel r r'' i := ⟨h'.pos.trans h.pos, h'.length.trans h.length, h'.lvls.trans h.lvls⟩

theorem sameLevel_load (r : Reader) {i lvl : ℕ} (buf : Bytes) (h : i ≠ lvl) : SameLevel r (r.load lvl buf) i := by
  constructor <;> simp [Reader.load, h]

theorem sameLevel_setPos (r : Reader) {i lvl : ℕ} (pos : ℤ) (h : i ≠ lvl) : SameLevel r (r.setPos lvl pos) i := by
  constructor <;> simp [Reader.setPos, h]

theorem EntriesLeft.congr (hs : SameLevel r r' (k + 1)) (h : EntriesLeft stored r k p off es) :
    EntriesLeft stored r' k p off es where
  pos := hs.pos.trans h.pos
  length := hs.length.trans h.length
  length_le := hs.length.trans_le h.length_le
  entries := by rw [hs.lvls, h.entries]
  chain := h.chain

theorem LeafLeft.congr {X : Bytes} (hs : SameLevel r r' 0) (h : LeafLeft r p X) : LeafLeft r' p X where
  pos := hs.pos.trans h.pos
  length := hs.length.trans h.length
  length_le := hs.length.trans_le h.length_le
  bytes := by rw [hs.lvls, h.bytes]

theorem Ahead.congr_below (hs : ∀ i, k < i → i ≤ k + n → SameLevel r r' i) (h : Ahead stored r n k Y) :
    Ahead stored r' n k Y := by
  induction n generalizing k Y with
  | zero => exact h
  | succ n ih =>
    obtain ⟨p, off, es, B, hY, he, ha⟩ := h
    exact ⟨p, off, es, B, hY, he.congr (hs _ (by omega) (by omega)),
      ih (fun i hi hi' => hs i (by omega) (by omega)) ha⟩

theorem Ahead.congr (hs : ∀ i, k < i → SameLevel r r' i) (h : Ahead stored r n k Y) :
    Ahead stored r' n k Y := h.congr_below (fun i hi _ => hs i hi)

theorem ahead_add {m : ℕ} : Ahead stored r (n + m) k Y ↔
    ∃ low high, Y = low ++ high ∧ Ahead stored r n k low ∧ Ahead stored r m (k + n) high := by
  induction n generalizing k Y with
  | zero =>
    rw [Nat.zero_add, Nat.add_zero]
    constructor
    · exact fun h => ⟨[], Y, rfl, rfl, h⟩
    · rintro ⟨low, high, rfl, hlow, hhigh⟩
      rw [show low = [] from hlow, nil_append]
      exact hhigh
  | succ n ih =>
    rw [Nat.add_right_comm]
    constructor
    · rintro ⟨p, off, es, B, rfl, he, ha⟩
      obtain ⟨low, high, rfl, hlow, hhigh⟩ := ih.mp ha
      refine ⟨contents es ++ low, high, by rw [append_assoc], ⟨p, off, es, low, rfl, he, hlow⟩, ?_⟩
      rwa [show k + (n + 1) = k + 1 + n by omega]
    · rintro ⟨low, high, rfl, ⟨p, off, es, B, rfl, he, ha⟩, hhigh⟩
      rw [show k + (n + 1) = k + 1 + n by omega] at hhigh
      exact ⟨p, off, es, B ++ high, by rw [append_assoc], he, ih.mpr ⟨B, high, rfl, ha, hhigh⟩⟩

private theorem window_load (r : Reader) (k : ℕ) (b : UInt8) {bs : Bytes} (hlen : bs.length < maxlen) :
    window ((r.load k (b :: bs)).lvls k) 1 bs.length = bs := by
  have htake : (b :: bs).take maxlen = b :: bs := List.take_of_length_le (by simp only [length_cons]; omega)
  simp only [Reader.load, Function.update_self, htake]
  rw [window_overwrite (by simp only [length_cons]; omega)]
  simp

theorem leafLeft_load (r : Reader) {d : Bytes} (hlen : d.length < maxlen) : LeafLeft (r.load 0 (0 :: d)) 1 d where
  pos := by simp [Reader.load]
  length := by simp [Reader.load, Nat.add_comm]
  length_le := by simpa [Reader.load] using Nat.succ_le_of_lt hlen
  bytes := window_load r 0 0 hlen

theorem entriesLeft_load (r : Reader) (hlen : es.length ≤ fanout)
    (hc : Chain (fun off h d => Holds stored k off h d ∧ d ≠ []) off es) :
    EntriesLeft stored (r.load (k + 1) (tag (k + 1) :: encodeEntries off es)) k 1 off es := by
  have hlt : (encodeEntries off es).length < maxlen := by
    simp only [length_encodeEntries, maxlen, fanout] at hlen ⊢
    omega
  constructor
  · simp [Reader.load]
  · simp [Reader.load, Nat.add_comm]
  · simpa [Reader.load] using Nat.succ_le_of_lt hlt
  · simpa using window_load r (k + 1) (tag (k + 1)) hlt
  · exact hc

theorem holds_load {h : Hash} (hh : Holds stored k off h d) : ∃ bs, stored h (tag k :: bs) ∧ bs.length < maxlen ∧
      ∀ r : Reader, Fresh stored (r.load k (tag k :: bs)) k off d := by
  cases k with
  | zero => exact ⟨d, hh.1, hh.2, fun r => leafLeft_load r hh.2⟩
  | succ k =>
    obtain ⟨es, hne, hlen, hd, hs, hc⟩ := hh
    refine ⟨_, hs, ?_, fun r => ⟨es, hne, hlen, hd, entriesLeft_load r hlen hc⟩⟩
    simp only [length_encodeEntries, maxlen, fanout] at hlen ⊢
    omega

variable {e : Hash × Bytes} (h : EntriesLeft stored r k p off (e :: es))
include h

private theorem EntriesLeft.head :
    window (r.lvls (k + 1)) p 8 = leBytes 8 off ∧ window (r.lvls (k + 1)) (p + 8) 32 = e.1.bytes ∧
      window (r.lvls (k + 1)) (p + 40) (40 * es.length) = encodeEntries (off + e.2.length) es := by
  have hw := h.entries
  have hsplit : 40 * (e :: es).length = 8 + 32 + 40 * es.length := by
    simp only [length_cons]
    omega
  rw [hsplit, window_add, window_add, encodeEntries] at hw
  obtain ⟨h₁, h₂⟩ := List.append_inj hw (by simp [e.1.length_bytes])
  obtain ⟨h₃, h₄⟩ := List.append_inj h₁ (by simp)
  exact ⟨h₃, h₄, h₂⟩

private theorem EntriesLeft.room :
    p + 40 ≤ maxlen := by
  have hlen := h.length ▸ h.length_le
  simp only [length_cons] at hlen
  omega

theorem EntriesLeft.hashAt_head : r.hashAt (k + 1) (r.pos (k + 1) + 8) = .ok e.1 := by
  have hroom := h.room
  have hpos : r.pos (k + 1) + 8 = ((p + 8 : ℕ) : ℤ) := by rw [h.pos]; rfl
  rw [Reader.hashAt, hpos, if_pos ⟨by omega, by omega⟩, Int.toNat_natCast,
    Nat.min_eq_left (by omega), h.head.2.1, Hash.copy_bytes]

theorem EntriesLeft.uint64At_head (hoff : off < 2 ^ 64) : r.uint64At (k + 1) (r.pos (k + 1)) = .ok off := by
  have hroom := h.room
  rw [Reader.uint64At, h.pos, if_pos ⟨by omega, by omega⟩, Int.toNat_natCast, h.head.1,
    leNat_leBytes_of_lt (by simpa using hoff)]

theorem EntriesLeft.tail :
    EntriesLeft stored (r.skipEntry (k + 1)) k (p + 40) (off + e.2.length) es where
  pos := by simp [Reader.skipEntry, Reader.setPos, h.pos]
  length := by
    simp only [Reader.skipEntry, Reader.setPos, h.length, length_cons]
    omega
  length_le := h.length_le
  entries := h.head.2.2
  chain := h.chain.2

end Levels

section Next

/-- The reader is consistent around its levels: the tree ends at the height. -/
structure Bounded (r : Reader) : Prop where
  height_lt : r.height + 1 < nlevels
  top : ¬ r.pos (r.height + 1) < r.length (r.height + 1)

/-- Reading and seeking in a tree leave everything but its levels as it is. -/
structure Keeps (r r' : Reader) : Prop where
  root : r'.root = r.root
  height : r'.height = r.height
  offset : r'.offset = r.offset
  levels : ∀ i, r.height < i → SameLevel r r' i

theorem Keeps.refl (r : Reader) : Keeps r r := ⟨rfl, rfl, rfl, fun _ _ => ⟨rfl, rfl, rfl⟩⟩

theorem Keeps.trans {r'' : Reader} (h : Keeps r r') (h' : Keeps r' r'') : Keeps r r'' where
  root := h'.root.trans h.root
  height := h'.height.trans h.height
  offset := h'.offset.trans h.offset
  levels := fun i hi => (h.levels i hi).trans (h'.levels i (h.height ▸ hi))

theorem Keeps.bounded (h : Keeps r r') (hb : Bounded r) : Bounded r' := by
  have htop := h.levels (r.height + 1) (Nat.lt_succ_self _)
  exact ⟨h.height ▸ hb.height_lt, by rw [h.height, htop.pos, htop.length]; exact hb.top⟩

theorem keeps_load (r : Reader) (buf : Bytes) (hk : k ≤ r.height) : Keeps r (r.load k buf) :=
  ⟨rfl, rfl, rfl, fun _ hi => sameLevel_load r buf (by omega)⟩

theorem keeps_setPos (r : Reader) (pos : ℤ) (hk : k ≤ r.height) : Keeps r (r.setPos k pos) :=
  ⟨rfl, rfl, rfl, fun _ hi => sameLevel_setPos r pos (by omega)⟩

/-- The end of `next`: the chunk of the next entry is fetched. -/
def takeDown (lvl : ℕ) : ReaderM Bool := do
  let r ← Method.self
  let hash ← Method.ofExcept (r.hashAt (lvl + 1) (r.pos (lvl + 1) + 8))
  let buf ← get hash
  if buf.length > maxlen then
    goPanic "slice bounds out of range"
  else
    Method.update (fun r => (r.skipEntry (lvl + 1)).load lvl buf)
    pure false

private theorem exec_nextFrom_entry (hk : ¬ k > r.height) (hpos : r.pos (k + 1) < r.length (k + 1)) :
    exec hd (nextFrom (n + 1) k) r s = exec hd (takeDown k) r s := by
  simp only [nextFrom, takeDown, exec_bind, exec_self, hk, hpos, if_true, if_false, exec_pure, Bool.false_eq_true]

private theorem exec_nextFrom_end (hk : k = r.height) (hpos : ¬ r.pos (k + 1) < r.length (k + 1)) :
    exec hd (nextFrom (n + 1) k) r s = (.ok true, r, s) := by
  simp [nextFrom, exec_bind, hk, hk ▸ hpos]

private theorem exec_nextFrom_up (hk : k + 1 ≤ r.height) (hpos : ¬ r.pos (k + 1) < r.length (k + 1)) :
    exec hd (nextFrom (n + 1) k) r s =
      exec hd (nextFrom n (k + 1) >>= fun eof => if eof then pure true else takeDown k) r s := by
  have hk' : ¬ k > r.height := by omega
  have hk₁ : ¬ k + 1 > r.height := by omega
  simp only [nextFrom, exec_bind, exec_self, hk', hk₁, hpos, if_false]
  rcases exec hd (nextFrom n (k + 1)) r s with ⟨res, r₁, s₁⟩
  cases res with
  | error e => rfl
  | ok eof => cases eof <;> rfl

theorem EntriesLeft.descend {p off : ℕ} {e : Hash × Bytes} {es : Children} {B : Bytes} (hk : k + 1 ≤ r.height)
    (he : EntriesLeft stored r k p off (e :: es)) (ha : Ahead stored r n (k + 1) B) :
    ∃ buf, stored e.1 buf ∧ ¬ buf.length > maxlen ∧ ∀ r', r' = (r.skipEntry (k + 1)).load k buf →
        Fresh stored r' k off e.2 ∧ Ahead stored r' (n + 1) k (contents es ++ B) ∧ Keeps r r' := by
  obtain ⟨bs, hst, hlen, hfresh⟩ := holds_load he.chain.1.1
  refine ⟨_, hst, by simp only [length_cons]; omega, ?_⟩
  rintro r' rfl
  refine ⟨hfresh _, ⟨_, _, es, B, rfl, he.tail.congr (sameLevel_load _ _ (by omega)), ?_⟩, ?_⟩
  · refine ha.congr (fun i hi => ?_)
    exact (sameLevel_setPos r _ (by omega)).trans (sameLevel_load _ _ (by omega))
  · exact (keeps_setPos r _ hk).trans (keeps_load _ _ (by simp only [Reader.setPos]; omega))

theorem EntriesLeft.pos_lt_iff {p off : ℕ} {es : Children} (he : EntriesLeft stored r k p off es) :
    r.pos (k + 1) < r.length (k + 1) ↔ es ≠ [] := by
  rw [he.pos, he.length]
  cases es with
  | nil => simp
  | cons e es =>
    simp only [length_cons, Nat.cast_lt, ne_eq, reduceCtorEq, not_false_eq_true, iff_true]
    omega

/-- `next` has loaded the next tree of level `k`, with the data `d`, and `Y'` is left behind it. -/
structure Loaded (stored : Hash → Bytes → Prop) (r r' : Reader) (n k : ℕ) (Y d Y' : Bytes) : Prop where
  split : Y = d ++ Y'
  ne_nil : d ≠ []
  fresh : ∃ off, Fresh stored r' k off d
  ahead : Ahead stored r' n k Y'
  keeps : Keeps r r'
  below : ∀ i, i < k → SameLevel r r' i

/-- `next` failed, and nothing is lost. -/
structure Stalled (stored : Hash → Bytes → Prop) (r r' : Reader) (n k : ℕ) (Y : Bytes) : Prop where
  ahead : Ahead stored r' n k Y
  keeps : Keeps r r'
  below : ∀ i, i ≤ k → SameLevel r r' i

variable {I : σ → Prop}

theorem takeDown_outcome {p off : ℕ} {e : Hash × Bytes} {es : Children} {B : Bytes} (hst : Faulty hd I stored)
    (hI : I s) (hk : k + 1 ≤ r.height) (he : EntriesLeft stored r k p off (e :: es)) (ha : Ahead stored r n (k + 1) B) :
    (∃ r' s', exec hd (takeDown k) r s = (.ok false, r', s') ∧ I s' ∧ Fetches hd stored s 1 s' ∧
      Loaded stored r r' (n + 1) k (e.2 ++ (contents es ++ B)) e.2 (contents es ++ B)) ∨
    ∃ err s', exec hd (takeDown k) r s = (.error err, r, s') ∧ I s' ∧ Breaks hd stored s 0 err s' := by
  obtain ⟨buf, hbuf, hlen, hr'⟩ := he.descend hk ha
  obtain ⟨hf, ha', hkeep⟩ := hr' _ rfl
  obtain ⟨s', hI', hget⟩ := hst s _ _ hI hbuf
  have hbelow : ∀ i, i < k → SameLevel r ((r.skipEntry (k + 1)).load k buf) i := fun i hi =>
    (sameLevel_setPos r _ (by omega)).trans (sameLevel_load _ _ (by omega))
  rcases hget with hget | ⟨err, hget⟩
  · refine .inl ⟨_, s', ?_, hI', .more .none hbuf hget, ⟨rfl, he.chain.1.2, ⟨off, hf⟩, ha', hkeep, hbelow⟩⟩
    simp [takeDown, exec_bind, he.hashAt_head, hget, hlen]
  · refine .inr ⟨err, s', ?_, hI', s, _, _, .none, hbuf, hget⟩
    simp [takeDown, exec_bind, he.hashAt_head, hget]

theorem nextFrom_outcome {m : ℕ} (hst : Faulty hd I stored) (hI : I s) (hm : m + k = nlevels - 1)
    (hk : k + n = r.height) (hb : Bounded r) (ha : Ahead stored r n k Y) :
    (Y = [] → exec hd (nextFrom m k) r s = (.ok true, r, s)) ∧
    (Y ≠ [] → (∃ r' s' c d Y', exec hd (nextFrom m k) r s = (.ok false, r', s') ∧ I s' ∧
        Fetches hd stored s (c + 1) s' ∧ Loaded stored r r' n k Y d Y') ∨
      ∃ err r' s' c, exec hd (nextFrom m k) r s = (.error err, r', s') ∧ I s' ∧
        Breaks hd stored s c err s' ∧ Stalled stored r r' n k Y) := by
  have hlt := hb.height_lt
  obtain ⟨m, rfl⟩ : ∃ m', m = m' + 1 := ⟨m - 1, by simp only [nlevels] at *; omega⟩
  induction n generalizing k m Y with
  | zero =>
    have hk' : k = r.height := by omega
    exact ⟨fun _ => exec_nextFrom_end hk' (hk' ▸ hb.top), fun hY => absurd ha hY⟩
  | succ n ih =>
    have hsame := ha
    obtain ⟨p, off, es, B, rfl, he, ha⟩ := ha
    cases es with
    | cons e es =>
      have hne : e.2 ≠ [] := he.chain.1.2
      refine ⟨fun hY => absurd hY (by simp [hne]), fun _ => ?_⟩
      rw [exec_nextFrom_entry (by omega) (he.pos_lt_iff.mpr (by simp)), contents_cons, append_assoc]
      rcases takeDown_outcome hst hI (by omega) he ha with ⟨r', s', hrun, hI', hget, hload⟩ |
        ⟨err, s', hrun, hI', hbreak⟩
      · exact .inl ⟨r', s', 0, _, _, hrun, hI', hget, hload⟩
      · rw [contents_cons, append_assoc] at hsame
        exact .inr ⟨err, r, s', 0, hrun, hI', hbreak, hsame, .refl r, fun _ _ => ⟨rfl, rfl, rfl⟩⟩
    | nil =>
      have hpos : ¬ r.pos (k + 1) < r.length (k + 1) := by simp [he.pos_lt_iff]
      obtain ⟨m, rfl⟩ : ∃ m', m = m' + 1 := ⟨m - 1, by simp only [nlevels] at *; omega⟩
      obtain ⟨hend, hmore⟩ := ih (by omega) ha m (by omega)
      rw [exec_nextFrom_up (by omega) hpos, contents_nil, nil_append]
      constructor
      · intro hB
        rw [exec_bind_ok _ (hend hB)]
        rfl
      intro hB
      rcases hmore hB with ⟨r₁, s₁, c, d₁, B₁, hrun, hI₁, hget₁, hload⟩ | ⟨err, r₁, s₁, c, hrun, hI₁, hbreak, hstall⟩
      · -- the level above has been refilled, and its first entry is taken down
        obtain ⟨off₁, es₁, hne₁, -, hc₁, he₁⟩ := hload.fresh
        obtain ⟨e, es₁, rfl⟩ := List.exists_cons_of_ne_nil hne₁
        have hk₁ : k + 1 ≤ r₁.height := by rw [hload.keeps.height]; omega
        have hB₁ : B = e.2 ++ (contents es₁ ++ B₁) := by
          rw [hload.split, ← hc₁, contents_cons, append_assoc]
        rw [exec_bind_ok _ hrun, if_neg (by simp), hB₁]
        rcases takeDown_outcome hst hI₁ hk₁ he₁ hload.ahead with ⟨r', s', hrun', hI', hget', hload'⟩ |
          ⟨err, s', hrun', hI', hbreak⟩
        · exact .inl ⟨r', s', _, _, _, hrun', hI', hget₁.trans hget', { hload' with
              keeps := hload.keeps.trans hload'.keeps
              below := fun i hi => (hload.below i (by omega)).trans (hload'.below i hi) }⟩
        · refine .inr ⟨err, r₁, s', _, hrun', hI', hget₁.breaks hbreak, ?_, hload.keeps, ?_⟩
          · refine ⟨1, off₁, e :: es₁, B₁, ?_, he₁, hload.ahead⟩
            rw [contents_cons, append_assoc]
          · exact fun i hi => hload.below i (by omega)
      · rw [exec_bind_error _ hrun]
        refine .inr ⟨err, r₁, s₁, c, rfl, hI₁, hbreak, ?_, hstall.keeps, fun i hi => hstall.below i (by omega)⟩
        exact ⟨p, off, [], B, rfl, he.congr (hstall.below _ le_rfl), hstall.ahead⟩

end Next

section Read

variable {ω : Type} {X B : Bytes}

/-- The bytes `Y` are left to read. -/
structure Reading (stored : Hash → Bytes → Prop) (r : Reader) (Y : Bytes) : Prop where
  bounded : Bounded r
  split : ∃ p X B, Y = X ++ B ∧ LeafLeft r p X ∧ Ahead stored r r.height 0 B

theorem LeafLeft.src_eq (h : LeafLeft r p X) : r.src = .ok X := by
  have hlen := h.length
  rw [Reader.src, h.pos, if_pos ⟨by omega, by omega, h.length_le⟩, Int.toNat_natCast, hlen,
    Nat.add_sub_cancel_left, h.bytes]

/-- What a read of the bytes `out` does to the reader. -/
structure ReadOut (stored : Hash → Bytes → Prop) (r r' : Reader) (n : ℕ) (out Y : Bytes) : Prop where
  eq_take : out = Y.take out.length
  length_le : out.length ≤ n
  ne_nil : 0 < n → out ≠ []
  reading : Reading stored r' (Y.drop out.length)
  root : r'.root = r.root
  height : r'.height = r.height
  offset : r'.offset = (r.offset + out.length) % 2 ^ 64

variable {out : Bytes} {root : Hash}

theorem ReadOut.append {r' : Reader} {n : ℕ} (h : ReadOut stored r r' n out Y) : out ++ Y.drop out.length = Y := by
  nth_rewrite 1 [h.eq_take]
  exact List.take_append_drop _ Y

theorem ReadOut.shorter {r' : Reader} {n : ℕ} (h : ReadOut stored r r' n out Y) (hn : 0 < n)
    (hY : Y ≠ []) : (Y.drop out.length).length < Y.length := by
  have hpos := List.length_pos_of_ne_nil (h.ne_nil hn)
  have hYpos := List.length_pos_of_ne_nil hY
  rw [List.length_drop]
  omega

theorem LeafLeft.setPos {j : ℕ} (h : LeafLeft r p X) (hj : j ≤ X.length) :
    LeafLeft (r.setPos 0 (p + j : ℕ)) (p + j) (X.drop j) := by
  have hlen : X.length = j + (X.drop j).length := by
    simp only [List.length_drop]
    omega
  have hX := h.bytes
  rw [hlen, window_add] at hX
  constructor
  · simp [Reader.setPos]
  · have := h.length
    simp only [Reader.setPos]
    omega
  · exact h.length_le
  · exact List.append_inj_right (hX.trans (List.take_append_drop j X).symm) (by simpa using hj)

private theorem leafLeft_advance {j : ℕ} (h : LeafLeft r p X) (hj : j ≤ X.length) :
    LeafLeft (r.advance j) (p + j) (X.drop j) := by
  have hmove := h.setPos hj
  exact ⟨by simp [Reader.advance, Reader.setPos, h.pos], hmove.length, hmove.length_le, hmove.bytes⟩

private theorem sameLevel_advance (r : Reader) (n : ℕ) {i : ℕ} (hi : 0 < i) : SameLevel r (r.advance n) i := by
  constructor <;> simp [Reader.advance, Reader.setPos, Nat.pos_iff_ne_zero.mp hi]

theorem copyOut_spec (hd : Handler σ) (s : σ) (n : ℕ) (hb : Bounded r) (hl : LeafLeft r p X)
    (ha : Ahead stored r r.height 0 B)
    (hX : X ≠ []) : ∃ r' out, exec hd (copyOut n X) r s = (.ok out, r', s) ∧ ReadOut stored r r' n out (X ++ B) := by
  refine ⟨r.advance (X.take n).length, X.take n, rfl, ?_⟩
  have hmin : (X.take n).length ≤ X.length := by simp
  have htop := sameLevel_advance r (X.take n).length (Nat.succ_pos r.height)
  have htake : X.take (X.take n).length = X.take n := by simp [List.take_eq_take_iff]
  constructor
  · rw [List.take_append_of_le_length hmin, htake]
  · simp
  · intro hn
    simp [hX, Nat.pos_iff_ne_zero.mp hn]
  · refine ⟨⟨hb.height_lt, ?_⟩, _, _, B, ?_, leafLeft_advance hl hmin, ?_⟩
    · exact htop.pos ▸ htop.length ▸ hb.top
    · rw [List.drop_append_of_le_length hmin]
    · exact ha.congr (fun i hi => sameLevel_advance r _ hi)
  · rfl
  · rfl
  · rfl

theorem read_outcome {I : σ → Prop} (n : ℕ) (hst : Faulty hd I stored) (hI : I s) (hr : Reading stored r Y) :
    (Y = [] → exec hd (read n) r s = (.error .eof, r, s)) ∧
    (Y ≠ [] → (∃ r' s' c out, exec hd (read n) r s = (.ok out, r', s') ∧ I s' ∧
        Fetches hd stored s c s' ∧ (r.src = .ok [] → 0 < c) ∧ ReadOut stored r r' n out Y) ∨
      ∃ err r' s' c, exec hd (read n) r s = (.error err, r', s') ∧ I s' ∧
        Breaks hd stored s c err s' ∧ Reading stored r' Y ∧ Keeps r r') := by
  obtain ⟨hb, p, X, B, rfl, hl, ha⟩ := hr
  obtain ⟨hend, hmore⟩ := nextFrom_outcome (m := nlevels - 1) (n := r.height) hst hI rfl (Nat.zero_add _) hb ha
  by_cases hX : X = []
  · subst hX
    rw [nil_append]
    constructor
    · intro hB
      simp [HashTreeReader.read, next, exec_bind, hl.src_eq, hend hB]
    intro hB
    rcases hmore hB with ⟨r₁, s₁, c, d, B', hrun, hI₁, hget, hload⟩ | ⟨err, r₁, s₁, c, hrun, hI₁, hbreak, hstall⟩
    · obtain ⟨off, hf⟩ := hload.fresh
      obtain ⟨r', out, hcopy, hout⟩ := copyOut_spec hd s₁ n (hload.keeps.bounded hb) hf
        (hload.keeps.height ▸ hload.ahead) hload.ne_nil
      refine .inl ⟨r', s₁, c + 1, out, ?_, hI₁, hget, fun _ => Nat.succ_pos c, ?_⟩
      · simpa [HashTreeReader.read, next, exec_bind, hl.src_eq, hrun, LeafLeft.src_eq hf] using hcopy
      · rw [hload.split]
        exact { hout with
          root := hout.root.trans hload.keeps.root
          height := hout.height.trans hload.keeps.height
          offset := by rw [hout.offset, hload.keeps.offset] }
    · refine .inr ⟨err, r₁, s₁, c, ?_, hI₁, hbreak, ?_, hstall.keeps⟩
      · simp [HashTreeReader.read, next, exec_bind, hl.src_eq, hrun]
      · refine ⟨hstall.keeps.bounded hb, p, [], B, rfl, hl.congr (hstall.below 0 le_rfl), ?_⟩
        rw [hstall.keeps.height]
        exact hstall.ahead
  · obtain ⟨r', out, hcopy, hout⟩ := copyOut_spec hd s n hb hl ha hX
    refine ⟨fun hY => absurd hY (by simp [hX]), fun _ => .inl ⟨r', s, 0, out, ?_, hI, .none, ?_, hout⟩⟩
    · simpa [HashTreeReader.read, exec_bind, hl.src_eq, hX] using hcopy
    · intro hsrc
      rw [hl.src_eq, Except.ok.injEq] at hsrc
      exact absurd hsrc hX

theorem read_spec (n : ℕ) (hs : Serves hd s stored) (hr : Reading stored r Y) :
    (Y = [] → exec hd (read n) r s = (.error .eof, r, s)) ∧
    (Y ≠ [] → ∃ r' out, exec hd (read n) r s = (.ok out, r', s) ∧ ReadOut stored r r' n out Y) := by
  obtain ⟨hend, hmore⟩ := read_outcome n hs.faulty rfl hr
  refine ⟨hend, fun hY => ?_⟩
  rcases hmore hY with ⟨r', s', c, out, hrun, rfl, -, -, hout⟩ | ⟨err, r', s', c, -, -, hbreak, -⟩
  · exact ⟨r', out, hrun, hout⟩
  · exact absurd hbreak hs.not_breaks

private theorem ahead_of_fresh (hu : ∀ i, k < i → i ≤ k + n → r.pos i = 0 ∧ r.length i = 0)
    (hf : Fresh stored r (k + n + 1) off d) : Ahead stored r (n + 1) k d := by
  induction n generalizing k with
  | zero =>
    obtain ⟨es, hne, hlen, hd, he⟩ := hf
    exact ⟨1, off, es, [], by simp [hd], he, rfl⟩
  | succ n ih =>
    obtain ⟨hpos, hlen⟩ := hu (k + 1) (by omega) (by omega)
    refine ⟨0, 0, [], d, rfl, ⟨hpos, by simpa using hlen, by simp [hlen], rfl, trivial⟩, ?_⟩
    refine ih (fun i hi hi' => hu i (by omega) (by omega)) ?_
    rwa [show k + 1 + n + 1 = k + (n + 1) + 1 by omega]

theorem reading_of_fresh (hb : Bounded r) (hu : ∀ i, i < r.height → r.pos i = 0 ∧ r.length i = 0)
    (hf : Fresh stored r r.height off d) : Reading stored r d := by
  refine ⟨hb, ?_⟩
  cases hk : r.height with
  | zero =>
    rw [hk] at hf
    exact ⟨1, d, [], by simp, hf, rfl⟩
  | succ k =>
    rw [hk] at hf hu
    obtain ⟨hpos, hlen⟩ := hu 0 (by omega)
    refine ⟨0, [], d, rfl, ⟨hpos, by simpa using hlen, by simp [hlen], rfl⟩, ?_⟩
    exact ahead_of_fresh (fun i _ hi => hu i (by omega)) (by rwa [Nat.zero_add])

theorem loadRoot_eq (r : Reader) (bs : Bytes) (hk : k < nlevels) :
    r.loadRoot (tag k :: bs) = .ok (Reader.load { r with height := k } k (tag k :: bs)) := by
  have htag : (tag k).toNat = k := by
    simp only [nlevels] at hk
    simp only [tag, UInt8.toNat_ofNat']
    omega
  simp [Reader.loadRoot, htag, hk]

theorem newReader_spec (w : ω) (hs : Serves hd s stored) (hh : Holds stored k 0 root d) (hk : k + 1 < nlevels) :
    ∃ r, exec hd (newReader root) w s = (.ok r, w, s) ∧ Reading stored r d ∧
      r.root = root ∧ getHeight r = k ∧ r.offset = 0 := by
  obtain ⟨bs, hst, hlen, hfresh⟩ := holds_load hh
  refine ⟨Reader.load { Reader.ofRoot root with height := k } k (tag k :: bs), ?_,
    reading_of_fresh ⟨hk, ?_⟩ ?_ (hfresh _), rfl, rfl, rfl⟩
  · simp [newReader, exec_bind, hs _ _ hst, loadRoot_eq _ _ (show k < nlevels by omega)]
  · simp [Reader.load, Reader.ofRoot]
  · intro i hi
    have hne : i ≠ k := Nat.ne_of_lt hi
    simp [Reader.load, Reader.ofRoot, hne]

theorem newReader_eq {w w' : ω} {s' : σ} (hrun : exec hd (newReader root) w s = (.ok r, w', s')) :
    ∃ b bs, r = Reader.load { Reader.ofRoot root with height := b.toNat } b.toNat (b :: bs) := by
  obtain ⟨buf, w₁, s₁, -, hload⟩ := exec_bind_eq_ok _ hrun
  rw [exec_ofExcept, Prod.mk.injEq] at hload
  cases buf with
  | nil => simp [Reader.loadRoot] at hload
  | cons b bs =>
    simp only [Reader.loadRoot] at hload
    split at hload
    · exact ⟨b, bs, (Except.ok.inj hload.1).symm⟩
    · simp at hload

theorem newReader_src {w w' : ω} {s' : σ} (hrun : exec hd (newReader root) w s = (.ok r, w', s'))
    (hheight : 0 < r.height) : r.src = .ok [] := by
  obtain ⟨b, bs, rfl⟩ := newReader_eq hrun
  have hne : (0 : ℕ) ≠ b.toNat := Nat.ne_of_lt hheight
  simp [Reader.src, Reader.load, Reader.ofRoot, hne]

end Read

end Bpy.HashTreeReading
