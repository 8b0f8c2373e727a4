import Bpy.HashTreeRoundTrip

/-!
# `htree.Reader.Seek`

`Seek` descends from the root to the leaf that covers the offset. Its early return
compares the target with the number of bytes read so far instead of the position, so
it is right only as long as the two agree.
-/
namespace Bpy.HashTreeSeeking
open ByteWords InteractionPrograms ContentStore HashTreeWriter HashTreeContent HashTreeReader
open HashTreeReading HashTreeRoundTrip Method
open List hiding Chain

section Descend

variable {σ : Type} {hd : Handler σ} {s : σ} {stored : Hash → Bytes → Prop} {r r' : Reader}
  {absoff n k p off : ℕ} {es : Children} {B D : Bytes}

/-- The loop over the entries ends with the answer to its `Get`. -/
def entryDone (r : Reader) (k cur : ℕ) : Except GoError Bytes × σ → Except GoError ℕ × Reader × σ
  | (.ok buf, s) => (.ok cur, r.load k buf, s)
  | (.error e, s) => (.error e, r, s)

variable {rounds cur : ℕ} {h : Hash} {e : Hash × Bytes} {r₁ : Reader} {buf : Bytes}

section

variable (hcur : r.uint64At (k + 1) (r.pos (k + 1)) = .ok cur) (hh : r.hashAt (k + 1) (r.pos (k + 1) + 8) = .ok h)
include hcur hh

private theorem exec_seekEntry_found {v : ℕ} (hnext : (r.skipEntry (k + 1)).nextoff absoff (k + 1) = .ok v)
    (hlt : absoff < v) :
    exec hd (seekEntry absoff (k + 1) (rounds + 1)) r s = entryDone (r.skipEntry (k + 1)) k cur (hd (.get h) s) := by
  simp only [seekEntry, exec_bind, exec_self, exec_ofExcept, hcur, hh, exec_update, hnext, hlt, if_true, exec_get]
  generalize hd (.get h) s = answer
  rcases answer with ⟨res, s'⟩
  cases res <;> rfl

private theorem exec_seekEntry_later {v : ℕ} (hnext : (r.skipEntry (k + 1)).nextoff absoff (k + 1) = .ok v)
    (hlt : ¬ absoff < v) : exec hd (seekEntry absoff (k + 1) (rounds + 1)) r s =
      exec hd (seekEntry absoff (k + 1) rounds) (r.skipEntry (k + 1)) s := by
  simp [seekEntry, exec_bind, hcur, hh, hnext, hlt]

end

/-- The place of a tree with the data `d` inside the data `D` from offset `off` on: it
starts at `cur`, is followed by `Z`, and covers `absoff` unless nothing follows. -/
structure Covers (absoff off : ℕ) (D : Bytes) (cur : ℕ) (d Z : Bytes) : Prop where
  place : ∃ P, D = P ++ d ++ Z ∧ cur = off + P.length
  le : cur ≤ absoff
  lt_or_last : absoff < cur + d.length ∨ Z = []

theorem Covers.cons {d e Z : Bytes} (h : Covers absoff (off + e.length) D cur d Z) :
    Covers absoff off (e ++ D) cur d Z := by
  obtain ⟨P, hD, hcur⟩ := h.place
  refine ⟨⟨e ++ P, by simp [hD], ?_⟩, h.le, h.lt_or_last⟩
  rw [hcur, length_append, Nat.add_assoc]

/-- What a part of `Seek` achieves: the tree at `cur` with the data `d` is loaded into
level `k`, and the bytes `Z` behind it are left on the `n` levels above. -/
structure Sought (stored : Hash → Bytes → Prop) (r r' : Reader) (n k cur : ℕ) (d Z : Bytes) : Prop where
  fresh : Fresh stored r' k cur d
  ahead : Ahead stored r' n k Z
  keeps : Keeps r r'

/-- The entry that `Seek` takes on level `k + 1`, and the reader before its chunk is fetched. -/
structure Chosen (stored : Hash → Bytes → Prop) (r r₁ : Reader) (absoff k off : ℕ) (es front back : Children)
    (e : Hash × Bytes) : Prop where
  split : es = front ++ e :: back
  left : ∃ p, EntriesLeft stored r₁ k p (off + (contents front).length + e.2.length) back
  others : ∀ i, i ≠ k + 1 → SameLevel r r₁ i
  keeps : Keeps r r₁
  covers : Covers absoff off (contents es) (off + (contents front).length) e.2 (contents back)

theorem Chosen.cons {r' : Reader} {e₀ : Hash × Bytes} {front back : Children} (hk : k + 1 ≤ r.height)
    (h : Chosen stored (r.skipEntry (k + 1)) r' absoff k (off + e₀.2.length) es front back e) :
    Chosen stored r r' absoff k off (e₀ :: es) (e₀ :: front) back e := by
  have hoff : off + (contents (e₀ :: front)).length = off + e₀.2.length + (contents front).length := by
    rw [contents_cons, length_append, Nat.add_assoc]
  constructor
  · rw [h.split, cons_append]
  · rw [hoff]
    exact h.left
  · exact fun i hi => (sameLevel_setPos r _ hi).trans (h.others i hi)
  · exact (keeps_setPos r _ hk).trans h.keeps
  · rw [hoff, contents_cons]
    exact h.covers.cons

variable (hd s) in
/-- The loop over the entries of a level ends at the entry that covers `absoff`, and fetches its
chunk. -/
theorem seekEntry_scan (hk : k + 1 ≤ r.height) (he : EntriesLeft stored r k p off es)
    (hne : es ≠ []) (hoff : off ≤ absoff) (habs : absoff + 1 < 2 ^ 64)
    (hlen : off + (contents es).length < 2 ^ 64) (hrounds : es.length ≤ rounds) :
    ∃ r₁ front back e, Chosen stored r r₁ absoff k off es front back e ∧
      exec hd (seekEntry absoff (k + 1) rounds) r s =
        entryDone r₁ k (off + (contents front).length) (hd (.get e.1) s) := by
  induction es generalizing r p off rounds with
  | nil => exact absurd rfl hne
  | cons e es ih =>
    obtain ⟨rounds, rfl⟩ : ∃ m, rounds = m + 1 := ⟨rounds - 1, by simp at hrounds; omega⟩
    simp only [contents_cons, length_append] at hlen
    have hcur := he.uint64At_head (show off < 2 ^ 64 by omega)
    have htail := he.tail
    have hfound : ∀ v, (r.skipEntry (k + 1)).nextoff absoff (k + 1) = .ok v → absoff < v →
        (absoff < off + e.2.length ∨ contents es = []) →
        ∃ r₁ front back e', Chosen stored r r₁ absoff k off (e :: es) front back e' ∧
          exec hd (seekEntry absoff (k + 1) (rounds + 1)) r s =
            entryDone r₁ k (off + (contents front).length) (hd (.get e'.1) s) := by
      intro v hnext hv hlast
      refine ⟨r.skipEntry (k + 1), [], es, e, ⟨rfl, ⟨_, by simpa using htail⟩, ?_, ?_, ?_⟩, ?_⟩
      · exact fun i hi => sameLevel_setPos r _ hi
      · exact keeps_setPos r _ hk
      · exact ⟨⟨[], by simp, by simp⟩, by simpa using hoff, by simpa using hlast⟩
      · rw [exec_seekEntry_found hcur he.hashAt_head hnext hv]
        rfl
    cases es with
    | nil =>
      refine hfound (absoff + 1) ?_ (by omega) (Or.inr rfl)
      rw [Reader.nextoff, if_neg (by simp [htail.pos_lt_iff]), Nat.mod_eq_of_lt habs]
    | cons e' es =>
      have hnext : (r.skipEntry (k + 1)).nextoff absoff (k + 1) = .ok (off + e.2.length) := by
        rw [Reader.nextoff, if_pos (htail.pos_lt_iff.mpr (by simp)), htail.uint64At_head (by omega)]
      by_cases hv : absoff < off + e.2.length
      · exact hfound _ hnext hv (Or.inl hv)
      · obtain ⟨r₁, front, back, e₁, hchosen, hrun⟩ := ih (r := r.skipEntry (k + 1)) hk htail
          (by simp) (by omega) (by omega) (by simp at hrounds ⊢; omega)
        refine ⟨r₁, e :: front, back, e₁, hchosen.cons hk, ?_⟩
        rw [exec_seekEntry_later hcur he.hashAt_head hnext hv, hrun, contents_cons, length_append, Nat.add_assoc]

theorem Chosen.load {front back : Children}
    (h : Chosen stored r r₁ absoff k off es front back e) (hk : k + 1 ≤ r.height) (ha : Ahead stored r n (k + 1) B)
    (hf : Fresh stored (r₁.load k buf) k (off + (contents front).length) e.2) :
    Sought stored r (r₁.load k buf) (n + 1) k (off + (contents front).length) e.2 (contents back ++ B) := by
  obtain ⟨p', hleft⟩ := h.left
  refine ⟨hf, ⟨p', _, back, B, rfl, hleft.congr (sameLevel_load _ _ (by omega)), ?_⟩, ?_⟩
  · refine ha.congr (fun i hi => ?_)
    exact (h.others i (by omega)).trans (sameLevel_load _ _ (by omega))
  · have hheight := h.keeps.height
    exact h.keeps.trans (keeps_load _ _ (by omega))

theorem Chosen.holds {front back : Children} (h : Chosen stored r r₁ absoff k off es front back e)
    (hc : Chain (fun off h d => Holds stored k off h d ∧ d ≠ []) off es) :
    Holds stored k (off + (contents front).length) e.1 e.2 ∧ e.2 ≠ [] := by
  rw [h.split, chain_append] at hc
  exact hc.2.1

theorem Covers.trans {cur₁ : ℕ} {d₁ d Z₁ Z : Bytes} (h₁ : Covers absoff off D cur₁ d₁ Z₁)
    (h : Covers absoff cur₁ d₁ cur d Z) : Covers absoff off D cur d (Z ++ Z₁) := by
  obtain ⟨P₁, hD, hcur₁⟩ := h₁.place
  obtain ⟨P, hd₁, hcur⟩ := h.place
  refine ⟨⟨P₁ ++ P, by simp [hD, hd₁], by simp only [length_append]; omega⟩, h.le, ?_⟩
  rcases h.lt_or_last with hlt | rfl
  · exact Or.inl hlt
  · have hlen : cur + d.length = cur₁ + d₁.length := by
      simp only [hd₁, append_nil, length_append]
      omega
    rcases h₁.lt_or_last with hlt | rfl
    · exact Or.inl (by omega)
    · exact Or.inr rfl

theorem Sought.trans {cur₁ n₁ k₁ : ℕ} {d₁ d Z₁ Z : Bytes}
    (h₁ : Sought stored r r₁ n₁ k₁ cur₁ d₁ Z₁) (h : Sought stored r₁ r' n k cur d Z) :
    Sought stored r r' n k cur d Z := ⟨h.fresh, h.ahead, h₁.keeps.trans h.keeps⟩

/-- The tree at `h'` is a part of the tree at `h`. -/
inductive Part (stored : Hash → Bytes → Prop) : ℕ → ℕ → Hash → Bytes → ℕ → ℕ → Hash → Bytes → Prop
  | self (k off : ℕ) (h : Hash) (d : Bytes) : Part stored k off h d k off h d
  | child {k off k' off' : ℕ} {h h' : Hash} {d' : Bytes} {es front back : Children} {e : Hash × Bytes}
      (hst : stored h (tag (k + 1) :: encodeEntries off es))
      (hc : Chain (fun off h d => Holds stored k off h d ∧ d ≠ []) off es) (hsplit : es = front ++ e :: back)
      (hpart : Part stored k (off + (contents front).length) e.1 e.2 k' off' h' d') :
      Part stored (k + 1) off h (contents es) k' off' h' d'

/-- The chunk of the tree at `h` has just been loaded into level `k`. -/
def Opened (stored : Hash → Bytes → Prop) (r : Reader) : ℕ → ℕ → Hash → Bytes → Prop
  | 0, _, _, d => LeafLeft r 1 d
  | k + 1, off, h, d => ∃ es, es ≠ [] ∧ es.length ≤ fanout ∧ contents es = d ∧
      stored h (tag (k + 1) :: encodeEntries off es) ∧ EntriesLeft stored r k 1 off es

theorem Opened.fresh (ho : Opened stored r k off h D) : Fresh stored r k off D := by
  cases k with
  | zero => exact ho
  | succ k =>
    obtain ⟨es, hne, hes, hD, -, he⟩ := ho
    exact ⟨es, hne, hes, hD, he⟩

theorem holds_opened (hh : Holds stored k off h D) :
    ∃ bs, stored h (tag k :: bs) ∧ ∀ r : Reader, Opened stored (r.load k (tag k :: bs)) k off h D := by
  cases k with
  | zero => exact ⟨D, hh.1, fun r => leafLeft_load r hh.2⟩
  | succ k =>
    obtain ⟨es, hne, hlen, hd, hs, hc⟩ := hh
    exact ⟨_, hs, fun r => ⟨es, hne, hlen, hd, hs, entriesLeft_load r hlen hc⟩⟩

/-- The descent came to the leaf at `cur` with the data `d`, and `Z` is behind it. -/
structure Landed (stored : Hash → Bytes → Prop) (r r' : Reader) (absoff n lvl off : ℕ) (root : Hash)
    (D B : Bytes) (cur : ℕ) (d Z : Bytes) : Prop where
  sought : Sought stored r r' (lvl + n) 0 cur d (Z ++ B)
  covers : Covers absoff off D cur d Z
  part : ∃ h, Part stored lvl off root D 0 cur h d

/-- The chunk of the tree at `cur`, of level `j`, could not be fetched. What is behind it is left
on the levels above, and the levels up to `j` are as they were. -/
structure Halted (stored : Hash → Bytes → Prop) (r r' : Reader) (absoff n lvl off : ℕ) (root : Hash)
    (D B : Bytes) (j cur : ℕ) (d Z : Bytes) : Prop where
  lt : j < lvl
  stalled : Stalled stored r r' (lvl + n - j) j (Z ++ B)
  covers : Covers absoff off D cur d Z
  part : ∃ h, Part stored lvl off root D j cur h d
  ne_nil : d ≠ []

variable {I : σ → Prop}

theorem seekDown_outcome {lvl cur₀ : ℕ} {root : Hash} (hst : Faulty hd I stored) (hI : I s) (hk : lvl ≤ r.height)
    (ho : Opened stored r lvl off root D) (ha : Ahead stored r n lvl B) (hoff : off ≤ absoff)
    (habs : 0 < lvl → absoff + 1 < 2 ^ 64) (hlen : off + D.length < 2 ^ 64) (hcur₀ : lvl = 0 → cur₀ = off) :
    (∃ r' s' cur d Z, exec hd (seekDown absoff lvl cur₀) r s = (.ok cur, r', s') ∧ I s' ∧
      Fetches hd stored s lvl s' ∧ Landed stored r r' absoff n lvl off root D B cur d Z) ∨
    ∃ err r' s' j cur d Z, exec hd (seekDown absoff lvl cur₀) r s = (.error err, r', s') ∧ I s' ∧
      Breaks hd stored s (lvl - 1 - j) err s' ∧ Halted stored r r' absoff n lvl off root D B j cur d Z := by
  induction lvl generalizing r s off root D n B cur₀ with
  | zero =>
    refine .inl ⟨r, s, off, D, [], by simp [seekDown, hcur₀ rfl], hI, .none, ⟨ho, ?_, Keeps.refl r⟩, ?_, ?_⟩
    · simpa using ha
    · exact ⟨⟨[], by simp, by simp⟩, hoff, Or.inr rfl⟩
    · exact ⟨root, .self _ _ _ _⟩
  | succ lvl ih =>
    obtain ⟨es, hne, hes, rfl, hroot, he⟩ := ho
    obtain ⟨r₁, front, back, e, hchosen, hscan⟩ := seekEntry_scan hd s hk he hne hoff (habs (Nat.succ_pos lvl)) hlen
      (show es.length ≤ 1640 by simp only [fanout] at hes; omega)
    obtain ⟨hholds, hnonempty⟩ := hchosen.holds he.chain
    obtain ⟨bs, hbs, hopen⟩ := holds_opened hholds
    obtain ⟨s₁, hI₁, hget⟩ := hst s _ _ hI hbs
    have hpart : ∀ {k' off' h' d'}, Part stored lvl (off + (contents front).length) e.1 e.2 k' off' h' d' →
        Part stored (lvl + 1) off root (contents es) k' off' h' d' := Part.child hroot he.chain hchosen.split
    rcases hget with hget | ⟨err, hget⟩
    · rw [hget, entryDone] at hscan
      have hsought := hchosen.load hk ha (hopen r₁).fresh
      have hcov := hchosen.covers
      obtain ⟨P, hD, hcur₁⟩ := hcov.place
      have hlen₁ : off + (contents front).length + e.2.length < 2 ^ 64 := by
        simp only [hD, length_append] at hlen
        omega
      have hk₁ : lvl ≤ (r₁.load lvl (tag lvl :: bs)).height := by rw [hsought.keeps.height]; omega
      have hfetch : Fetches hd stored s 1 s₁ := .more .none hbs hget
      have hrest := ih hI₁ hk₁ (hopen r₁) hsought.ahead hcov.le (fun _ => habs (Nat.succ_pos lvl)) hlen₁
        (show lvl = 0 → off + (contents front).length = off + (contents front).length from fun _ => rfl)
      rw [seekDown, exec_bind_ok _ hscan]
      rcases hrest with ⟨r', s', cur, d, Z, hrun, hI', hfetch', hland⟩ |
        ⟨err, r', s', j, cur, d, Z, hrun, hI', hbreak, hhalt⟩
      · refine .inl ⟨r', s', cur, d, Z ++ contents back, hrun, hI', ?_, ?_, hcov.trans hland.covers, ?_⟩
        · rw [Nat.add_comm]
          exact hfetch.trans hfetch'
        · rw [append_assoc, show lvl + 1 + n = lvl + (n + 1) by omega]
          exact hsought.trans hland.sought
        · obtain ⟨h, hp⟩ := hland.part
          exact ⟨h, hpart hp⟩
      · have hlt := hhalt.lt
        refine .inr ⟨err, r', s', j, cur, d, Z ++ contents back, hrun, hI', ?_, by omega, ?_,
          hcov.trans hhalt.covers, ?_, hhalt.ne_nil⟩
        · rw [show lvl + 1 - 1 - j = 1 + (lvl - 1 - j) by omega]
          exact hfetch.breaks hbreak
        · rw [append_assoc, show lvl + 1 + n - j = lvl + (n + 1) - j by omega]
          refine ⟨hhalt.stalled.ahead, hsought.keeps.trans hhalt.stalled.keeps, fun i hi => ?_⟩
          have hload := (hchosen.others i (by omega)).trans (sameLevel_load r₁ (tag lvl :: bs) (show i ≠ lvl by omega))
          exact hload.trans (hhalt.stalled.below i hi)
        · obtain ⟨h, hp⟩ := hhalt.part
          exact ⟨h, hpart hp⟩
    · rw [hget, entryDone] at hscan
      rw [seekDown, exec_bind_error _ hscan]
      obtain ⟨p', hleft⟩ := hchosen.left
      refine .inr ⟨err, r₁, s₁, lvl, _, e.2, contents back, rfl, hI₁, ?_, by omega, ?_, hchosen.covers,
        ⟨e.1, hpart (.self _ _ _ _)⟩, hnonempty⟩
      · rw [show lvl + 1 - 1 - lvl = 0 by omega]
        exact ⟨s, _, _, .none, hbs, hget⟩
      · rw [show lvl + 1 + n - lvl = n + 1 by omega]
        refine ⟨⟨p', _, back, B, rfl, hleft, ?_⟩, hchosen.keeps, fun i hi => hchosen.others i (by omega)⟩
        exact ha.congr (fun i hi => hchosen.others i (by omega))

/-- The reader is at position `p` of the tree of `d`. -/
structure Located (stored : Hash → Bytes → Prop) (r : Reader) (d : Bytes) (p : ℕ) : Prop where
  tree : Holds stored r.height 0 r.root d
  le : p ≤ d.length
  reading : Reading stored r (d.drop p)

/-- The end of `Seek`, in the leaf at `cur`: the result and the reader. -/
def landing (absoff cur : ℕ) (r : Reader) : ℕ × Reader :=
  if int64 (int64 (absoff - cur) + r.pos 0) > r.length 0 then
    (((absoff - (int64 (int64 (absoff - cur) + r.pos 0) - r.length 0)) % 2 ^ 64).toNat, r.setPos 0 (r.length 0))
  else (absoff, r.setPos 0 (int64 (r.pos 0 + int64 (absoff - cur))))

theorem exec_seek_root {s₁ : σ} (hoff : r.offset ≠ absoff)
    (hget : hd (.get r.root) s = (.ok buf, s₁)) (hload : r.loadRoot buf = .ok r₁) :
    exec hd (seek absoff) r s =
      match exec hd (seekDown absoff r₁.height 0) r₁ s₁ with
      | (.ok cur, r₂, s₂) => (.ok (landing absoff cur r₂).1, (landing absoff cur r₂).2, s₂)
      | (.error e, r₂, s₂) => (.error e, r₂, s₂) := by
  simp only [seek, exec_bind, exec_self, if_neg hoff, exec_get, hget, exec_ofExcept, hload, exec_update]
  rcases exec hd (seekDown absoff r₁.height 0) r₁ s₁ with ⟨res, r₂, s₂⟩
  cases res with
  | error e => rfl
  | ok cur =>
    simp only [landing]
    split <;> rfl

theorem seek_outcome (hst : Faulty hd I stored) (hI : I s) (hb : Bounded r) (ht : Holds stored r.height 0 r.root D)
    (hlen : D.length < 2 ^ 64) (hoff : r.offset ≠ absoff) (habs : 0 < r.height → absoff + 1 < 2 ^ 64) :
    (∃ r' s' cur d Z, exec hd (seek absoff) r s =
        (.ok (landing absoff cur r').1, (landing absoff cur r').2, s') ∧ I s' ∧
      Fetches hd stored s (r.height + 1) s' ∧ Landed stored r r' absoff 0 r.height 0 r.root D [] cur d Z) ∨
    (∃ err s', exec hd (seek absoff) r s = (.error err, r, s') ∧ I s' ∧ Breaks hd stored s 0 err s') ∨
    ∃ err r' s' j cur d Z, exec hd (seek absoff) r s = (.error err, r', s') ∧ I s' ∧
      Breaks hd stored s (r.height - j) err s' ∧
      Halted stored r r' absoff 0 r.height 0 r.root D [] j cur d Z := by
  obtain ⟨bs, hbs, hopen⟩ := holds_opened ht
  have hlt := hb.height_lt
  obtain ⟨s₁, hI₁, hget⟩ := hst s _ _ hI hbs
  rcases hget with hget | ⟨err, hget⟩
  · have hload := loadRoot_eq r bs (show r.height < nlevels by omega)
    rw [exec_seek_root hoff hget hload]
    have hkeep : Keeps r (r.load r.height (tag r.height :: bs)) := keeps_load r _ le_rfl
    have hfetch : Fetches hd stored s 1 s₁ := .more .none hbs hget
    rcases seekDown_outcome hst hI₁ (n := 0) (B := []) hkeep.height.ge (hopen r) rfl
      (Nat.zero_le absoff) habs (by omega) (fun _ => rfl) with
      ⟨r', s', cur, d, Z, hrun, hI', hfetch', hland⟩ | ⟨err, r', s', j, cur, d, Z, hrun, hI', hbreak, hhalt⟩
    · left
      refine ⟨r', s', cur, d, Z, ?_, hI', ?_, ⟨?_, hland.covers, hland.part⟩⟩
      · simp only [Reader.load] at hrun ⊢
        rw [hrun]
      · rw [Nat.add_comm]
        exact hfetch.trans hfetch'
      · exact ⟨hland.sought.fresh, hland.sought.ahead, hkeep.trans hland.sought.keeps⟩
    · have hj := hhalt.lt
      refine .inr (.inr ⟨err, r', s', j, cur, d, Z, ?_, hI', ?_, hj, ?_, hhalt.covers, hhalt.part, hhalt.ne_nil⟩)
      · simp only [Reader.load] at hrun ⊢
        rw [hrun]
      · rw [show r.height - j = 1 + (r.height - 1 - j) by omega]
        exact hfetch.breaks hbreak
      · refine ⟨hhalt.stalled.ahead, hkeep.trans hhalt.stalled.keeps, fun i hi => ?_⟩
        exact (sameLevel_load r _ (by omega)).trans (hhalt.stalled.below i hi)
  · refine .inr (.inl ⟨err, s₁, ?_, hI₁, s, _, _, .none, hbs, hget⟩)
    simp [seek, exec_bind, hoff, hget]

theorem landing_eq {dl : Bytes} (hleaf : LeafLeft r 1 dl) (hle : cur ≤ absoff)
    (hsum : absoff - cur + 1 < 2 ^ 63) (hcur : cur + dl.length < 2 ^ 64) :
    landing absoff cur r = (cur + min (absoff - cur) dl.length,
      r.setPos 0 (1 + min (absoff - cur) dl.length : ℕ)) := by
  have hcast : (absoff : ℤ) - cur = ((absoff - cur : ℕ) : ℤ) := by omega
  have hskip : int64 (absoff - cur) = ((absoff - cur : ℕ) : ℤ) := by
    rw [hcast, int64_of_lt (by omega) (by omega)]
  have hadd : int64 (((absoff - cur : ℕ) : ℤ) + (1 : ℕ)) = ((absoff - cur + 1 : ℕ) : ℤ) :=
    int64_of_lt (by omega) (by omega)
  rw [landing, hskip, hleaf.pos, hleaf.length, hadd, Int.add_comm ((1 : ℕ) : ℤ), hadd]
  split
  · rw [Nat.min_eq_right (by omega), show ((absoff : ℤ) - (((absoff - cur + 1 : ℕ) : ℤ) -
      ((1 + dl.length : ℕ) : ℤ))) % 2 ^ 64 = ((cur + dl.length : ℕ) : ℤ) by omega, Int.toNat_natCast]
  · rw [Nat.min_eq_left (by omega), Nat.add_sub_cancel' hle, Nat.add_comm 1]

theorem Landed.located {r' : Reader} {dl Z : Bytes}
    (h : Landed stored r r' absoff 0 r.height 0 r.root D [] cur dl Z) (hb : Bounded r)
    (ht : Holds stored r.height 0 r.root D) (hlen : D.length < 2 ^ 64) (hsum : absoff - cur + 1 < 2 ^ 63) :
    (landing absoff cur r').1 = min absoff D.length ∧
      Located stored (landing absoff cur r').2 D (min absoff D.length) ∧
      (landing absoff cur r').2.offset = r.offset := by
  have hleaf : LeafLeft r' 1 dl := h.sought.fresh
  have hkeep := h.sought.keeps
  obtain ⟨P, rfl, hcur⟩ := h.covers.place
  have hle := h.covers.le
  simp only [length_append] at hlen ⊢
  rw [Nat.zero_add] at hcur
  have hmin : min absoff (P.length + dl.length + Z.length) = cur + min (absoff - cur) dl.length := by
    rcases h.covers.lt_or_last with hlt | hZ
    · omega
    · simp only [hZ, length_nil]
      omega
  have hmove := keeps_setPos r' (1 + min (absoff - cur) dl.length : ℕ) (Nat.zero_le r'.height)
  rw [landing_eq hleaf hle hsum (by omega), hmin]
  refine ⟨rfl, ⟨?_, ?_, ?_⟩, hkeep.offset⟩
  · rwa [← hkeep.root, ← hkeep.height] at ht
  · simp only [length_append]
    omega
  · refine ⟨hmove.bounded (hkeep.bounded hb), _, _, Z, ?_, hleaf.setPos (Nat.min_le_right _ _), ?_⟩
    · rw [append_assoc, hcur, drop_length_add_append, drop_append_of_le_length (by simp)]
    · have ha' := h.sought.ahead
      rw [append_nil, Nat.add_zero, ← hkeep.height] at ha'
      exact ha'.congr (fun i hi => sameLevel_setPos r' _ (by omega))

theorem seek_spec {d : Bytes} (hs : Serves hd s stored) (hl : Located stored r d p) (hd64 : d.length < 2 ^ 64)
    (habs : absoff < 2 ^ 63) (hoff : r.offset = absoff → p = absoff) (hbig : absoff < 2 ^ 63 - 1 ∨ maxlen ≤ d.length) :
    ∃ r', exec hd (seek absoff) r s = (.ok (min absoff d.length), r', s) ∧
      Located stored r' d (min absoff d.length) ∧ r'.offset = r.offset := by
  by_cases heq : r.offset = absoff
  · have hp := hoff heq
    have hle := hl.le
    rw [Nat.min_eq_left (by omega), ← hp]
    refine ⟨r, ?_, hl, rfl⟩
    simp [seek, exec_bind, heq, hp]
  · rcases seek_outcome hs.faulty rfl hl.reading.bounded hl.tree hd64 heq (fun _ => by omega) with
      ⟨r', s', cur, dl, Z, hrun, rfl, -, hland⟩ | ⟨err, s', -, -, hbreak⟩ |
      ⟨err, r', s', j, cur, dl, Z, -, -, hbreak, -⟩
    · -- at the largest offset the sum of skip and position overflows, unless there is a second leaf
      have hsum : absoff - cur + 1 < 2 ^ 63 := by
        have hleaf : LeafLeft r' 1 dl := hland.sought.fresh
        have h₁ := hleaf.length
        have h₂ := hleaf.length_le
        obtain ⟨P, hD, hcur⟩ := hland.covers.place
        have hDlen := congrArg length hD
        simp only [length_append] at hDlen
        rcases hland.covers.lt_or_last with hlt | hZ
        · simp only [maxlen] at h₂
          omega
        · simp only [hZ, length_nil] at hDlen
          omega
      obtain ⟨hres, hloc, hsame⟩ := hland.located hl.reading.bounded hl.tree hd64 hsum
      rw [hres] at hrun
      exact ⟨_, hrun, hloc, hsame⟩
    · exact absurd hbreak hs.not_breaks
    · exact absurd hbreak hs.not_breaks

end Descend

section Run

inductive Access where
  | seek (absoff : ℕ)
  | read (n : ℕ)

inductive Answer where
  | sought (res : Except GoError ℕ)
  | got (res : Except GoError Bytes)

variable {σ : Type} (hd : Handler σ)

def access : Access → Reader → σ → Answer × Reader × σ
  | .seek absoff, r, s =>
    let x := exec hd (seek absoff) r s
    (.sought x.1, x.2)
  | .read n, r, s =>
    let x := exec hd (read n) r s
    (.got x.1, x.2)

/-- The answer of an access at position `p` of the byte string `d`. -/
def Agrees (d : Bytes) (p : ℕ) : Access → Answer → Prop
  | .seek absoff, .sought res => res = .ok (min absoff d.length)
  | .read n, .got res => 0 < n →
      (p < d.length → ∃ out, res = .ok out ∧ out ≠ [] ∧ out.length ≤ n ∧ out <+: d.drop p) ∧
      (p = d.length → res = .error .eof)
  | _, _ => False

/-- The position after an access at position `p`: the one given by the last `Seek` plus
the bytes read since. -/
def positionAfter (p : ℕ) : Answer → ℕ
  | .sought (.ok off) => off
  | .got (.ok out) => p + out.length
  | _ => p

def RunAgrees (d : Bytes) : ℕ → List Access → Reader → σ → Prop
  | _, [], _, _ => True
  | p, a :: as, r, s => Agrees d p a (access hd a r s).1 ∧
      RunAgrees d (positionAfter p (access hd a r s).1) as (access hd a r s).2.1 (access hd a r s).2.2

/-- `Seek` is used where its early return is harmless, because `offset` is the target only
when the reader is there, and where the sum of the target and the position in the leaf
does not overflow. -/
def Usable (d : Bytes) (p : ℕ) (r : Reader) : Access → Prop
  | .seek absoff => (r.offset = absoff → p = absoff) ∧ (absoff < 2 ^ 63 - 1 ∨ maxlen ≤ d.length)
  | .read _ => True

def RunUsable (d : Bytes) : ℕ → List Access → Reader → σ → Prop
  | _, [], _, _ => True
  | p, a :: as, r, s => Usable d p r a ∧
      RunUsable d (positionAfter p (access hd a r s).1) as (access hd a r s).2.1 (access hd a r s).2.2

variable {hd} {s : σ} {stored : Hash → Bytes → Prop} {r : Reader} {d : Bytes} {p : ℕ}

theorem read_located (n : ℕ) (hs : Serves hd s stored) (hl : Located stored r d p) :
    ∃ res r', exec hd (read n) r s = (res, r', s) ∧ Agrees d p (.read n) (.got res) ∧
      Located stored r' d (positionAfter p (.got res)) := by
  have hle := hl.le
  obtain ⟨hend, hmore⟩ := read_spec n hs hl.reading
  by_cases hp : p = d.length
  · refine ⟨_, r, hend (by simp [hp]), fun _ => ⟨fun h => absurd hp h.ne, fun _ => rfl⟩, hl⟩
  · obtain ⟨r', out, hrun, hout⟩ := hmore (by rw [ne_eq, drop_eq_nil_iff]; omega)
    have hlen := congrArg length hout.eq_take
    simp only [length_take, length_drop] at hlen
    refine ⟨_, r', hrun, fun hn => ⟨fun _ => ⟨out, rfl, hout.ne_nil hn, hout.length_le, ?_⟩,
      fun h => absurd h hp⟩, ?_, ?_, ?_⟩
    · rw [hout.eq_take]
      exact take_prefix _ _
    · rw [hout.root, hout.height]
      exact hl.tree
    · simp only [positionAfter]
      omega
    · simpa [positionAfter] using hout.reading

theorem access_located (hs : Serves hd s stored) (hl : Located stored r d p)
    (hd64 : d.length < 2 ^ 64) (a : Access) (hrange : ∀ absoff, a = .seek absoff → absoff < 2 ^ 63)
    (hu : Usable d p r a) : ∃ ans r', access hd a r s = (ans, r', s) ∧ Agrees d p a ans ∧
      Located stored r' d (positionAfter p ans) := by
  cases a with
  | seek absoff =>
    obtain ⟨r', hrun, hl', -⟩ := seek_spec hs hl hd64 (hrange absoff rfl) hu.1 hu.2
    exact ⟨.sought (.ok (min absoff d.length)), r', by simp only [access, hrun], rfl, hl'⟩
  | read n =>
    obtain ⟨res, r', hrun, hag, hl'⟩ := read_located n hs hl
    exact ⟨_, r', by simp only [access, hrun], hag, hl'⟩

theorem run_located (hs : Serves hd s stored) (hd64 : d.length < 2 ^ 64) (as : List Access)
    (hl : Located stored r d p) (hrange : ∀ absoff, .seek absoff ∈ as → absoff < 2 ^ 63)
    (hu : RunUsable hd d p as r s) : RunAgrees hd d p as r s := by
  induction as generalizing r p with
  | nil => trivial
  | cons a as ih =>
    obtain ⟨ans, r', hrun, hag, hl'⟩ := access_located hs hl hd64 a
      (fun absoff ha => hrange absoff (by simp [ha])) hu.1
    simp only [RunUsable, RunAgrees, hrun] at hu ⊢
    exact ⟨hag, ih hl' (fun absoff ha => hrange absoff (by simp [ha])) hu.2⟩

end Run

/-- Seeking and reading in any order agree with the byte string written, in every run
that uses `Seek` where it is usable. -/
theorem seek_read_agree (sha256 : Bytes → Hash) (s₀ : List Bytes) (d : Bytes)
    (hd : d.length < 2 ^ 64) : ∃ t w written,
      (∀ bufs : List Bytes, bufs.flatten = d →
        exec (memStore sha256) (writeTree bufs) newWriter s₀ = (.ok t, w, written ++ s₀)) ∧
      (Set.InjOn sha256 {c | c ∈ written} → ∃ r,
        exec (memStore sha256) (newReader t.data) () (written ++ s₀) =
          (.ok r, (), written ++ s₀) ∧
        ∀ as : List Access, (∀ absoff, .seek absoff ∈ as → absoff < 2 ^ 63) →
          RunUsable (memStore sha256) d 0 as r (written ++ s₀) →
          RunAgrees (memStore sha256) d 0 as r (written ++ s₀)) := by
  obtain ⟨t, w, written, hrun, hh, ht⟩ := writeTree_spec sha256 s₀ hd
  refine ⟨t, w, written, hrun, fun hinj => ?_⟩
  have hs : Serves (memStore sha256) (written ++ s₀) (Stored sha256 written) := serves_memStore hinj
  obtain ⟨r, hnew, hr, hroot, hheight, -⟩ := newReader_spec () hs hh (by simp only [nlevels]; omega)
  refine ⟨r, hnew, fun as hrange hu => run_located hs hd as ⟨?_, Nat.zero_le _, hr⟩ hrange hu⟩
  rw [hroot, show r.height = t.depth from hheight]
  exact hh

/-- `Seek(1)`, `Seek(2)` and a read on a fresh reader of three bytes. -/
theorem seek_read_agree_three_bytes : ∃ t w s r,
    exec (memStore Hash.copy) (writeTree [[10, 20, 30]]) newWriter [] = (.ok t, w, s) ∧
    exec (memStore Hash.copy) (newReader t.data) () s = (.ok r, (), s) ∧
    RunUsable (memStore Hash.copy) [10, 20, 30] 0 [.seek 1, .seek 2, .read 5] r s ∧
    RunAgrees (memStore Hash.copy) [10, 20, 30] 0 [.seek 1, .seek 2, .read 5] r s := by
  obtain ⟨t, w, written, hrun, hread⟩ := seek_read_agree Hash.copy [] [10, 20, 30] (by decide)
  have hw := hrun [[10, 20, 30]] rfl
  have ht : t = ⟨0, Hash.copy [0, 10, 20, 30]⟩ := by
    have hs := congrArg (fun x => x.1) hw
    exact Except.ok.inj (hs.symm.trans rfl)
  have hwritten : written = [[0, 10, 20, 30]] := by
    have hs := congrArg (fun x => x.2.2) hw
    rw [List.append_nil] at hs
    exact hs.symm.trans rfl
  subst ht hwritten
  obtain ⟨r, hnew, hruns⟩ := hread (by simp)
  have hu : RunUsable (memStore Hash.copy) [10, 20, 30] 0 [.seek 1, .seek 2, .read 5] r
      ([[0, 10, 20, 30]] ++ []) := by
    have hr := congrArg (fun x => x.1) hnew
    rw [Except.ok.inj (hr.symm.trans rfl)]
    refine ⟨⟨?_, Or.inl ?_⟩, ⟨?_, Or.inl ?_⟩, trivial, trivial⟩ <;> decide
  exact ⟨_, w, _, r, hw, hnew, hu, hruns _ (by simp) hu⟩

/-- After `Seek(1)` a `Seek(0)` returns early, because nothing has been read yet, and the
next read returns the second byte instead of the first one. -/
theorem seek_back_to_start_disagrees : ∃ t w s r,
    exec (memStore Hash.copy) (writeTree [[10, 20]]) newWriter [] = (.ok t, w, s) ∧
    exec (memStore Hash.copy) (newReader t.data) () s = (.ok r, (), s) ∧
    ¬ RunAgrees (memStore Hash.copy) [10, 20] 0 [.seek 1, .seek 0, .read 1] r s := by
  refine ⟨_, _, _, _, rfl, rfl, ?_⟩
  rintro ⟨-, -, hread, -⟩
  obtain ⟨out, hout, -, -, hpre⟩ := (hread (by decide)).1 (by decide)
  have : out = [20] := (Except.ok.inj hout).symm
  subst this
  revert hpre
  decide

end Bpy.HashTreeSeeking
