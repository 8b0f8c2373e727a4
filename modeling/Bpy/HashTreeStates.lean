import Bpy.HashTreeRetries
import Bpy.ObjectGraph

/-!
# The states of an `htree.Reader`

What holds of a reader after any calls of `Read` and `Seek` that came back, failed ones
included. Each level has whole entries of the tree left, but a `Seek` that failed leaves
its levels and the older ones below it side by side. The position in the leaf can be
negative after a `Seek` far behind the end.
-/
namespace Bpy.HashTreeStates
open ByteWords InteractionPrograms ContentStore HashTreeWriter HashTreeContent HashTreeReader
open HashTreeReading HashTreeRoundTrip HashTreeSeeking ObjectGraph Method
open List hiding Chain le_antisymm not_le not_lt

variable {stored : Hash → Bytes → Prop} {d : Bytes} {σ : Type} {hd : Handler σ} {I : σ → Prop} {s : σ}
  {r : Reader}

section Places

variable {k off k' off' : ℕ} {h h' : Hash} {d' : Bytes}

theorem capacity_dvd (hk : k' ≤ k) : capacity k' ∣ capacity k := by
  induction k, hk using Nat.le_induction with
  | base => exact dvd_rfl
  | succ k _ ih => exact ih.trans (Dvd.intro_left fanout rfl)

theorem entries_unique (hf : Functional stored) {es es' : Children} (hk : k + 1 < nlevels)
    (hst : stored h (tag (k + 1) :: encodeEntries off es))
    (hst' : stored h (tag (k + 1) :: encodeEntries off es'))
    (hc : Chain (fun off h d => Holds stored k off h d ∧ d ≠ []) off es)
    (hc' : Chain (fun off h d => Holds stored k off h d ∧ d ≠ []) off es') : es = es' := by
  have hsame := (cons.inj (hf h _ _ hst hst')).2
  refine chain_unique (fun off h d d' hP hP' => ?_) hc hc' ?_
  · exact (holds_unique hf (Nat.lt_of_succ_lt hk) (Nat.lt_of_succ_lt hk) hP.1 hP'.1).2
  · rw [← entryHashes_encodeEntries off es, hsame, entryHashes_encodeEntries]

theorem part_le (hp : Part stored k off h d k' off' h' d') : k' ≤ k := by
  induction hp with
  | self => exact le_rfl
  | child _ _ _ _ ih => omega

theorem part_ne_nil (hp : Part stored k off h d k' off' h' d') (hne : d ≠ []) : d' ≠ [] := by
  induction hp with
  | self => exact hne
  | child hst hc hsplit _ ih =>
    rw [hsplit, chain_append] at hc
    exact ih hc.2.1.2

theorem spine_child {es front back : Children} {e : Hash × Bytes} (hf : Functional stored) (hk : k + 1 < nlevels)
    (hs : Spine stored (k + 1) off h d) (hst : stored h (tag (k + 1) :: encodeEntries off es))
    (hc : Chain (fun off h d => Holds stored k off h d ∧ d ≠ []) off es) (hsplit : es = front ++ e :: back) :
    d = contents es ∧ (contents front).length = front.length * capacity k ∧
      Spine stored k (off + (contents front).length) e.1 e.2 ∧ (back = [] ∨ e.2.length = capacity k) := by
  obtain ⟨es', last, X, rfl, hX, -, hst', hc', hlast⟩ := hs
  have hchain : Chain (fun off h d => Holds stored k off h d ∧ d ≠ []) off (es' ++ [(last, X)]) := by
    rw [chain_append]
    exact ⟨hc'.mono (fun _ _ _ hfull => hfull.nonempty), (chain_singleton _ _).mpr ⟨hlast.holds, hX⟩⟩
  have hes := entries_unique hf hk hst hst' hc hchain
  refine ⟨by rw [hes]; simp, ?_⟩
  rw [hsplit] at hes
  rcases List.eq_nil_or_concat' back with rfl | ⟨back', last', rfl⟩
  · obtain ⟨rfl, he⟩ := List.append_inj' hes rfl
    obtain rfl := singleton_inj.mp he
    exact ⟨length_contents_full hc', hlast, .inl rfl⟩
  · rw [← cons_append, ← append_assoc] at hes
    obtain ⟨rfl, -⟩ := List.append_inj' hes rfl
    obtain ⟨hfront, hfull, -⟩ := chain_append.mp hc'
    exact ⟨length_contents_full hfront, hfull.spine, .inr hfull.2⟩

/-- The trees of one level in a packed tree are as long as they can be, but for the last one, so
that they start at multiples of that length. -/
theorem part_place (hf : Functional stored) (hk : k < nlevels) (hs : Spine stored k off h d)
    (hp : Part stored k off h d k' off' h' d') (hne : d' ≠ []) :
    ∃ q, off' = off + q * capacity k' ∧ d' = (d.drop (q * capacity k')).take (capacity k') := by
  induction hp with
  | self k off h d => exact ⟨0, by simp, by simp [take_of_length_le hs.holds.length_le]⟩
  | @child k off k' off' h h' d' es front back e hst hc hsplit hpart ih =>
    obtain ⟨-, hfront, hchild, hlast⟩ := spine_child hf hk hs hst hc hsplit
    obtain ⟨q, rfl, hd'⟩ := ih (Nat.lt_of_succ_lt hk) hchild hne
    obtain ⟨c, hcap⟩ := capacity_dvd (part_le hpart)
    have hmul : (contents front).length = front.length * c * capacity k' := by
      rw [hfront, hcap, Nat.mul_comm (capacity k'), Nat.mul_assoc]
    have hlt : q * capacity k' < e.2.length := by
      by_contra hge
      rw [drop_of_length_le (by omega), take_nil] at hd'
      exact hne hd'
    refine ⟨front.length * c + q, by rw [Nat.add_mul, ← hmul, Nat.add_assoc], ?_⟩
    have hdrop : (contents es).drop ((front.length * c + q) * capacity k') =
        e.2.drop (q * capacity k') ++ contents back := by
      rw [hsplit, contents_append, contents_cons, Nat.add_mul, ← hmul, drop_length_add_append,
        drop_append_of_le_length hlt.le]
    rw [hdrop, hd']
    rcases hlast with rfl | hfull
    · rw [contents_nil, append_nil]
    · -- a full child ends where a tree of the lower level ends
      have hroom : capacity k' ≤ (e.2.drop (q * capacity k')).length := by
        rw [hfull, hcap, Nat.mul_comm] at hlt
        have hq := Nat.lt_of_mul_lt_mul_left hlt
        have hle := Nat.mul_le_mul_right (capacity k') (Nat.succ_le_of_lt hq)
        rw [length_drop, hfull, hcap, Nat.mul_comm (capacity k')]
        rw [Nat.succ_mul] at hle
        omega
      rw [take_append_of_le_length hroom]

/-- Where the last leaf starts. -/
def lastLeaf (d : Bytes) : ℕ := (d.length - 1) / capacity 0 * capacity 0

/-- The bytes of `d` behind the tree of level `j` that `Seek` to `absoff` goes through. -/
def behind (d : Bytes) (absoff j : ℕ) : Bytes :=
  d.drop ((min absoff (d.length - 1) / capacity j + 1) * capacity j)

theorem behind_eq {absoff q j cur : ℕ} {D Z : Bytes} (hcov : Covers absoff 0 D cur d Z) (hne : d ≠ [])
    (hcur : cur = q * capacity j) (hd : d = (D.drop (q * capacity j)).take (capacity j)) : Z = behind D absoff j := by
  obtain ⟨P, hD, hP⟩ := hcov.place
  have hle := hcov.le
  have hpos := length_pos_of_ne_nil hne
  have hcap := capacity_pos j
  have hlen := congrArg length hd
  have hDlen := congrArg length hD
  simp only [length_take, length_drop, length_append] at hlen hDlen
  have hZ : Z = D.drop (cur + d.length) := by
    rw [hD, show cur + d.length = (P ++ d).length by rw [length_append]; omega, drop_left]
  rw [hZ, behind]
  have hq : q ≤ min absoff (D.length - 1) / capacity j := by
    rw [Nat.le_div_iff_mul_le hcap]
    omega
  rcases hcov.lt_or_last with hlt | hlast
  · -- the tree is the one with number `q`
    have hq' : min absoff (D.length - 1) / capacity j = q := by
      apply le_antisymm _ hq
      rw [← Nat.lt_succ_iff, Nat.div_lt_iff_lt_mul hcap, Nat.succ_mul]
      omega
    rw [hq', Nat.succ_mul, ← hcur]
    rcases Nat.lt_or_ge d.length (capacity j) with hshort | hfull
    · rw [drop_of_length_le (by omega), drop_of_length_le (by omega)]
    · rw [show d.length = capacity j by omega]
  · have hend : D.length = cur + d.length := by
      rw [hlast, length_nil] at hDlen
      omega
    have hbig := Nat.mul_le_mul_right (capacity j) (Nat.succ_le_succ hq)
    rw [Nat.succ_mul, Nat.succ_eq_add_one] at hbig
    rw [drop_of_length_le (by omega), drop_of_length_le (by omega)]

theorem leaf_near_iff {absoff cur : ℕ} {root : Hash} {dl Z : Bytes} (hf : Functional stored) (hk : k < nlevels)
    (hs : Spine stored k 0 h d) (hp : Part stored k 0 h d 0 cur root dl) (hcov : Covers absoff 0 d cur dl Z) :
    absoff - cur + 1 < 2 ^ 63 ↔ absoff < lastLeaf d + (2 ^ 63 - 1) := by
  obtain ⟨P, hD, hP⟩ := hcov.place
  have hle := hcov.le
  have hDlen := congrArg length hD
  simp only [length_append] at hDlen
  by_cases hd : d = []
  · simp only [hd, length_nil] at hDlen
    simp only [lastLeaf, hd, length_nil, Nat.zero_sub, Nat.zero_div, Nat.zero_mul]
    omega
  obtain ⟨q, hcur, hdl⟩ := part_place hf hk hs hp (part_ne_nil hp hd)
  have hpos := length_pos_of_ne_nil (part_ne_nil hp hd)
  have hlen := congrArg length hdl
  simp only [length_take, length_drop] at hlen
  have hcap : capacity 0 = 65534 := rfl
  simp only [lastLeaf, hcap] at hlen hcur ⊢
  rcases hcov.lt_or_last with hlt | rfl
  · omega
  · rw [length_nil] at hDlen
    omega

end Places

section Standing

variable {s' : σ} {r' : Reader} {absoff n : ℕ} {B Y : Bytes}

/-- A reader of the tree of `d`, anywhere in it. -/
structure Standing (stored : Hash → Bytes → Prop) (d : Bytes) (r : Reader) : Prop where
  tree : Spine stored r.height 0 r.root d
  bounded : Bounded r
  pos_le : r.pos 0 ≤ r.length 0
  length_le : r.length 0 ≤ maxlen
  ahead : ∃ B, Ahead stored r r.height 0 B

theorem Standing.leafLeft (h : Standing stored d r) (hpos : 0 ≤ r.pos 0) :
    ∃ p X, LeafLeft r p X ∧ ∀ B, Ahead stored r r.height 0 B → Reading stored r (X ++ B) := by
  have hle := h.pos_le
  have hleaf : LeafLeft r (r.pos 0).toNat (window (r.lvls 0) (r.pos 0).toNat (r.length 0 - (r.pos 0).toNat)) := by
    refine ⟨(Int.toNat_of_nonneg hpos).symm, ?_, h.length_le, ?_⟩
    · rw [length_window]
      omega
    · rw [length_window]
  exact ⟨_, _, hleaf, fun B ha => ⟨h.bounded, _, _, B, rfl, hleaf, ha⟩⟩

theorem standing_of_reading (ht : Spine stored r.height 0 r.root d) (hr : Reading stored r Y) :
    Standing stored d r := by
  obtain ⟨hb, p, X, B, -, hl, ha⟩ := hr
  refine ⟨ht, hb, ?_, hl.length_le, B, ha⟩
  rw [hl.pos, hl.length]
  omega

variable (hd s) in
theorem read_negative (n : ℕ) (hpos : r.pos 0 < 0) : ∃ msg, exec hd (read n) r s = (.error (.panic msg), r, s) := by
  refine ⟨"slice bounds out of range", ?_⟩
  have hsrc : r.src = .error (.panic "slice bounds out of range") := by
    rw [Reader.src, if_neg (by omega)]
  simp [HashTreeReader.read, exec_bind, hsrc]

theorem Standing.read (n : ℕ) (hst : Faulty hd I stored) (hI : I s) (h : Standing stored d r) (hpos : 0 ≤ r.pos 0)
    {res : Except GoError Bytes} (hrun : exec hd (read n) r s = (res, r', s')) : I s' ∧ Standing stored d r' := by
  obtain ⟨B, ha⟩ := h.ahead
  obtain ⟨p, X, hleaf, hread⟩ := h.leafLeft hpos
  obtain ⟨hend, hmore⟩ := read_outcome n hst hI (hread B ha)
  by_cases hY : X ++ B = []
  · rw [hend hY, Prod.mk.injEq, Prod.mk.injEq] at hrun
    obtain ⟨-, rfl, rfl⟩ := hrun
    exact ⟨hI, h⟩
  rcases hmore hY with ⟨r₁, s₁, c, out, hrun₁, hI₁, -, -, hout⟩ | ⟨err, r₁, s₁, c, hrun₁, hI₁, -, hr₁, hkeep⟩
  · rw [hrun₁, Prod.mk.injEq, Prod.mk.injEq] at hrun
    obtain ⟨-, rfl, rfl⟩ := hrun
    refine ⟨hI₁, standing_of_reading ?_ hout.reading⟩
    rw [hout.root, hout.height]
    exact h.tree
  · rw [hrun₁, Prod.mk.injEq, Prod.mk.injEq] at hrun
    obtain ⟨-, rfl, rfl⟩ := hrun
    refine ⟨hI₁, standing_of_reading ?_ hr₁⟩
    rw [hkeep.root, hkeep.height]
    exact h.tree

theorem uint64At_cases (r : Reader) (lvl : ℕ) (pos : ℤ) :
    (∃ msg, r.uint64At lvl pos = .error (.panic msg)) ∨ ∃ v < 2 ^ 64, r.uint64At lvl pos = .ok v := by
  unfold Reader.uint64At
  split
  · have hlt := leNat_lt (window (r.lvls lvl) pos.toNat 8)
    rw [length_window] at hlt
    exact .inr ⟨_, hlt, rfl⟩
  · exact .inl ⟨_, rfl⟩

theorem nextoff_cases (r : Reader) (absoff lvl : ℕ) :
    (∃ msg, r.nextoff absoff lvl = .error (.panic msg)) ∨ ∃ v < 2 ^ 64, r.nextoff absoff lvl = .ok v := by
  unfold Reader.nextoff
  split
  · exact uint64At_cases r lvl _
  · exact .inr ⟨_, Nat.mod_lt _ (by decide), rfl⟩

variable (hd) in
theorem seekEntry_wraps (lvl rounds : ℕ) (r : Reader) (s : σ) (habs : absoff + 1 = 2 ^ 64) :
    ∃ msg r', exec hd (seekEntry absoff lvl rounds) r s = (.error (.panic msg), r', s) := by
  induction rounds generalizing r with
  | zero => exact ⟨_, r, rfl⟩
  | succ rounds ih =>
    simp only [seekEntry, exec_bind, exec_self, exec_ofExcept, exec_update]
    rcases uint64At_cases r lvl (r.pos lvl) with ⟨msg, hcur⟩ | ⟨cur, -, hcur⟩
    · exact ⟨msg, r, by simp only [hcur]⟩
    by_cases hh : 0 ≤ r.pos lvl + 8 ∧ r.pos lvl + 8 ≤ maxlen
    · rcases nextoff_cases (r.skipEntry lvl) absoff lvl with ⟨msg, hnext⟩ | ⟨v, hv, hnext⟩
      · exact ⟨msg, r.skipEntry lvl, by simp only [hcur, Reader.hashAt, if_pos hh, hnext]⟩
      · obtain ⟨msg, r', hrun⟩ := ih (r.skipEntry lvl)
        refine ⟨msg, r', ?_⟩
        simp only [hcur, Reader.hashAt, if_pos hh, hnext, if_neg (show ¬ absoff < v by omega), hrun]
    · exact ⟨"slice bounds out of range", r, by simp only [hcur, Reader.hashAt, if_neg hh]⟩

theorem seek_wraps (hst : Faulty hd I stored) (hI : I s) (h : Standing stored d r) (hheight : 0 < r.height)
    (hoff : r.offset ≠ absoff) (habs : absoff + 1 = 2 ^ 64) :
    (∃ msg r' s', exec hd (seek absoff) r s = (.error (.panic msg), r', s')) ∨
      ∃ err s', exec hd (seek absoff) r s = (.error err, r, s') ∧ I s' ∧ Breaks hd stored s 0 err s' := by
  obtain ⟨bs, hbs, -⟩ := holds_opened h.tree.holds
  have hlt := h.bounded.height_lt
  obtain ⟨s₁, hI₁, hget | ⟨err, hget⟩⟩ := hst s _ _ hI hbs
  · left
    have hload := loadRoot_eq r bs (show r.height < nlevels by omega)
    obtain ⟨k, hk⟩ := Nat.exists_eq_add_one_of_ne_zero hheight.ne'
    obtain ⟨msg, r', hrun⟩ := seekEntry_wraps hd (k + 1) 1640 (r.load r.height (tag r.height :: bs)) s₁ habs
    refine ⟨msg, r', s₁, ?_⟩
    have hroot := exec_seek_root hoff hget hload
    simp only [Reader.load] at hroot hrun
    simp only [hk] at hroot hrun
    rw [hroot, seekDown, exec_bind_error _ hrun]
  · refine .inr ⟨err, s₁, ?_, hI₁, s, _, _, .none, hbs, hget⟩
    simp [seek, exec_bind, hoff, hget]

theorem landing_eq_setPos (absoff cur : ℕ) (r : Reader) :
    ∃ q : ℤ, q ≤ r.length 0 ∧ (landing absoff cur r).2 = r.setPos 0 q := by
  unfold landing
  split
  · exact ⟨_, le_rfl, rfl⟩
  · next hle =>
    rw [Int.add_comm] at hle
    exact ⟨_, not_lt.mp hle, rfl⟩

theorem Standing.landed {cur : ℕ} {dl Z : Bytes} (h : Standing stored d r)
    (hland : Landed stored r r' absoff 0 r.height 0 r.root d [] cur dl Z) :
    Standing stored d (landing absoff cur r').2 := by
  have hkeep := hland.sought.keeps
  have hleaf : LeafLeft r' 1 dl := hland.sought.fresh
  have ha := hland.sought.ahead
  obtain ⟨q, hq, hlanding⟩ := landing_eq_setPos absoff cur r'
  rw [hlanding]
  have hmove := hkeep.trans (keeps_setPos r' q (Nat.zero_le r'.height))
  refine ⟨?_, hmove.bounded h.bounded, by simpa [Reader.setPos] using hq, hleaf.length_le, Z ++ [], ?_⟩
  · rw [hmove.root, hmove.height]
    exact h.tree
  · rw [hmove.height]
    exact ha.congr (fun i hi => sameLevel_setPos r' q (by omega))

/-- After a `Seek` that failed, the levels up to `j` have left what they had, and the ones above
what is behind the tree that was not found. -/
theorem halted_ahead {j cur : ℕ} {dj Z low : Bytes}
    (hhalt : Halted stored r r' absoff 0 r.height 0 r.root d [] j cur dj Z) (hlow : Ahead stored r j 0 low) :
    Ahead stored r' r'.height 0 (low ++ Z) := by
  have hlt := hhalt.lt
  have hz := hhalt.stalled.ahead
  rw [append_nil, Nat.add_zero, ← Nat.zero_add j] at hz
  rw [hhalt.stalled.keeps.height, show r.height = j + (r.height - (0 + j)) by omega, ahead_add]
  exact ⟨low, Z, rfl, hlow.congr_below (fun i _ hi => hhalt.stalled.below i (by omega)), hz⟩

theorem Standing.halted {j cur : ℕ} {dj Z : Bytes} (h : Standing stored d r)
    (hhalt : Halted stored r r' absoff 0 r.height 0 r.root d [] j cur dj Z) :
    Standing stored d r' ∧ ∃ low high, Ahead stored r j 0 low ∧ Ahead stored r (r.height - j) j high ∧
      Ahead stored r' r'.height 0 (low ++ Z) := by
  have hlt := hhalt.lt
  have hkeep := hhalt.stalled.keeps
  obtain ⟨B, ha⟩ := h.ahead
  rw [show r.height = j + (r.height - j) by omega, ahead_add, Nat.zero_add] at ha
  obtain ⟨low, high, -, hlow, hhigh⟩ := ha
  have ha' := halted_ahead hhalt hlow
  have hleaf := hhalt.stalled.below 0 (Nat.zero_le j)
  refine ⟨⟨?_, hkeep.bounded h.bounded, ?_, ?_, _, ha'⟩, low, high, hlow, hhigh, ha'⟩
  · rw [hkeep.root, hkeep.height]
    exact h.tree
  · rw [hleaf.pos, hleaf.length]
    exact h.pos_le
  · rw [hleaf.length]
    exact h.length_le

/-- The call comes back. -/
def Returns {α : Type} (res : Except GoError α) : Prop := ∀ msg, res ≠ .error (.panic msg)

theorem Standing.seek_cases (hst : Faulty hd I stored) (hI : I s) (h : Standing stored d r)
    (hlen : d.length < 2 ^ 64) (hoff : r.offset ≠ absoff) (habs : absoff < 2 ^ 64) {res : Except GoError ℕ}
    (hrun : exec hd (seek absoff) r s = (res, r', s')) (hres : Returns res) : I s' ∧
      ((∃ r₁ cur dl Z, Landed stored r r₁ absoff 0 r.height 0 r.root d [] cur dl Z ∧
          res = .ok (landing absoff cur r₁).1 ∧ r' = (landing absoff cur r₁).2) ∨
        (∃ e, res = .error e ∧ r' = r ∧ Breaks hd stored s 0 e s') ∨
        ∃ e j cur dj Z, res = .error e ∧ Breaks hd stored s (r.height - j) e s' ∧
          Halted stored r r' absoff 0 r.height 0 r.root d [] j cur dj Z) := by
  by_cases hlast : 0 < r.height ∧ absoff + 1 = 2 ^ 64
  · rcases seek_wraps hst hI h hlast.1 hoff hlast.2 with ⟨msg, r₁, s₁, hrun₁⟩ | ⟨err, s₁, hrun₁, hI₁, hbreak⟩
    · rw [hrun₁, Prod.mk.injEq] at hrun
      exact absurd hrun.1.symm (hres msg)
    · rw [hrun₁, Prod.mk.injEq, Prod.mk.injEq] at hrun
      obtain ⟨rfl, rfl, rfl⟩ := hrun
      exact ⟨hI₁, .inr (.inl ⟨err, rfl, rfl, hbreak⟩)⟩
  rcases seek_outcome hst hI h.bounded h.tree.holds hlen hoff (fun hpos => by omega) with
    ⟨r₁, s₁, cur, dl, Z, hrun₁, hI₁, -, hland⟩ | ⟨err, s₁, hrun₁, hI₁, hbreak⟩ |
    ⟨err, r₁, s₁, j, cur, dj, Z, hrun₁, hI₁, hbreak, hhalt⟩
  all_goals
    rw [hrun₁, Prod.mk.injEq, Prod.mk.injEq] at hrun
    obtain ⟨rfl, rfl, rfl⟩ := hrun
  · exact ⟨hI₁, .inl ⟨r₁, cur, dl, Z, hland, rfl, rfl⟩⟩
  · exact ⟨hI₁, .inr (.inl ⟨err, rfl, rfl, hbreak⟩)⟩
  · exact ⟨hI₁, .inr (.inr ⟨err, j, cur, dj, Z, rfl, hbreak, hhalt⟩)⟩

theorem Standing.halted_behind {j cur : ℕ} {dj Z : Bytes} (h : Standing stored d r) (hf : Functional stored)
    (hhalt : Halted stored r r' absoff 0 r.height 0 r.root d [] j cur dj Z) : Z = behind d absoff j := by
  obtain ⟨root, hpart⟩ := hhalt.part
  obtain ⟨q, hcur, hdj⟩ := part_place hf (Nat.lt_of_succ_lt h.bounded.height_lt) h.tree hpart hhalt.ne_nil
  exact behind_eq hhalt.covers hhalt.ne_nil (by rw [hcur, Nat.zero_add]) hdj

theorem seek_early (hoff : r.offset = absoff) : exec hd (seek absoff) r s = (.ok absoff, r, s) := by
  simp [seek, exec_bind, hoff]

theorem Standing.seek (hst : Faulty hd I stored) (hI : I s) (h : Standing stored d r) (hlen : d.length < 2 ^ 64)
    (habs : absoff < 2 ^ 64) {res : Except GoError ℕ} (hrun : exec hd (seek absoff) r s = (res, r', s'))
    (hres : Returns res) : I s' ∧ Standing stored d r' := by
  by_cases hoff : r.offset = absoff
  · rw [seek_early hoff, Prod.mk.injEq, Prod.mk.injEq] at hrun
    obtain ⟨-, rfl, rfl⟩ := hrun
    exact ⟨hI, h⟩
  obtain ⟨hI', ⟨r₁, cur, dl, Z, hland, -, rfl⟩ | ⟨e, -, rfl, -⟩ | ⟨e, j, cur, dj, Z, -, -, hhalt⟩⟩ :=
    h.seek_cases hst hI hlen hoff habs hrun hres
  · exact ⟨hI', h.landed hland⟩
  · exact ⟨hI', h⟩
  · exact ⟨hI', (h.halted hhalt).1⟩

end Standing

section Reached

/-- The offset is a `uint64`. -/
def InRange : Access → Prop
  | .seek absoff => absoff < 2 ^ 64
  | .read _ => True

def AnswerReturns : Answer → Prop
  | .sought res => Returns res
  | .got res => Returns res

/-- The states that calls of `Read` and `Seek` lead to, if all of them come back. -/
inductive Reached (hd : Handler σ) (r₀ : Reader) (s₀ : σ) : Reader → σ → Prop
  | start : Reached hd r₀ s₀ r₀ s₀
  | access {r : Reader} {s : σ} (a : Access) (h : Reached hd r₀ s₀ r s) (hrange : InRange a)
      (hret : AnswerReturns (access hd a r s).1) :
      Reached hd r₀ s₀ (access hd a r s).2.1 (access hd a r s).2.2

variable {s₀ : σ} {r₀ : Reader}

theorem Standing.access (a : Access) (hst : Faulty hd I stored) (hI : I s) (h : Standing stored d r)
    (hlen : d.length < 2 ^ 64) (hrange : InRange a) (hret : AnswerReturns (access hd a r s).1) :
    I (HashTreeSeeking.access hd a r s).2.2 ∧ Standing stored d (HashTreeSeeking.access hd a r s).2.1 := by
  cases a with
  | seek absoff => exact h.seek hst hI hlen hrange rfl hret
  | read n =>
    by_cases hpos : 0 ≤ r.pos 0
    · exact h.read n hst hI hpos rfl
    · obtain ⟨msg, hrun⟩ := read_negative hd s n (not_le.mp hpos)
      exact absurd (congrArg Prod.fst hrun) (hret msg)

theorem Reached.standing (hst : Faulty hd I stored) (hI : I s₀) (h₀ : Standing stored d r₀)
    (hlen : d.length < 2 ^ 64) (h : Reached hd r₀ s₀ r s) : I s ∧ Standing stored d r := by
  induction h with
  | start => exact ⟨hI, h₀⟩
  | access a _ hrange hret ih => exact ih.2.access a hst ih.1 hlen hrange hret

end Reached

end Bpy.HashTreeStates
