import Bpy.FileReaders
import Bpy.SeekFailures

/-!
# Where `fs.FileReader.Seek` can lead

Nothing checks the offset of `Seek`. Offsets behind the end are cut by the tree reader,
as long as the distance to the last leaf fits into an `int`. Negative ones are very large
as `uint64`: the position in the leaf becomes negative and so does the result.
-/
namespace Bpy.FileSeeks
open ByteWords InteractionPrograms ContentStore HashTreeWriter HashTreeContent HashTreeReader
open HashTreeReading HashTreeRoundTrip HashTreeSeeking HashTreeStreams HashTreeRetries HashTreeStates ObjectGraph
open SeekFailures FileReaders FileTrees Directories Method
open List hiding not_le not_lt

variable {stored : Hash → Bytes → Prop} {r : FileReader} {rdr : Reader} {d : Bytes} {o : ℕ}
  {sha256 : Bytes → Hash} {cs : List Bytes}

section Reads

variable {σ : Type} {hd : Handler σ} {s : σ} {Y : Bytes} {p : ℕ}

/-- The results of calls of `Read` with buffers of the given sizes. -/
def fileReads (hd : Handler σ) : List ℕ → FileReader → σ → List (Except GoError Bytes)
  | [], _, _ => []
  | n :: ns, r, s =>
    let x := exec hd (FileReaders.read n) r s
    x.1 :: fileReads hd ns x.2.1 x.2.2

theorem fileReads_eq (hd : Handler σ) (ns : List ℕ) (r : FileReader) (s : σ) :
    fileReads hd ns r s = (reads hd ns r.rdr s).1 := by
  induction ns generalizing r s with
  | nil => rfl
  | cons n ns ih =>
    simp only [fileReads, reads, ih, exec_read]
    rcases exec hd (HashTreeReader.read n) r.rdr s with ⟨res, rdr', s'⟩
    cases res <;> rfl

/-- Reads return nothing but the bytes of `d` from `p` on, and do not panic. -/
structure ReadsFrom (hd : Handler σ) (s : σ) (d : Bytes) (r : FileReader) (p : ℕ) : Prop where
  returns : ∀ ns, ∀ res ∈ fileReads hd ns r s, Returns res
  content : ∀ ns, delivered (fileReads hd ns r s) <+: d.drop p

/-- The tree reader has only bytes of `Y` left, from its start on. -/
def Within (stored : Hash → Bytes → Prop) (rdr : Reader) (Y : Bytes) : Prop :=
  ∃ X, Reading stored rdr X ∧ X <+: Y

theorem reads_returns (hs : Serves hd s stored) (hr : Reading stored rdr Y) (ns : List ℕ) :
    ∀ res ∈ (reads hd ns rdr s).1, Returns res := by
  induction ns generalizing rdr Y with
  | nil => simp [reads]
  | cons n ns ih =>
    obtain ⟨hend, hmore⟩ := read_spec n hs hr
    by_cases hY : Y = []
    · simp only [reads, hend hY, mem_cons, forall_eq_or_imp]
      exact ⟨fun msg => by simp, ih hr⟩
    · obtain ⟨r', out, hrun, hout⟩ := hmore hY
      simp only [reads, hrun, mem_cons, forall_eq_or_imp]
      exact ⟨fun msg => by simp, ih hout.reading⟩

theorem Within.pos_nonneg (h : Within stored rdr Y) : 0 ≤ rdr.pos 0 := by
  obtain ⟨X, ⟨-, p, X', B, -, hl, -⟩, -⟩ := h
  rw [hl.pos]
  exact Int.natCast_nonneg p

theorem readsFrom_iff (hs : Serves hd s stored) (h : Standing stored d r.rdr) :
    ReadsFrom hd s d r p ↔ Within stored r.rdr (d.drop p) := by
  by_cases hpos : r.rdr.pos 0 < 0
  · constructor
    · intro hreads
      obtain ⟨msg, hrun⟩ := read_negative hd s 1 hpos
      have hret := hreads.returns [1]
      simp only [fileReads_eq, reads, hrun, mem_singleton, forall_eq] at hret
      exact absurd rfl (hret msg)
    · intro hwithin
      exact absurd hwithin.pos_nonneg (not_le.mpr hpos)
  obtain ⟨B, ha⟩ := h.ahead
  obtain ⟨q, X, -, hread⟩ := h.leafLeft (not_lt.mp hpos)
  have hr := hread B ha
  constructor
  · intro hreads
    refine ⟨_, hr, ?_⟩
    have hall := hreads.content (replicate (X ++ B).length 1)
    rwa [fileReads_eq, delivered_ones hs hr (prefix_refl _)] at hall
  · rintro ⟨Y, hY, hpre⟩
    obtain rfl := reading_unique hs hY hr
    constructor
    · intro ns
      rw [fileReads_eq]
      exact reads_returns hs hr ns
    · intro ns
      rw [fileReads_eq]
      exact (delivered_le ns hs hr).trans hpre

end Reads

section Seeks

variable {rdr' : Reader}

/-- `Seek` came back with an error and left the position as it was, or with a position in the file,
and later reads return the bytes from there. -/
def StaysInside {σ : Type} (hd : Handler σ) (s : σ) (d : Bytes) (r : FileReader) :
    Except GoError (ℤ × Option GoError) × FileReader → Prop
  | (.ok (pos, none), r') => 0 ≤ pos ∧ pos ≤ d.length ∧ ReadsFrom hd s d r' pos.toNat
  | (.ok (_, some _), r') => r'.offset = r.offset ∧ ReadsFrom hd s d r' r.offset
  | (.error _, _) => False

/-- What is left in the tree reader after a `Seek` to `o` that stopped above level `j`. -/
def Kept (stored : Hash → Bytes → Prop) (d : Bytes) (rdr : Reader) (o j : ℕ) (Y : Bytes) : Prop :=
  ∃ p X low, Y = X ++ (low ++ behind d o j) ∧ LeafLeft rdr p X ∧ Ahead stored rdr j 0 low

/-- When `Seek` passes `o` to the tree reader, and the calls of `Get` from number `n` on fail as
`fails` says. -/
def Confined (stored : Hash → Bytes → Prop) (fails : ℕ → Option GoError) (d : Bytes) (r : FileReader) (n o : ℕ) :
    Prop :=
  (o = r.rdr.offset ∧ o ≤ d.length ∧ Within stored r.rdr (d.drop o)) ∨
  (o ≠ r.rdr.offset ∧ (∀ i ≤ r.rdr.height, fails (n + i) = none) ∧ o < lastLeaf d + (2 ^ 63 - 1)) ∨
  (o ≠ r.rdr.offset ∧ ∃ m ≤ r.rdr.height, (∀ i < m, fails (n + i) = none) ∧ fails (n + m) ≠ none ∧
    (m = 0 ∨ o + 1 < 2 ^ 64) ∧ r.offset = 0 ∧ ∃ Y, Kept stored d r.rdr o (r.rdr.height - m) Y ∧ Y <+: d)

theorem int64_of_ge {x : ℕ} (h : 2 ^ 63 ≤ x) (hlt : x < 2 ^ 64) : int64 x = (x : ℤ) - 2 ^ 64 := by
  rw [int64, Int.bmod_def]
  omega

theorem int64_neg {x : ℤ} (h : - 2 ^ 63 ≤ x) (hle : x ≤ 0) : int64 x = x := by
  rw [int64, Int.bmod_def]
  omega

theorem int64_mem_iff {n : ℕ} (hlt : o < 2 ^ 64) (hn : n < 2 ^ 63) : (0 ≤ int64 o ∧ int64 o ≤ n) ↔ o ≤ n := by
  rcases Nat.lt_or_ge o (2 ^ 63) with h | h
  · rw [int64_of_lt (by omega) (by omega)]
    omega
  · rw [int64_of_ge h hlt]
    omega

theorem landing_wraps {cur : ℕ} {dl : Bytes} (hleaf : LeafLeft rdr 1 dl) (hle : cur ≤ o) (hlt : o < 2 ^ 64)
    (hfar : ¬ o - cur + 1 < 2 ^ 63) : (landing o cur rdr).1 = o ∧ ((landing o cur rdr).2.pos 0 < 0 ∨ 2 ^ 63 ≤ o) := by
  have hcast : (o : ℤ) - cur = ((o - cur : ℕ) : ℤ) := by omega
  have hpos : rdr.pos 0 = 1 := hleaf.pos
  rcases Nat.lt_or_ge (o - cur) (2 ^ 63) with hskip | hskip
  · -- the distance is the largest `int`, and adding the position overflows
    have hbig : int64 (o - cur) = ((o - cur : ℕ) : ℤ) := by
      rw [hcast, int64_of_lt (by omega) (by omega)]
    have hsum : int64 (int64 (o - cur) + 1) = - 2 ^ 63 := by
      rw [hbig, show ((o - cur : ℕ) : ℤ) + 1 = ((2 ^ 63 : ℕ) : ℤ) by omega, int64_of_ge le_rfl (by decide)]
      rfl
    rw [landing, hpos, hsum, if_neg (by omega), Int.add_comm, hsum]
    exact ⟨rfl, .inl (by simp [Reader.setPos])⟩
  · have hneg : int64 (o - cur) = ((o - cur : ℕ) : ℤ) - 2 ^ 64 := by
      rw [hcast, int64_of_ge hskip (by omega)]
    have hsum : int64 (int64 (o - cur) + 1) = ((o - cur : ℕ) : ℤ) - 2 ^ 64 + 1 := by
      rw [hneg, int64_neg (by omega) (by omega)]
    rw [landing, hpos, hsum, if_neg (by omega)]
    exact ⟨rfl, .inr (by omega)⟩

theorem within_halted_iff {σ : Type} {hd : Handler σ} {s : σ} {j cur : ℕ} {dj Z Y : Bytes} (hs : Serves hd s stored)
    (hf : Functional stored) (h : Standing stored d rdr)
    (hhalt : Halted stored rdr rdr' o 0 rdr.height 0 rdr.root d [] j cur dj Z) :
    Within stored rdr' Y ↔ ∃ X, Kept stored d rdr o j X ∧ X <+: Y := by
  have hsame := hhalt.stalled.below 0 (Nat.zero_le j)
  obtain ⟨h', low, -, hlow, -⟩ := h.halted hhalt
  obtain rfl := h.halted_behind hf hhalt
  have hkept : ∀ {p X low}, LeafLeft rdr p X → Ahead stored rdr j 0 low →
      Reading stored rdr' (X ++ (low ++ behind d o j)) := fun hleaf hlow =>
    ⟨h'.bounded, _, _, _, rfl, hleaf.congr hsame, halted_ahead hhalt hlow⟩
  constructor
  · intro hwithin
    have hpos := hwithin.pos_nonneg
    obtain ⟨X, hX, hpre⟩ := hwithin
    rw [hsame.pos] at hpos
    obtain ⟨p, X', hleaf, -⟩ := h.leafLeft hpos
    obtain rfl := reading_unique hs hX (hkept hleaf hlow)
    exact ⟨_, ⟨p, X', low, rfl, hleaf, hlow⟩, hpre⟩
  · rintro ⟨X, ⟨p, X', low', rfl, hleaf, hlow'⟩, hpre⟩
    exact ⟨_, hkept hleaf hlow', hpre⟩

theorem behind_height (h : Standing stored d rdr) : behind d o rdr.height = [] := by
  have hle := h.tree.holds.length_le
  have hone : capacity rdr.height ≤ (min o (d.length - 1) / capacity rdr.height + 1) * capacity rdr.height :=
    Nat.le_mul_of_pos_left _ (Nat.succ_pos _)
  rw [behind, drop_of_length_le (by omega)]

theorem within_iff_kept (h : Standing stored d rdr) {Y : Bytes} :
    Within stored rdr Y ↔ ∃ X, Kept stored d rdr o rdr.height X ∧ X <+: Y := by
  constructor
  · rintro ⟨X, ⟨hb, p, X', B, rfl, hl, ha⟩, hpre⟩
    exact ⟨_, ⟨p, X', B, by rw [behind_height h, append_nil], hl, ha⟩, hpre⟩
  · rintro ⟨X, ⟨p, X', low, rfl, hl, ha⟩, hpre⟩
    rw [behind_height h, append_nil] at hpre
    exact ⟨_, ⟨h.bounded, p, X', low, rfl, hl, ha⟩, hpre⟩

end Seeks

section Calls

variable {fails : ℕ → Option GoError} {s : List Bytes × ℕ}

/-- The outcome of a call without the state of the store. -/
def outcome {σ α : Type} (x : Except GoError α × FileReader × σ) : Except GoError α × FileReader := (x.1, x.2.1)

theorem fails_unique {n m m' : ℕ} (hm : ∀ i < m, fails (n + i) = none) (hfail : fails (n + m) ≠ none)
    (hm' : ∀ i < m', fails (n + i) = none) (hfail' : fails (n + m') ≠ none) : m = m' := by
  rcases Nat.lt_trichotomy m m' with h | h | h
  · exact absurd (hm' m h) hfail
  · exact h
  · exact absurd (hm m' h) hfail'

theorem seek_root_fails {rdr : Reader} {e : GoError} (hoff : rdr.offset ≠ o) (he : fails s.2 = some e) :
    exec (flaky sha256 fails) (HashTreeReader.seek o) rdr s = (.error e, rdr, s.1, s.2 + 1) := by
  simp [HashTreeReader.seek, exec_bind, hoff, flaky_get_fails he]

section Cases

variable (hs : Serves (memStore sha256) cs stored) (h : Standing stored d r.rdr)
include hs h

theorem seekTo_early_iff (hlen : d.length < 2 ^ 63) (ho : o < 2 ^ 64) (hoff : o = r.rdr.offset) :
    StaysInside (memStore sha256) cs d r (outcome (exec (flaky sha256 fails) (seekTo o) r s)) ↔
      Confined stored fails d r s.2 o := by
  rw [exec_seekTo_ok (seek_early hoff.symm), outcome, StaysInside, ← and_assoc, int64_mem_iff ho hlen]
  have hreads : o ≤ d.length → (ReadsFrom (memStore sha256) cs d ⟨o, r.fsize, r.rdr⟩ (int64 o).toNat ↔
      Within stored r.rdr (d.drop o)) := by
    intro hle
    rw [int64_of_lt (by omega) (by omega), Int.toNat_natCast]
    exact readsFrom_iff hs h
  constructor
  · rintro ⟨hle, hread⟩
    exact .inl ⟨hoff, hle, (hreads hle).mp hread⟩
  · rintro (⟨-, hle, hwithin⟩ | ⟨hne, -⟩ | ⟨hne, -⟩)
    · exact ⟨hle, (hreads hle).mpr hwithin⟩
    · exact absurd hoff hne
    · exact absurd hoff hne

omit h in
theorem seekTo_error_iff {m : ℕ} {e : GoError} {rdr' : Reader} {s' : List Bytes × ℕ} (hoff : o ≠ r.rdr.offset)
    (hrun : exec (flaky sha256 fails) (HashTreeReader.seek o) r.rdr s = (.error e, rdr', s'))
    (he : ∀ msg, e ≠ .panic msg) (hm : m ≤ r.rdr.height) (hnone : ∀ i < m, fails (s.2 + i) = none)
    (hfail : fails (s.2 + m) ≠ none) (hwrap : m = 0 ∨ o + 1 < 2 ^ 64) (h' : Standing stored d rdr')
    (hkept : Within stored rdr' d ↔ ∃ Y, Kept stored d r.rdr o (r.rdr.height - m) Y ∧ Y <+: d) :
    StaysInside (memStore sha256) cs d r (outcome (exec (flaky sha256 fails) (seekTo o) r s)) ↔
      Confined stored fails d r s.2 o := by
  rw [exec_seekTo_error hrun he, outcome, StaysInside, readsFrom_iff hs h']
  constructor
  · rintro ⟨hzero, hread⟩
    simp only at hzero hread
    rw [← hzero, drop_zero, hkept] at hread
    exact .inr (.inr ⟨hoff, m, hm, hnone, hfail, hwrap, hzero.symm, hread⟩)
  · rintro (⟨heq, -⟩ | ⟨-, hall, -⟩ | ⟨-, m', -, hnone', hfail', -, hzero, hread⟩)
    · exact absurd heq hoff
    · exact absurd (hall m hm) hfail
    · obtain rfl := fails_unique hnone hfail hnone' hfail'
      refine ⟨hzero.symm, ?_⟩
      simp only
      rw [hzero, drop_zero, hkept]
      exact hread

theorem seekTo_landed_iff {rdr' : Reader} {s' : List Bytes × ℕ} {cur : ℕ} {dl Z : Bytes} (hf : Functional stored)
    (hlen : d.length < 2 ^ 63) (ho : o < 2 ^ 64) (hoff : o ≠ r.rdr.offset)
    (hrun : exec (flaky sha256 fails) (HashTreeReader.seek o) r.rdr s =
      (.ok (landing o cur rdr').1, (landing o cur rdr').2, s'))
    (hland : Landed stored r.rdr rdr' o 0 r.rdr.height 0 r.rdr.root d [] cur dl Z)
    (hnone : ∀ i ≤ r.rdr.height, fails (s.2 + i) = none) :
    StaysInside (memStore sha256) cs d r (outcome (exec (flaky sha256 fails) (seekTo o) r s)) ↔
      Confined stored fails d r s.2 o := by
  have hconf : Confined stored fails d r s.2 o ↔ o < lastLeaf d + (2 ^ 63 - 1) := by
    constructor
    · rintro (⟨heq, -⟩ | ⟨-, -, hnear⟩ | ⟨-, m, hm, -, hfail, -⟩)
      · exact absurd heq hoff
      · exact hnear
      · exact absurd (hnone m hm) hfail
    · exact fun hnear => .inr (.inl ⟨hoff, hnone, hnear⟩)
  obtain ⟨root, hpart⟩ := hland.part
  have hlt := h.bounded.height_lt
  rw [hconf, ← leaf_near_iff hf (Nat.lt_of_succ_lt hlt) h.tree hpart hland.covers, exec_seekTo_ok hrun, outcome,
    StaysInside, readsFrom_iff hs (h.landed hland)]
  constructor
  · rintro ⟨hpos, hle, hwithin⟩
    by_contra hfar
    obtain ⟨hres, hneg | hbig⟩ := landing_wraps hland.sought.fresh hland.covers.le ho hfar
    · exact absurd hwithin.pos_nonneg (not_le.mpr hneg)
    · rw [hres, int64_of_ge hbig ho] at hpos
      omega
  · intro hnear
    obtain ⟨hres, hloc, -⟩ := hland.located h.bounded h.tree.holds (by omega) hnear
    rw [hres, int64_of_lt (by omega) (by omega), Int.toNat_natCast]
    exact ⟨by omega, by omega, _, hloc.reading, prefix_refl _⟩

theorem seekTo_iff (hf : Functional stored) (hcs : s.1 = cs) (hlen : d.length < 2 ^ 63) (ho : o < 2 ^ 64)
    (hfails : ∀ i msg, fails i ≠ some (.panic msg)) :
    StaysInside (memStore sha256) cs d r (outcome (exec (flaky sha256 fails) (seekTo o) r s)) ↔
      Confined stored fails d r s.2 o := by
  by_cases hoff : o = r.rdr.offset
  · exact seekTo_early_iff hs h hlen ho hoff
  have hroot : ∀ e s', Breaks (flaky sha256 fails) stored s 0 e s' →
      exec (flaky sha256 fails) (HashTreeReader.seek o) r.rdr s = (.error e, r.rdr, s') →
      (StaysInside (memStore sha256) cs d r (outcome (exec (flaky sha256 fails) (seekTo o) r s)) ↔
        Confined stored fails d r s.2 o) := by
    intro e s' hbreak hrun
    subst hcs
    obtain ⟨-, hfail, -⟩ := flaky_breaks hs hbreak
    refine seekTo_error_iff hs hoff hrun (fun msg he => hfails _ msg (he ▸ hfail)) (Nat.zero_le _) (by simp)
      (by rw [hfail]; simp) (.inl rfl) h ?_
    rw [Nat.sub_zero]
    exact within_iff_kept h
  by_cases hlast : 0 < r.rdr.height ∧ o + 1 = 2 ^ 64
  · rcases seek_wraps (flaky_faulty _ hs) hcs h hlast.1 (Ne.symm hoff) hlast.2 with
      ⟨msg, rdr', s', hrun⟩ | ⟨e, s', hrun, -, hbreak⟩
    · rw [exec_seekTo_panic hrun, outcome, StaysInside, false_iff]
      rintro (⟨heq, -⟩ | ⟨-, -, hnear⟩ | ⟨-, m, -, -, hfail, hm | hwrap, -⟩)
      · exact hoff heq
      · have hleaf := Nat.div_mul_le_self (d.length - 1) (capacity 0)
        rw [← lastLeaf] at hleaf
        omega
      · rw [hm, Nat.add_zero] at hfail
        obtain ⟨e, he⟩ := Option.ne_none_iff_exists'.mp hfail
        rw [seek_root_fails (Ne.symm hoff) he, Prod.mk.injEq, Except.error.injEq] at hrun
        exact hfails _ msg (hrun.1 ▸ he)
      · omega
    · exact hroot e s' hbreak hrun
  rcases seek_outcome (flaky_faulty _ hs) hcs h.bounded h.tree.holds (by omega) (Ne.symm hoff) (fun hpos => by omega)
    with ⟨rdr', s', cur, dl, Z, hrun, -, hfetch, hland⟩ | ⟨e, s', hrun, -, hbreak⟩ |
      ⟨e, rdr', s', j, cur, dj, Z, hrun, -, hbreak, hhalt⟩
  · refine seekTo_landed_iff hs h hf hlen ho hoff hrun hland (fun i hi => ?_)
    exact (flaky_fetches hfetch).2 _ (Nat.le_add_right _ _) (by omega)
  · exact hroot e s' hbreak hrun
  · subst hcs
    obtain ⟨-, hfail, hnone⟩ := flaky_breaks hs hbreak
    have hj := hhalt.lt
    refine seekTo_error_iff (m := r.rdr.height - j) hs hoff hrun (fun msg he => hfails _ msg (he ▸ hfail))
      (Nat.sub_le _ _) (fun i hi => hnone _ (Nat.le_add_right _ _) (by omega)) (by rw [hfail]; simp) (.inr (by omega))
      (h.halted hhalt).1 ?_
    rw [Nat.sub_sub_self hj.le]
    exact within_halted_iff hs hf h hhalt

end Cases

end Calls

section Open

variable {room : ℕ → ℕ} {s₀ s₁ cs' : List Bytes} {bufs : List Bytes} {t : HTree} {w : Writer} {root : Hash}
  {fpath : Bytes} {r₀ : FileReader}

theorem openFile_standing (hlen : bufs.flatten.length < 2 ^ 64)
    (hwrite : exec (memStore sha256) (writeTree bufs) newWriter s₀ = (.ok t, w, s₁)) (hgrow : ∃ ws, cs = ws ++ s₁)
    (hopen : exec (memStore sha256) (openFile room root fpath) () cs = (.ok r₀, (), cs'))
    (hinj : Set.InjOn sha256 {c | c ∈ cs'}) (hroot : r₀.rdr.root = t.data) :
    Standing (Stored sha256 cs') bufs.flatten r₀.rdr := by
  obtain ⟨t', w', written, hrun, hspine, ht, -⟩ := writeTree_spine sha256 s₀ hlen
  have hsame := (hrun bufs rfl).symm.trans hwrite
  simp only [Prod.mk.injEq, Except.ok.injEq] at hsame
  obtain ⟨rfl, -, rfl⟩ := hsame
  obtain ⟨dirent, ⟨⟩, s₂, hwalk, hnew⟩ := exec_bind_eq_ok _ hopen
  split at hnew
  · simp at hnew
  obtain ⟨rdr, ⟨⟩, s₃, hreader, hdone⟩ := exec_bind_eq_ok _ hnew
  cases hdone
  have hdata : dirent.htree.data = t'.data := by
    obtain ⟨b, bs, hrdr⟩ := newReader_eq hreader
    rw [← hroot, hrdr]
    rfl
  have hstored : ∀ hash c, Stored sha256 written hash c → Stored sha256 s₂ hash c := by
    obtain ⟨ws, hws⟩ := exec_grows hwalk
    obtain ⟨ws', hws'⟩ := hgrow
    rintro hash c ⟨hc, hhash⟩
    exact ⟨by simp [hws, hws', hc], hhash⟩
  have hinj₂ := injOn_of_exec hreader hinj
  have hspine₂ := hspine.mono hstored
  obtain ⟨rdr', hnew', hr, hroot', hheight, -⟩ := newReader_spec () (serves_self hinj₂) hspine₂.holds
    (by simp only [nlevels]; omega)
  rw [hdata, hnew', Prod.mk.injEq, Prod.mk.injEq] at hreader
  obtain ⟨hrdr, -, rfl⟩ := hreader
  obtain rfl := Except.ok.inj hrdr
  refine standing_of_reading ?_ hr
  rw [hroot', show rdr'.height = t'.depth from hheight]
  exact hspine₂

end Open

/-- `Seek` on a file that has been opened, after any calls that came back and in a store that fails
now and then. -/
theorem file_seek_iff {sha256 : Bytes → Hash} {room : ℕ → ℕ} {s₀ s₁ cs cs' bufs : List Bytes} {t : HTree} {w : Writer}
    {root : Hash} {fpath : Bytes} {r₀ r : FileReader} {fails : ℕ → Option GoError} {s : List Bytes × ℕ}
    {off : Int64} {whence : ℤ} {o : ℕ} (hlen : bufs.flatten.length < 2 ^ 63)
    (hwrite : exec (memStore sha256) (writeTree bufs) newWriter s₀ = (.ok t, w, s₁))
    (hgrow : ∃ ws, cs = ws ++ s₁)
    (hopen : exec (memStore sha256) (openFile room root fpath) () cs = (.ok r₀, (), cs'))
    (hinj : Set.InjOn sha256 {c | c ∈ cs'}) (hroot : r₀.rdr.root = t.data)
    (hfails : ∀ i msg, fails i ≠ some (.panic msg))
    (hreach : Reached (flaky sha256 fails) r₀ (cs', 0) r s) (ho : r.target off whence = some o) :
    StaysInside (memStore sha256) cs' bufs.flatten r
        (outcome (exec (flaky sha256 fails) (FileReaders.seek off whence) r s)) ↔
      Confined (Stored sha256 cs') fails bufs.flatten r s.2 o := by
  have hs := serves_self hinj
  have h₀ := openFile_standing (by omega) hwrite hgrow hopen hinj hroot
  obtain ⟨hcs, hstand⟩ := hreach.standing (flaky_faulty _ hs) rfl h₀ (by omega)
  have hseek : exec (flaky sha256 fails) (FileReaders.seek off whence) r s =
      exec (flaky sha256 fails) (seekTo o) r s := by
    simp only [FileReaders.seek, exec_bind, exec_self, ho]
  rw [hseek]
  exact seekTo_iff hs hstand (functional_stored hinj) hcs hlen (target_lt ho) hfails

section Small

/-- A file of three bytes. -/
def smallEnt : DirEnt := ⟨ascii "f", 3, 0, 420, ⟨0, Hash.copy [0, 10, 20, 30]⟩⟩

def smallDir : Bytes := 0 :: encodeEnts [dotEnt 493, smallEnt]

def smallStore : List Bytes := [smallDir, [0, 10, 20, 30]]

def smallReader : FileReader :=
  ⟨0, 3, Reader.load (Reader.ofRoot (Hash.copy [0, 10, 20, 30])) 0 [0, 10, 20, 30]⟩

theorem openFile_small : exec (memStore Hash.copy) (openFile (fun _ => 64) (Hash.copy smallDir) (ascii "f")) ()
    smallStore = (.ok smallReader, (), smallStore) := by
  have hwalk : exec (memStore Hash.copy) (walk (fun _ => 64) (Hash.copy smallDir) (ascii "f")) () smallStore =
      (.ok smallEnt, (), smallStore) := by
    decide +kernel
  rw [openFile, exec_bind_ok _ hwalk]
  rfl

theorem writeTree_small : ∃ w, exec (memStore Hash.copy) (writeTree [[10, 20, 30]]) newWriter [] =
    (.ok ⟨0, Hash.copy [0, 10, 20, 30]⟩, w, [[0, 10, 20, 30]]) := ⟨_, rfl⟩

/-- `Seek(1, io.SeekStart)`. -/
theorem file_seek_one : StaysInside (memStore Hash.copy) smallStore [10, 20, 30] smallReader
    (outcome (exec (flaky Hash.copy fun _ => none) (FileReaders.seek 1 0) smallReader (smallStore, 0))) := by
  obtain ⟨w, hwrite⟩ := writeTree_small
  have hinj : Set.InjOn Hash.copy {c | c ∈ smallStore} := injOn_of_list (by decide +kernel)
  refine (file_seek_iff (show [[10, 20, 30]].flatten.length < 2 ^ 63 by decide) hwrite ⟨[smallDir], rfl⟩ openFile_small hinj
    rfl (by simp) .start rfl).mpr (.inr (.inl ⟨?_, by simp, ?_⟩))
  · decide
  · decide

/-- `Seek(-1, io.SeekStart)` returns a negative position, and later reads begin with the tag of the
leaf. -/
theorem file_seek_negative : ∃ r' s',
    exec (memStore Hash.copy) (openFile (fun _ => 64) (Hash.copy smallDir) (ascii "f")) () smallStore =
      (.ok smallReader, (), smallStore) ∧
    exec (flaky Hash.copy fun _ => none) (FileReaders.seek (-1) 0) smallReader (smallStore, 0) =
      (.ok (-1, none), r', s') ∧
    fileReads (memStore Hash.copy) [4] r' smallStore = [.ok [0, 10, 20, 30]] ∧
    ¬ StaysInside (memStore Hash.copy) smallStore [10, 20, 30] smallReader (.ok (-1, none), r') := by
  have hres : (exec (flaky Hash.copy fun _ => none) (FileReaders.seek (-1) 0) smallReader (smallStore, 0)).1 =
      .ok (-1, none) := by
    decide +kernel
  have hreads : fileReads (memStore Hash.copy) [4] (exec (flaky Hash.copy fun _ => none)
      (FileReaders.seek (-1) 0) smallReader (smallStore, 0)).2.1 smallStore = [.ok [0, 10, 20, 30]] := by
    decide +kernel
  rcases hrun : exec (flaky Hash.copy fun _ => none) (FileReaders.seek (-1) 0) smallReader (smallStore, 0)
    with ⟨res, r', s'⟩
  rw [hrun] at hres hreads
  obtain rfl : res = .ok (-1, none) := hres
  refine ⟨r', s', openFile_small, rfl, hreads, ?_⟩
  rintro ⟨hpos, -⟩
  omega

end Small

end Bpy.FileSeeks
