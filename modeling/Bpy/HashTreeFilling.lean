import Bpy.HashTreeContent

/-!
# The invariant of `htree.Writer`

Between two `Write` calls the levels of a writer hold, from the highest level in use
down to the leaf, the bytes written so far: every level above the leaf is a node whose
children are full, and the leaf takes the rest. `flushFrom_spec` says once what a flush
does to the levels; writing and closing are derived from it.
-/
namespace Bpy.HashTreeFilling
open ByteWords InteractionPrograms ContentStore HashTreeWriter HashTreeContent Method
open List hiding Chain

/-- The bytes of a level: nothing before its first entry. -/
def nodeBytes (k off : ℕ) (es : Children) : Bytes :=
  if es = [] then [] else tag k :: encodeEntries off es

/-- The `n` levels above level `k` hold the bytes `A`, in nodes with full children. -/
def Levels (stored : Hash → Bytes → Prop) (lvls : ℕ → Bytes) : ℕ → ℕ → Bytes → Prop
  | 0, _, A => A = []
  | n + 1, k, A => ∃ B es, A = B ++ contents es ∧ lvls (k + 1) = nodeBytes (k + 1) B.length es ∧
      es.length ≤ fanout ∧ (es = [] → B = []) ∧ Chain (Full stored k) B.length es ∧
      Levels stored lvls n (k + 1) B

section Levels

variable {stored stored' : Hash → Bytes → Prop} {lvls lvls' : ℕ → Bytes} {n k : ℕ} {A : Bytes}

theorem Levels.mono (hst : ∀ h c, stored h c → stored' h c) (h : Levels stored lvls n k A) :
    Levels stored' lvls n k A := by
  induction n generalizing k A with
  | zero => exact h
  | succ n ih =>
    obtain ⟨B, es, hA, hlvl, hlen, hnil, hc, hl⟩ := h
    exact ⟨B, es, hA, hlvl, hlen, hnil, hc.mono (fun _ _ _ hf => hf.mono hst), ih hl⟩

theorem Levels.congr (hlvls : ∀ i, k < i → lvls' i = lvls i) (h : Levels stored lvls n k A) :
    Levels stored lvls' n k A := by
  induction n generalizing k A with
  | zero => exact h
  | succ n ih =>
    obtain ⟨B, es, hA, hlvl, hlen, hnil, hc, hl⟩ := h
    refine ⟨B, es, hA, by rw [hlvls _ (by omega), hlvl], hlen, hnil, hc, ih ?_ hl⟩
    exact fun i hi => hlvls i (by omega)

theorem levels_nil (n k : ℕ) (h : ∀ i, k < i → lvls i = []) : Levels stored lvls n k [] := by
  induction n generalizing k with
  | zero => rfl
  | succ n ih =>
    exact ⟨[], [], rfl, by simpa [nodeBytes] using h (k + 1) (by omega), by simp, fun _ => rfl,
      trivial, ih (k + 1) (fun i hi => h i (by omega))⟩

variable (h : Levels stored lvls n k A)
include h

theorem Levels.capacity_le (hA : A ≠ []) : capacity k ≤ A.length := by
  induction n generalizing k A with
  | zero => exact absurd h hA
  | succ n ih =>
    obtain ⟨B, es, rfl, hlvl, hlen, hnil, hc, hl⟩ := h
    cases es with
    | nil => simp [hnil rfl] at hA
    | cons e es =>
      simp only [length_append, length_contents_full hc, length_cons, Nat.succ_mul]
      omega

theorem Levels.capacity_le_of_used {j : ℕ} (hk : k ≤ j)
    (hj : j < k + n) (hne : lvls (j + 1) ≠ []) : capacity j ≤ A.length := by
  induction n generalizing k A with
  | zero => omega
  | succ n ih =>
    rcases Nat.eq_or_lt_of_le hk with rfl | hlt
    · refine h.capacity_le ?_
      obtain ⟨B, es, rfl, hlvl, hlen, hnil, hc, hl⟩ := h
      obtain ⟨e, es, rfl⟩ : ∃ e fs, es = e :: fs := by
        apply exists_cons_of_ne_nil
        rintro rfl
        exact hne (by simp [hlvl, nodeBytes])
      simp [hc.1.ne_nil]
    · obtain ⟨B, es, rfl, hlvl, hlen, hnil, hc, hl⟩ := h
      have hB := ih hl hlt (by omega)
      simp only [length_append]
      omega

theorem Levels.length_le {t : ℕ} (hkt : k ≤ t)
    (ht : ∀ i, t < i → i ≤ k + n → lvls i = []) : A.length + 2 * capacity k ≤ 2 * capacity t := by
  induction n generalizing k A with
  | zero =>
    have := capacity_strictMono.monotone hkt
    simp only [show A = [] from h, length_nil]
    omega
  | succ n ih =>
    obtain ⟨B, es, rfl, hlvl, hlen, hnil, hc, hl⟩ := h
    have hmono := capacity_strictMono.monotone hkt
    by_cases hes : es = []
    · simp only [hes, hnil hes, contents_nil, append_nil, length_nil]
      omega
    · have hlt : k + 1 ≤ t := by
        by_contra hcon
        have hempty := ht (k + 1) (by omega) (by omega)
        simp [hlvl, nodeBytes, hes] at hempty
      have hB := ih hl hlt (fun i hi hi' => ht i hi (by omega))
      have hmul : es.length * capacity k ≤ fanout * capacity k := Nat.mul_le_mul_right _ hlen
      have hpos := capacity_pos k
      simp only [length_append, length_contents_full hc]
      simp only [capacity] at hB
      simp only [fanout] at hB hmul
      omega

end Levels

section Flush

variable (sha256 : Bytes → Hash)

/-- Level `l` is a chunk that becomes a tree with the data `X` when it is put, and the
entry for it will carry the offset `A.length`. -/
structure Ready (s : List Bytes) (w : Writer) (l : ℕ) (A X : Bytes) : Prop where
  spine : Spine (Stored sha256 (w.lvls l :: s)) l A.length (sha256 (w.lvls l)) X
  entry : (if l = 0 then leBytes 8 w.offset else ((w.lvls l).drop 1).take 8) = leBytes 8 A.length

/-- What a flush of level `l` leaves behind: the flushed tree with the data `X` is the
last child of the level above, everything below `l` is as before. -/
structure Flushed (s : List Bytes) (w w' : Writer) (n l : ℕ) (A X B : Bytes) (es : Children)
    (h : Hash) : Prop where
  data : A = B ++ contents es
  above : w'.lvls (l + 1) = tag (l + 1) :: encodeEntries B.length (es ++ [(h, X)])
  length_lt : es.length < fanout
  chain : Chain (Full (Stored sha256 s) l) B.length es
  last : Spine (Stored sha256 s) l A.length h X
  levels : Levels (Stored sha256 s) w'.lvls n (l + 1) B
  reset : w'.lvls l = [tag l]
  below : ∀ i, i < l → w'.lvls i = w.lvls i
  offset : w'.offset = if l = 0 then (w.offset + (w.nbytes 0 - 1)) % 2 ^ 64 else w.offset

variable {sha256} {l : ℕ} {es : Children} {h : Hash}

theorem Ready.of_children {s : List Bytes} {w : Writer} {B X : Bytes}
    (hlvl : w.lvls (l + 1) = tag (l + 1) :: encodeEntries B.length (es ++ [(h, X)]))
    (hlen : es.length < fanout) (hc : Chain (Full (Stored sha256 s) l) B.length es)
    (hlast : Spine (Stored sha256 s) l (B ++ contents es).length h X) (hX : X ≠ []) :
    Ready sha256 s w (l + 1) B (contents es ++ X) := by
  have hst : ∀ h c, Stored sha256 s h c → Stored sha256 (w.lvls (l + 1) :: s) h c := fun _ _ hs => hs.append [_]
  rw [length_append] at hlast
  constructor
  · exact ⟨es, h, X, rfl, hX, hlen, hlvl ▸ Stored.head _, hc.mono fun _ _ _ hf => hf.mono hst, hlast.mono hst⟩
  · cases es <;> simp [hlvl, encodeEntries]

theorem Ready.of_full {s : List Bytes} {w : Writer} {B : Bytes}
    (hlvl : w.lvls (l + 1) = tag (l + 1) :: encodeEntries B.length es) (hne : es ≠ []) (hlen : es.length ≤ fanout)
    (hc : Chain (Full (Stored sha256 s) l) B.length es) : Ready sha256 s w (l + 1) B (contents es) := by
  obtain ⟨front, last, rfl⟩ := exists_last hne
  obtain ⟨hfront, hlast⟩ := chain_append.mp hc
  have hlast := (chain_singleton _ _).mp hlast
  rw [← length_append] at hlast
  rw [length_append, length_singleton] at hlen
  have hready := Ready.of_children hlvl (by omega) hfront hlast.spine hlast.ne_nil
  simpa using hready

private theorem addEntry_above (w : Writer) (l : ℕ) (h : Hash) : (w.addEntry l h).lvls (l + 1) =
    (if w.nbytes (l + 1) = 0 then [tag (l + 1)] else w.lvls (l + 1)) ++
      (if l = 0 then leBytes 8 w.offset else ((w.lvls l).drop 1).take 8) ++ h.bytes := by
  simp [Writer.addEntry, Writer.setLvl]

private theorem addEntry_same (w : Writer) (l : ℕ) (h : Hash) :
    (w.addEntry l h).lvls l = [tag l] := by simp [Writer.addEntry, Writer.setLvl]

private theorem addEntry_other (w : Writer) {i : ℕ} (h : Hash) (hi : i ≠ l) (hi' : i ≠ l + 1) :
    (w.addEntry l h).lvls i = w.lvls i := by simp [Writer.addEntry, Writer.setLvl, hi, hi']

theorem addEntry_flushed {s : List Bytes} {w : Writer} {n : ℕ} {A X B : Bytes}
    (hA : A = B ++ contents es)
    (hlvl : (if w.nbytes (l + 1) = 0 then [tag (l + 1)] else w.lvls (l + 1)) =
      tag (l + 1) :: encodeEntries B.length es)
    (hlen : es.length < fanout) (hc : Chain (Full (Stored sha256 s) l) B.length es)
    (hlast : Spine (Stored sha256 s) l A.length h X)
    (hentry : (if l = 0 then leBytes 8 w.offset else ((w.lvls l).drop 1).take 8) = leBytes 8 A.length)
    (hl : Levels (Stored sha256 s) w.lvls n (l + 1) B) :
    Flushed sha256 s w (w.addEntry l h) n l A X B es h where
  data := hA
  above := by
    rw [addEntry_above, hlvl, hentry, encodeEntries_append, hA]
    simp [encodeEntries]
  length_lt := hlen
  chain := hc
  last := hlast
  levels := hl.congr (fun i hi => addEntry_other w h (by omega) (by omega))
  reset := addEntry_same w l h
  below := fun i hi => addEntry_other w h (by omega) (by omega)
  offset := rfl

theorem Flushed.of_base {s : List Bytes} {w w₁ w' : Writer} {n : ℕ} {A X B : Bytes}
    (hf : Flushed sha256 s w₁ w' n l A X B es h) (hsame : ∀ i, i ≤ l → w₁.lvls i = w.lvls i)
    (hoff : w₁.offset = w.offset) : Flushed sha256 s w w' n l A X B es h :=
  { hf with
    below := fun i hi => (hf.below i hi).trans (hsame i hi.le)
    offset := by rw [hf.offset, hoff, Writer.nbytes, Writer.nbytes, hsame 0 (Nat.zero_le l)] }

theorem Flushed.levels_of_full {s : List Bytes} {w w' : Writer} {n : ℕ} {A X B : Bytes}
    (hf : Flushed sha256 s w w' n l A X B es h)
    (hX : X.length = capacity l) : Levels (Stored sha256 s) w'.lvls (n + 1) l (A ++ X) := by
  refine ⟨B, es ++ [(h, X)], ?_, ?_, ?_, by simp, ?_, hf.levels⟩
  · simp [hf.data]
  · rw [hf.above, nodeBytes, if_neg (by simp)]
  · have := hf.length_lt
    simp only [length_append, length_singleton]
    omega
  · refine chain_append.mpr ⟨hf.chain, (chain_singleton _ _).mpr ⟨?_, hX⟩⟩
    rw [← length_append, ← hf.data]
    exact hf.last.holds

private theorem exec_flushFrom_room {n : ℕ} {w : Writer} (s : List Bytes)
    (h : ¬ maxlen - w.nbytes (l + 1) < 8 + 32) :
    exec (memStore sha256) (flushFrom (n + 1) l) w s = (.ok (), w.addEntry l (sha256 (w.lvls l)), w.lvls l :: s) := by
  simp [flushFrom, exec_bind, h, memStore]

private theorem exec_flushFrom_full {n : ℕ} {w w' : Writer} {s s' : List Bytes}
    (h : maxlen - w.nbytes (l + 1) < 8 + 32)
    (hrec : exec (memStore sha256) (flushFrom n (l + 1)) w (w.lvls l :: s) = (.ok (), w', s')) :
    exec (memStore sha256) (flushFrom (n + 1) l) w s = (.ok (), w'.addEntry l (sha256 (w.lvls l)), s') := by
  simp [flushFrom, exec_bind, h, memStore, hrec]

private theorem room_iff {w : Writer} {off : ℕ}
    (hlvl : w.lvls (l + 1) = nodeBytes (l + 1) off es) (hlen : es.length ≤ fanout) :
    maxlen - w.nbytes (l + 1) < 8 + 32 ↔ es.length = fanout := by
  simp only [Writer.nbytes, hlvl, nodeBytes, maxlen]
  simp only [fanout] at hlen ⊢
  split
  · next h => simp [h]
  · simp only [length_cons, length_encodeEntries]
    omega

private theorem flushFrom_room {n : ℕ} {w : Writer} {s s₀ : List Bytes} {A X B : Bytes}
    (hr : Ready sha256 s w l A X) (hA : A = B ++ contents es)
    (hlvl : w.lvls (l + 1) = nodeBytes (l + 1) B.length es) (hlen : es.length < fanout)
    (hc : Chain (Full (Stored sha256 s) l) B.length es)
    (hl : Levels (Stored sha256 s) w.lvls n (l + 1) B) :
    ∃ w' ws B es, exec (memStore sha256) (flushFrom (n + 1) l) w (s ++ s₀) =
      (.ok (), w', ws ++ s ++ s₀) ∧ Flushed sha256 (ws ++ s) w w' n l A X B es (sha256 (w.lvls l)) := by
  have hst : ∀ h c, Stored sha256 s h c → Stored sha256 ([w.lvls l] ++ s) h c := fun _ _ hs => hs.append _
  have hroom : ¬ maxlen - w.nbytes (l + 1) < 8 + 32 := by
    rw [room_iff hlvl hlen.le]
    omega
  refine ⟨_, [w.lvls l], B, es, exec_flushFrom_room (s ++ s₀) hroom, addEntry_flushed hA ?_ hlen
    (hc.mono fun _ _ _ hf => hf.mono hst) hr.spine hr.entry (hl.mono hst)⟩
  by_cases hes : es = []
  · simp [Writer.nbytes, hlvl, hes, nodeBytes, encodeEntries]
  · simp [Writer.nbytes, hlvl, hes, nodeBytes]

/-- A flush, whatever the fill of the levels above. When the level above is full it is
flushed first: everything above `l` then moves one level up, and the level above starts
again with the flushed tree as its only child. The older chunks `s₀` play no part. -/
theorem flushFrom_spec (s₀ : List Bytes) {n : ℕ} {w : Writer} {s : List Bytes} {A X : Bytes}
    (hn : n + 1 + l = nlevels - 1) (hr : Ready sha256 s w l A X)
    (hl : Levels (Stored sha256 s) w.lvls (n + 1) l A) (hb : A.length < 2 ^ 64) :
    ∃ w' ws B es, exec (memStore sha256) (flushFrom (n + 1) l) w (s ++ s₀) =
      (.ok (), w', ws ++ s ++ s₀) ∧ Flushed sha256 (ws ++ s) w w' n l A X B es (sha256 (w.lvls l)) := by
  induction n generalizing l w s A X with
  | zero =>
    obtain ⟨B, es, hA, hlvl, hlen, hnil, hc, hl⟩ := hl
    -- the level above is the last one, which no stream of 64-bit length can fill
    refine flushFrom_room hr hA hlvl (lt_of_le_of_ne hlen fun hfull => ?_) hc hl
    have hcap : capacity (l + 1) ≤ A.length := by
      simp only [hA, length_append, length_contents_full hc, hfull, capacity]
      omega
    have := depth_lt_of_capacity_lt (hcap.trans_lt hb)
    simp only [nlevels] at hn
    omega
  | succ n ih =>
    obtain ⟨B, es, hA, hlvl, hlen, hnil, hc, hl⟩ := hl
    rcases hlen.lt_or_eq with hlt | hfull
    · exact flushFrom_room hr hA hlvl hlt hc hl
    · have hne : es ≠ [] := by
        rintro rfl
        simp [fanout] at hfull
      have hst : ∀ h c, Stored sha256 s h c → Stored sha256 ([w.lvls l] ++ s) h c := fun _ _ hs => hs.append _
      have hr' : Ready sha256 ([w.lvls l] ++ s) w (l + 1) B (contents es) :=
        Ready.of_full (by rw [hlvl, nodeBytes, if_neg hne]) hne hlen (hc.mono fun _ _ _ hf => hf.mono hst)
      have hB : B.length < 2 ^ 64 := by
        simp only [hA, length_append] at hb
        omega
      obtain ⟨w₁, ws, B₁, es₁, hrun, hf⟩ := ih (by omega) hr' (hl.mono hst) hB
      have hstw : ∀ h c, Stored sha256 ([w.lvls l] ++ s) h c →
          Stored sha256 (ws ++ ([w.lvls l] ++ s)) h c := fun _ _ hs => hs.append _
      have hup : Levels (Stored sha256 (ws ++ ([w.lvls l] ++ s))) w₁.lvls (n + 1) (l + 1) A := by
        rw [hA]
        exact hf.levels_of_full (by rw [length_contents_full hc, hfull, capacity])
      have hoff : w₁.offset = w.offset := by simpa using hf.offset
      refine ⟨w₁.addEntry l (sha256 (w.lvls l)), ws ++ [w.lvls l], A, [],
        by simpa using exec_flushFrom_full ((room_iff hlvl hlen).mpr hfull) hrun, ?_⟩
      have hsame : ∀ i, i ≤ l → w₁.lvls i = w.lvls i := fun i hi => hf.below i (by omega)
      refine Flushed.of_base (addEntry_flushed ?_ ?_ ?_ ?_ ?_ ?_ ?_) hsame hoff
      · simp
      · simp [Writer.nbytes, hf.reset, encodeEntries]
      · simp [fanout]
      · trivial
      · rw [append_assoc]
        exact hr.spine.mono hstw
      · rw [hoff, hsame l le_rfl]
        exact hr.entry
      · rw [append_assoc]
        exact hup

end Flush

section Write

variable (sha256 : Bytes → Hash)

/-- The writer has taken the bytes `A ++ L`, of which `L` are still in the leaf. -/
structure Filling (s : List Bytes) (w : Writer) (A L : Bytes) : Prop where
  leaf : w.lvls 0 = 0 :: L
  length_lt : L.length < maxlen
  offset : w.offset = A.length
  nil : L = [] → A = []
  levels : Levels (Stored sha256 s) w.lvls (nlevels - 1) 0 A

theorem filling_newWriter (s : List Bytes) : Filling sha256 s newWriter [] [] where
  leaf := rfl
  length_lt := by simp [maxlen]
  offset := rfl
  nil := fun _ => rfl
  levels := levels_nil _ 0 (fun i hi => by simp [newWriter, Nat.pos_iff_ne_zero.mp hi])

variable {sha256} {s : List Bytes} {w : Writer} {A L : Bytes}

theorem Filling.ready (hw : Filling sha256 s w A L) : Ready sha256 s w 0 A L where
  spine := ⟨by rw [hw.leaf]; exact Stored.head _, hw.length_lt⟩
  entry := by simp [hw.offset]

private theorem exec_writeByte_full {w' : Writer} {s' : List Bytes} (b : UInt8) (h : maxlen - w.nbytes 0 = 0)
    (hrun : exec (memStore sha256) (flushLvl 0) w s = (.ok (), w', s')) :
    exec (memStore sha256) (writeByte b) w s = (.ok (), w'.setLvl 0 [0, b], s') := by
  simp [writeByte, exec_bind, h, hrun, Writer.setLvl]

private theorem exec_writeByte_room (s : List Bytes) (b : UInt8) (h : maxlen - w.nbytes 0 ≠ 0) :
    exec (memStore sha256) (writeByte b) w s = (.ok (), w.setLvl 0 (w.lvls 0 ++ [b]), s) := by
  simp [writeByte, exec_bind, h]

private theorem levels_setLvl {n : ℕ} (buf : Bytes) (hl : Levels (Stored sha256 s) w.lvls n 0 A) :
    Levels (Stored sha256 s) (w.setLvl 0 buf).lvls n 0 A :=
  hl.congr (fun i hi => Writer.setLvl_other w buf (by omega))

theorem writeByte_spec (s₀ : List Bytes) (b : UInt8) (hw : Filling sha256 s w A L) (hb : (A ++ L).length < 2 ^ 64) :
    ∃ w' ws A' L', exec (memStore sha256) (writeByte b) w (s ++ s₀) =
      (.ok (), w', ws ++ s ++ s₀) ∧ A' ++ L' = A ++ L ++ [b] ∧ Filling sha256 (ws ++ s) w' A' L' := by
  have hlen := hw.length_lt
  have hnb : w.nbytes 0 = L.length + 1 := by simp [Writer.nbytes, hw.leaf]
  simp only [length_append] at hb
  by_cases hfull : maxlen - w.nbytes 0 = 0
  · obtain ⟨w', ws, B, es, hrun, hf⟩ := flushFrom_spec s₀ (n := 8) rfl hw.ready hw.levels (by omega)
    refine ⟨w'.setLvl 0 [0, b], ws, A ++ L, [b], exec_writeByte_full b hfull hrun, rfl, ?_⟩
    constructor
    · exact Writer.setLvl_same _ _ _
    · simp [maxlen]
    · rw [Writer.setLvl_offset, hf.offset, if_pos rfl, hw.offset, hnb, Nat.add_sub_cancel,
        Nat.mod_eq_of_lt hb, length_append]
    · simp
    · exact levels_setLvl _ (hf.levels_of_full (by simp only [capacity, maxlen] at *; omega))
  · refine ⟨w.setLvl 0 (w.lvls 0 ++ [b]), [], A, L ++ [b], exec_writeByte_room (s ++ s₀) b hfull, by simp, ?_⟩
    constructor
    · simp [hw.leaf]
    · simp only [length_append, length_singleton]
      omega
    · exact hw.offset
    · simp
    · exact levels_setLvl _ hw.levels

theorem writeBytes_spec (s₀ : List Bytes) (xs : Bytes) (hw : Filling sha256 s w A L)
    (hb : (A ++ L ++ xs).length ≤ 2 ^ 64) :
    ∃ w' ws A' L', exec (memStore sha256) (writeBytes xs) w (s ++ s₀) =
      (.ok (), w', ws ++ s ++ s₀) ∧ A' ++ L' = A ++ L ++ xs ∧ Filling sha256 (ws ++ s) w' A' L' := by
  induction xs generalizing s w A L with
  | nil => exact ⟨w, [], A, L, rfl, by simp, hw⟩
  | cons b xs ih =>
    simp only [length_append, length_cons] at hb
    obtain ⟨w₁, ws₁, A₁, L₁, hrun₁, hd₁, hw₁⟩ := writeByte_spec s₀ b hw (by simp; omega)
    obtain ⟨w₂, ws₂, A₂, L₂, hrun₂, hd₂, hw₂⟩ := ih hw₁ (by rw [hd₁]; simp; omega)
    refine ⟨w₂, ws₂ ++ ws₁, A₂, L₂, ?_, ?_, ?_⟩
    · rw [writeBytes, exec_bind_ok _ hrun₁, hrun₂]
      simp only [append_assoc]
    · rw [hd₂, hd₁]
      simp
    · rw [append_assoc]
      exact hw₂

end Write

end Bpy.HashTreeFilling
