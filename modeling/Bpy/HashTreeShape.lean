import Bpy.HashTreeRoundTrip
import Bpy.ProgramLogic

/-!
# The shape of a hash tree

A closed tree is packed from the left: off its right edge every leaf and every node is
full. Whatever the store answers, no chunk that the writer puts is longer than `maxlen`.
-/
namespace Bpy.HashTreeShape
open ByteWords InteractionPrograms ContentStore ProgramLogic HashTreeWriter HashTreeContent HashTreeRoundTrip
open List hiding Chain get

/-- The offsets at which the data of the children starts. -/
def childOffsets : ℕ → Children → List ℕ
  | _, [] => []
  | off, e :: es => off :: childOffsets (off + e.2.length) es

/-- `P` holds of all children but the last one, and `Last` of the last one. -/
def ChainLast (P Last : ℕ → Hash → Bytes → Prop) : ℕ → Children → Prop
  | _, [] => False
  | off, [e] => Last off e.1 e.2
  | off, e :: e' :: es => P off e.1 e.2 ∧ ChainLast P Last (off + e.2.length) (e' :: es)

/-- The tree with the hash `h` holds `d` from offset `off` on, and a chunk of level `k` has
the tag `k`. Off the right edge, where `edge` is false, every leaf has 65534 bytes and every
node 1638 entries. -/
def Shaped (stored : Hash → Bytes → Prop) : Bool → ℕ → ℕ → Hash → Bytes → Prop
  | edge, 0, _, h, d => stored h (0 :: d) ∧ d.length ≤ 65534 ∧ (edge = false → d.length = 65534)
  | edge, k + 1, off, h, d => ∃ es, stored h (tag (k + 1) :: encodeEntries off es) ∧ contents es = d ∧
      es.length ≤ 1638 ∧ (edge = false → es.length = 1638) ∧ (childOffsets off es).Pairwise (· < ·) ∧
      ChainLast (Shaped stored false k) (Shaped stored edge k) off es

/-- A root above the leaves has at least two entries. -/
def RootShaped (stored : Hash → Bytes → Prop) : ℕ → Hash → Bytes → Prop
  | 0, h, d => Shaped stored true 0 0 h d
  | k + 1, h, d => ∃ es, stored h (tag (k + 1) :: encodeEntries 0 es) ∧ contents es = d ∧
      2 ≤ es.length ∧ es.length ≤ 1638 ∧ (childOffsets 0 es).Pairwise (· < ·) ∧
      ChainLast (Shaped stored false k) (Shaped stored true k) 0 es

section Shape

variable {stored : Hash → Bytes → Prop} {k off : ℕ} {h : Hash} {d : Bytes} {es : Children}

theorem le_of_mem_childOffsets {x : ℕ} (hx : x ∈ childOffsets off es) : off ≤ x := by
  induction es generalizing off with
  | nil => simp [childOffsets] at hx
  | cons e es ih =>
    rcases mem_cons.mp hx with rfl | hx
    · exact le_rfl
    · have := ih hx
      omega

theorem childOffsets_increase (hne : ∀ e ∈ es, e.2 ≠ []) : (childOffsets off es).Pairwise (· < ·) := by
  induction es generalizing off with
  | nil => exact List.Pairwise.nil
  | cons e es ih =>
    have hpos := length_pos_of_ne_nil (hne e mem_cons_self)
    apply List.Pairwise.cons
    · intro x hx
      have := le_of_mem_childOffsets hx
      omega
    · exact ih (fun x hx => hne x (mem_cons_of_mem e hx))

theorem Chain.ne_nil (hc : Chain (Full stored k) off es) : ∀ e ∈ es, e.2 ≠ [] := by
  induction es generalizing off with
  | nil => simp
  | cons e es ih =>
    intro x hx
    rcases mem_cons.mp hx with rfl | hx
    · exact hc.1.ne_nil
    · exact ih hc.2 x hx

theorem chainLast_append {P Last : ℕ → Hash → Bytes → Prop} {last : Hash} {X : Bytes} (hc : Chain P off es)
    (hlast : Last (off + (contents es).length) last X) : ChainLast P Last off (es ++ [(last, X)]) := by
  induction es generalizing off with
  | nil => simpa [ChainLast] using hlast
  | cons e es ih =>
    have hrest := ih hc.2 (by simpa [Nat.add_assoc] using hlast)
    cases es with
    | nil => exact ⟨hc.1, hrest⟩
    | cons e' es => exact ⟨hc.1, hrest⟩

theorem spine_entries {last : Hash} {X : Bytes} (hX : X ≠ []) (hc : Chain (Full stored k) off es) :
    (childOffsets off (es ++ [(last, X)])).Pairwise (· < ·) := by
  apply childOffsets_increase
  intro e he
  rcases mem_append.mp he with he | he
  · exact Chain.ne_nil hc e he
  · rw [mem_singleton.mp he]
    exact hX

theorem Full.shaped (hf : Full stored k off h d) : Shaped stored false k off h d := by
  induction k generalizing off h d with
  | zero =>
    have hlen := hf.2
    simp only [capacity, maxlen] at hlen
    exact ⟨hf.1.1, by omega, fun _ => by omega⟩
  | succ k ih =>
    obtain ⟨es, hlen, rfl, hs, hc⟩ := hf.children
    refine ⟨es, hs, rfl, hlen.le, fun _ => hlen, childOffsets_increase (Chain.ne_nil hc), ?_⟩
    obtain ⟨front, last, rfl⟩ := exists_last (show es ≠ [] by
      rintro rfl
      simp [fanout] at hlen)
    obtain ⟨hfront, hlast⟩ := chain_append.mp (hc.mono fun _ _ _ he => ih he)
    exact chainLast_append hfront ((chain_singleton _ _).mp hlast)

theorem Spine.shaped (hh : Spine stored k off h d) : Shaped stored true k off h d := by
  induction k generalizing off h d with
  | zero =>
    have hlen := hh.2
    simp only [maxlen] at hlen
    exact ⟨hh.1, by omega, by simp⟩
  | succ k ih =>
    obtain ⟨es, last, X, rfl, hX, hlen, hs, hc, hlast⟩ := hh
    refine ⟨es ++ [(last, X)], hs, by simp, ?_, by simp, spine_entries hX hc, ?_⟩
    · rw [length_append, length_singleton]
      exact hlen
    · exact chainLast_append (hc.mono fun _ _ _ he => Full.shaped he) (ih hlast)

theorem Spine.rootShaped (hh : Spine stored k 0 h d) (hcap : ∀ j, k = j + 1 → capacity j < d.length) :
    RootShaped stored k h d := by
  cases k with
  | zero => exact Spine.shaped hh
  | succ k =>
    obtain ⟨es, last, X, rfl, hX, hlen, hs, hc, hlast⟩ := hh
    refine ⟨es ++ [(last, X)], hs, by simp, ?_, ?_, spine_entries hX hc, ?_⟩
    · -- a single child would hold all the bytes
      have hpos : es ≠ [] := by
        rintro rfl
        have hlt := hcap k rfl
        have hle := hlast.holds.length_le
        simp only [contents_nil, nil_append] at hlt
        omega
      have := length_pos_of_ne_nil hpos
      rw [length_append, length_singleton]
      omega
    · rw [length_append, length_singleton]
      exact hlen
    · exact chainLast_append (hc.mono fun _ _ _ he => Full.shaped he) (Spine.shaped hlast)

end Shape

section Puts

/-- A store that may answer anything. -/
def anyStore : Unit → (q : StoreRequest) → q.Response → Unit → Prop := fun _ _ _ _ => True

/-- A request that puts a chunk of at most `maxlen` bytes. -/
def ShortPut : Unit → StoreRequest → Prop
  | _, .put data => data.length ≤ maxlen
  | _, .get _ => True

/-- Every level fits its buffer. -/
def LevelsFit (w : Writer) : Prop := ∀ i, w.nbytes i ≤ maxlen

/-- The method puts short chunks only, and leaves levels that fit. -/
def Short {α : Type} (x : WriterM α) (P : Writer → Prop) (w : Writer) : Prop :=
  Method.wp anyStore ShortPut x (Method.onOk fun _ w' _ => LevelsFit w' ∧ P w') w ()

variable {α β : Type} {w : Writer}

theorem Short.bind {x : WriterM α} {f : α → WriterM β} {P P' : Writer → Prop} (hx : Short x P w)
    (hf : ∀ a w', LevelsFit w' → P w' → Short (f a) P' w') : Short (x >>= f) P' w :=
  Method.wp_seq_ok hx (fun a w' _ h => hf a w' h.1 h.2)

theorem short_self {f : Writer → WriterM β} {P : Writer → Prop} (h : Short (f w) P w) :
    Short (Method.self >>= f) P w := h

theorem short_update {g : Writer → Writer} {P : Writer → Prop} (hfit : LevelsFit (g w)) (hP : P (g w)) :
    Short (Method.update g) P w := ⟨hfit, hP⟩

theorem short_put (hw : LevelsFit w) {data : Bytes} (hdata : data.length ≤ maxlen) : Short (put data) (· = w) w := by
  apply Method.wp_send_ok (G := ShortPut) (q := .put data) hdata
  intro _ _ _ _ _
  exact ⟨hw, rfl⟩

theorem addEntry_fits (hw : LevelsFit w) {lvl : ℕ} (hash : Hash) (hroom : w.nbytes (lvl + 1) + 40 ≤ maxlen) :
    LevelsFit (w.addEntry lvl hash) ∧ (w.addEntry lvl hash).nbytes lvl = 1 := by
  have hsame : (w.addEntry lvl hash).nbytes lvl = 1 := by
    simp [Writer.nbytes, Writer.addEntry, Writer.setLvl]
  refine ⟨?_, hsame⟩
  intro i
  rcases eq_or_ne i lvl with rfl | hi
  · rw [hsame]
    decide
  · rcases eq_or_ne i (lvl + 1) with rfl | hi'
    · have hlen : (w.addEntry lvl hash).nbytes (lvl + 1) =
          ((if w.nbytes (lvl + 1) = 0 then [UInt8.ofNat (lvl + 1)] else w.lvls (lvl + 1)) ++
            (if lvl = 0 then leBytes 8 w.offset else ((w.lvls lvl).drop 1).take 8) ++ hash.bytes).length := by
        simp [Writer.nbytes, Writer.addEntry, Writer.setLvl]
      have hoff : (if lvl = 0 then leBytes 8 w.offset else ((w.lvls lvl).drop 1).take 8).length ≤ 8 := by
        split
        · simp
        · exact length_take_le _ _
      have habove : (if w.nbytes (lvl + 1) = 0 then [UInt8.ofNat (lvl + 1)] else
          w.lvls (lvl + 1)).length ≤ max 1 (w.nbytes (lvl + 1)) := by
        split
        · simp
        · exact le_max_right _ _
      rw [hlen, length_append, length_append, hash.length_bytes]
      simp only [maxlen] at hroom ⊢
      omega
    · have hother : (w.addEntry lvl hash).nbytes i = w.nbytes i := by
        simp [Writer.nbytes, Writer.addEntry, Writer.setLvl, hi, hi']
      rw [hother]
      exact hw i

theorem flushFrom_short (n lvl : ℕ) (hw : LevelsFit w) : Short (flushFrom n lvl) (fun w' => w'.nbytes lvl = 1) w := by
  induction n generalizing lvl w with
  | zero =>
    apply short_self
    apply (short_put hw (hw lvl)).bind
    intro _ _ _ _
    trivial
  | succ n ih =>
    apply short_self
    apply (short_put hw (hw lvl)).bind
    intro hash w₁ _ hw₁
    subst hw₁
    have hentry : ∀ w₂, LevelsFit w₂ → w₂.nbytes (lvl + 1) + 40 ≤ maxlen →
        Short (Method.update (fun w => w.addEntry lvl hash)) (fun w' => w'.nbytes lvl = 1) w₂ := by
      intro w₂ hw₂ hroom
      obtain ⟨hfit, hone⟩ := addEntry_fits hw₂ hash hroom
      exact short_update hfit hone
    -- the level above has room for an entry, if need be because it has been flushed
    dsimp only
    split
    · apply (ih (lvl + 1) hw).bind
      intro _ w₂ hw₂ hone
      apply hentry w₂ hw₂
      rw [hone]
      decide
    · next hroom =>
      apply hentry w₁ hw
      simp only [maxlen] at hroom ⊢
      omega

theorem setLvl_fits (hw : LevelsFit w) (lvl : ℕ) {buf : Bytes} (hbuf : buf.length ≤ maxlen) :
    LevelsFit (w.setLvl lvl buf) := by
  intro i
  rcases eq_or_ne i lvl with rfl | hi
  · simpa [Writer.nbytes] using hbuf
  · simpa [Writer.nbytes, hi] using hw i

theorem writeLoop_short (rounds : ℕ) (buf : Bytes) (hw : LevelsFit w) :
    Short (writeLoop rounds buf) (fun _ => True) w := by
  induction rounds generalizing buf w with
  | zero => trivial
  | succ rounds ih =>
    rw [writeLoop]
    split
    · exact ⟨hw, trivial⟩
    · apply short_self
      dsimp only
      split
      · apply (flushFrom_short _ 0 hw).bind
        intro _ w₁ hw₁ _
        apply Short.bind (short_update (P := fun _ => True) (setLvl_fits hw₁ 0 (by decide)) trivial)
        intro _ w₂ hw₂ _
        exact ih buf hw₂
      · have hfit : (w.lvls 0 ++ buf.take (min buf.length (maxlen - w.nbytes 0))).length ≤ maxlen := by
          have hle : (w.lvls 0).length ≤ maxlen := hw 0
          simp only [length_append, length_take, Writer.nbytes]
          omega
        apply Short.bind (short_update (P := fun _ => True) (setLvl_fits hw 0 hfit) trivial)
        intro _ w₂ hw₂ _
        exact ih _ hw₂

theorem writeAll_short (bufs : List Bytes) (hw : LevelsFit w) : Short (writeAll bufs) (fun _ => True) w := by
  induction bufs generalizing w with
  | nil => exact ⟨hw, trivial⟩
  | cons buf bufs ih =>
    have hwrite : Short (write buf) (fun _ => True) w := by
      apply (writeLoop_short _ buf hw).bind
      intro _ w₁ hw₁ _
      exact ⟨hw₁, trivial⟩
    apply hwrite.bind
    intro _ w₁ hw₁ _
    exact ih hw₁

theorem flushLevels_short (is : List ℕ) (hw : LevelsFit w) : Short (flushLevels is) (fun _ => True) w := by
  induction is generalizing w with
  | nil => exact ⟨hw, trivial⟩
  | cons i is ih =>
    apply short_self
    dsimp only
    split
    · exact ih hw
    · apply (flushFrom_short _ i hw).bind
      intro _ w₁ hw₁ _
      exact ih hw₁

theorem close_short (hw : LevelsFit w) : Short close (fun _ => True) w := by
  apply short_self
  split
  · trivial
  · next highest _ =>
    apply (flushLevels_short _ hw).bind
    intro _ w₁ hw₁ _
    apply short_self
    split
    · trivial
    · split
      · exact ⟨hw₁, trivial⟩
      · apply (short_put hw₁ (hw₁ _)).bind
        intro _ w₂ hw₂ _
        exact ⟨hw₂, trivial⟩

theorem run_memStore_short (sha256 : Bytes → Hash) {p : Prog StoreRequest StoreRequest.Response α}
    {P : α → Unit → Prop} (hp : Prog.wp anyStore ShortPut p P ()) (s : List Bytes) :
    ∃ ws, (p.run (memStore sha256) s).2 = ws ++ s ∧ ∀ c ∈ ws, c.length ≤ maxlen := by
  induction p generalizing s with
  | done a => exact ⟨[], rfl, by simp⟩
  | call q k ih =>
    obtain ⟨hshort, hk⟩ := hp
    obtain ⟨ws, hws, hlen⟩ := ih (memStore sha256 q s).1 (hk _ () trivial) (memStore sha256 q s).2
    cases q with
    | put data =>
      refine ⟨ws ++ [data], by simpa [memStore] using hws, ?_⟩
      intro c hc
      rcases mem_append.mp hc with hc | hc
      · exact hlen c hc
      · rw [mem_singleton.mp hc]
        exact hshort
    | get hash => exact ⟨ws, hws, hlen⟩

theorem writeTree_short (bufs : List Bytes) : Short (writeTree bufs) (fun _ => True) newWriter := by
  have hnew : LevelsFit newWriter := by
    intro i
    simp only [Writer.nbytes, newWriter]
    split <;> decide
  apply (writeAll_short bufs hnew).bind
  intro _ w₁ hw₁ _
  exact close_short hw₁

end Puts

/-- However the bytes are cut into `Write` calls, writing and `Close` succeed, so no level
index leaves the range of `nlevels`; every chunk that is put has at most 65535 bytes, and
the tree has its shape. -/
theorem writeTree_shape (sha256 : Bytes → Hash) (s₀ : List Bytes) (d : Bytes) (hd : d.length < 2 ^ 64)
    (bufs : List Bytes) (hbufs : bufs.flatten = d) : ∃ t w written,
      Method.exec (memStore sha256) (writeTree bufs) newWriter s₀ = (.ok t, w, written ++ s₀) ∧
      t.depth < nlevels ∧ (∀ c ∈ written, c.length ≤ 65535) ∧
      RootShaped (Stored sha256 written) t.depth t.data d := by
  obtain ⟨t, w, written, hrun, hspine, hdepth, hcap⟩ := writeTree_spine sha256 s₀ hd
  obtain ⟨ws, hws, hlen⟩ := run_memStore_short sha256 (writeTree_short bufs) s₀
  refine ⟨t, w, written, hrun bufs hbufs, ?_, ?_, Spine.rootShaped hspine hcap⟩
  · simp only [nlevels]
    omega
  · have heq : ws ++ s₀ = written ++ s₀ := by
      rw [← hws]
      exact congrArg (fun x => x.2.2) (hrun bufs hbufs)
    rw [← List.append_cancel_right heq]
    exact hlen

/-- Three bytes in two calls. -/
theorem writeTree_shape_three_bytes : ∃ t w written,
    Method.exec (memStore Hash.copy) (writeTree [[1], [2, 3]]) newWriter [] = (.ok t, w, written ++ []) ∧
    RootShaped (Stored Hash.copy written) t.depth t.data [1, 2, 3] := by
  obtain ⟨t, w, written, hrun, -, -, hshape⟩ :=
    writeTree_shape Hash.copy [] [1, 2, 3] (by decide) [[1], [2, 3]] rfl
  exact ⟨t, w, written, hrun, hshape⟩

end Bpy.HashTreeShape
