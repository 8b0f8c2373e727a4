import Bpy.HashTreeFilling

/-!
# `htree.Writer.Close`

`Close` flushes the levels in use from the leaf up. Each flush hands one more child,
possibly not a full one, to the level above, which is flushed next. The tree that is
left above the highest level is the result.
-/
namespace Bpy.HashTreeClosing
open ByteWords InteractionPrograms ContentStore HashTreeWriter HashTreeContent HashTreeFilling Method
open List hiding not_le

variable {sha256 : Bytes → Hash} {s : List Bytes} {w : Writer} {A X L : Bytes}

variable {w' : Writer} {s' : List Bytes} {h : ℕ}

private theorem exec_flushLevels_cons {i : ℕ} {is : List ℕ}
    (h : w.lvls i ≠ []) (hrun : exec (memStore sha256) (flushLvl i) w s = (.ok (), w', s')) :
    exec (memStore sha256) (flushLevels (i :: is)) w s = exec (memStore sha256) (flushLevels is) w' s' := by
  have hnb : w.nbytes i ≠ 0 := by simpa [Writer.nbytes] using h
  simp [flushLevels, exec_bind, hnb, hrun]

private theorem ready_of_flushed {n l : ℕ} {B : Bytes} {es : Children} {h : Hash}
    (hf : Flushed sha256 s w w' n l A X B es h) (hX : X ≠ []) :
    Ready sha256 s w' (l + 1) B (contents (es ++ [(h, X)])) := by
  have hready := Ready.of_children hf.above hf.length_lt hf.chain (hf.data ▸ hf.last) hX
  simpa using hready

theorem flushLevels_spec (s₀ : List Bytes) {m i n : ℕ} (hn : n + 1 + (i + m) = nlevels - 1)
    (hr : Ready sha256 s w i A X) (hne : w.lvls i ≠ []) (hl : Levels (Stored sha256 s) w.lvls (n + 1 + m) i A)
    (hb : (A ++ X).length < 2 ^ 64) (hX : X ≠ [] ∨ m = 0) :
    ∃ w₁ w' ws A' X' B es h, exec (memStore sha256) (flushLevels (List.range' i (m + 1))) w (s ++ s₀) =
        (.ok (), w', ws ++ s ++ s₀) ∧
      Flushed sha256 (ws ++ s) w₁ w' n (i + m) A' X' B es h ∧ A' ++ X' = A ++ X ∧
      (X ≠ [] → X' ≠ []) := by
  induction m generalizing i w s A X with
  | zero =>
    obtain ⟨w', ws, B, es, hrun, hf⟩ := flushFrom_spec s₀ hn hr hl (by simp only [length_append] at hb; omega)
    refine ⟨w, w', ws, A, X, B, es, _, ?_, hf, rfl, id⟩
    have hfl : flushLvl i = flushFrom (n + 1) i := by
      rw [flushLvl, show nlevels - 1 - i = n + 1 by omega]
    rw [List.range'_one, exec_flushLevels_cons hne (hfl ▸ hrun)]
    rfl
  | succ m ih =>
    have hX' : X ≠ [] := hX.resolve_right (by omega)
    obtain ⟨w₁, ws₁, B₁, es₁, hrun₁, hf₁⟩ := flushFrom_spec s₀ (n := n + 1 + m)
      (by omega) hr hl (by simp only [length_append] at hb; omega)
    have hfl : flushLvl i = flushFrom (n + 1 + m + 1) i := by
      rw [flushLvl, show nlevels - 1 - i = n + 1 + m + 1 by omega]
    have hd : B₁ ++ contents (es₁ ++ [(sha256 (w.lvls i), X)]) = A ++ X := by simp [hf₁.data]
    obtain ⟨w₂, w', ws, A', X', B, es, h, hrun, hf, hd', hX''⟩ := ih (by omega) (ready_of_flushed hf₁ hX')
      (by simp [hf₁.above]) hf₁.levels (by rw [hd]; exact hb) (Or.inl (by simp [hX']))
    refine ⟨w₂, w', ws ++ ws₁, A', X', B, es, h, ?_, ?_, hd'.trans hd, fun _ => hX'' (by simp [hX'])⟩
    · rw [List.range'_succ, exec_flushLevels_cons hne (hfl ▸ hrun₁), hrun]
      simp only [append_assoc]
    · rw [append_assoc, show i + (m + 1) = i + 1 + m by omega]
      exact hf

theorem highestBelow_spec (w : Writer) (h0 : w.lvls 0 ≠ []) (n : ℕ) :
    ∃ h, highestBelow w (n + 1) = some h ∧ h ≤ n ∧ w.lvls h ≠ [] ∧ ∀ i, h < i → i ≤ n → w.lvls i = [] := by
  induction n with
  | zero => exact ⟨0, by simp [highestBelow, Writer.nbytes, h0], le_rfl, h0, by omega⟩
  | succ n ih =>
    by_cases hn : w.lvls (n + 1) = []
    · obtain ⟨h, hh, hle, hne, hempty⟩ := ih
      refine ⟨h, by rw [highestBelow]; simpa [Writer.nbytes, hn] using hh, by omega, hne, ?_⟩
      intro i hi hi'
      rcases Nat.lt_or_ge n i with hni | hni
      · rw [show i = n + 1 by omega, hn]
      · exact hempty i hi hni
    · exact ⟨n + 1, by simp [highestBelow, Writer.nbytes, hn], le_rfl, hn, by omega⟩

section

variable (hh : highestBelow w nlevels = some h) (hlt : h + 1 < nlevels)
  (hrun : exec (memStore sha256) (flushLevels (range (h + 1))) w s = (.ok (), w', s'))
include hh hlt hrun

private theorem exec_close_child (h41 : w'.nbytes (h + 1) = 41) : exec (memStore sha256) close w s =
      (.ok ⟨h, Hash.copy (((w'.lvls (h + 1)).drop 9).take 32)⟩, w', s') := by
  simp [close, exec_bind, hh, hrun, h41, not_le.mpr hlt]

private theorem exec_close_node (h41 : w'.nbytes (h + 1) ≠ 41) : exec (memStore sha256) close w s =
      (.ok ⟨h + 1, sha256 (w'.lvls (h + 1))⟩, w', w'.lvls (h + 1) :: s') := by
  simp [close, exec_bind, hh, hrun, h41, not_le.mpr hlt, memStore]

end

private theorem highest_le (hw : Filling sha256 s w A L) (hb : (A ++ L).length < 2 ^ 64)
    (hh : h ≤ nlevels - 1) (hne : w.lvls h ≠ []) : h ≤ 5 := by
  cases h with
  | zero => omega
  | succ j =>
    have hcap := hw.levels.capacity_le_of_used (Nat.zero_le j) (by omega) hne
    simp only [length_append] at hb
    have := depth_lt_of_capacity_lt (hcap.trans_lt (by omega))
    omega

theorem close_spine (s₀ : List Bytes) (hw : Filling sha256 s w A L) (hb : (A ++ L).length < 2 ^ 64) :
    ∃ w' ws t, exec (memStore sha256) close w (s ++ s₀) = (.ok t, w', ws ++ s ++ s₀) ∧
      Spine (Stored sha256 (ws ++ s)) t.depth 0 t.data (A ++ L) ∧ t.depth ≤ 6 ∧
      ∀ k, t.depth = k + 1 → capacity k < (A ++ L).length := by
  obtain ⟨h, hh, hle, hne, hempty⟩ := highestBelow_spec w (by simp [hw.leaf]) (nlevels - 1)
  have h5 := highest_le hw hb hle hne
  have hlen : A.length + 2 * capacity 0 ≤ 2 * capacity h :=
    hw.levels.length_le (Nat.zero_le h) (fun i hi hi' => hempty i hi (by omega))
  -- a level in use above the leaf means that the leaf has taken bytes after a flush
  have hX : L ≠ [] ∨ h = 0 := by
    rcases Nat.eq_zero_or_pos h with h0 | hpos
    · exact Or.inr h0
    · obtain ⟨j, rfl⟩ : ∃ j, h = j + 1 := ⟨h - 1, by omega⟩
      have hcap := hw.levels.capacity_le_of_used (Nat.zero_le j) (by simp only [nlevels]; omega) hne
      have hpos := capacity_pos j
      refine Or.inl (fun hL => ?_)
      simp only [hw.nil hL, length_nil] at hcap
      omega
  obtain ⟨n, hn⟩ : ∃ n, n + 1 + (0 + h) = nlevels - 1 := ⟨8 - h, by simp only [nlevels]; omega⟩
  obtain ⟨w₁, w', ws, A', X', B, es, c, hrun, hf, hd, hX'⟩ := flushLevels_spec s₀ hn hw.ready
    (by simp [hw.leaf]) (by rw [show n + 1 + h = nlevels - 1 by omega]; exact hw.levels) hb hX
  rw [← List.range_eq_range'] at hrun
  rw [Nat.zero_add] at hf
  have hB : B = [] := by
    by_contra hne
    have hcap := hf.levels.capacity_le hne
    have hlL := hw.length_lt
    have hdl := congrArg length hd
    have hA' := congrArg length hf.data
    have hpos := capacity_pos h
    simp only [length_append] at hdl hA'
    simp only [capacity, fanout, maxlen] at hcap hlen hlL
    omega
  have hlt : h + 1 < nlevels := by simp only [nlevels]; omega
  have hnb : w'.nbytes (h + 1) = 1 + 40 * (es.length + 1) := by
    simp [Writer.nbytes, hf.above]
    omega
  by_cases hes : es = []
  · subst hes
    have hA' : A' = [] := by rw [hf.data, hB]; rfl
    have hcopy : Hash.copy (((w'.lvls (h + 1)).drop 9).take 32) = c := by
      rw [hf.above, hB]
      simp [encodeEntries, take_of_length_le c.length_bytes.le]
    refine ⟨w', ws, ⟨h, c⟩, hcopy ▸ exec_close_child hh hlt hrun (by simp [hnb]), ?_,
      show h ≤ 6 by omega, ?_⟩
    · rw [← hd]
      simpa [hA'] using hf.last
    · intro k hk
      have hk : h = k + 1 := hk
      have hcap := hw.levels.capacity_le_of_used (Nat.zero_le k) (by simp only [nlevels]; omega) (hk ▸ hne)
      have hLpos := length_pos_of_ne_nil (hX.resolve_right (by omega))
      rw [length_append]
      omega
  · have hne' : X' ≠ [] := by
      intro hnil
      have hL : L = [] := by
        by_contra hL
        exact hX' hL hnil
      have hA' : B ++ contents es = [] := by simpa [hL, hw.nil hL, hnil, hf.data] using hd
      obtain ⟨e, es, rfl⟩ := exists_cons_of_ne_nil hes
      simp [hf.chain.1.ne_nil] at hA'
    refine ⟨w', w'.lvls (h + 1) :: ws, ⟨h + 1, sha256 (w'.lvls (h + 1))⟩,
      exec_close_node hh hlt hrun ?_, ?_, show h + 1 ≤ 6 by omega, ?_⟩
    · have := length_pos_of_ne_nil hes
      omega
    · have hd' : A' ++ X' = contents (es ++ [(c, X')]) := by simp [hf.data, hB]
      rw [← hd, hd']
      simpa [hB] using (ready_of_flushed hf hne').spine
    · intro k hk
      obtain rfl : h = k := Nat.succ.inj hk
      have hcount := Nat.mul_le_mul_right (capacity h) (length_pos_of_ne_nil hes)
      have hpos := length_pos_of_ne_nil hne'
      rw [← hd, hf.data, length_append, length_append, length_contents_full hf.chain]
      omega

end Bpy.HashTreeClosing
