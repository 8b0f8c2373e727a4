import Bpy.HashTreeClosing
import Bpy.HashTreeReading

/-!
# Writing a byte string to a hash tree and reading it back
-/
namespace Bpy.HashTreeRoundTrip
open ByteWords InteractionPrograms ContentStore HashTreeWriter HashTreeContent HashTreeFilling
open HashTreeClosing HashTreeReader HashTreeReading Method

/-- One `Write` call for each element of `bufs`, and `Close`. -/
def writeTree (bufs : List Bytes) : WriterM HTree := do
  writeAll bufs
  close

/-- The bytes of `k` calls of `Read`, the `i`-th one with a buffer of `sizes i` bytes. -/
def readMany : (ℕ → ℕ) → ℕ → ReaderM Bytes
  | _, 0 => pure []
  | sizes, k + 1 => do
    let xs ← read (sizes 0)
    let ys ← readMany (fun i => sizes (i + 1)) k
    pure (xs ++ ys)

section Read

variable {σ : Type} {hd : Handler σ} {s : σ} {stored : Hash → Bytes → Prop} {r : Reader} {Y : Bytes}

private theorem exec_readMany_succ {sizes : ℕ → ℕ} {k : ℕ} {r₁ r₂ : Reader} {xs ys : Bytes}
    (h₁ : exec hd (read (sizes 0)) r s = (.ok xs, r₁, s))
    (h₂ : exec hd (readMany (fun i => sizes (i + 1)) k) r₁ s = (.ok ys, r₂, s)) :
    exec hd (readMany sizes (k + 1)) r s = (.ok (xs ++ ys), r₂, s) := by
  simp [readMany, exec_bind, h₁, h₂]

theorem readMany_spec (hs : Serves hd s stored) (hr : Reading stored r Y) (sizes : ℕ → ℕ)
    (hsizes : ∀ i, 0 < sizes i) : ∃ k r', exec hd (readMany sizes k) r s = (.ok Y, r', s) ∧
      exec hd (read (sizes k)) r' s = (.error .eof, r', s) := by
  -- every read takes at least one byte of what is left
  induction hlen : Y.length using Nat.strong_induction_on generalizing Y r sizes with
  | _ len ih =>
    subst hlen
    by_cases hY : Y = []
    · exact ⟨0, r, by simp [readMany, hY], (read_spec (sizes 0) hs hr).1 hY⟩
    · obtain ⟨r₁, out, hrun, hout⟩ := (read_spec (sizes 0) hs hr).2 hY
      obtain ⟨k, r', hmany, heof⟩ := ih (Y.drop out.length).length (hout.shorter (hsizes 0) hY) hout.reading
        (fun i => sizes (i + 1)) (fun i => hsizes (i + 1)) rfl
      refine ⟨k + 1, r', ?_, heof⟩
      rw [exec_readMany_succ hrun hmany, hout.append]

end Read

section Write

variable (sha256 : Bytes → Hash) (s₀ : List Bytes)

theorem writeTree_spine {d : Bytes} (hd : d.length < 2 ^ 64) : ∃ t w written, (∀ bufs : List Bytes, bufs.flatten = d →
        exec (memStore sha256) (writeTree bufs) newWriter s₀ = (.ok t, w, written ++ s₀)) ∧
      Spine (Stored sha256 written) t.depth 0 t.data d ∧ t.depth ≤ 6 ∧
      ∀ k, t.depth = k + 1 → capacity k < d.length := by
  obtain ⟨w₁, ws₁, A, L, hrun₁, hAL, hw₁⟩ := writeBytes_spec s₀ d (filling_newWriter sha256 []) (by simpa using hd.le)
  rw [List.append_nil, List.nil_append] at hAL
  subst hAL
  obtain ⟨w₂, ws₂, t, hrun₂, hh, ht, hcap⟩ := close_spine s₀ hw₁ hd
  refine ⟨t, w₂, ws₂ ++ ws₁, fun bufs hbufs => ?_, by simpa using hh, ht, hcap⟩
  have hall : exec (memStore sha256) (writeAll bufs) newWriter s₀ = (.ok (), w₁, ws₁ ++ s₀) := by
    rw [exec_congr _ (writeAll_eq bufs newWriter fits_newWriter), hbufs]
    simpa using hrun₁
  rw [writeTree, exec_bind_ok _ hall]
  simpa using hrun₂

theorem writeTree_spec {d : Bytes} (hd : d.length < 2 ^ 64) : ∃ t w written, (∀ bufs : List Bytes, bufs.flatten = d →
        exec (memStore sha256) (writeTree bufs) newWriter s₀ = (.ok t, w, written ++ s₀)) ∧
      Holds (Stored sha256 written) t.depth 0 t.data d ∧ t.depth ≤ 6 := by
  obtain ⟨t, w, written, hrun, hspine, ht, -⟩ := writeTree_spine sha256 s₀ hd
  exact ⟨t, w, written, hrun, hspine.holds, ht⟩

/-- Every way of cutting `d` into `Write` calls returns the same tree and stores the same
chunks. If the hash tells these chunks apart, the first byte of the root chunk is the
depth, a reader of the tree has this height, and reading with non-empty buffers of any
sizes returns `d` and then `io.EOF`. -/
theorem write_read_roundTrip (d : Bytes) (hd : d.length < 2 ^ 63) :
    ∃ t w written,
      (∀ bufs : List Bytes, bufs.flatten = d →
        exec (memStore sha256) (writeTree bufs) newWriter s₀ = (.ok t, w, written ++ s₀)) ∧
      (Set.InjOn sha256 {c | c ∈ written} →
        (∃ b body, lookup sha256 (written ++ s₀) t.data = some (b :: body) ∧ b.toNat = t.depth) ∧
        ∃ r, exec (memStore sha256) (newReader t.data) () (written ++ s₀) =
            (.ok r, (), written ++ s₀) ∧
          getHeight r = t.depth ∧
          ∀ sizes : ℕ → ℕ, (∀ i, 0 < sizes i) → ∃ k r',
            exec (memStore sha256) (readMany sizes k) r (written ++ s₀) =
              (.ok d, r', written ++ s₀) ∧
            exec (memStore sha256) (read (sizes k)) r' (written ++ s₀) =
              (.error .eof, r', written ++ s₀)) := by
  obtain ⟨t, w, written, hrun, hh, ht⟩ := writeTree_spec sha256 s₀ (show d.length < 2 ^ 64 by omega)
  refine ⟨t, w, written, hrun, fun hinj => ⟨?_, ?_⟩⟩
  · obtain ⟨body, hst, -, -⟩ := holds_load hh
    refine ⟨tag t.depth, body, lookup_eq_some hinj hst, ?_⟩
    simp only [tag, UInt8.toNat_ofNat']
    omega
  · have hs : Serves (memStore sha256) (written ++ s₀) (Stored sha256 written) := serves_memStore hinj
    obtain ⟨r, hnew, hr, -, hheight, -⟩ := newReader_spec () hs hh (by simp only [nlevels]; omega)
    exact ⟨r, hnew, hheight, fun sizes hsizes => readMany_spec hs hr sizes hsizes⟩

end Write

/-- Three bytes in three calls, one of them empty, and read back two at a time. -/
theorem write_read_roundTrip_three_bytes : ∃ t w s r k r',
    exec (memStore Hash.copy) (writeTree [[1], [], [2, 3]]) newWriter [] = (.ok t, w, s) ∧
    exec (memStore Hash.copy) (newReader t.data) () s = (.ok r, (), s) ∧
    exec (memStore Hash.copy) (readMany (fun _ => 2) k) r s = (.ok [1, 2, 3], r', s) ∧
    exec (memStore Hash.copy) (read 2) r' s = (.error .eof, r', s) := by
  obtain ⟨t, w, written, hrun, hread⟩ := write_read_roundTrip Hash.copy [] [1, 2, 3] (by decide)
  have hw := hrun [[1], [], [2, 3]] rfl
  have hwritten : written = [[0, 1, 2, 3]] := by
    have hs := congrArg (fun x => x.2.2) hw
    rw [List.append_nil] at hs
    exact hs.symm.trans rfl
  obtain ⟨-, r, hnew, -, hmany⟩ := hread (by simp [hwritten])
  obtain ⟨k, r', hk, heof⟩ := hmany (fun _ => 2) (fun _ => by decide)
  exact ⟨t, w, written ++ [], r, k, r', hw, hnew, hk, heof⟩

end Bpy.HashTreeRoundTrip
