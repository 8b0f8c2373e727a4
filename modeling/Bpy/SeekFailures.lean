import Bpy.HashTreeStates

/-!
# A `Seek` that failed

`Seek` replaces the levels of the reader from the root down. When a chunk cannot be
fetched it stops there, and the levels above are those of the new place while the ones
below are still the old ones. Later reads go on with the old leaf and then with what is
behind the tree that could not be fetched.
-/
namespace Bpy.SeekFailures
open ByteWords InteractionPrograms ContentStore HashTreeWriter HashTreeContent HashTreeReader Method
open HashTreeReading HashTreeRoundTrip HashTreeSeeking HashTreeStreams HashTreeRetries HashTreeStates ObjectGraph
open List hiding not_lt

variable {σ : Type} {hd : Handler σ} {s : σ} {stored : Hash → Bytes → Prop} {r r' : Reader}

section Returned

variable {Y : Bytes}

/-- The byte strings that calls of `Read` can return. -/
def Returned (hd : Handler σ) (r : Reader) (s : σ) : Set Bytes :=
  Set.range fun ns => delivered (reads hd ns r s).1

theorem delivered_cons_ok (out : Bytes) (results : List (Except GoError Bytes)) :
    delivered (.ok out :: results) = out ++ delivered results := by
  simp [delivered]

theorem delivered_cons_error (e : GoError) (results : List (Except GoError Bytes)) :
    delivered (.error e :: results) = delivered results := by
  simp [delivered]

theorem delivered_le (ns : List ℕ) (hs : Serves hd s stored) (hr : Reading stored r Y) :
    delivered (reads hd ns r s).1 <+: Y := by
  induction ns generalizing r Y with
  | nil => exact nil_prefix
  | cons n ns ih =>
    obtain ⟨hend, hmore⟩ := read_spec n hs hr
    by_cases hY : Y = []
    · simp only [reads, hend hY, delivered_cons_error]
      exact ih hr
    · obtain ⟨r', out, hrun, hout⟩ := hmore hY
      simp only [reads, hrun, delivered_cons_ok]
      have hrest := ih hout.reading
      rw [← prefix_append_right_inj out] at hrest
      rwa [hout.append] at hrest

section

variable (hs : Serves hd s stored) (hr : Reading stored r Y)
include hs hr

theorem delivered_ones {out : Bytes} (hout : out <+: Y) :
    delivered (reads hd (replicate out.length 1) r s).1 = out := by
  induction out generalizing r Y with
  | nil => rfl
  | cons b out ih =>
    obtain ⟨rest, rfl⟩ := hout
    obtain ⟨r', got, hrun, hgot⟩ := (read_spec 1 hs hr).2 (by simp)
    have hone : got.length = 1 := by
      have hle := hgot.length_le
      have hpos := length_pos_of_ne_nil (hgot.ne_nil Nat.one_pos)
      omega
    have heq := hgot.eq_take
    have hread := hgot.reading
    rw [hone] at heq hread
    simp only [length_cons, replicate_succ, reads, hrun, delivered_cons_ok]
    rw [ih hread ⟨rest, by simp⟩, heq]
    simp

theorem returned_reading : Returned hd r s = {out | out <+: Y} := by
  ext out
  constructor
  · rintro ⟨ns, rfl⟩
    exact delivered_le ns hs hr
  · intro hout
    exact ⟨_, delivered_ones hs hr hout⟩

theorem returned_eq_iff {Y' : Bytes} (hr' : Reading stored r' Y') : Returned hd r' s = Returned hd r s ↔ Y' = Y := by
  rw [returned_reading hs hr, returned_reading hs hr']
  constructor
  · intro h
    have h₁ : Y' ∈ {out | out <+: Y} := h ▸ prefix_refl Y'
    have h₂ : Y ∈ {out | out <+: Y'} := h ▸ prefix_refl Y
    exact List.IsPrefix.eq_of_length_le h₁ h₂.length_le
  · rintro rfl
    rfl

theorem reading_unique {Y' : Bytes} (hr' : Reading stored r Y') : Y = Y' := (returned_eq_iff hs hr' hr).mp rfl

end

theorem returned_negative (hpos : r.pos 0 < 0) : Returned hd r s = {[]} := by
  have hreads : ∀ ns, delivered (reads hd ns r s).1 = [] := by
    intro ns
    induction ns with
    | nil => rfl
    | cons n ns ih =>
      obtain ⟨msg, hrun⟩ := read_negative hd s n hpos
      simp only [reads, hrun, delivered_cons_error, ih]
  simp only [Returned, hreads, Set.range_const]

end Returned

section Failed

variable {absoff j cur : ℕ} {d dj Z : Bytes}

theorem halted_returned_iff (hs : Serves hd s stored) (hf : Functional stored) (h : Standing stored d r)
    (hhalt : Halted stored r r' absoff 0 r.height 0 r.root d [] j cur dj Z) :
    Returned hd r' s = Returned hd r s ↔ r.pos 0 < 0 ∨ Ahead stored r (r.height - j) j (behind d absoff j) := by
  have hlt := hhalt.lt
  have hsame := hhalt.stalled.below 0 (Nat.zero_le j)
  obtain ⟨h', low, high, hlow, hhigh, ha'⟩ := h.halted hhalt
  obtain rfl := h.halted_behind hf hhalt
  by_cases hpos : r.pos 0 < 0
  · rw [returned_negative hpos, returned_negative (hsame.pos ▸ hpos)]
    exact ⟨fun _ => .inl hpos, fun _ => rfl⟩
  obtain ⟨p, X, hleaf, hread⟩ := h.leafLeft (not_lt.mp hpos)
  have hsplit : ∀ B, Ahead stored r (r.height - j) j B → Reading stored r (X ++ (low ++ B)) := by
    intro B hB
    apply hread
    rw [show r.height = j + (r.height - j) by omega, ahead_add, Nat.zero_add]
    exact ⟨low, B, rfl, hlow, hB⟩
  have hr' : Reading stored r' (X ++ (low ++ behind d absoff j)) := ⟨h'.bounded, p, X, _, rfl, hleaf.congr hsame, ha'⟩
  rw [returned_eq_iff hs (hsplit high hhigh) hr', append_cancel_left_eq, append_cancel_left_eq]
  constructor
  · rintro heq
    rw [heq]
    exact .inr hhigh
  · rintro (hneg | hB)
    · exact absurd hneg hpos
    · -- the levels above `j` determine what is left on them
      have hboth := reading_unique hs (hsplit _ hB) (hsplit high hhigh)
      simpa using hboth

variable {sha256 : Bytes → Hash} {fails : ℕ → Option GoError} {cs : List Bytes} {t t' : List Bytes × ℕ} {e : GoError}

theorem seek_error_iff (hs : Serves (memStore sha256) cs stored) (hf : Functional stored) (h : Standing stored d r)
    (ht : t.1 = cs) (hlen : d.length < 2 ^ 64) (habs : absoff < 2 ^ 64)
    (hrun : exec (flaky sha256 fails) (seek absoff) r t = (.error e, r', t')) (he : ∀ msg, e ≠ .panic msg) :
    ∃ m, (∀ i, t.2 ≤ i → i < t.2 + m → fails i = none) ∧ fails (t.2 + m) = some e ∧
      (Returned (memStore sha256) r' cs = Returned (memStore sha256) r cs ↔ m = 0 ∨ r.pos 0 < 0 ∨
          m ≤ r.height ∧ Ahead stored r m (r.height - m) (behind d absoff (r.height - m))) := by
  subst ht
  have hoff : r.offset ≠ absoff := by
    intro hoff
    rw [seek_early hoff] at hrun
    simp at hrun
  have hret : Returns (.error e : Except GoError ℕ) := fun msg herr => he msg (Except.error.inj herr)
  obtain ⟨-, ⟨r₁, cur, dl, Z, -, hres, -⟩ | ⟨err, hres, rfl, hbreak⟩ | ⟨err, j, cur, dj, Z, hres, hbreak, hhalt⟩⟩ :=
    h.seek_cases (flaky_faulty _ hs) rfl hlen hoff habs hrun hret
  · simp at hres
  · obtain rfl := Except.error.inj hres
    obtain ⟨-, hfail, hnone⟩ := flaky_breaks hs hbreak
    exact ⟨0, hnone, hfail, fun _ => .inl rfl, fun _ => rfl⟩
  · obtain rfl := Except.error.inj hres
    obtain ⟨-, hfail, hnone⟩ := flaky_breaks hs hbreak
    have hlt := hhalt.lt
    refine ⟨r.height - j, hnone, hfail, ?_⟩
    rw [halted_returned_iff hs hf h hhalt, Nat.sub_sub_self hlt.le]
    simp only [show r.height - j ≠ 0 by omega, Nat.sub_le, false_or, true_and]

end Failed

/-- A `Seek` that fails leaves what can be read later as it was, just if the root could not be
fetched, or the reader stands before the buffer, or the levels above the one that could not be
filled had the same bytes left as after the `Seek`. -/
theorem failed_seek_iff (sha256 : Bytes → Hash) (s₀ : List Bytes) (d : Bytes) (hd : d.length < 2 ^ 64) :
    ∃ t w written,
      (∀ bufs : List Bytes, bufs.flatten = d →
        exec (memStore sha256) (writeTree bufs) newWriter s₀ = (.ok t, w, written ++ s₀)) ∧
      (Set.InjOn sha256 {c | c ∈ written} → ∃ r₀,
        exec (memStore sha256) (newReader t.data) () (written ++ s₀) = (.ok r₀, (), written ++ s₀) ∧
        ∀ (fails : ℕ → Option GoError) (r r' : Reader) (s s' : List Bytes × ℕ) (absoff : ℕ) (e : GoError),
          Reached (flaky sha256 fails) r₀ (written ++ s₀, 0) r s → absoff < 2 ^ 64 →
          exec (flaky sha256 fails) (seek absoff) r s = (.error e, r', s') → (∀ msg, e ≠ .panic msg) →
          ∃ m, (∀ i, s.2 ≤ i → i < s.2 + m → fails i = none) ∧ fails (s.2 + m) = some e ∧
            (Returned (memStore sha256) r' (written ++ s₀) = Returned (memStore sha256) r (written ++ s₀) ↔
              m = 0 ∨ r.pos 0 < 0 ∨ m ≤ r.height ∧
                Ahead (Stored sha256 written) r m (r.height - m) (behind d absoff (r.height - m)))) := by
  obtain ⟨t, w, written, hrun, hspine, ht, -⟩ := writeTree_spine sha256 s₀ hd
  refine ⟨t, w, written, hrun, fun hinj => ?_⟩
  have hs : Serves (memStore sha256) (written ++ s₀) (Stored sha256 written) := serves_memStore hinj
  obtain ⟨r₀, hnew, hr, hroot, hheight, -⟩ := newReader_spec () hs hspine.holds (by simp only [nlevels]; omega)
  refine ⟨r₀, hnew, fun fails r r' s s' absoff e hreach habs hseek he => ?_⟩
  have h₀ : Standing (Stored sha256 written) d r₀ := by
    refine standing_of_reading ?_ hr
    rw [hroot, show r₀.height = t.depth from hheight]
    exact hspine
  obtain ⟨hcs, hstand⟩ := hreach.standing (flaky_faulty _ hs) rfl h₀ hd
  exact seek_error_iff hs (functional_stored hinj) hstand hcs hd habs hseek he

theorem spine_longFile : Spine (Stored lengthHash longChunks) 1 0 longRoot longFile := by
  obtain ⟨t, w, written, hrun, hspine, -⟩ := writeTree_spine lengthHash [] length_longFile
  obtain ⟨w', hwrite⟩ := exec_write_longFile
  have hsame := (hrun [longFile] (by simp)).symm.trans hwrite
  simp only [append_nil, Prod.mk.injEq, Except.ok.injEq] at hsame
  obtain ⟨rfl, -, rfl⟩ := hsame
  exact hspine

/-- The first `Get` of the `Seek` fails. -/
theorem failed_seek_at_root : ∃ r r' s',
    exec (memStore lengthHash) (newReader longRoot) () longChunks = (.ok r, (), longChunks) ∧
    exec (flaky lengthHash fun _ => some .unexpectedEOF) (seek 1) r (longChunks, 0) =
      (.error .unexpectedEOF, r', s') ∧
    Returned (memStore lengthHash) r' longChunks = Returned (memStore lengthHash) r longChunks := by
  obtain ⟨t, w, written, hrun, hseek⟩ := failed_seek_iff lengthHash [] longFile length_longFile
  obtain ⟨w', hwrite⟩ := exec_write_longFile
  have hsame := (hrun [longFile] (by simp)).symm.trans hwrite
  simp only [List.append_nil, Prod.mk.injEq, Except.ok.injEq] at hsame
  obtain ⟨rfl, rfl, rfl⟩ := hsame
  obtain ⟨r, hnew, hiff⟩ := hseek injOn_longChunks
  rw [List.append_nil] at hnew hiff
  have hoff : r.offset = 0 := by
    have hspec := newReader_spec () (serves_self injOn_longChunks) spine_longFile.holds (by decide)
    obtain ⟨r₁, hnew₁, -, -, -, hoff₁⟩ := hspec
    rw [hnew, Prod.mk.injEq, Except.ok.injEq] at hnew₁
    rw [hnew₁.1, hoff₁]
  have hfail : exec (flaky lengthHash fun _ => some .unexpectedEOF) (seek 1) r (longChunks, 0) =
      (.error .unexpectedEOF, r, longChunks, 1) := by
    simp [seek, exec_bind, hoff, flaky]
  obtain ⟨m, hnone, -, hm⟩ := hiff _ r r _ _ 1 .unexpectedEOF .start (by decide) hfail (by simp)
  have hm₀ : m = 0 := by
    by_contra hne
    have hfirst := hnone 0 le_rfl (by omega)
    simp at hfirst
  exact ⟨r, r, _, hnew, hfail, hm.mpr (.inl hm₀)⟩

theorem behind_longFile : behind longFile 1 0 = [1] := by
  have hlen : longFile.length - 1 = 65534 := by
    rw [longFile, length_append, length_replicate]
    rfl
  rw [behind, hlen, show (min 1 65534 / capacity 0 + 1) * capacity 0 = 65534 by decide, longFile,
    List.drop_left' length_replicate]

/-- The first leaf cannot be fetched. Later reads start behind it. -/
theorem failed_seek_skips_leaf : ∃ r r' s',
    exec (memStore lengthHash) (newReader longRoot) () longChunks = (.ok r, (), longChunks) ∧
    exec (flaky lengthHash fun i => if i = 1 then some .unexpectedEOF else none) (seek 1) r (longChunks, 0) =
      (.error .unexpectedEOF, r', s') ∧
    Returned (memStore lengthHash) r longChunks = {out | out <+: longFile} ∧
    Returned (memStore lengthHash) r' longChunks = {out | out <+: [1]} ∧
    Returned (memStore lengthHash) r' longChunks ≠ Returned (memStore lengthHash) r longChunks := by
  have hs := serves_self injOn_longChunks
  obtain ⟨r, hnew, hr, hroot, hheight, hoff⟩ := newReader_spec () hs spine_longFile.holds (by decide)
  have hheight : r.height = 1 := hheight
  have hstand : Standing (Stored lengthHash longChunks) longFile r :=
    standing_of_reading (by rw [hroot, hheight]; exact spine_longFile) hr
  rcases seek_outcome (flaky_faulty (fun i => if i = 1 then some .unexpectedEOF else none) hs)
    (s := (longChunks, 0)) rfl hr.bounded hstand.tree.holds length_longFile (show r.offset ≠ 1 by rw [hoff]; decide)
    (fun _ => by decide) with
    ⟨r₁, s₁, cur, dl, Z, -, -, hfetch, -⟩ | ⟨err, s₁, -, -, hbreak⟩ |
    ⟨err, r₁, s₁, j, cur, dj, Z, hrun₁, -, hbreak, hhalt⟩
  · have hnone := (flaky_fetches hfetch).2 1 (by decide) (by rw [hheight]; decide)
    simp at hnone
  · have hfail := (flaky_breaks hs hbreak).2.1
    simp at hfail
  · have hj : j = 0 := by
      have hlt := hhalt.lt
      omega
    subst hj
    have hfail := (flaky_breaks hs hbreak).2.1
    simp only [hheight] at hfail
    obtain rfl : GoError.unexpectedEOF = err := by simpa using hfail
    obtain ⟨p, X, B, -, hleaf, -⟩ := hr.split
    obtain rfl : [] = X := by
      have hsrc := newReader_src hnew (by rw [hheight]; decide)
      rw [hleaf.src_eq, Except.ok.injEq] at hsrc
      exact hsrc.symm
    obtain ⟨h', low, high, hlow, -, ha'⟩ := hstand.halted hhalt
    rw [show low = [] from hlow, hstand.halted_behind (functional_stored injOn_longChunks) hhalt,
      behind_longFile] at ha'
    have hr' : Reading (Stored lengthHash longChunks) r₁ [1] :=
      ⟨h'.bounded, p, [], _, rfl, hleaf.congr (hhalt.stalled.below 0 le_rfl), ha'⟩
    refine ⟨r, r₁, s₁, hnew, hrun₁, returned_reading hs hr, returned_reading hs hr', ?_⟩
    rw [ne_eq, returned_eq_iff hs hr hr']
    intro heq
    have hlen := congrArg List.length heq
    rw [longFile, List.length_append, List.length_replicate] at hlen
    simp at hlen

end Bpy.SeekFailures
