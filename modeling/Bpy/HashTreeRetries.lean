import Bpy.HashTreeSeeking
import Bpy.HashTreeStreams

/-!
# Reading again after a failure

A `Read` that failed because of the store may be called again. `next` replaces a level
only after its chunk has arrived, so nothing is lost. The error of the store is returned
as it is, and `io.EOF` from the store is taken for the end of the tree.
-/
namespace Bpy.HashTreeRetries
open ByteWords InteractionPrograms ContentStore HashTreeWriter HashTreeReader
open HashTreeReading HashTreeRoundTrip HashTreeStreams Method
open List

variable {fails : ℕ → Option GoError} {stored : Hash → Bytes → Prop} {s : List Bytes × ℕ} {e : GoError}

section Flaky

/-- A store whose `Get` number `i` fails with the error `fails i`, if there is one. The state is
the chunks and the number of calls of `Get` so far. -/
def flaky (sha256 : Bytes → Hash) (fails : ℕ → Option GoError) : Handler (List Bytes × ℕ)
  | .put data, s => ((memStore sha256 (.put data) s.1).1, (memStore sha256 (.put data) s.1).2, s.2)
  | .get hash, s => (match fails s.2 with
      | some e => .error e
      | none => (memStore sha256 (.get hash) s.1).1, s.1, s.2 + 1)

variable {sha256 : Bytes → Hash} {cs : List Bytes} {s' : List Bytes × ℕ} {n : ℕ}

theorem flaky_get_fails {hash : Hash} (h : fails s.2 = some e) :
    flaky sha256 fails (.get hash) s = (.error e, s.1, s.2 + 1) := by
  simp [flaky, h]

theorem flaky_get_serves {hash : Hash} {c : Bytes} (hs : Serves (memStore sha256) s.1 stored) (hst : stored hash c)
    (h : fails s.2 = none) : flaky sha256 fails (.get hash) s = (.ok c, s.1, s.2 + 1) := by
  simp [flaky, h, hs hash c hst]

variable (fails) in
theorem flaky_faulty (hs : Serves (memStore sha256) cs stored) :
    Faulty (flaky sha256 fails) (fun s => s.1 = cs) stored := by
  rintro s hash c rfl hst
  refine ⟨(s.1, s.2 + 1), rfl, ?_⟩
  cases h : fails s.2 with
  | none => exact .inl (flaky_get_serves hs hst h)
  | some e => exact .inr ⟨e, flaky_get_fails h⟩

theorem flaky_fetches (h : Fetches (flaky sha256 fails) stored s n s') :
    s' = (s.1, s.2 + n) ∧ ∀ i, s.2 ≤ i → i < s.2 + n → fails i = none := by
  induction h with
  | none => exact ⟨rfl, fun i hi hi' => by omega⟩
  | @more n s₁ s₂ hash c _ hst hget ih =>
    obtain ⟨rfl, hnone⟩ := ih
    cases hf : fails (s.2 + n) with
    | some e =>
      rw [flaky_get_fails hf] at hget
      simp at hget
    | none =>
      refine ⟨congrArg Prod.snd hget.symm, fun i hi hi' => ?_⟩
      rcases Nat.lt_succ_iff_lt_or_eq.mp hi' with hlt | rfl
      · exact hnone i hi hlt
      · exact hf

theorem flaky_breaks (hs : Serves (memStore sha256) s.1 stored) (h : Breaks (flaky sha256 fails) stored s n e s') :
    s' = (s.1, s.2 + n + 1) ∧ fails (s.2 + n) = some e ∧ ∀ i, s.2 ≤ i → i < s.2 + n → fails i = none := by
  obtain ⟨s₁, hash, c, hfront, hst, hget⟩ := h
  obtain ⟨rfl, hnone⟩ := flaky_fetches hfront
  refine ⟨congrArg Prod.snd hget.symm, ?_, hnone⟩
  cases hf : fails (s.2 + n) with
  | some err =>
    rw [flaky_get_fails hf, Prod.mk.injEq, Except.error.injEq] at hget
    rw [hget.1]
  | none =>
    rw [flaky_get_serves (s := (s.1, s.2 + n)) hs hst hf] at hget
    simp at hget

end Flaky

section Reads

/-- Calls of `Read` with buffers of the given sizes, each one whatever the one before returned. -/
def reads {σ : Type} (hd : Handler σ) : List ℕ → Reader → σ → List (Except GoError Bytes) × Reader × σ
  | [], r, s => ([], r, s)
  | n :: ns, r, s =>
    let x := Method.exec hd (read n) r s
    let y := reads hd ns x.2.1 x.2.2
    (x.1 :: y.1, y.2)

def delivered (results : List (Except GoError Bytes)) : Bytes :=
  results.flatMap fun
    | .ok out => out
    | .error _ => []

/-- At every moment the bytes so far are the first ones of `d`, and they are all of `d` when
`io.EOF` is returned. -/
structure LosesNothing (d : Bytes) (results : List (Except GoError Bytes)) : Prop where
  start : ∀ i, delivered (results.take i) <+: d
  complete : ∀ i, results[i]? = some (.error .eof) → delivered (results.take i) = d

variable {d out : Bytes} {results : List (Except GoError Bytes)}

theorem losesNothing_nil (d : Bytes) : LosesNothing d [] :=
  ⟨fun i => by simp [delivered], fun i hi => by simp at hi⟩

theorem losesNothing_ok (hout : out <+: d) :
    LosesNothing d (.ok out :: results) ↔ LosesNothing (d.drop out.length) results := by
  obtain ⟨rest, rfl⟩ := hout
  rw [drop_left]
  have htake : ∀ i, delivered ((.ok out :: results).take (i + 1)) = out ++ delivered (results.take i) := by
    intro i
    simp [delivered]
  constructor
  · intro h
    constructor
    · intro i
      have hi := h.start (i + 1)
      rwa [htake, prefix_append_right_inj] at hi
    · intro i heof
      have hi := h.complete (i + 1) heof
      rwa [htake, append_cancel_left_eq] at hi
  · intro h
    constructor
    · intro i
      cases i with
      | zero => simp [delivered]
      | succ i =>
        rw [htake, prefix_append_right_inj]
        exact h.start i
    · intro i heof
      cases i with
      | zero => simp at heof
      | succ i => rw [htake, h.complete i heof]

theorem losesNothing_error : LosesNothing d (.error e :: results) ↔ (e = .eof → d = []) ∧ LosesNothing d results := by
  have htake : ∀ i, delivered ((.error e :: results).take (i + 1)) = delivered (results.take i) := by
    intro i
    simp [delivered]
  constructor
  · intro h
    refine ⟨fun he => ?_, ⟨fun i => ?_, fun i heof => ?_⟩⟩
    · exact (h.complete 0 (by simp [he])).symm
    · rw [← htake]
      exact h.start (i + 1)
    · rw [← htake]
      exact h.complete (i + 1) heof
  · rintro ⟨hd, h⟩
    constructor
    · intro i
      cases i with
      | zero => simp [delivered]
      | succ i =>
        rw [htake]
        exact h.start i
    · intro i heof
      cases i with
      | zero =>
        simp only [getElem?_cons_zero, Option.some.injEq, Except.error.injEq] at heof
        exact (hd heof).symm
      | succ i =>
        rw [htake]
        exact h.complete i heof

variable {sha256 : Bytes → Hash} {r : Reader} {Y : Bytes}

variable (fails) in
theorem reads_iff (ns : List ℕ) (hs : Serves (memStore sha256) s.1 stored) (hr : Reading stored r Y) :
    s.2 ≤ (reads (flaky sha256 fails) ns r s).2.2.2 ∧
    (LosesNothing Y (reads (flaky sha256 fails) ns r s).1 ↔
      ∀ i, s.2 ≤ i → i < (reads (flaky sha256 fails) ns r s).2.2.2 → fails i ≠ some .eof) := by
  induction ns generalizing r s Y with
  | nil =>
    refine ⟨le_rfl, ?_⟩
    simp only [reads, losesNothing_nil, true_iff]
    omega
  | cons n ns ih =>
    simp only [reads]
    obtain ⟨hend, hmore⟩ := read_outcome n (flaky_faulty fails hs) rfl hr
    by_cases hY : Y = []
    · rw [hend hY, losesNothing_error]
      obtain ⟨hle, hiff⟩ := ih hs hr
      exact ⟨hle, by simp only [hY, implies_true, true_and, ← hiff]⟩
    rcases hmore hY with ⟨r', s', c, out, hrun, -, hfetch, -, hout⟩ | ⟨err, r', s', c, hrun, -, hbreak, hr', -⟩
    · obtain ⟨rfl, hnone⟩ := flaky_fetches hfetch
      have hpre : out <+: Y := by
        rw [hout.eq_take]
        exact take_prefix _ _
      obtain ⟨hle, hiff⟩ := ih (s := (s.1, s.2 + c)) hs hout.reading
      simp only [hrun, losesNothing_ok hpre, hiff]
      refine ⟨by omega, fun h i hi hi' => ?_, fun h i hi hi' => h i (by omega) hi'⟩
      by_cases hc : i < s.2 + c
      · rw [hnone i hi hc]
        exact nofun
      · exact h i (by omega) hi'
    · obtain ⟨rfl, hfail, hnone⟩ := flaky_breaks hs hbreak
      obtain ⟨hle, hiff⟩ := ih (s := (s.1, s.2 + c + 1)) hs hr'
      simp only [hrun, losesNothing_error, hiff, hY, imp_false]
      refine ⟨by omega, fun h i hi hi' => ?_, fun h => ⟨fun he => ?_, fun i hi hi' => h i (by omega) hi'⟩⟩
      · by_cases hc : i < s.2 + c
        · rw [hnone i hi hc]
          exact nofun
        · by_cases heq : i = s.2 + c
          · rw [heq, hfail]
            exact fun he => h.1 (Option.some.inj he)
          · exact h.2 i (by omega) hi'
      · exact h (s.2 + c) (by omega) (by omega) (by rw [hfail, he])

end Reads

section TwoLeaves

/-- The root of a tree with two leaves, of which the first one is full. -/
def rootChunk (h h' : Hash) : Bytes := 1 :: leBytes 8 0 ++ h.bytes ++ leBytes 8 65534 ++ h'.bytes

def fullWriter (A : Bytes) : Writer := newWriter.setLvl 0 (0 :: A)

/-- The writer after another byte. The first leaf has been stored under the hash `h`. -/
def nextWriter (h : Hash) (b : UInt8) : Writer :=
  ⟨Function.update (Function.update newWriter.lvls 1 (1 :: leBytes 8 0 ++ h.bytes)) 0 [0, b], 65534⟩

variable (sha256 : Bytes → Hash) {A : Bytes} (b : UInt8)

theorem exec_write_full (hA : A.length = 65534) :
    exec (memStore sha256) (write A) newWriter [] = (.ok 65534, fullWriter A, []) := by
  have hne : A ≠ [] := by
    rintro rfl
    simp at hA
  have htake : A.take 65534 = A := take_of_length_le (by omega)
  have hdrop : A.drop 65534 = [] := drop_of_length_le (by omega)
  have hfit : min A.length (maxlen - newWriter.nbytes 0) = 65534 := by
    rw [hA]
    rfl
  have hloop : ∀ rounds, exec (memStore sha256) (writeLoop (rounds + 2) A) newWriter [] =
      (.ok (), fullWriter A, []) := by
    intro rounds
    rw [writeLoop, if_neg hne, exec_bind, exec_self]
    simp only [hfit]
    rw [if_neg (by decide), exec_bind, exec_update, hdrop, htake, writeLoop, if_pos rfl]
    rfl
  rw [write, show 2 * A.length + 1 = 131067 + 2 by omega, exec_bind_ok _ (hloop _), hA]
  rfl

theorem exec_write_next (hA : A.length = 65534) : exec (memStore sha256) (write [b]) (fullWriter A) [] =
      (.ok 1, nextWriter (sha256 (0 :: A)) b, [0 :: A]) := by
  simp [write, writeLoop, flushLvl, flushFrom, exec_bind, hA, Writer.nbytes, maxlen, fullWriter,
    Writer.addEntry, memStore, nlevels, Writer.setLvl, newWriter, nextWriter]
  funext i
  by_cases h0 : i = 0
  · simp [h0]
  · by_cases h1 : i = 1
    · simp [h1]
    · simp [h0, h1]

theorem exec_close_next (h : Hash) (s : List Bytes) : ∃ w, exec (memStore sha256) close (nextWriter h b) s =
      (.ok ⟨1, sha256 (rootChunk h (sha256 [0, b]))⟩, w, rootChunk h (sha256 [0, b]) :: [0, b] :: s) := by
  simp [close, highestBelow, flushLevels, flushLvl, flushFrom, exec_bind, newWriter, Writer.nbytes, maxlen,
    Writer.addEntry, memStore, nlevels, Writer.setLvl, nextWriter, rootChunk, range_succ, Hash.length_bytes,
    take_of_length_le, Hash.copy_bytes]

theorem writeTree_two_leaves (hA : A.length = 65534) : ∃ w,
    exec (memStore sha256) (writeTree [A ++ [b]]) newWriter [] =
      (.ok ⟨1, sha256 (rootChunk (sha256 (0 :: A)) (sha256 [0, b]))⟩, w,
        [rootChunk (sha256 (0 :: A)) (sha256 [0, b]), [0, b], 0 :: A]) := by
  have hlen : (A ++ [b]).length < 2 ^ 64 := by
    rw [length_append, hA, length_singleton]
    decide
  obtain ⟨t, w, written, hrun, -⟩ := writeTree_spec sha256 [] hlen
  obtain ⟨w', hclose⟩ := exec_close_next sha256 b (sha256 (0 :: A)) [0 :: A]
  have htwo : exec (memStore sha256) (writeTree [A, [b]]) newWriter [] =
      (.ok ⟨1, sha256 (rootChunk (sha256 (0 :: A)) (sha256 [0, b]))⟩, w',
        [rootChunk (sha256 (0 :: A)) (sha256 [0, b]), [0, b], 0 :: A]) := by
    simp [writeTree, writeAll, exec_bind, exec_write_full sha256 hA, exec_write_next sha256 b hA, hclose]
  refine ⟨w', ?_⟩
  rw [hrun [A ++ [b]] (by simp), ← hrun [A, [b]] (by simp), htwo]

/-- A hash that tells chunks of different lengths apart. -/
def lengthHash (c : Bytes) : Hash := Hash.copy (leBytes 8 c.length)

theorem injOn_two_leaves (hA : A.length = 65534) (h h' : Hash) :
    Set.InjOn lengthHash {c | c ∈ [rootChunk h h', [0, b], 0 :: A]} := by
  have hroot : (rootChunk h h').length = 81 := by simp [rootChunk, h.length_bytes, h'.length_bytes]
  have hfull : (0 :: A).length = 65535 := by simp [hA]
  have h₁ : Hash.copy (leBytes 8 81) ≠ Hash.copy (leBytes 8 2) := by decide
  have h₂ : Hash.copy (leBytes 8 81) ≠ Hash.copy (leBytes 8 65535) := by decide
  have h₃ : Hash.copy (leBytes 8 2) ≠ Hash.copy (leBytes 8 65535) := by decide
  intro c hc c' hc' heq
  simp only [Set.mem_ofPred_eq, mem_cons, not_mem_nil, or_false] at hc hc'
  simp only [lengthHash] at heq
  rcases hc with rfl | rfl | rfl <;> rcases hc' with rfl | rfl | rfl <;> simp_all [Ne.symm]

end TwoLeaves

/-- Every way of cutting `d` into `Write` calls returns the same tree. Calls of `Read` on it, with
buffers of any sizes and in a store that fails now and then, lose nothing just if no call of `Get`
fails with `io.EOF`. -/
theorem retry_loses_nothing_iff (sha256 : Bytes → Hash) (s₀ : List Bytes) (d : Bytes)
    (hd : d.length < 2 ^ 64) : ∃ t w written,
      (∀ bufs : List Bytes, bufs.flatten = d →
        Method.exec (memStore sha256) (writeTree bufs) newWriter s₀ = (.ok t, w, written ++ s₀)) ∧
      (Set.InjOn sha256 {c | c ∈ written} → ∃ r,
        Method.exec (memStore sha256) (newReader t.data) () (written ++ s₀) =
          (.ok r, (), written ++ s₀) ∧
        ∀ (fails : ℕ → Option GoError) (ns : List ℕ),
          LosesNothing d (reads (flaky sha256 fails) ns r (written ++ s₀, 0)).1 ↔
            ∀ i, i < (reads (flaky sha256 fails) ns r (written ++ s₀, 0)).2.2.2 → fails i ≠ some .eof) := by
  obtain ⟨t, w, written, hrun, hh, ht⟩ := writeTree_spec sha256 s₀ hd
  refine ⟨t, w, written, hrun, fun hinj => ?_⟩
  have hs : Serves (memStore sha256) (written ++ s₀) (Stored sha256 written) := serves_memStore hinj
  obtain ⟨r, hnew, hr, -⟩ := newReader_spec () hs hh (by simp only [nlevels]; omega)
  refine ⟨r, hnew, fun fails ns => ?_⟩
  have hiff := (reads_iff fails (s := (written ++ s₀, 0)) ns hs hr).2
  simpa using hiff

/-- A file of two leaves. -/
def longFile : Bytes := List.replicate 65534 0 ++ [1]

def longChunks : List Bytes :=
  [rootChunk (lengthHash (0 :: List.replicate 65534 0)) (lengthHash [0, 1]), [0, 1], 0 :: List.replicate 65534 0]

def longRoot : Hash :=
  lengthHash (rootChunk (lengthHash (0 :: List.replicate 65534 0)) (lengthHash [0, 1]))

theorem injOn_longChunks : Set.InjOn lengthHash {c | c ∈ longChunks} :=
  injOn_two_leaves 1 length_replicate _ _

theorem longFile_ne_nil : longFile ≠ [] := append_ne_nil_of_right_ne_nil _ (by decide)

theorem length_longFile : longFile.length < 2 ^ 64 := by
  rw [longFile, length_append, length_replicate]
  decide

theorem exec_write_longFile : ∃ w,
    exec (memStore lengthHash) (writeTree [longFile]) newWriter [] = (.ok ⟨1, longRoot⟩, w, longChunks) :=
  writeTree_two_leaves lengthHash 1 length_replicate

/-- The first `Get` fails, and the same `Read` is called again. -/
theorem retry_loses_nothing_once : ∃ r,
    Method.exec (memStore lengthHash) (newReader longRoot) () longChunks = (.ok r, (), longChunks) ∧
    LosesNothing longFile (reads (flaky lengthHash fun i => if i = 0 then some .unexpectedEOF else none)
      [512, 512] r (longChunks, 0)).1 := by
  obtain ⟨t, w, written, hrun, hread⟩ := retry_loses_nothing_iff lengthHash [] longFile length_longFile
  obtain ⟨w', hwrite⟩ := exec_write_longFile
  have hsame := (hrun [longFile] (by simp)).symm.trans hwrite
  simp only [List.append_nil, Prod.mk.injEq, Except.ok.injEq] at hsame
  obtain ⟨rfl, rfl, rfl⟩ := hsame
  obtain ⟨r, hnew, hiff⟩ := hread injOn_longChunks
  rw [List.append_nil] at hnew hiff
  refine ⟨r, hnew, (hiff _ _).mpr fun i _ => ?_⟩
  split
  · decide
  · exact nofun

/-- The `Get` of the first leaf fails with `io.EOF`, and so does the first `Read`. -/
theorem read_returns_eof_of_store : ∃ r,
    Method.exec (memStore lengthHash) (newReader longRoot) () longChunks = (.ok r, (), longChunks) ∧
    (reads (flaky lengthHash fun _ => some .eof) [512] r (longChunks, 0)).1 = [.error .eof] ∧
    ¬ LosesNothing longFile (reads (flaky lengthHash fun _ => some .eof) [512] r (longChunks, 0)).1 := by
  obtain ⟨w, hwrite⟩ := exec_write_longFile
  obtain ⟨-, -, ht⟩ := writeTree_ok (by simpa using length_longFile) hwrite
  rw [List.flatten_singleton] at ht
  have hs := serves_self injOn_longChunks
  obtain ⟨r, hnew, hr, -, hheight, -⟩ := newReader_spec () hs ht.holds ht.depth_lt
  have hsrc := newReader_src hnew (by rw [show r.height = 1 from hheight]; decide)
  have hread : (reads (flaky lengthHash fun _ => some .eof) [512] r (longChunks, 0)).1 = [.error .eof] := by
    rcases (read_outcome 512 (flaky_faulty (fun _ => some .eof) hs) (s := (longChunks, 0)) rfl hr).2
      longFile_ne_nil with ⟨r', s', c, out, -, -, hfetch, hpos, -⟩ | ⟨err, r', s', c, hrun, -, hbreak, -⟩
    · have hnone := (flaky_fetches hfetch).2 0 le_rfl (by simpa using hpos hsrc)
      cases hnone
    · have hfail := (flaky_breaks hs hbreak).2.1
      obtain rfl := Option.some.inj hfail
      simp only [reads, hrun]
  refine ⟨r, hnew, hread, fun hloses => ?_⟩
  rw [hread, losesNothing_error] at hloses
  exact longFile_ne_nil (hloses.1 rfl)

end Bpy.HashTreeRetries
