import Bpy.FailStop
import Bpy.HashTreeRoundTrip

/-!
# Reading whole hash trees from a store that may fail

`ioutil.ReadAll` over an `htree.Reader`, and the store that answers a request as the
memory store does or, if it is faulty, with an error. The error `io.EOF` is not among
these: a reader passes it on, and its caller takes it for the end of the tree.
-/
namespace Bpy.HashTreeStreams
open ByteWords InteractionPrograms ContentStore HashTreeWriter HashTreeContent HashTreeReader
open HashTreeReading HashTreeRoundTrip ProgramLogic FailStop Method

section ReadAll

-- with `n` bytes read so far, the next read has room for `room n + 1` bytes
variable (room : ℕ → ℕ)

def readAllFrom : ℕ → Bytes → ReaderM Bytes
  | 0, _ => goPanic "out of rounds"
  | rounds + 1, acc => do
    match ← Method.attempt (read (room acc.length + 1)) with
    | .ok out => readAllFrom rounds (acc ++ out)
    | .error .eof => pure acc
    | .error e => Method.raise e

/-- `ioutil.ReadAll`. A read returns a byte or ends the loop. -/
def readAll : ReaderM Bytes := readAllFrom room (2 ^ 64) []

variable {σ : Type} {hd : Handler σ} {s : σ} {stored : Hash → Bytes → Prop} {r : Reader} {Y : Bytes}

theorem readAllFrom_spec (hs : Serves hd s stored) (rounds : ℕ) (acc : Bytes)
    (hr : Reading stored r Y) (hY : Y.length < rounds) :
    ∃ r', exec hd (readAllFrom room rounds acc) r s = (.ok (acc ++ Y), r', s) ∧ r'.height = r.height := by
  induction rounds generalizing r Y acc with
  | zero => omega
  | succ rounds ih =>
    obtain ⟨hend, hmore⟩ := read_spec (room acc.length + 1) hs hr
    by_cases hnil : Y = []
    · refine ⟨r, ?_, rfl⟩
      simp [readAllFrom, exec_bind, exec_attempt, hend hnil, hnil]
    · obtain ⟨r₁, out, hrun, hout⟩ := hmore hnil
      have hlen := hout.shorter (Nat.succ_pos _) hnil
      obtain ⟨r', hrest, hheight⟩ := ih (acc ++ out) hout.reading (by omega)
      refine ⟨r', ?_, hheight.trans hout.height⟩
      rw [List.append_assoc, hout.append] at hrest
      simp [readAllFrom, exec_bind, exec_attempt, hrun, hrest]

theorem readAll_spec (hs : Serves hd s stored) (hr : Reading stored r Y) (hY : Y.length < 2 ^ 64) :
    ∃ r', exec hd (readAll room) r s = (.ok Y, r', s) ∧ r'.height = r.height :=
  readAllFrom_spec room hs (2 ^ 64) [] hr hY

end ReadAll

/-- The request is answered by the error `e`. -/
def fail (e : GoError) : (q : StoreRequest) → q.Response
  | .put _ => .error e
  | .get _ => .error e

def Bad (q : StoreRequest) (r : q.Response) : Prop := ∃ e, r = fail e q ∧ e ≠ .eof

/-- The store as a world: a faulty store may fail, a failed `Put` with or without an effect. -/
def storeWorld (sha256 : Bytes → Hash) (faulty : Prop) (s : List Bytes) (q : StoreRequest)
    (r : q.Response) (s' : List Bytes) : Prop :=
  memStore sha256 q s = (r, s') ∨
    (faulty ∧ Bad q r ∧ (s' = s ∨ s' = (memStore sha256 q s).2))

theorem runs_memStore {ω α : Type} {sha256 : Bytes → Hash} {faulty : Prop} {x : StoreM ω α} {w w' : ω}
    {s s' : List Bytes} {r : Except GoError α} (hx : exec (memStore sha256) x w s = (r, w', s')) :
    Prog.Runs (storeWorld sha256 faulty) (x w) s (.done (r, w')) s' := by
  have hT : ∀ s q, storeWorld sha256 faulty s q (memStore sha256 q s).1 (memStore sha256 q s).2 :=
    fun s q => Or.inl rfl
  have hrun := Prog.runs_run hT (x w) s
  cases hx
  exact hrun

/-- The request only reads. -/
def Reads : StoreRequest → Prop
  | .put _ => False
  | .get _ => True

theorem memStore_reads (sha256 : Bytes → Hash) {q : StoreRequest} (hq : Reads q) (s : List Bytes) :
    (memStore sha256 q s).2 = s := by
  cases q with
  | put data => exact hq.elim
  | get hash => rfl

theorem honest_storeWorld (sha256 : Bytes → Hash) (faulty : Prop) :
    Honest Reads Bad (storeWorld sha256 faulty) (memStore sha256) faulty where
  good := by
    intro s q r s' hs hgood
    rcases hs with hs | ⟨-, hbad, -⟩
    · exact hs
    · exact absurd hbad hgood
  fault := by
    intro s q r s' hs hbad
    rcases hs with hs | ⟨hfaulty, -, -⟩
    · exact Or.inr (by rw [hs]; exact hbad)
    · exact Or.inl hfaulty
  keep := by
    intro s q r s' hs hbad hq
    rcases hs with hs | ⟨-, -, hs | hs⟩
    · rw [← memStore_reads sha256 hq s, hs]
    · exact hs
    · rw [hs, memStore_reads sha256 hq s]

/-- The method only reads, and returns an error other than `io.EOF` when a request fails. -/
abbrev StopsReading {ω α : Type} (x : StoreM ω α) : Prop := Stops Reads Bad (fun e => e ≠ GoError.eof) x

variable {ω : Type}

theorem stops_get (hash : Hash) : StopsReading (get hash : StoreM ω Bytes) :=
  stops_send trivial (fun _ h => h)

theorem get_wp {sha256 : Bytes → Hash} {faulty : Prop} {s : List Bytes} {h : Hash} {c : Bytes} (w : ω)
    (hinj : Set.InjOn sha256 {c | c ∈ s}) (hc : Stored sha256 s h c) :
    wp (storeWorld sha256 faulty) (fun _ q => Reads q) (get h) (fun res w' s' => w' = w ∧ s' = s ∧
      (res = .ok c ∨ (faulty ∧ ∃ e, res = .error e))) w s := by
  refine ⟨trivial, fun r s' hstep => ?_⟩
  rcases hstep with hget | ⟨hfaulty, ⟨e, rfl, -⟩, hs | hs⟩
  · rw [serves_self hinj h c hc, Prod.mk.injEq] at hget
    exact ⟨rfl, hget.2.symm, Or.inl hget.1.symm⟩
  · exact ⟨rfl, hs, Or.inr ⟨hfaulty, e, rfl⟩⟩
  · exact ⟨rfl, hs, Or.inr ⟨hfaulty, e, rfl⟩⟩

theorem get_wp_unstored {sha256 : Bytes → Hash} {faulty : Prop} {s : List Bytes} {h : Hash} (w : ω)
    (hc : ∀ c ∈ s, sha256 c ≠ h) :
    wp (storeWorld sha256 faulty) (fun _ q => Reads q) (get h)
      (fun res _ s' => s' = s ∧ ∃ e, res = .error e) w s := by
  have hnone : lookup sha256 s h = none := by simpa [lookup] using hc
  refine ⟨trivial, fun r s' hstep => ?_⟩
  rcases hstep with hget | ⟨-, ⟨e, rfl, -⟩, hs | hs⟩
  · simp only [memStore, hnone, Prod.mk.injEq] at hget
    exact ⟨hget.2.symm, _, hget.1.symm⟩
  · exact ⟨hs, e, rfl⟩
  · exact ⟨hs, e, rfl⟩

theorem stops_newReader (root : Hash) : StopsReading (newReader root : StoreM ω Reader) :=
  (stops_get root).bind (fun _ => stops_ofExcept _)

theorem stops_nextFrom (n lvl : ℕ) : StopsReading (nextFrom n lvl) := by
  induction n generalizing lvl with
  | zero =>
    refine stops_self.bind (fun r => ?_)
    split
    · exact stops_raise _
    · exact stops_raise _
  | succ n ih =>
    refine stops_self.bind (fun r => ?_)
    split
    · exact stops_raise _
    · extract_lets rest
      have hrest : ∀ eof, StopsReading (rest eof) := by
        intro eof
        simp only [rest]
        split
        · exact stops_pure _
        · refine stops_self.bind (fun r => (stops_ofExcept _).bind (fun hash => ?_))
          refine (stops_get hash).bind (fun buf => ?_)
          split
          · exact stops_raise _
          · exact (stops_update _).bind (fun _ => stops_pure _)
      split
      · exact (stops_pure _).bind hrest
      · split
        · exact (stops_pure _).bind hrest
        · exact (ih _).bind hrest

theorem stops_copyOut (n : ℕ) (src : Bytes) : StopsReading (copyOut n src) :=
  (stops_update _).bind (fun _ => stops_pure _)

theorem stops_read (n : ℕ) : StopsReading (HashTreeReader.read n) := by
  refine stops_self.bind (fun r => (stops_ofExcept _).bind (fun src => ?_))
  split
  · refine (stops_nextFrom _ _).bind (fun eof => ?_)
    split
    · exact stops_raise _
    · exact stops_self.bind (fun r => (stops_ofExcept _).bind (fun src => stops_copyOut n src))
  · exact stops_copyOut n src

theorem stops_readAll (room : ℕ → ℕ) : StopsReading (readAll room) := by
  have hloop : ∀ rounds acc, StopsReading (readAllFrom room rounds acc) := by
    intro rounds
    induction rounds with
    | zero => exact fun acc => stops_raise _
    | succ rounds ih =>
      intro acc
      refine (stops_read _).attempt_bind (fun r => ?_) (fun e w he => ?_)
      · split
        · exact ih _
        · exact stops_pure _
        · exact stops_raise _
      · cases e with
        | eof => exact absurd rfl he
        | _ => exact ⟨_, w, rfl, he⟩
  exact hloop _ _

/-- `NewReader` and `ReadAll`. -/
def readTree (room : ℕ → ℕ) (hash : Hash) : StoreM ω (Bytes × Reader) := do
  let rdr ← newReader hash
  Method.on rdr (readAll room)

theorem stops_readTree (room : ℕ → ℕ) (hash : Hash) : StopsReading (readTree room hash : StoreM ω (Bytes × Reader)) :=
  (stops_newReader hash).bind (fun rdr => (stops_readAll room).on rdr)

theorem readTree_receiver (room : ℕ → ℕ) (hash : Hash) (w : ω) : (readTree room hash w).Always (fun r => r.2 = w) := by
  have hnew : (newReader hash w).Always (fun r => r.2 = w) := by
    intro r
    cases r with
    | error e => rfl
    | ok buf => rfl
  apply hnew.bind
  intro r hr
  rcases r with ⟨r, w'⟩
  change w' = w at hr
  subst hr
  cases r with
  | error e => rfl
  | ok rdr => exact (Prog.always_of_forall (P := fun _ => True) _ (fun _ => trivial)).bind (fun _ _ => rfl)

/-- `t` is a tree that the writer can have written, with the data `d`. -/
structure Tree (stored : Hash → Bytes → Prop) (t : HTree) (d : Bytes) : Prop where
  holds : Holds stored t.depth 0 t.data d
  depth_lt : t.depth + 1 < nlevels
  length_lt : d.length < 2 ^ 64

theorem Tree.mono {stored stored' : Hash → Bytes → Prop} {t : HTree} {d : Bytes}
    (h : Tree stored t d) (hst : ∀ h c, stored h c → stored' h c) : Tree stored' t d :=
  ⟨h.holds.mono hst, h.depth_lt, h.length_lt⟩

theorem writeTree_ok {sha256 : Bytes → Hash} {s s' : List Bytes} {bufs : List Bytes} {t : HTree} {w : Writer}
    (hlen : bufs.flatten.length < 2 ^ 64) (hw : exec (memStore sha256) (writeTree bufs) newWriter s = (.ok t, w, s')) :
    ∃ ws, s' = ws ++ s ∧ Tree (Stored sha256 s') t bufs.flatten := by
  obtain ⟨t', w', written, hrun, hh, ht⟩ := writeTree_spec sha256 s hlen
  rw [hrun bufs rfl] at hw
  cases hw
  refine ⟨written, rfl, hh.mono (fun h c hc => ?_), ?_, hlen⟩
  · exact ⟨List.mem_append_left _ hc.1, hc.2⟩
  · simp only [nlevels]
    omega

section ReadTree

variable {t : HTree} {d : Bytes}

theorem readTree_spec (room : ℕ → ℕ) {σ : Type} {hd : Handler σ} {s : σ} {stored : Hash → Bytes → Prop} (w : ω)
    (hs : Serves hd s stored) (ht : Tree stored t d) :
    ∃ r, exec hd (readTree room t.data) w s = (.ok (d, r), w, s) ∧ getHeight r = t.depth := by
  obtain ⟨r, hnew, hr, -, hheight, -⟩ := newReader_spec w hs ht.holds ht.depth_lt
  obtain ⟨r', hall, hheight'⟩ := readAll_spec room hs hr ht.length_lt
  refine ⟨r', ?_, hheight'.trans hheight⟩
  simp [readTree, exec_bind, hnew, exec_on, hall, Except.map]

variable {sha256 : Bytes → Hash} (faulty : Prop) {s : List Bytes}

theorem readTree_wp (room : ℕ → ℕ) (w : ω) (hinj : Set.InjOn sha256 {c | c ∈ s}) (ht : Tree (Stored sha256 s) t d) :
    ∃ r, getHeight r = t.depth ∧ wp (storeWorld sha256 faulty) (fun _ q => Reads q)
      (readTree room t.data) (fun res w' s' => w' = w ∧ s' = s ∧
        (res = .ok (d, r) ∨ (faulty ∧ ∃ e, res = .error e))) w s := by
  obtain ⟨r, hrun, hheight⟩ := readTree_spec room w (serves_self hinj) ht
  have hwp := method_wp_of_stops (I := fun s' => s' = s) (honest_storeWorld sha256 faulty)
    (fun q s' hq hs => by rw [memStore_reads sha256 hq, hs]) (stops_readTree room t.data) rfl hrun
  refine ⟨r, hheight, Prog.wp_mono ?_ _ _ (Prog.wp_and_always hwp (readTree_receiver room t.data w))⟩
  intro x s' hx
  obtain ⟨hres, hw⟩ := hx
  rcases hres with ⟨hok, -, hs⟩ | ⟨hfaulty, hs, e, he, -⟩
  · exact ⟨hw, hs, Or.inl hok⟩
  · exact ⟨hw, hs, Or.inr ⟨hfaulty, e, he⟩⟩

end ReadTree

end Bpy.HashTreeStreams
