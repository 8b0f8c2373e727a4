import Bpy.HashTreeStreams

/-!
# `refs`

A ref is the time of its creation, the hash of a root directory and, unless it is the
first one, the hash of the ref before it.
-/
namespace Bpy.References
open ByteWords InteractionPrograms ContentStore HashTreeWriter
open HashTreeRoundTrip HashTreeStreams ProgramLogic Method
open List

structure Ref where
  createdAt : Int64
  root : Hash
  hasPrev : Bool
  prev : Hash
  deriving DecidableEq

namespace Ref

/-- `Ref{}`. -/
def zero : Ref := ⟨0, Hash.zero, false, Hash.zero⟩

def encode (r : Ref) : Bytes :=
  leBytes 8 r.createdAt.toUInt64.toNat ++ r.root.bytes ++ if r.hasPrev then r.prev.bytes else []

/-- What can be read back: the field `Prev` is written only if it is used. -/
def norm (r : Ref) : Ref := { r with prev := if r.hasPrev then r.prev else Hash.zero }

def decode (data : Bytes) : Except GoError Ref :=
  if data.length < 8 then .error (.panic "slice bounds out of range")
  else
    let createdAt := (UInt64.ofNat (leNat (data.take 8))).toInt64
    let data := data.drop 8
    if data.length = 32 then
      .ok ⟨createdAt, Hash.copy data, false, Hash.zero⟩
    else if data.length = 64 then
      .ok ⟨createdAt, Hash.copy (data.take 32), true, Hash.copy ((data.drop 32).take 32)⟩
    else
      .error (.text "invalid ref")

theorem length_encode (r : Ref) : r.encode.length = if r.hasPrev then 72 else 40 := by
  cases hp : r.hasPrev <;> simp [encode, hp, r.root.length_bytes, r.prev.length_bytes]

theorem decode_encode (r : Ref) : decode r.encode = .ok r.norm := by
  have htime : leNat (leBytes 8 r.createdAt.toUInt64.toNat) = r.createdAt.toUInt64.toNat :=
    leNat_leBytes_of_lt (by simpa using r.createdAt.toUInt64.toNat_lt)
  have htake : r.encode.take 8 = leBytes 8 r.createdAt.toUInt64.toNat := by
    rw [encode, append_assoc, List.take_left' (length_leBytes _ _)]
  have hdrop : r.encode.drop 8 = r.root.bytes ++ if r.hasPrev then r.prev.bytes else [] := by
    rw [encode, append_assoc, List.drop_left' (length_leBytes _ _)]
  have hlen : ¬ r.encode.length < 8 := by
    rw [length_encode]
    split <;> omega
  rw [decode, if_neg hlen, htake, hdrop, htime]
  cases hp : r.hasPrev with
  | false => simp [norm, hp, r.root.length_bytes]
  | true => simp [norm, hp, r.root.length_bytes, r.prev.length_bytes, take_of_length_le]

end Ref

variable {ω : Type}

section Get

variable (room : ℕ → ℕ)

/-- An error of the store is dropped: the source returns `Ref{}` and `nil` for it. -/
def getRef (hash : Hash) : StoreM ω Ref := do
  match ← catchError (readTree room hash) with
  | .error _ => pure Ref.zero
  | .ok (data, _) => Method.ofExcept (Ref.decode data)

/-- A ref that is stored is read back, unless the store fails; then it may be taken for
the zero ref. -/
theorem getRef_wp {sha256 : Bytes → Hash} {faulty : Prop} {s : List Bytes} {k : ℕ} {h : Hash} {r : Ref}
    (w : ω) (hinj : Set.InjOn sha256 {c | c ∈ s}) (ht : Tree (Stored sha256 s) ⟨k, h⟩ r.encode) :
    wp (storeWorld sha256 faulty) (fun _ q => Reads q) (getRef room h) (fun res w' s' => w' = w ∧ s' = s ∧
        (res = .ok r.norm ∨ (faulty ∧ (res = .ok Ref.zero ∨ ∃ e, res = .error e)))) w s := by
  obtain ⟨rdr, -, hread⟩ := readTree_wp faulty room w hinj ht
  have hcatch : wp (storeWorld sha256 faulty) (fun _ q => Reads q)
      (catchError (readTree room h)) (fun res w' s' => w' = w ∧ s' = s ∧ (res = .ok (.ok (r.encode, rdr)) ∨
          (faulty ∧ ((∃ e, res = .ok (.error e)) ∨ ∃ e, res = .error e)))) w s := by
    refine wp_seq_attempt hread ?_
    rintro res w' s' ⟨rfl, rfl, rfl | ⟨hfaulty, e, rfl⟩⟩
    · exact ⟨rfl, rfl, Or.inl rfl⟩
    · cases e with
      | panic msg => exact ⟨rfl, rfl, Or.inr ⟨hfaulty, Or.inr ⟨_, rfl⟩⟩⟩
      | _ => exact ⟨rfl, rfl, Or.inr ⟨hfaulty, Or.inl ⟨_, rfl⟩⟩⟩
  refine wp_seq hcatch ?_ ?_
  · rintro res w' s' ⟨rfl, rfl, hres⟩
    cases res with
    | error e =>
      refine ⟨rfl, rfl, Or.inr ?_⟩
      rcases hres with hres | ⟨hfaulty, -⟩
      · simp at hres
      · exact ⟨hfaulty, Or.inl rfl⟩
    | ok x =>
      rcases hres with hres | ⟨-, ⟨e, hres⟩ | ⟨e, hres⟩⟩
      · simp only [Except.ok.injEq] at hres
        subst hres
        exact ⟨rfl, rfl, Or.inl (Ref.decode_encode r)⟩
      · simp at hres
      · simp at hres
  · rintro e w' s' ⟨rfl, rfl, hres⟩
    rcases hres with hres | ⟨hfaulty, -⟩
    · simp at hres
    · exact ⟨rfl, rfl, Or.inr ⟨hfaulty, Or.inr ⟨e, rfl⟩⟩⟩

/-- The loop of `GetAtTime` over the refs before `ref`. -/
def getAtTime (atUnix : Int64) : ℕ → Ref → StoreM ω (Option Ref)
  | 0, _ => goPanic "out of rounds"
  | rounds + 1, ref =>
    if ref.createdAt ≤ atUnix then pure (some ref)
    else if ref.hasPrev then do
      let prevRef ← getRef room ref.prev
      getAtTime atUnix rounds prevRef
    else pure none

def getNVersionsAgo : ℕ → Ref → StoreM ω Ref
  | 0, ref => pure ref
  | n + 1, ref =>
    if ref.hasPrev then do
      let nextRef ← getRef room ref.prev
      getNVersionsAgo n nextRef
    else pure ref

end Get

section Put

/-- `PutRef` up to its deferred call. -/
def writeRef (ref : Ref) : WriterM Hash := do
  let _ ← write (leBytes 8 ref.createdAt.toUInt64.toNat)
  let _ ← write ref.root.bytes
  if ref.hasPrev then
    match ← catchError (write ref.prev.bytes) with
    | .error e =>
      let _ ← catchError close
      Method.raise e
    | .ok _ =>
      let tree ← close
      pure tree.data
  else
    let tree ← close
    pure tree.data

/-- `PutRef` up to its deferred call, with the writer that it leaves. -/
def startRef (ref : Ref) : StoreM ω (Except GoError Hash × Writer) :=
  Method.on newWriter (Method.attempt (writeRef ref))

/-- The deferred `Close` runs after the tree has been closed, and its error is dropped. -/
def deferredClose (w : Writer) : StoreM ω Unit := do
  let _ ← Method.on w (catchError close)
  pure ()

def putRef (ref : Ref) : StoreM ω Hash := do
  let (r, w) ← startRef ref
  deferredClose w
  Method.ofExcept r

/-- The pieces in which a ref is written. -/
def pieces (ref : Ref) : List Bytes :=
  [leBytes 8 ref.createdAt.toUInt64.toNat, ref.root.bytes] ++ if ref.hasPrev then [ref.prev.bytes] else []

theorem flatten_pieces (ref : Ref) : (pieces ref).flatten = ref.encode := by
  cases h : ref.hasPrev <;> simp [pieces, Ref.encode, h]

theorem exec_writeRef {σ : Type} {hd : Handler σ} {ref : Ref} {w w' : Writer} {s s' : σ} {t : HTree}
    (h : exec hd (writeTree (pieces ref)) w s = (.ok t, w', s')) :
    exec hd (writeRef ref) w s = (.ok t.data, w', s') := by
  simp only [writeTree, pieces, cons_append, nil_append, writeAll, exec_bind] at h
  simp only [writeRef, exec_bind]
  rcases h₁ : exec hd (write (leBytes 8 ref.createdAt.toUInt64.toNat)) w s with ⟨r₁, w₁, s₁⟩
  rw [h₁] at h
  cases r₁ with
  | error e => simp at h
  | ok n =>
    simp only at h ⊢
    rcases h₂ : exec hd (write ref.root.bytes) w₁ s₁ with ⟨r₂, w₂, s₂⟩
    rw [h₂] at h
    cases r₂ with
    | error e => simp at h
    | ok n =>
      simp only at h ⊢
      cases hp : ref.hasPrev with
      | false =>
        simp only [hp, Bool.false_eq_true, if_false, writeAll, exec_pure] at h ⊢
        simp [exec_bind, h]
      | true =>
        simp only [hp, if_true, writeAll, exec_bind, exec_pure] at h ⊢
        rcases h₃ : exec hd (write ref.prev.bytes) w₂ s₂ with ⟨r₃, w₃, s₃⟩
        rw [h₃] at h
        cases r₃ with
        | error e => simp at h
        | ok n =>
          simp only at h
          simp [exec_catchError_ok h₃, exec_bind, h]

theorem writeRef_spec (sha256 : Bytes → Hash) (s : List Bytes) (ref : Ref) :
    ∃ t w written, exec (memStore sha256) (writeRef ref) newWriter s =
        (.ok t.data, w, written ++ s) ∧ Tree (Stored sha256 written) t ref.encode := by
  have hlen : ref.encode.length < 2 ^ 64 := by
    rw [Ref.length_encode]
    split <;> omega
  obtain ⟨t, w, written, hrun, hh, ht⟩ := writeTree_spec sha256 s hlen
  refine ⟨t, w, written, exec_writeRef (hrun (pieces ref) (flatten_pieces ref)), hh, ?_, hlen⟩
  simp only [nlevels]
  omega

theorem putRef_ok {sha256 : Bytes → Hash} {s s' : List Bytes} {ref : Ref} {w w' : ω} {h : Hash}
    (hput : exec (memStore sha256) (putRef ref) w s = (.ok h, w', s')) :
    ∃ ws k, s' = ws ++ s ∧ Tree (Stored sha256 s') ⟨k, h⟩ ref.encode := by
  obtain ⟨t, w₁, written, hrun, ht⟩ := writeRef_spec sha256 s ref
  simp only [putRef, startRef, deferredClose, exec_bind, exec_on, exec_attempt, hrun, Except.map] at hput
  obtain ⟨ws, hws⟩ : ∃ ws, ((catchError close w₁).run (memStore sha256) (written ++ s)).2 =
      ws ++ (written ++ s) := run_memStore_grows _ _
  rcases hclose : exec (memStore sha256) (catchError close) w₁ (written ++ s) with ⟨r, w₂, s₂⟩
  have hs₂ : s₂ = ws ++ (written ++ s) := by
    rw [← hws]
    exact (congrArg (fun x => x.2.2) hclose).symm
  rw [hclose] at hput
  cases r with
  | error e => simp at hput
  | ok r =>
    simp only [exec_ofExcept, exec_pure, Prod.mk.injEq, Except.ok.injEq] at hput
    obtain ⟨rfl, -, rfl⟩ := hput
    rw [hs₂]
    refine ⟨ws ++ written, t.depth, by rw [append_assoc], ht.mono (fun h c hc => ?_)⟩
    rw [← append_assoc]
    exact ⟨mem_append_left _ (mem_append_right _ hc.1), hc.2⟩

end Put

end Bpy.References
