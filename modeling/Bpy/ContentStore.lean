import Bpy.ByteWords
import Bpy.InteractionPrograms
import Mathlib.Data.Set.Function

/-!
# The content store interface

`bpy.CStore` as an interface: code that uses a store is a program over `StoreRequest`,
and a store is a handler of these requests. `MemStore` is the store of the tests; it
keeps every chunk that was put, newest first, so that a lookup finds the last chunk
put under a hash. SHA-256 is a parameter.
-/
namespace Bpy.ContentStore
open ByteWords InteractionPrograms Method

/-- Error values. A run-time panic is an outcome of its own. -/
inductive GoError where
  | eof
  | unexpectedEOF
  | text (msg : String)
  /-- `fmt.Errorf` with one argument -/
  | format (msg : String) (arg : Bytes)
  | panic (msg : String)
  deriving DecidableEq, Repr

/-- `[32]byte`. -/
structure Hash where
  bytes : Bytes
  length_bytes : bytes.length = 32
  deriving DecidableEq

namespace Hash

/-- `copy(hash[:], src)` into a zeroed array. -/
def copy (src : Bytes) : Hash := ⟨(src ++ List.replicate 32 0).take 32, by simp⟩

@[simp] theorem copy_bytes (h : Hash) : copy h.bytes = h := by
  rcases h with ⟨bs, hbs⟩
  simp [copy, hbs]

theorem bytes_inj {h h' : Hash} (heq : h.bytes = h'.bytes) : h = h' := by
  rw [← copy_bytes h, heq, copy_bytes]

def zero : Hash := copy []

end Hash

inductive StoreRequest where
  | put (data : Bytes)
  | get (hash : Hash)
  deriving DecidableEq

abbrev StoreRequest.Response : StoreRequest → Type
  | .put _ => Except GoError Hash
  | .get _ => Except GoError Bytes

/-- Code with a receiver `ω` that uses a store. -/
abbrev StoreM (ω α : Type) := Method StoreRequest StoreRequest.Response GoError ω α

variable {ω σ α β : Type}

def put (data : Bytes) : StoreM ω Hash := Method.send (.put data) id

def get (hash : Hash) : StoreM ω Bytes := Method.send (.get hash) id

abbrev goPanic (msg : String) : StoreM ω α := Method.raise (.panic msg)

/-- The outcome of a call as a value. A panic cannot be caught. -/
def catchError {Q : Type} {R : Q → Type} (x : Method Q R GoError ω α) :
    Method Q R GoError ω (Except GoError α) := do
  match ← Method.attempt x with
  | .error (.panic msg) => Method.raise (.panic msg)
  | r => pure r

abbrev Handler (σ : Type) := (q : StoreRequest) → σ → q.Response × σ

@[simp] theorem exec_put (hd : Handler σ) (data : Bytes) (w : ω) (s : σ) :
    exec hd (put data) w s = ((hd (.put data) s).1, w, (hd (.put data) s).2) := rfl

@[simp] theorem exec_get (hd : Handler σ) (hash : Hash) (w : ω) (s : σ) :
    exec hd (get hash) w s = ((hd (.get hash) s).1, w, (hd (.get hash) s).2) := rfl

theorem exec_catchError_ok {hd : Handler σ} {x : StoreM ω α} {w w' : ω} {s s' : σ} {a : α}
    (hx : exec hd x w s = (.ok a, w', s')) : exec hd (catchError x) w s = (.ok (.ok a), w', s') := by
  simp [catchError, exec_bind, exec_attempt, hx]

theorem exec_catchError_error {hd : Handler σ} {x : StoreM ω α} {w w' : ω} {s s' : σ} {e : GoError}
    (hx : exec hd x w s = (.error e, w', s')) (he : ∀ msg, e ≠ .panic msg) :
    exec hd (catchError x) w s = (.ok (.error e), w', s') := by
  cases e with
  | panic msg => exact absurd rfl (he msg)
  | _ => simp [catchError, exec_bind, exec_attempt, hx]

theorem exec_catchError_panic {hd : Handler σ} {x : StoreM ω α} {w w' : ω} {s s' : σ} {msg : String}
    (hx : exec hd x w s = (.error (.panic msg), w', s')) :
    exec hd (catchError x) w s = (.error (.panic msg), w', s') := by
  simp [catchError, exec_bind, exec_attempt, hx]

/-- In state `s` the store answers every lookup of a chunk of `stored`, and stays
as it is. -/
def Serves (hd : Handler σ) (s : σ) (stored : Hash → Bytes → Prop) : Prop :=
  ∀ hash c, stored hash c → hd (.get hash) s = (.ok c, s)

section Faults

/-- In the states of `I` a lookup of a chunk of `stored` returns it or fails, and leads to
another state of `I`. -/
def Faulty (hd : Handler σ) (I : σ → Prop) (stored : Hash → Bytes → Prop) : Prop :=
  ∀ s hash c, I s → stored hash c → ∃ s', I s' ∧
    (hd (.get hash) s = (.ok c, s') ∨ ∃ e, hd (.get hash) s = (.error e, s'))

/-- A number of lookups of chunks of `stored` that succeed. -/
inductive Fetches (hd : Handler σ) (stored : Hash → Bytes → Prop) (s : σ) : ℕ → σ → Prop
  | none : Fetches hd stored s 0 s
  | more {n : ℕ} {s₁ s₂ : σ} {hash : Hash} {c : Bytes} (hfront : Fetches hd stored s n s₁)
      (hst : stored hash c) (hget : hd (.get hash) s₁ = (.ok c, s₂)) : Fetches hd stored s (n + 1) s₂

/-- A lookup fails after some that succeed. -/
def Breaks (hd : Handler σ) (stored : Hash → Bytes → Prop) (s : σ) (n : ℕ) (e : GoError) (s' : σ) : Prop :=
  ∃ s₁ hash c, Fetches hd stored s n s₁ ∧ stored hash c ∧ hd (.get hash) s₁ = (.error e, s')

variable {hd : Handler σ} {stored : Hash → Bytes → Prop} {I : σ → Prop} {n : ℕ} {s s' : σ} {e : GoError}

theorem Fetches.trans {m : ℕ} {s'' : σ} (h : Fetches hd stored s n s') (h' : Fetches hd stored s' m s'') :
    Fetches hd stored s (n + m) s'' := by
  induction h' with
  | none => exact h
  | more _ hst hget ih => exact .more ih hst hget

theorem Fetches.breaks {m : ℕ} {s'' : σ} (h : Fetches hd stored s n s') (h' : Breaks hd stored s' m e s'') :
    Breaks hd stored s (n + m) e s'' := by
  obtain ⟨s₁, hash, c, hfront, hst, hget⟩ := h'
  exact ⟨s₁, hash, c, h.trans hfront, hst, hget⟩

theorem Serves.faulty (hs : Serves hd s stored) : Faulty hd (· = s) stored := by
  rintro _ hash c rfl hst
  exact ⟨_, rfl, .inl (hs hash c hst)⟩

theorem Serves.fetches (hs : Serves hd s stored) (h : Fetches hd stored s n s') : s' = s := by
  induction h with
  | none => rfl
  | more _ hst hget ih =>
    rw [ih, hs _ _ hst, Prod.mk.injEq] at hget
    exact hget.2.symm

theorem Serves.not_breaks (hs : Serves hd s stored) : ¬ Breaks hd stored s n e s' := by
  rintro ⟨s₁, hash, c, hfront, hst, hget⟩
  rw [hs.fetches hfront, hs _ _ hst] at hget
  simp at hget

end Faults

section MemStore

variable (sha256 : Bytes → Hash)

def lookup (s : List Bytes) (hash : Hash) : Option Bytes :=
  s.find? (fun c => sha256 c = hash)

def memStore : Handler (List Bytes)
  | .put data, s => (.ok (sha256 data), data :: s)
  | .get hash, s => (match lookup sha256 s hash with
      | some val => .ok val
      | none => .error (.text "hash not found in store"), s)

/-- Chunk `c` is among the chunks `s`, under the hash `hash`. -/
def Stored (s : List Bytes) (hash : Hash) (c : Bytes) : Prop := c ∈ s ∧ sha256 c = hash

variable {sha256} {s s' : List Bytes}

theorem Stored.head (c : Bytes) : Stored sha256 (c :: s) (sha256 c) c := ⟨List.mem_cons_self, rfl⟩

theorem Stored.append (ws : List Bytes) {hash : Hash} {c : Bytes} (h : Stored sha256 s hash c) :
    Stored sha256 (ws ++ s) hash c := ⟨List.mem_append_right ws h.1, h.2⟩

theorem run_memStore_grows (p : Prog StoreRequest StoreRequest.Response α) (s : List Bytes) :
    ∃ ws, (p.run (memStore sha256) s).2 = ws ++ s := by
  induction p generalizing s with
  | done a => exact ⟨[], rfl⟩
  | call q k ih =>
    obtain ⟨ws, hws⟩ := ih (memStore sha256 q s).1 (memStore sha256 q s).2
    cases q with
    | put data => exact ⟨ws ++ [data], by simpa [memStore] using hws⟩
    | get hash => exact ⟨ws, hws⟩

theorem exec_grows {x : StoreM ω α} {w w' : ω} {r : Except GoError α}
    (h : exec (memStore sha256) x w s = (r, w', s')) : ∃ ws, s' = ws ++ s := by
  have hgrow : ∃ ws, ((x w).run (memStore sha256) s).2 = ws ++ s := run_memStore_grows (x w) s
  obtain ⟨ws, hws⟩ := hgrow
  exact ⟨ws, (congrArg (fun x => x.2.2) h).symm.trans hws⟩

theorem stored_grows (sha256 : Bytes → Hash) (h : ∃ ws, s' = ws ++ s) :
    ∀ hash c, Stored sha256 s hash c → Stored sha256 s' hash c := by
  obtain ⟨ws, rfl⟩ := h
  exact fun _ _ hc => hc.append ws

theorem grows_trans {s'' : List Bytes} (h : ∃ ws, s' = ws ++ s) (h' : ∃ ws, s'' = ws ++ s') : ∃ ws, s'' = ws ++ s := by
  obtain ⟨ws, rfl⟩ := h
  obtain ⟨ws', rfl⟩ := h'
  exact ⟨ws' ++ ws, by rw [List.append_assoc]⟩

theorem injOn_of_grows (hgrow : ∃ ws, s' = ws ++ s) (hinj : Set.InjOn sha256 {c | c ∈ s'}) :
    Set.InjOn sha256 {c | c ∈ s} := by
  obtain ⟨ws, rfl⟩ := hgrow
  exact hinj.mono (fun c hc => List.mem_append_right ws hc)

theorem injOn_of_exec {x : StoreM ω α} {w w' : ω} {r : Except GoError α}
    (h : exec (memStore sha256) x w s = (r, w', s')) (hinj' : Set.InjOn sha256 {c | c ∈ s'}) :
    Set.InjOn sha256 {c | c ∈ s} := injOn_of_grows (exec_grows h) hinj'

theorem injOn_of_list {l : List Bytes} (h : ∀ a ∈ l, ∀ b ∈ l, sha256 a = sha256 b → a = b) :
    Set.InjOn sha256 {c | c ∈ l} :=
  fun a ha b hb hab => h a ha b hb hab

theorem lookup_eq_some {written : List Bytes} (hinj : Set.InjOn sha256 {c | c ∈ written}) {hash : Hash}
    {c : Bytes} (h : Stored sha256 written hash c) : lookup sha256 (written ++ s) hash = some c := by
  obtain ⟨hc, rfl⟩ := h
  induction written with
  | nil => simp at hc
  | cons a ws ih =>
    by_cases ha : sha256 a = sha256 c
    · have he : a = c := hinj (by simp) (by simpa using hc) ha
      simp [lookup, he]
    · have hne : c ≠ a := fun he => ha (by rw [he])
      have hcw : c ∈ ws := by simpa [hne] using hc
      have hi : Set.InjOn sha256 {x | x ∈ ws} := hinj.mono (fun x hx => List.mem_cons_of_mem a hx)
      simpa [lookup, ha] using ih hi hcw

theorem serves_memStore {written : List Bytes} (hinj : Set.InjOn sha256 {c | c ∈ written}) :
    Serves (memStore sha256) (written ++ s) (Stored sha256 written) := by
  intro hash c h
  simp [memStore, lookup_eq_some hinj h]

theorem serves_self (hinj : Set.InjOn sha256 {c | c ∈ s}) : Serves (memStore sha256) s (Stored sha256 s) := by
  simpa using serves_memStore (s := []) hinj

theorem stored_of_get {hash : Hash} {c : Bytes} (h : (memStore sha256 (.get hash) s).1 = .ok c) :
    Stored sha256 s hash c := by
  rw [memStore] at h
  split at h
  · next hfind =>
    cases h
    rw [lookup] at hfind
    exact ⟨List.mem_of_find?_eq_some hfind, by simpa using List.find?_some hfind⟩
  · cases h

end MemStore

end Bpy.ContentStore
