import Bpy.ChunkCacheRefinement

/-!
# `CachedCStore`

A content store behind a cache of deflated chunks. A request to the cache server is a call
of the `Cache` behind it. `Client` has one buffer for deflating and inflating, which is
reset before each use. The deflater and the inflater are parameters.

A store is content addressed if a chunk that can be fetched stays as it is, a chunk that
was put can be fetched, and fetching changes no later answer. No store is that for all chunks,
since two of them have the same hash; it is asked for the states of a run only. Over such a
store the cache cannot be seen, as long as the cache itself does not fail.
-/
namespace Bpy.CachedStore
open ByteWords InteractionPrograms ContentStore ChunkCache ChunkCacheRefinement Method AList

/-- `cache` is what the server at the other end of the connection has. -/
structure Client where
  cache : Cache
  flatebuf : Bytes

namespace Client

def getRaw (hash : Hash) (c : Client) : Except GoError (Option Bytes) × Client :=
  ((c.cache.get hash).1, { c with cache := (c.cache.get hash).2 })

def putRaw (hash : Hash) (val : Bytes) (c : Client) : Except GoError Unit × Client :=
  ((c.cache.put hash val).1, { c with cache := (c.cache.put hash val).2 })

def get (inflate : Bytes → Except GoError Bytes) (hash : Hash) (c : Client) :
    Except GoError (Option Bytes) × Client :=
  match c.getRaw hash with
  | (.error e, c) => (.error e, c)
  | (.ok none, c) => (.ok none, c)
  | (.ok (some val), c) =>
    match inflate val with
    -- nobody reads what a failed copy left in the buffer
    | .error e => (.error e, { c with flatebuf := [] })
    | .ok out =>
      let c := { c with flatebuf := out }
      (.ok (some c.flatebuf), c)

def put (deflate : Bytes → Bytes) (hash : Hash) (val : Bytes) (c : Client) : Except GoError Unit × Client :=
  let c := { c with flatebuf := deflate val }
  c.putRaw hash c.flatebuf

end Client

variable {σ : Type} {x : Client × σ} {hash : Hash} {v : Bytes} {t : σ} {qs : List StoreRequest}

section CachedCStore

variable (inflate : Bytes → Except GoError Bytes) (deflate : Bytes → Bytes) {α : Type} (store : Handler σ)

/-- Call the cache client. -/
def ask (f : Client → Except GoError α × Client) : StoreM Client α := fun c => .done (f c)

@[simp] theorem exec_ask (f : Client → Except GoError α × Client) (c : Client) (s : σ) :
    exec store (ask f) c s = ((f c).1, (f c).2, s) := rfl

/-- `CachedCStore.Get`. The store answers the requests, and the receiver is the client of
the cache. -/
def getCached (hash : Hash) : StoreM Client Bytes := do
  match ← ask (Client.get inflate hash) with
  | some v => pure v
  | none =>
    let v ← ContentStore.get hash
    ask (Client.put deflate hash v)
    pure v

/-- `CachedCStore.Put`. -/
def putCached (val : Bytes) : StoreM Client Hash := do
  let hash ← ContentStore.put val
  ask (Client.put deflate hash val)
  pure hash

/-- `NewCachedCStore`. -/
def cachedStore : Handler (Client × σ)
  | .get hash, x => Method.exec store (getCached inflate deflate hash) x.1 x.2
  | .put val, x => Method.exec store (putCached deflate val) x.1 x.2

end CachedCStore

section Outcomes

variable {inflate : Bytes → Except GoError Bytes} {deflate : Bytes → Bytes} {store : Handler σ} {c : Client}
  {e : GoError}

theorem cachedStore_hit (hget : Client.get inflate hash x.1 = (.ok (some v), c)) :
    cachedStore inflate deflate store (.get hash) x = (.ok v, c, x.2) := by
  simp only [cachedStore, getCached, exec_bind, exec_ask, hget, exec_pure]

theorem cachedStore_missing (hget : Client.get inflate hash x.1 = (.ok none, c))
    (hstore : (store (.get hash) x.2).1 = .error e) :
    cachedStore inflate deflate store (.get hash) x = (.error e, c, (store (.get hash) x.2).2) := by
  simp only [cachedStore, getCached, exec_bind, exec_ask, hget, exec_get, hstore]

theorem cachedStore_miss (hget : Client.get inflate hash x.1 = (.ok none, c))
    (hstore : (store (.get hash) x.2).1 = .ok v) (hput : (Client.put deflate hash v c).1 = .ok ()) :
    cachedStore inflate deflate store (.get hash) x =
      (.ok v, (Client.put deflate hash v c).2, (store (.get hash) x.2).2) := by
  simp only [cachedStore, getCached, exec_bind, exec_ask, hget, exec_get, hstore, hput, exec_pure]

theorem cachedStore_put_error (hstore : (store (.put v) x.2).1 = .error e) :
    cachedStore inflate deflate store (.put v) x = (.error e, x.1, (store (.put v) x.2).2) := by
  simp only [cachedStore, putCached, exec_bind, exec_put, hstore]

theorem cachedStore_put (hstore : (store (.put v) x.2).1 = .ok hash)
    (hput : (Client.put deflate hash v x.1).1 = .ok ()) :
    cachedStore inflate deflate store (.put v) x =
      (.ok hash, (Client.put deflate hash v x.1).2, (store (.put v) x.2).2) := by
  simp only [cachedStore, putCached, exec_bind, exec_put, hstore, exec_ask, hput, exec_pure]

end Outcomes

section Answers

variable (store : Handler σ)

def answers : List StoreRequest → σ → List (Σ q : StoreRequest, q.Response)
  | [], _ => []
  | q :: qs, s => ⟨q, (store q s).1⟩ :: answers qs (store q s).2

def after : List StoreRequest → σ → σ
  | [], s => s
  | q :: qs, s => after qs (store q s).2

/-- The two states cannot be told apart by requests. -/
def Same (s t : σ) : Prop := ∀ qs, answers store qs s = answers store qs t

/-- The store is content addressed as long as its states are among `I`. -/
structure ContentAddressed (I : σ → Prop) : Prop where
  get_silent : ∀ hash s, I s → Same store (store (.get hash) s).2 s
  get_put : ∀ val hash s, I s → I (store (.put val) s).2 → (store (.put val) s).1 = .ok hash →
    (store (.get hash) (store (.put val) s).2).1 = .ok val
  get_stable : ∀ val hash s v, I s → I (store (.put val) s).2 → (store (.get hash) s).1 = .ok v →
    (store (.get hash) (store (.put val) s).2).1 = .ok v

/-- The states from `s` on, while the requests are answered, are among `I`. -/
def Stays (I : σ → Prop) : List StoreRequest → σ → Prop
  | [], s => I s
  | q :: qs, s => I s ∧ Stays I qs (store q s).2

/-- The requests of a program that the store answers. -/
def asked {α : Type} : Prog StoreRequest StoreRequest.Response α → σ → List StoreRequest
  | .done _, _ => []
  | .call q k, s => q :: asked (k (store q s).1) (store q s).2

variable {store} {I : σ → Prop} {s u : σ}

theorem Stays.start (h : Stays store I qs s) : I s := by
  cases qs with
  | nil => exact h
  | cons q qs => exact h.1

variable (h : Same store s t)
include h

theorem Same.symm : Same store t s := fun qs => (h qs).symm

theorem Same.trans (h' : Same store t u) : Same store s u :=
  fun qs => (h qs).trans (h' qs)

theorem Same.answer (q : StoreRequest) : (store q s).1 = (store q t).1 := by
  have hone := h [q]
  simp only [answers, List.cons.injEq, and_true, Sigma.mk.injEq, true_and] at hone
  exact eq_of_heq hone

theorem Same.step (q : StoreRequest) : Same store (store q s).2 (store q t).2 := by
  intro qs
  have hmore := h (q :: qs)
  simp only [answers, List.cons.injEq] at hmore
  exact hmore.2

end Answers

/-- Every hash in the map of the cache has a value with `P`. -/
structure Holds (P : Hash → Bytes → Prop) (c : Cache) : Prop where
  value : ∀ hash ∈ c.lruMap, ∃ raw, stored c hash = some raw ∧ P hash raw
  apart : ∀ hash ∈ c.pendingDel, c.pendingPut.lookup hash = none

section Holds

variable {P P' : Hash → Bytes → Prop} {c c' : Cache} (h : Holds P c)
include h

theorem Holds.mono (himp : ∀ hash raw, P hash raw → P' hash raw) : Holds P' c where
  value hash hmem := by
    obtain ⟨raw, hraw, hP⟩ := h.value hash hmem
    exact ⟨raw, hraw, himp hash raw hP⟩
  apart := h.apart

theorem Holds.of_same (hmap : c'.lruMap = c.lruMap) (hsame : SameStore c c') : Holds P c' where
  value hash hmem := by
    rw [hmap] at hmem
    rw [stored, hsame.pendingPut, hsame.pendingDel, hsame.db]
    exact h.value hash hmem
  apart hash hmem := by
    rw [hsame.pendingDel] at hmem
    rw [hsame.pendingPut]
    exact h.apart hash hmem

theorem Holds.get (hash : Hash) : Holds P (c.get hash).2 ∧ ∀ raw, (c.get hash).1 = .ok (some raw) → P hash raw := by
  cases hmap : c.lruMap.lookup hash with
  | none =>
    have hget : c.get hash = (.ok none, c) := by simp only [Cache.get, hmap]
    rw [hget]
    exact ⟨h, fun raw hraw => by cases hraw⟩
  | some elem =>
    cases hmove : c.lruList.moveToFront elem with
    | error e =>
      have hget : c.get hash = (.error e, c) := by simp only [Cache.get, hmap, hmove]
      rw [hget]
      exact ⟨h, fun raw hraw => by cases hraw⟩
    | ok list =>
      have hmem : hash ∈ c.lruMap := lookup_isSome.mp (by rw [hmap]; rfl)
      obtain ⟨raw, hstored, hP⟩ := h.value hash hmem
      have hget : c.get hash = (.ok (some raw), { c with lruList := list }) := by
        simp only [Cache.get, hmap, hmove]
        rw [stored] at hstored
        cases hput : c.pendingPut.lookup hash with
        | some ret => simpa [hput] using hstored
        | none =>
          rw [hput] at hstored
          have hdb : c.db.lookup hash = some raw := (ite_eq_iff.mp hstored).elim (fun h => by cases h.2) And.right
          simp [hdb]
      rw [hget]
      refine ⟨h.of_same rfl ⟨rfl, rfl, rfl, rfl⟩, ?_⟩
      intro raw' hraw
      cases hraw
      exact hP

theorem Holds.flushPending : Holds P c.flushPending where
  value hash hmem := by
    obtain ⟨raw, hraw, hP⟩ := h.value hash hmem
    have hdb := flushPending_lookup h.apart hash
    refine ⟨raw, ?_, hP⟩
    rw [← hraw, ← hdb]
    simp [stored, Cache.flushPending]
  apart := by simp [Cache.flushPending]

theorem Holds.dropBack {elem : ℕ} (hdrop : c.dropBack elem = .ok c') : Holds P c' := by
  rw [Cache.dropBack] at hdrop
  split at hdrop
  · cases hdrop
  · cases hdrop
    constructor
    · intro hash hmem
      obtain ⟨hne, hmem⟩ := mem_erase.mp hmem
      obtain ⟨raw, hraw, hP⟩ := h.value hash hmem
      refine ⟨raw, ?_, hP⟩
      rw [← hraw, stored, stored]
      dsimp only
      rw [lookup_erase_ne hne]
      simp [mem_insert, hne]
    · intro hash hmem
      dsimp only at hmem ⊢
      by_cases hkey : hash = (c.lruList.ents elem).hash
      · rw [hkey, lookup_erase]
      · rw [lookup_erase_ne hkey]
        exact h.apart hash (((mem_insert _).mp hmem).resolve_left hkey)

theorem Holds.evict (len rounds : ℕ) : Holds P (c.evict len rounds).2 := by
  induction rounds generalizing c with
  | zero => exact h
  | succ rounds ih =>
    rw [Cache.evict]
    split
    · split
      · exact h
      · split
        · exact h
        · split
          · exact h
          · exact ih (h.dropBack (by assumption))
    · exact h

theorem Holds.push {hash : Hash} {val : Bytes} (hval : P hash val)
    (hpush : c.push hash val = .ok c') : Holds P { c' with
      pendingPut := c'.pendingPut.insert hash val
      pendingDel := c'.pendingDel.erase hash } := by
  rw [Cache.push] at hpush
  split at hpush
  · cases hpush
  · cases hpush
    constructor
    · intro k hmem
      by_cases hkey : k = hash
      · subst hkey
        exact ⟨val, by simp [stored], hval⟩
      · obtain ⟨raw, hraw, hP⟩ := h.value k (((mem_insert _).mp hmem).resolve_left hkey)
        refine ⟨raw, ?_, hP⟩
        rw [← hraw, stored, stored]
        dsimp only
        rw [lookup_insert_ne hkey]
        simp [mem_erase, hkey]
    · intro k hmem
      obtain ⟨hkey, hmem⟩ := mem_erase.mp hmem
      dsimp only
      rw [lookup_insert_ne hkey]
      exact h.apart k hmem

theorem Holds.put {hash : Hash} {val : Bytes} (hval : P hash val) : Holds P (c.put hash val).2 := by
  rw [Cache.put]
  split
  · exact h
  · have hevict := h.evict val.length (c.lruList.len.toNat + 1)
    split
    · next heq => exact (congrArg Prod.snd heq) ▸ hevict
    · next heq =>
      have hevict' := (congrArg Prod.snd heq) ▸ hevict
      split
      · exact hevict'
      · next hpush =>
        dsimp only
        split
        · exact (hevict'.push hval hpush).flushPending
        · exact hevict'.push hval hpush

end Holds

section Transparent

variable (inflate : Bytes → Except GoError Bytes) (deflate : Bytes → Bytes) (store : Handler σ)

/-- The value inflates to the chunk that the store has. -/
def Genuine (s : σ) (hash : Hash) (raw : Bytes) : Prop :=
  ∃ v, inflate raw = .ok v ∧ (store (.get hash) s).1 = .ok v

/-- No call of the cache client fails while the request is handled. -/
def Works : StoreRequest → Client × σ → Prop
  | .get hash, x => ∃ r c, Client.get inflate hash x.1 = (.ok r, c) ∧
      (r = none → ∀ v, (store (.get hash) x.2).1 = .ok v → (Client.put deflate hash v c).1 = .ok ())
  | .put val, x => ∀ hash, (store (.put val) x.2).1 = .ok hash →
      (Client.put deflate hash val x.1).1 = .ok ()

/-- No call of the cache client fails while the requests are handled. -/
def AllWork : List StoreRequest → Client × σ → Prop
  | [], _ => True
  | q :: qs, x => Works inflate deflate store q x ∧ AllWork qs (cachedStore inflate deflate store q x).2

variable {inflate deflate store} {I : σ → Prop} {c c' : Client} {s : σ}

theorem get_cases {r : Option Bytes} (h : Holds (Genuine inflate store s) c.cache)
    (hget : Client.get inflate hash c = (.ok r, c')) :
    Holds (Genuine inflate store s) c'.cache ∧ ∀ v, r = some v → (store (.get hash) s).1 = .ok v := by
  obtain ⟨hkeep, hraw⟩ := h.get hash
  cases hres : (c.cache.get hash).1 with
  | error e =>
    simp only [Client.get, Client.getRaw, hres] at hget
    cases hget
  | ok found =>
    cases found with
    | none =>
      simp only [Client.get, Client.getRaw, hres] at hget
      cases hget
      exact ⟨hkeep, fun v hv => by cases hv⟩
    | some raw =>
      obtain ⟨v, hinflate, hstore⟩ := hraw raw hres
      simp only [Client.get, Client.getRaw, hres, hinflate] at hget
      cases hget
      exact ⟨hkeep, fun v' hv => by cases hv; exact hstore⟩

theorem put_holds {v : Bytes} (hinverse : ∀ v, inflate (deflate v) = .ok v)
    (h : Holds (Genuine inflate store s) c.cache) (hstore : (store (.get hash) s).1 = .ok v) :
    Holds (Genuine inflate store s) (Client.put deflate hash v c).2.cache :=
  h.put ⟨v, hinverse v, hstore⟩

theorem Genuine.of_same {raw : Bytes} (h : Genuine inflate store t hash raw) (hsame : Same store s t) :
    Genuine inflate store s hash raw := by
  obtain ⟨v, hinflate, hstore⟩ := h
  exact ⟨v, hinflate, (hsame.answer (.get hash)).trans hstore⟩

theorem Genuine.put {raw : Bytes} (hstore : ContentAddressed store I) (h : Genuine inflate store s hash raw)
    (val : Bytes) (hs : I s) (hs' : I (store (.put val) s).2) :
    Genuine inflate store (store (.put val) s).2 hash raw := by
  obtain ⟨v, hinflate, hget⟩ := h
  exact ⟨v, hinflate, hstore.get_stable val hash s v hs hs' hget⟩

variable (inflate store) in
/-- The cached store in state `x` and the store alone in state `t` cannot be told apart. -/
structure Agree (x : Client × σ) (t : σ) : Prop where
  same : Same store x.2 t
  holds : Holds (Genuine inflate store t) x.1.cache

section Steps

variable (hstore : ContentAddressed store I) (hinverse : ∀ v, inflate (deflate v) = .ok v)
include hstore hinverse

section

variable (h : Agree inflate store x t) (ht : I t)
include h ht

theorem agree_get (hworks : Works inflate deflate store (.get hash) x) :
    (cachedStore inflate deflate store (.get hash) x).1 = (store (.get hash) t).1 ∧
      Agree inflate store (cachedStore inflate deflate store (.get hash) x).2 (store (.get hash) t).2 := by
  obtain ⟨r, c', hget, hput⟩ := hworks
  obtain ⟨hkeep, hfound⟩ := get_cases h.holds hget
  have hsilent := hstore.get_silent hash t ht
  have hkeep' : Holds (Genuine inflate store (store (.get hash) t).2) c'.cache :=
    hkeep.mono (fun k raw hraw => hraw.of_same hsilent)
  cases r with
  | some v =>
    rw [cachedStore_hit hget, hfound v rfl]
    exact ⟨rfl, h.same.trans hsilent.symm, hkeep'⟩
  | none =>
    have hanswer := h.same.answer (.get hash)
    cases hres : (store (.get hash) t).1 with
    | error e =>
      rw [cachedStore_missing hget (hanswer.trans hres)]
      exact ⟨rfl, h.same.step (.get hash), hkeep'⟩
    | ok v =>
      rw [cachedStore_miss hget (hanswer.trans hres) (hput rfl v (hanswer.trans hres))]
      refine ⟨rfl, h.same.step (.get hash), put_holds hinverse hkeep' ?_⟩
      rw [hsilent.answer (.get hash), hres]

theorem agree_put {val : Bytes} (ht' : I (store (.put val) t).2) (hworks : Works inflate deflate store (.put val) x) :
    (cachedStore inflate deflate store (.put val) x).1 = (store (.put val) t).1 ∧
      Agree inflate store (cachedStore inflate deflate store (.put val) x).2 (store (.put val) t).2 := by
  have hkeep : Holds (Genuine inflate store (store (.put val) t).2) x.1.cache :=
    h.holds.mono (fun k raw hraw => hraw.put hstore val ht ht')
  have hanswer := h.same.answer (.put val)
  cases hres : (store (.put val) t).1 with
  | error e =>
    rw [cachedStore_put_error (hanswer.trans hres)]
    exact ⟨rfl, h.same.step (.put val), hkeep⟩
  | ok hash =>
    rw [cachedStore_put (hanswer.trans hres) (hworks hash (hanswer.trans hres))]
    exact ⟨rfl, h.same.step (.put val), put_holds hinverse hkeep (hstore.get_put val hash t ht ht' hres)⟩

theorem agree_step {q : StoreRequest} (ht' : I (store q t).2) (hworks : Works inflate deflate store q x) :
    (cachedStore inflate deflate store q x).1 = (store q t).1 ∧
      Agree inflate store (cachedStore inflate deflate store q x).2 (store q t).2 := by
  cases q with
  | put val => exact agree_put hstore hinverse h ht ht' hworks
  | get hash => exact agree_get hstore hinverse h ht hworks

end

theorem agree_run (qs : List StoreRequest) (h : Agree inflate store x t) (hrun : Stays store I qs t)
    (hwork : AllWork inflate deflate store qs x) :
    answers (cachedStore inflate deflate store) qs x = answers store qs t ∧
      Agree inflate store (after (cachedStore inflate deflate store) qs x) (after store qs t) := by
  induction qs generalizing x t with
  | nil => exact ⟨rfl, h⟩
  | cons q qs ih =>
    have hstep := agree_step hstore hinverse h hrun.1 hrun.2.start hwork.1
    obtain ⟨hanswers, hagree⟩ := ih hstep.2 hrun.2 hwork.2
    rw [answers, answers, hstep.1, hanswers]
    exact ⟨rfl, hagree⟩

end Steps

theorem agree_empty (maxSize : ℕ) (buf : Bytes) (s : σ) :
    Agree inflate store (⟨⟨∅, 0, maxSize, ∅, LruList.init, ∅, ∅⟩, buf⟩, s) s where
  same _ := rfl
  holds := ⟨by simp, by simp⟩

end Transparent

section Room

variable {inflate : Bytes → Except GoError Bytes} {deflate : Bytes → Bytes} {store : Handler σ} {c : Client}
  {l : Content} {s : σ} {maxSize : ℕ}

theorem client_get_refines (hrefines : Refines maxSize c.cache l) (hholds : Holds (Genuine inflate store s) c.cache)
    (hash : Hash) : ∃ r c' l', Client.get inflate hash c = (.ok r, c') ∧ Refines maxSize c'.cache l' := by
  obtain ⟨cache, hget, hrefines'⟩ := hrefines.get hash
  have hraw := (hholds.get hash).2
  rw [hget] at hraw
  cases hres : (lruStep maxSize (.get hash) l).1 with
  | none =>
    rw [hres] at hget
    exact ⟨none, { c with cache := cache }, _, by simp only [Client.get, Client.getRaw, hget], hrefines'⟩
  | some raw =>
    rw [hres] at hget hraw
    obtain ⟨v, hinflate, -⟩ := hraw raw rfl
    exact ⟨some v, ⟨cache, v⟩, _, by simp only [Client.get, Client.getRaw, hget, hinflate], hrefines'⟩

theorem client_put_refines (hrefines : Refines maxSize c.cache l) (hmax : maxSize < 2 ^ 63)
    (hfits : (deflate v).length ≤ maxSize) (hash : Hash) :
    (Client.put deflate hash v c).1 = .ok () ∧ ∃ l', Refines maxSize (Client.put deflate hash v c).2.cache l' := by
  have hsum : total l + (deflate v).length < 2 ^ 64 := by
    have := hrefines.total_le
    omega
  obtain ⟨cache, hput, hrefines'⟩ := hrefines.put hash hfits (by omega) hsum
  simp only [Client.put, Client.putRaw, hput]
  exact ⟨trivial, _, hrefines'⟩

theorem works_put (hrefines : Refines maxSize x.1.cache l) (hmax : maxSize < 2 ^ 63)
    (hfits : ∀ hash, (store (.put v) x.2).1 = .ok hash → (deflate v).length ≤ maxSize) :
    Works inflate deflate store (.put v) x ∧
      ∃ l', Refines maxSize (cachedStore inflate deflate store (.put v) x).2.1.cache l' := by
  cases hres : (store (.put v) x.2).1 with
  | error e =>
    rw [cachedStore_put_error hres]
    exact ⟨fun hash hok => (nomatch hres.symm.trans hok), l, hrefines⟩
  | ok hash =>
    have hput := fun k => client_put_refines hrefines hmax (hfits hash hres) k
    rw [cachedStore_put hres (hput hash).1]
    exact ⟨fun k _ => (hput k).1, (hput hash).2⟩

theorem works_get (hrefines : Refines maxSize x.1.cache l) (hmax : maxSize < 2 ^ 63)
    (hholds : Holds (Genuine inflate store t) x.1.cache)
    (hfits : ∀ v, (store (.get hash) x.2).1 = .ok v → (deflate v).length ≤ maxSize) :
    Works inflate deflate store (.get hash) x ∧
      ∃ l', Refines maxSize (cachedStore inflate deflate store (.get hash) x).2.1.cache l' := by
  obtain ⟨r, c, l', hget, hrefines'⟩ := client_get_refines hrefines hholds hash
  have hput := fun v hv => client_put_refines hrefines' hmax (hfits v hv) hash
  refine ⟨⟨r, c, hget, fun _ v hv => (hput v hv).1⟩, ?_⟩
  cases r with
  | some v =>
    rw [cachedStore_hit hget]
    exact ⟨l', hrefines'⟩
  | none =>
    cases hres : (store (.get hash) x.2).1 with
    | error e =>
      rw [cachedStore_missing hget hres]
      exact ⟨l', hrefines'⟩
    | ok v =>
      rw [cachedStore_miss hget hres (hput v hres).1]
      exact (hput v hres).2

section Steps

variable {I : σ → Prop} (hstore : ContentAddressed store I) (hinverse : ∀ v, inflate (deflate v) = .ok v)
  (hmax : maxSize < 2 ^ 63)
  (hroom : ∀ hash s v, I s → (store (.get hash) s).1 = .ok v → (deflate v).length ≤ maxSize)
include hstore hmax hroom in
theorem works_of_room (q : StoreRequest) (h : Agree inflate store x t) (ht : I t) (ht' : I (store q t).2)
    (hrefines : Refines maxSize x.1.cache l) :
    Works inflate deflate store q x ∧ ∃ l', Refines maxSize (cachedStore inflate deflate store q x).2.1.cache l' := by
  have hanswer := h.same.answer q
  cases q with
  | put val =>
    exact works_put hrefines hmax fun hash hres =>
      hroom hash _ val ht' (hstore.get_put val hash t ht ht' (hanswer.symm.trans hres))
  | get hash => exact works_get hrefines hmax h.holds fun v hres => hroom hash t v ht (hanswer.symm.trans hres)

include hstore hinverse hmax hroom

theorem allWork_of_room (qs : List StoreRequest) (h : Agree inflate store x t) (hrun : Stays store I qs t)
    (hrefines : Refines maxSize x.1.cache l) : AllWork inflate deflate store qs x := by
  induction qs generalizing x t l with
  | nil => trivial
  | cons q qs ih =>
    obtain ⟨hworks, l', hrefines'⟩ := works_of_room hstore hmax hroom q h hrun.1 hrun.2.start hrefines
    exact ⟨hworks, ih (agree_step hstore hinverse h hrun.1 hrun.2.start hworks).2 hrun.2 hrefines'⟩

theorem agree_program {α : Type} (p : Prog StoreRequest StoreRequest.Response α) (h : Agree inflate store x t)
    (hrun : Stays store I (asked store p t) t) (hrefines : Refines maxSize x.1.cache l) :
    (p.run (cachedStore inflate deflate store) x).1 = (p.run store t).1 ∧
      Agree inflate store (p.run (cachedStore inflate deflate store) x).2 (p.run store t).2 := by
  induction p generalizing x t l with
  | done a => exact ⟨rfl, h⟩
  | call q k ih =>
    obtain ⟨ht, hrun⟩ := hrun
    obtain ⟨hworks, l', hrefines'⟩ := works_of_room hstore hmax hroom q h ht hrun.start hrefines
    obtain ⟨hanswer, h'⟩ := agree_step hstore hinverse h ht hrun.start hworks
    rw [Prog.run_call, Prog.run_call, hanswer]
    exact ih _ h' hrun hrefines'

end Steps

end Room

section MemStore

variable {sha256 : Bytes → Hash} {I : List Bytes → Prop} {s : List Bytes}

theorem contentAddressed_memStore (hI : ∀ s, I s → Set.InjOn sha256 {c | c ∈ s}) :
    ContentAddressed (memStore sha256) I where
  get_silent _ _ _ _ := rfl
  get_put val hash s _ hs' hput := by
    cases hput
    rw [serves_self (hI _ hs') _ _ (Stored.head val)]
  get_stable val hash s v _ hs' hget := by
    obtain ⟨hv, hhash⟩ := stored_of_get hget
    rw [serves_self (hI _ hs') _ _ ⟨List.mem_cons_of_mem _ hv, hhash⟩]

theorem stays_memStore (hI : ∀ c s, I (c :: s) → I s) (h : I (after (memStore sha256) qs s)) :
    Stays (memStore sha256) I qs s := by
  induction qs generalizing s with
  | nil => exact h
  | cons q qs ih =>
    have hrest := ih h
    refine ⟨?_, hrest⟩
    cases q with
    | put data => exact hI data s hrest.start
    | get hash => exact hrest.start

end MemStore

/-- A `CachedCStore` with an empty cache answers every sequence of requests as the store
alone does, and a value that the cache returns inflates to the chunk of the store. -/
theorem cached_store_transparent {σ : Type} (store : Handler σ) (I : σ → Prop) (hstore : ContentAddressed store I)
    (inflate : Bytes → Except GoError Bytes) (deflate : Bytes → Bytes)
    (hinverse : ∀ v, inflate (deflate v) = .ok v) (maxSize : ℕ) (cache : Cache)
    (hcache : newCache ∅ maxSize = .ok cache) (s : σ) (qs : List StoreRequest) (hrun : Stays store I qs s)
    (hwork : AllWork inflate deflate store qs (⟨cache, []⟩, s)) :
    answers (cachedStore inflate deflate store) qs (⟨cache, []⟩, s) = answers store qs s ∧
      ∀ hash raw, (Client.getRaw hash (after (cachedStore inflate deflate store) qs (⟨cache, []⟩, s)).1).1 =
          .ok (some raw) →
        ∃ v, inflate raw = .ok v ∧ (store (.get hash) (after store qs s)).1 = .ok v := by
  cases hcache
  obtain ⟨hanswers, hagree⟩ := agree_run hstore hinverse qs (agree_empty maxSize [] s) hrun hwork
  exact ⟨hanswers, fun hash raw hraw => (hagree.holds.get hash).2 raw hraw⟩

/-- A compression that writes one byte before the value. -/
def addByte (v : Bytes) : Bytes := 0 :: v

def dropByte (raw : Bytes) : Except GoError Bytes := .ok raw.tail

/-- The chunks of a small run. -/
abbrev Small (s : List Bytes) : Prop := ∀ c ∈ s, c = [7] ∨ c = [8]

theorem contentAddressed_small : ContentAddressed (memStore Hash.copy) Small := by
  refine contentAddressed_memStore ?_
  intro s hs a ha b hb hab
  rcases hs a ha with rfl | rfl <;> rcases hs b hb with rfl | rfl <;> first | rfl | exact absurd hab (by decide)

theorem addByte_small_le (hash : Hash) (s : List Bytes) (v : Bytes) (hs : Small s)
    (h : (memStore Hash.copy (.get hash) s).1 = .ok v) : (addByte v).length ≤ 2 := by
  rcases hs v (stored_of_get h).1 with rfl | rfl <;> decide

theorem small_of_run {qs : List StoreRequest} (h : Small (after (memStore Hash.copy) qs [])) :
    Stays (memStore Hash.copy) Small qs [] :=
  stays_memStore (fun _ _ hs c hc => hs c (List.mem_cons_of_mem _ hc)) h

/-- There is room for one chunk: the second evicts the first, which is fetched again later. -/
theorem cached_store_transparent_eviction : ∃ cache, newCache ∅ 2 = .ok cache ∧
    (Client.getRaw (Hash.copy [7]) (after (cachedStore dropByte addByte (memStore Hash.copy))
      [.put [7], .put [8]] (⟨cache, []⟩, [])).1).1 = .ok none ∧
    answers (cachedStore dropByte addByte (memStore Hash.copy))
      [.put [7], .put [8], .get (Hash.copy [8]), .get (Hash.copy [7])] (⟨cache, []⟩, []) =
      [⟨.put [7], .ok (Hash.copy [7])⟩, ⟨.put [8], .ok (Hash.copy [8])⟩, ⟨.get (Hash.copy [8]), .ok [8]⟩,
        ⟨.get (Hash.copy [7]), .ok [7]⟩] := by
  have hrun : Stays (memStore Hash.copy) Small [.put [7], .put [8], .get (Hash.copy [8]), .get (Hash.copy [7])] [] :=
    small_of_run (by decide +kernel)
  have hwork := allWork_of_room contentAddressed_small (fun v => (rfl : dropByte (addByte v) = .ok v)) (by decide)
    addByte_small_le _ (agree_empty 2 [] []) hrun (refines_empty 2)
  have hsame := cached_store_transparent (memStore Hash.copy) Small contentAddressed_small dropByte addByte
    (fun _ => rfl) 2 _ rfl [] _ hrun hwork
  exact ⟨_, rfl, rfl, hsame.1⟩

/-- A program that runs on a `CachedCStore` with an empty cache returns what it returns on the store
alone, if the cache has room for each chunk. The store is left in a state that no request can tell
from the other. -/
theorem cached_program {σ ω α : Type} (store : Handler σ) (I : σ → Prop) (hstore : ContentAddressed store I)
    (inflate : Bytes → Except GoError Bytes) (deflate : Bytes → Bytes)
    (hinverse : ∀ v, inflate (deflate v) = .ok v) (maxSize : ℕ) (hmax : maxSize < 2 ^ 63)
    (hroom : ∀ hash s v, I s → (store (.get hash) s).1 = .ok v → (deflate v).length ≤ maxSize) (cache : Cache)
    (hcache : newCache ∅ maxSize = .ok cache) (x : StoreM ω α) (w : ω) (s : σ)
    (hrun : Stays store I (asked store (x w) s) s) :
    ∃ r w' c s₁ s₂, Method.exec (cachedStore inflate deflate store) x w (⟨cache, []⟩, s) = (r, w', c, s₁) ∧
      Method.exec store x w s = (r, w', s₂) ∧ Same store s₁ s₂ := by
  cases hcache
  obtain ⟨hresult, hagree⟩ := agree_program hstore hinverse hmax hroom (x w) (agree_empty maxSize [] s) hrun
    (refines_empty maxSize)
  exact ⟨_, _, _, _, _, rfl, by rw [Method.exec, ← hresult], hagree.same⟩

/-- Two chunks and a cache with room for one. -/
def putTwo : StoreM Unit Bytes := do
  let h ← put [7]
  let h' ← put [8]
  let v ← get h
  let v' ← get h'
  pure (v ++ v')

theorem cached_program_eviction : ∃ r c s₁ s₂,
    Method.exec (cachedStore dropByte addByte (memStore Hash.copy)) putTwo
      () (⟨⟨∅, 0, 2, ∅, LruList.init, ∅, ∅⟩, []⟩, []) = (r, (), c, s₁) ∧
    Method.exec (memStore Hash.copy) putTwo () [] = (r, (), s₂) ∧ r = .ok [7, 8] ∧
    (Client.getRaw (Hash.copy [7]) c).1 = .ok none := by
  have hrun : Stays (memStore Hash.copy) Small (asked (memStore Hash.copy) (putTwo ()) []) [] :=
    small_of_run (by decide +kernel)
  obtain ⟨r, w', c, s₁, s₂, hcached, hplain, -⟩ := cached_program (memStore Hash.copy) Small contentAddressed_small
    dropByte addByte (fun _ => rfl) 2 (by decide) addByte_small_le _ rfl putTwo () [] hrun
  refine ⟨r, c, s₁, s₂, hcached, hplain, (congrArg Prod.fst hplain).symm, ?_⟩
  exact (congrArg (fun y => (Client.getRaw (Hash.copy [7]) y.2.2.1).1) hcached).symm.trans rfl

end Bpy.CachedStore
