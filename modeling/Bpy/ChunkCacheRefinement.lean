import Bpy.ChunkCache
import Mathlib.Data.List.Perm.Basic

/-!
# The chunk cache is an LRU map

The reference is a list of hashes with their chunks, the last used one first. The cache
answers as the reference does, wherever its chunks are: in the database, or in one of the
two pending sets.
-/
namespace Bpy.ChunkCacheRefinement
open ByteWords ContentStore LinkedRings ChunkCache AList
open List hiding after get lookup_eq_none_iff lookup_eq_some_iff lt_irrefl
open Function

/-- The cached pairs, the last used one first. -/
abbrev Content := List (Hash × Bytes)

def total (l : Content) : ℕ := (l.map (fun e => e.2.length)).sum

/-- Drop pairs until there is room for `len` bytes. The pair to be dropped first is first. -/
def dropOldest (maxSize len : ℕ) : Content → Content
  | [] => []
  | e :: es => if total (e :: es) + len ≤ maxSize then e :: es else dropOldest maxSize len es

inductive Op where
  | get (hash : Hash)
  | put (hash : Hash) (val : Bytes)
  | flushPending
  | reopen

/-- What an operation answers in the reference, and the content behind it. -/
def lruStep (maxSize : ℕ) : Op → Content → Option Bytes × Content
  | .get hash, l =>
    match l.lookup hash with
    | none => (none, l)
    | some val => (some val, (hash, val) :: l.eraseP (fun e => e.1 = hash))
  | .put hash val, l =>
    match l.lookup hash with
    | some _ => (none, l)
    | none => (none, (hash, val) :: (dropOldest maxSize val.length l.reverse).reverse)
  | .flushPending, l => (none, l)
  | .reopen, l => (none, (l.insertionSort (fun x y => x.1.bytes ≤ y.1.bytes)).reverse)

def lruRun (maxSize : ℕ) : List Op → Content → List (Option Bytes) × Content
  | [], l => ([], l)
  | op :: ops, l =>
    let x := lruStep maxSize op l
    let y := lruRun maxSize ops x.2
    (x.1 :: y.1, y.2)

def cacheStep : Op → Cache → Except GoError (Option Bytes) × Cache
  | .get hash, c => c.get hash
  | .put hash val, c => let x := c.put hash val; (x.1.map (fun _ => none), x.2)
  | .flushPending, c => (.ok none, c.flushPending)
  | .reopen, c =>
    match newCache c.close c.maxSize with
    | .error e => (.error e, c)
    | .ok c' => (.ok none, c')

def cacheRun : List Op → Cache → List (Except GoError (Option Bytes)) × Cache
  | [], c => ([], c)
  | op :: ops, c =>
    let x := cacheStep op c
    let y := cacheRun ops x.2
    (x.1 :: y.1, y.2)

variable {l left right : Content} {hash : Hash} {val : Bytes} {c : Cache} {maxSize : ℕ}

section Content

theorem total_perm {l' : Content} (h : l.Perm l') : total l = total l' := (h.map _).sum_nat

@[simp] theorem total_cons (e : Hash × Bytes) (l : Content) : total (e :: l) = e.2.length + total l := rfl

@[simp] theorem total_append (l l' : Content) : total (l ++ l') = total l + total l' := by simp [total]

theorem lookup_eq_some_iff (hl : (l.map Prod.fst).Nodup) : l.lookup hash = some val ↔ (hash, val) ∈ l := by
  induction l with
  | nil => simp
  | cons e l ih =>
    obtain ⟨hnot, hl⟩ := nodup_cons.mp hl
    rw [lookup_cons, mem_cons]
    by_cases hkey : hash = e.1
    · subst hkey
      have hout : (e.1, val) ∉ l := fun hmem => hnot (mem_map.mpr ⟨_, hmem, rfl⟩)
      simp [hout, Prod.ext_iff, eq_comm]
    · have hne : (hash, val) ≠ e := fun heq => hkey (congrArg Prod.fst heq)
      simp [beq_eq_false_iff_ne.mpr hkey, ih hl, hne]

theorem lookup_eq_none_iff : l.lookup hash = none ↔ hash ∉ l.map Prod.fst := by
  rw [List.lookup_eq_none_iff]
  simp only [mem_map, not_exists, not_and]
  constructor
  · intro h e he heq
    simpa [heq] using h e he
  · intro h e he
    have hne : hash ≠ e.1 := fun heq => h e he heq.symm
    simpa using hne

theorem lookup_perm {l' : Content} (h : l.Perm l') (hl : (l.map Prod.fst).Nodup) (hash : Hash) :
    l.lookup hash = l'.lookup hash := by
  have hl' : (l'.map Prod.fst).Nodup := (h.map _).nodup_iff.mp hl
  apply Option.ext
  intro val
  rw [lookup_eq_some_iff hl, lookup_eq_some_iff hl', h.mem_iff]

end Content

/-- The list, the map and the size of the cache are those of `l`, whose pairs are at `nodes`. -/
structure Listed (c : Cache) (l : Content) (nodes : List ℕ) : Prop where
  ring : Ring c.lruList.links 0 nodes
  fresh : ∀ x ∈ 0 :: nodes, x < c.lruList.fresh
  len : c.lruList.len = nodes.length
  ents : nodes.map c.lruList.ents = l.map (fun e => ⟨e.1, e.2.length⟩)
  nodup : (l.map Prod.fst).Nodup
  lruMap : ∀ hash x, c.lruMap.lookup hash = some x ↔ x ∈ nodes ∧ (c.lruList.ents x).hash = hash
  size : c.size = total l

/-- The list and the map are those of `l`, whatever the size is. -/
def Placed (c : Cache) (l : Content) (nodes : List ℕ) : Prop := Listed { c with size := total l } l nodes

/-- The caches differ in their list, their map and their size only. -/
structure SameStore (c c' : Cache) : Prop where
  db : c'.db = c.db
  pendingPut : c'.pendingPut = c.pendingPut
  pendingDel : c'.pendingDel = c.pendingDel
  maxSize : c'.maxSize = c.maxSize

section Listed

variable {nodes : List ℕ}

theorem Listed.hashes (h : Listed c l nodes) : nodes.map (fun x => (c.lruList.ents x).hash) = l.map Prod.fst := by
  have := congrArg (map LruListEnt.hash) h.ents
  simpa [Function.comp_def] using this

theorem Listed.placed (h : Listed c l nodes) : Placed c l nodes :=
  ⟨h.ring, h.fresh, h.len, h.ents, h.nodup, h.lruMap, rfl⟩

theorem Placed.listed (h : Placed c l nodes) (hsize : c.size = total l) : Listed c l nodes :=
  ⟨h.ring, h.fresh, h.len, h.ents, h.nodup, h.lruMap, hsize⟩

theorem Listed.lookup_eq_none_iff (h : Listed c l nodes) : c.lruMap.lookup hash = none ↔ l.lookup hash = none := by
  rw [ChunkCacheRefinement.lookup_eq_none_iff, ← h.hashes, Option.eq_none_iff_forall_ne_some]
  simp only [ne_eq, h.lruMap, mem_map, not_exists, not_and]

theorem Listed.node (h : Listed c l nodes) (hl : l = left ++ (hash, val) :: right) :
    ∃ before x after, nodes = before ++ x :: after ∧ c.lruList.ents x = ⟨hash, val.length⟩ ∧
      before.map c.lruList.ents = left.map (fun e => ⟨e.1, e.2.length⟩) ∧
      after.map c.lruList.ents = right.map (fun e => ⟨e.1, e.2.length⟩) ∧
      c.lruMap.lookup hash = some x := by
  have hents := h.ents
  rw [hl, map_append, map_cons] at hents
  obtain ⟨before, rest, hnodes, hbefore, hrest⟩ := map_eq_append_iff.mp hents
  obtain ⟨x, after, rfl, hx, hafter⟩ := map_eq_cons_iff.mp hrest
  refine ⟨before, x, after, hnodes, hx, hbefore, hafter, (h.lruMap _ _).mpr ⟨?_, ?_⟩⟩
  · simp [hnodes]
  · rw [hx]

theorem Placed.push (h : Placed c l nodes) (val : Bytes) (hnew : l.lookup hash = none) :
    ∃ c' x, c.push hash val = .ok c' ∧ Placed c' ((hash, val) :: l) (x :: nodes) ∧ SameStore c c' ∧
      c'.size = addUint64 c.size val.length := by
  have hout : c.lruList.fresh ∉ 0 :: nodes := fun hmem => lt_irrefl _ (h.fresh _ hmem)
  obtain ⟨links, hlinks, hring⟩ := h.ring.insertAfter hout
  have hkeep : ∀ x ∈ nodes, update c.lruList.ents c.lruList.fresh ⟨hash, val.length⟩ x =
      c.lruList.ents x := by
    intro x hx
    have hlt := h.fresh x (mem_cons_of_mem 0 hx)
    exact update_of_ne hlt.ne _ _
  have hother : ∀ x ∈ nodes, (c.lruList.ents x).hash ≠ hash := by
    intro x hx heq
    rw [ChunkCacheRefinement.lookup_eq_none_iff, ← h.hashes] at hnew
    exact hnew (mem_map.mpr ⟨x, hx, heq⟩)
  have hpush : c.push hash val = .ok { c with
      lruList := ⟨links, update c.lruList.ents c.lruList.fresh ⟨hash, val.length⟩,
        c.lruList.fresh + 1, c.lruList.len + 1⟩
      lruMap := c.lruMap.insert hash c.lruList.fresh
      size := addUint64 c.size val.length } := by
    simp only [Cache.push, LruList.pushFront, hlinks]
  refine ⟨_, _, hpush, ⟨hring, ?_, ?_, ?_, ?_, ?_, rfl⟩, ⟨rfl, rfl, rfl, rfl⟩, rfl⟩
  · intro x hx
    rw [(List.Perm.swap c.lruList.fresh 0 nodes).mem_iff] at hx
    rcases mem_cons.mp hx with rfl | hx
    · exact Nat.lt_succ_self _
    · exact Nat.lt_succ_of_lt (h.fresh x hx)
  · have hlen : c.lruList.len = nodes.length := h.len
    simp [hlen]
  · dsimp only
    rw [map_cons, map_cons, update_self, map_congr_left hkeep, h.ents]
  · exact nodup_cons.mpr ⟨ChunkCacheRefinement.lookup_eq_none_iff.mp hnew, h.nodup⟩
  · intro k x
    dsimp only
    by_cases hk : k = hash
    · subst hk
      rw [lookup_insert, Option.some.injEq]
      constructor
      · intro hx
        subst hx
        exact ⟨mem_cons_self, by simp⟩
      · intro hx
        rcases mem_cons.mp hx.1 with rfl | hmem
        · rfl
        · rw [hkeep x hmem] at hx
          exact absurd hx.2 (hother x hmem)
    · rw [lookup_insert_ne hk, h.lruMap, mem_cons]
      constructor
      · intro hx
        exact ⟨Or.inr hx.1, by rw [hkeep x hx.1]; exact hx.2⟩
      · intro hx
        rcases hx.1 with rfl | hmem
        · simp only [update_self] at hx
          exact absurd hx.2.symm hk
        · exact ⟨hmem, by rw [← hkeep x hmem]; exact hx.2⟩

theorem Listed.push (h : Listed c l nodes) (hnew : l.lookup hash = none) (hsize : total l + val.length < 2 ^ 64) :
    ∃ c' x, c.push hash val = .ok c' ∧ Listed c' ((hash, val) :: l) (x :: nodes) ∧ SameStore c c' := by
  obtain ⟨c', x, hpush, hplaced, hsame, hsize'⟩ := h.placed.push _ hnew
  refine ⟨c', x, hpush, hplaced.listed ?_, hsame⟩
  rw [hsize', addUint64, h.size, total_cons, Nat.mod_eq_of_lt hsize, Nat.add_comm]

theorem nodup_hashes_of_perm {l' : Content} (h : l.Perm l') (hl : (l.map Prod.fst).Nodup) :
    (l'.map Prod.fst).Nodup := (h.map _).nodup_iff.mp hl

theorem Placed.moveToFront (h : Placed c (left ++ (hash, val) :: right) nodes) :
    ∃ x list nodes', c.lruMap.lookup hash = some x ∧ c.lruList.moveToFront x = .ok list ∧
      Placed { c with lruList := list } ((hash, val) :: (left ++ right)) nodes' := by
  obtain ⟨before, x, after, rfl, hx, hbefore, hafter, hlookup⟩ := h.node rfl
  dsimp only at hx
  obtain ⟨links, hlinks, hring⟩ := h.ring.unlink
  have hperm : (before ++ x :: after).Perm (x :: (before ++ after)) := perm_middle
  have hout : x ∉ 0 :: (before ++ after) := by
    have hnodup := (hperm.cons 0).nodup_iff.mp h.ring.nodup
    rw [(List.Perm.swap x 0 _).nodup_iff] at hnodup
    exact (nodup_cons.mp hnodup).1
  obtain ⟨links', hlinks', hring'⟩ := hring.insertAfter hout
  have hmove : c.lruList.moveToFront x = .ok { c.lruList with links := links', len := c.lruList.len - 1 + 1 } := by
    simp only [LruList.moveToFront, LruList.remove, hlinks, hlinks']
  refine ⟨x, _, x :: (before ++ after), hlookup, hmove, hring', ?_, ?_, ?_, ?_, ?_, rfl⟩
  · intro y hy
    exact h.fresh y ((hperm.cons 0).mem_iff.mpr hy)
  · have hlen := h.len
    simp only [length_append, length_cons] at hlen ⊢
    omega
  · simp only [map_cons, map_append, hx, hbefore, hafter]
  · exact nodup_hashes_of_perm perm_middle h.nodup
  · intro k y
    rw [← hperm.mem_iff]
    exact h.lruMap k y

theorem Listed.moveToFront (h : Listed c (left ++ (hash, val) :: right) nodes) :
    ∃ x list nodes', c.lruMap.lookup hash = some x ∧ c.lruList.moveToFront x = .ok list ∧
      Listed { c with lruList := list } ((hash, val) :: (left ++ right)) nodes' := by
  obtain ⟨x, list, nodes', hx, hmove, hplaced⟩ := h.placed.moveToFront
  refine ⟨x, list, nodes', hx, hmove, hplaced.listed ?_⟩
  rw [← total_perm perm_middle]
  exact h.size

theorem Placed.dropBack (h : Placed c (l ++ [(hash, val)]) nodes) :
    ∃ x c' nodes', c.lruList.back = some x ∧ c.dropBack x = .ok c' ∧ Placed c' l nodes' ∧
      c'.db = c.db ∧ c'.maxSize = c.maxSize ∧ c'.pendingPut = c.pendingPut.erase hash ∧
      c'.pendingDel = c.pendingDel.insert hash () ∧ c'.size = subUint64 c.size val.length := by
  obtain ⟨before, x, after, rfl, hx, hbefore, hafter, hlookup⟩ := h.node rfl
  dsimp only at hx
  obtain rfl : after = [] := by simpa using hafter
  obtain ⟨links, hlinks, hring⟩ := h.ring.unlink
  rw [append_nil] at hring
  have hback : c.lruList.back = some x := by
    have hlen := h.len
    simp only [length_append, length_singleton] at hlen
    rw [LruList.back, if_neg (by omega), h.ring.prev_root]
  have hdrop : c.dropBack x = .ok { c with
      lruList := { c.lruList with links := links, len := c.lruList.len - 1 }
      size := subUint64 c.size val.length
      lruMap := c.lruMap.erase hash
      pendingPut := c.pendingPut.erase hash
      pendingDel := c.pendingDel.insert hash () } := by
    simp only [Cache.dropBack, LruList.remove, hlinks, hx]
  have hnodup : (before.map (fun y => (c.lruList.ents y).hash) ++ [hash]).Nodup := by
    have hhashes := h.hashes
    have := h.nodup
    rw [← hhashes] at this
    simpa [hx] using this
  refine ⟨x, _, before, hback, hdrop, ⟨hring, ?_, ?_, ?_, ?_, ?_, rfl⟩, rfl, rfl, rfl, rfl, rfl⟩
  · intro y hy
    apply h.fresh
    rw [← cons_append]
    exact mem_append_left [x] hy
  · have hlen := h.len
    simp only [length_append, length_singleton] at hlen ⊢
    omega
  · exact hbefore
  · have := h.nodup
    rw [map_append] at this
    exact this.of_append_left
  · intro k y
    dsimp only
    by_cases hk : k = hash
    · subst hk
      rw [lookup_erase]
      have hout : ¬ (y ∈ before ∧ (c.lruList.ents y).hash = k) := by
        intro hy
        have hdisj := (nodup_append.mp hnodup).2.2
        exact hdisj _ (mem_map_of_mem hy.1) k (mem_singleton_self k) hy.2
      simpa using hout
    · have hxk : (c.lruList.ents x).hash ≠ k := by
        rw [hx]
        exact Ne.symm hk
      rw [lookup_erase_ne hk, h.lruMap, mem_append, mem_singleton]
      constructor
      · intro hy
        rcases hy.1 with hmem | rfl
        · exact ⟨hmem, hy.2⟩
        · exact absurd hy.2 hxk
      · intro hy
        exact ⟨Or.inl hy.1, hy.2⟩

theorem Listed.dropBack (h : Listed c (l ++ [(hash, val)]) nodes) (hsize : total (l ++ [(hash, val)]) < 2 ^ 64) :
    ∃ x c' nodes', c.lruList.back = some x ∧ c.dropBack x = .ok c' ∧ Listed c' l nodes' ∧
      c'.db = c.db ∧ c'.maxSize = c.maxSize ∧ c'.pendingPut = c.pendingPut.erase hash ∧
      c'.pendingDel = c.pendingDel.insert hash () := by
  obtain ⟨x, c', nodes', hback, hdrop, hplaced, hdb, hmax, hput, hdel, hsize'⟩ := h.placed.dropBack
  refine ⟨x, c', nodes', hback, hdrop, hplaced.listed ?_, hdb, hmax, hput, hdel⟩
  have hsum : total (l ++ [(hash, val)]) = total l + val.length := by simp [total]
  rw [hsize', subUint64, h.size]
  rw [hsum] at hsize ⊢
  omega

end Listed

theorem SameStore.trans {c₁ c₂ c₃ : Cache} (h : SameStore c₁ c₂) (h' : SameStore c₂ c₃) : SameStore c₁ c₃ where
  db := h'.db.trans h.db
  pendingPut := h'.pendingPut.trans h.pendingPut
  pendingDel := h'.pendingDel.trans h.pendingDel
  maxSize := h'.maxSize.trans h.maxSize

theorem pushAll_listed {c : Cache} {l es : Content} {nodes : List ℕ} (h : Listed c l nodes)
    (hes : ((es.reverse ++ l).map Prod.fst).Nodup) (hsize : total (es.reverse ++ l) < 2 ^ 64) :
    ∃ c' nodes', c.pushAll es = .ok c' ∧ Listed c' (es.reverse ++ l) nodes' ∧ SameStore c c' := by
  induction es generalizing c l nodes with
  | nil => exact ⟨c, nodes, rfl, h, rfl, rfl, rfl, rfl⟩
  | cons e es ih =>
    have hassoc : (e :: es).reverse ++ l = es.reverse ++ (e :: l) := by simp
    rw [hassoc] at hes hsize ⊢
    have hnodup : ((e :: l).map Prod.fst).Nodup := by
      rw [map_append] at hes
      exact hes.of_append_right
    have hnew : l.lookup e.1 = none := lookup_eq_none_iff.mpr (nodup_cons.mp hnodup).1
    have hone : total l + e.2.length < 2 ^ 64 := by
      simp only [total_append, total_cons] at hsize
      omega
    obtain ⟨c₁, x, hpush, hlisted, hsame⟩ := h.push hnew hone
    obtain ⟨c', nodes', hall, hlisted', hsame'⟩ := ih hlisted hes hsize
    exact ⟨c', nodes', by rw [Cache.pushAll, hpush]; exact hall, hlisted', hsame.trans hsame'⟩

theorem listed_empty (db : Bucket) (maxSize : ℕ) : Listed ⟨db, 0, maxSize, ∅, LruList.init, ∅, ∅⟩ [] [] where
  ring := ring_nil rfl rfl
  fresh := by simp [LruList.init]
  len := rfl
  ents := rfl
  nodup := nodup_nil
  lruMap := by simp
  size := rfl

section Store

/-- The chunk of a hash in the pending sets and the database. -/
def stored (c : Cache) (hash : Hash) : Option Bytes :=
  match c.pendingPut.lookup hash with
  | some val => some val
  | none => if hash ∈ c.pendingDel then none else c.db.lookup hash

theorem lookup_foldl_insert (es : List (Σ _ : Hash, Bytes)) (hes : es.NodupKeys) (b : Bucket)
    (hash : Hash) : (es.foldl (fun b e => b.insert e.1 e.2) b).lookup hash =
      (es.dlookup hash).or (b.lookup hash) := by
  induction es generalizing b with
  | nil => simp
  | cons e es ih =>
    obtain ⟨key, val⟩ := e
    obtain ⟨hnot, hes⟩ := nodupKeys_cons.mp hes
    rw [foldl_cons, ih hes]
    by_cases hkey : hash = key
    · subst hkey
      simp [dlookup_eq_none.mpr hnot]
    · rw [lookup_insert_ne hkey, dlookup_cons_ne _ _ hkey]

theorem lookup_foldl_erase (ks : List Hash) (b : Bucket) (hash : Hash) :
    (ks.foldl (fun b k => b.erase k) b).lookup hash = if hash ∈ ks then none else b.lookup hash := by
  induction ks generalizing b with
  | nil => simp
  | cons k ks ih =>
    rw [foldl_cons, ih]
    by_cases hmem : hash ∈ ks
    · simp [hmem]
    · by_cases hkey : hash = k
      · subst hkey
        simp
      · simp [hmem, hkey, lookup_erase_ne hkey]

theorem flushPending_lookup {c : Cache} (hapart : ∀ hash ∈ c.pendingDel, c.pendingPut.lookup hash = none)
    (hash : Hash) : c.flushPending.db.lookup hash = stored c hash := by
  have hput : (c.pendingPut.entries.foldl (fun b e => b.insert e.1 e.2) c.db).lookup hash =
      (c.pendingPut.lookup hash).or (c.db.lookup hash) :=
    lookup_foldl_insert _ c.pendingPut.nodupKeys _ _
  rw [Cache.flushPending, lookup_foldl_erase, hput, stored]
  by_cases hdel : hash ∈ c.pendingDel
  · rw [if_pos (AList.mem_keys.mp hdel), hapart hash hdel, if_pos hdel]
  · rw [if_neg (mt AList.mem_keys.mpr hdel), if_neg hdel]
    cases c.pendingPut.lookup hash <;> rfl

end Store

/-- The cache holds the pairs `l`, and they fit. -/
structure Refines (maxSize : ℕ) (c : Cache) (l : Content) : Prop where
  listed : ∃ nodes, Listed c l nodes
  maxSize_eq : c.maxSize = maxSize
  total_le : total l ≤ maxSize
  value : ∀ hash, l.lookup hash = stored c hash
  apart : ∀ hash ∈ c.pendingDel, c.pendingPut.lookup hash = none

section Refines

theorem Refines.nodup (h : Refines maxSize c l) : (l.map Prod.fst).Nodup := by
  obtain ⟨nodes, hlisted⟩ := h.listed
  exact hlisted.nodup

theorem Refines.flushPending (h : Refines maxSize c l) : Refines maxSize c.flushPending l where
  listed := by
    obtain ⟨nodes, hlisted⟩ := h.listed
    exact ⟨nodes, hlisted.ring, hlisted.fresh, hlisted.len, hlisted.ents, hlisted.nodup, hlisted.lruMap, hlisted.size⟩
  maxSize_eq := h.maxSize_eq
  total_le := h.total_le
  value k := by
    rw [h.value k, ← flushPending_lookup h.apart k]
    simp [stored, Cache.flushPending]
  apart := by simp [Cache.flushPending]

theorem split_of_lookup (hl : (l.map Prod.fst).Nodup) (h : l.lookup hash = some val) :
    ∃ left right, l = left ++ (hash, val) :: right ∧ l.eraseP (fun e => e.1 = hash) = left ++ right := by
  obtain ⟨left, right, rfl⟩ := append_of_mem ((lookup_eq_some_iff hl).mp h)
  refine ⟨left, right, rfl, ?_⟩
  rw [map_append, nodup_append] at hl
  rw [eraseP_append_right]
  · simp
  · intro e he
    have hne := hl.2.2 e.1 (mem_map_of_mem he) hash (by simp)
    simpa using hne

theorem Refines.get (h : Refines maxSize c l) (hash : Hash) :
    ∃ c', c.get hash = (.ok (lruStep maxSize (.get hash) l).1, c') ∧
      Refines maxSize c' (lruStep maxSize (.get hash) l).2 := by
  obtain ⟨nodes, hlisted⟩ := h.listed
  cases hl : l.lookup hash with
  | none =>
    have hmap := hlisted.lookup_eq_none_iff.mpr hl
    exact ⟨c, by simp [Cache.get, hmap, lruStep, hl], by simpa [lruStep, hl] using h⟩
  | some val =>
    obtain ⟨left, right, rfl, herase⟩ := split_of_lookup h.nodup hl
    obtain ⟨x, list, nodes', hmap, hmove, hlisted'⟩ := hlisted.moveToFront
    have hvalue : stored c hash = some val := by rw [← h.value, hl]
    refine ⟨{ c with lruList := list }, ?_, ?_⟩
    · rw [stored] at hvalue
      simp only [Cache.get, hmap, hmove, lruStep, hl]
      cases hput : c.pendingPut.lookup hash with
      | some ret => simpa [hput] using hvalue
      | none =>
        simp only [hput] at hvalue
        have hdb : c.db.lookup hash = some val := by
          split at hvalue
          · simp at hvalue
          · exact hvalue
        simp [hdb]
    · simp only [lruStep, hl, herase]
      exact {
        listed := ⟨nodes', hlisted'⟩
        maxSize_eq := h.maxSize_eq
        total_le := by
          rw [← total_perm perm_middle]
          exact h.total_le
        value := fun k => by
          rw [← lookup_perm perm_middle h.nodup]
          exact h.value k
        apart := h.apart }

/-- The content after making room for `len` bytes. -/
def evicted (maxSize len : ℕ) (l : Content) : Content := (dropOldest maxSize len l.reverse).reverse

theorem evicted_of_le {len : ℕ} (h : total l + len ≤ maxSize) : evicted maxSize len l = l := by
  rw [evicted]
  cases hrev : l.reverse with
  | nil => rw [dropOldest, ← hrev, reverse_reverse]
  | cons e es =>
    have htotal : total (e :: es) = total l := total_perm (hrev ▸ reverse_perm l)
    rw [dropOldest, if_pos (by omega), ← hrev, reverse_reverse]

theorem evicted_append_of_lt {len : ℕ} {e : Hash × Bytes} (h : maxSize < total (l ++ [e]) + len) :
    evicted maxSize len (l ++ [e]) = evicted maxSize len l := by
  have htotal : total (e :: l.reverse) = total (l ++ [e]) := by
    apply total_perm
    rw [← reverse_concat]
    exact reverse_perm _
  rw [evicted, reverse_concat, dropOldest, if_neg (by omega), evicted]

theorem Refines.dropBack (h : Refines maxSize c (l ++ [(hash, val)])) (hmax : maxSize < 2 ^ 64) :
    ∃ x c', c.lruList.len ≠ 0 ∧ c.lruList.back = some x ∧ c.dropBack x = .ok c' ∧ Refines maxSize c' l := by
  obtain ⟨nodes, hlisted⟩ := h.listed
  have hle := h.total_le
  obtain ⟨x, c', nodes', hback, hdrop, hlisted', hdb, hmaxSize, hput, hdel⟩ := hlisted.dropBack (by omega)
  have hlen : c.lruList.len ≠ 0 := by
    intro hzero
    simp [LruList.back, hzero] at hback
  refine ⟨x, c', hlen, hback, hdrop, ⟨nodes', hlisted'⟩, hmaxSize.trans h.maxSize_eq, ?_, ?_, ?_⟩
  · rw [total_append] at hle
    omega
  · intro k
    have hk := h.value k
    by_cases hkey : k = hash
    · have hnone : l.lookup k = none := by
        rw [lookup_eq_none_iff, hkey]
        have hnodup := h.nodup
        rw [map_append, nodup_append] at hnodup
        exact fun hmem => hnodup.2.2 hash hmem hash (by simp) rfl
      rw [hnone, stored, hput, hdel, hkey]
      simp
    · have hlookup : (l ++ [(hash, val)]).lookup k = l.lookup k := by
        rw [lookup_append, lookup_cons, beq_eq_false_iff_ne.mpr hkey]
        simp
      rw [← hlookup, hk, stored, stored, hput, hdel, hdb, lookup_erase_ne hkey]
      simp [hkey]
  · intro k hk
    rw [hput]
    by_cases hkey : k = hash
    · rw [hkey, lookup_erase]
    · rw [lookup_erase_ne hkey]
      apply h.apart
      rw [hdel, mem_insert] at hk
      exact hk.resolve_left hkey

theorem evict_refines {len rounds : ℕ} (h : Refines maxSize c l) (hlen : len ≤ maxSize)
    (hmax : maxSize < 2 ^ 64) (hsum : total l + len < 2 ^ 64) (hrounds : l.length < rounds) :
    ∃ c', c.evict len rounds = (.ok (), c') ∧ Refines maxSize c' (evicted maxSize len l) ∧
      total (evicted maxSize len l) + len ≤ maxSize ∧ evicted maxSize len l <+: l := by
  induction rounds generalizing c l with
  | zero => omega
  | succ rounds ih =>
    have hadd : addUint64 c.size len = total l + len := by
      obtain ⟨nodes, hlisted⟩ := h.listed
      rw [addUint64, hlisted.size, Nat.mod_eq_of_lt hsum]
    rw [Cache.evict, hadd, h.maxSize_eq]
    by_cases hfits : total l + len ≤ maxSize
    · rw [if_neg (by omega), evicted_of_le hfits]
      exact ⟨c, rfl, h, hfits, prefix_rfl⟩
    · rw [if_pos (by omega)]
      rcases eq_nil_or_concat l with rfl | ⟨l', e, rfl⟩
      · exact absurd hlen (by simpa [total] using hfits)
      · rw [concat_eq_append] at *
        obtain ⟨x, c₁, hne, hback, hdrop, hrefines⟩ := h.dropBack hmax
        have hsum' : total l' + len < 2 ^ 64 := by
          rw [total_append] at hsum
          omega
        have hshort : l'.length < rounds := by
          simp only [length_append, length_singleton] at hrounds
          omega
        obtain ⟨c', hrun, hrefines', hroom, hpre⟩ := ih hrefines hsum' hshort
        rw [if_neg hne, hback, evicted_append_of_lt (by omega)]
        refine ⟨c', ?_, hrefines', hroom, hpre.trans (prefix_append l' [e])⟩
        simp only [hdrop, hrun]

theorem Refines.push (h : Refines maxSize c l) (hnew : l.lookup hash = none)
    (hroom : total l + val.length ≤ maxSize) (hmax : maxSize < 2 ^ 64) :
    ∃ c', c.push hash val = .ok c' ∧ Refines maxSize { c' with
      pendingPut := c'.pendingPut.insert hash val
      pendingDel := c'.pendingDel.erase hash } ((hash, val) :: l) := by
  obtain ⟨nodes, hlisted⟩ := h.listed
  have hfits : total l + val.length < 2 ^ 64 := by omega
  obtain ⟨c', x, hpush, hlisted', hsame⟩ := hlisted.push hnew hfits
  refine ⟨c', hpush, ⟨x :: nodes, ?_⟩, hsame.maxSize.trans h.maxSize_eq, ?_, ?_, ?_⟩
  · exact ⟨hlisted'.ring, hlisted'.fresh, hlisted'.len, hlisted'.ents, hlisted'.nodup, hlisted'.lruMap, hlisted'.size⟩
  · rw [total_cons]
    dsimp only
    omega
  · intro k
    rw [stored]
    dsimp only
    by_cases hkey : k = hash
    · rw [hkey, lookup_insert]
      simp
    · have hlookup : ((hash, val) :: l).lookup k = l.lookup k := by
        rw [lookup_cons, beq_eq_false_iff_ne.mpr hkey]
      rw [hlookup, h.value, stored, lookup_insert_ne hkey, hsame.pendingPut, hsame.pendingDel, hsame.db]
      simp [mem_erase, hkey]
  · intro k hk
    dsimp only at hk ⊢
    rw [mem_erase, hsame.pendingDel] at hk
    rw [lookup_insert_ne hk.1, hsame.pendingPut]
    exact h.apart k hk.2

theorem Refines.put (h : Refines maxSize c l) (hash : Hash) (hlen : val.length ≤ maxSize)
    (hmax : maxSize < 2 ^ 64) (hsum : total l + val.length < 2 ^ 64) :
    ∃ c', c.put hash val = (.ok (), c') ∧ Refines maxSize c' (lruStep maxSize (.put hash val) l).2 := by
  obtain ⟨nodes, hlisted⟩ := h.listed
  cases hl : l.lookup hash with
  | some old =>
    have hmap : c.lruMap.lookup hash ≠ none := by
      rw [ne_eq, hlisted.lookup_eq_none_iff, hl]
      simp
    obtain ⟨x, hx⟩ := Option.ne_none_iff_exists'.mp hmap
    exact ⟨c, by simp [Cache.put, hx], by simpa [lruStep, hl] using h⟩
  | none =>
    have hmap := hlisted.lookup_eq_none_iff.mpr hl
    have hrounds : l.length < c.lruList.len.toNat + 1 := by
      have hcount := congrArg length hlisted.ents
      simp only [length_map] at hcount
      rw [hlisted.len]
      omega
    obtain ⟨c₁, hevict, hrefines, hroom, hpre⟩ := evict_refines h hlen hmax hsum hrounds
    have hnew : (evicted maxSize val.length l).lookup hash = none := by
      rw [lookup_eq_none_iff] at hl ⊢
      exact fun hmem => hl ((hpre.map Prod.fst).subset hmem)
    obtain ⟨c₂, hpush, hrefines₂⟩ := hrefines.push hnew hroom hmax
    simp only [Cache.put, hmap, hevict, hpush, lruStep, hl]
    split
    · exact ⟨_, rfl, hrefines₂.flushPending⟩
    · exact ⟨_, rfl, hrefines₂⟩

theorem entries_perm {b : Bucket} (hl : (l.map Prod.fst).Nodup) (h : ∀ hash, l.lookup hash = b.lookup hash) :
    (b.entries.map (fun e => (e.1, e.2))).Perm l := by
  have hkeys : ((b.entries.map (fun e => (e.1, e.2))).map Prod.fst).Nodup := by
    rw [map_map]
    exact b.nodupKeys
  apply (perm_ext_iff_of_nodup hkeys.of_map hl.of_map).mpr
  intro e
  obtain ⟨key, val⟩ := e
  rw [← lookup_eq_some_iff hl, h, ← Option.mem_def, mem_lookup_iff]
  constructor
  · intro hmem
    obtain ⟨x, hx, heq⟩ := mem_map.mp hmem
    cases heq
    exact hx
  · intro hmem
    exact mem_map_of_mem hmem

instance : Std.Total (fun x y : Hash × Bytes => x.1.bytes ≤ y.1.bytes) where
  total x y := List.le_total x.1.bytes y.1.bytes

instance : IsTrans (Hash × Bytes) (fun x y => x.1.bytes ≤ y.1.bytes) where
  trans _ _ _ hxy hyz := List.le_trans hxy hyz

theorem insertionSort_perm {l' : Content} (h : l.Perm l') (hl : (l.map Prod.fst).Nodup) :
    l.insertionSort (fun x y => x.1.bytes ≤ y.1.bytes) = l'.insertionSort (fun x y => x.1.bytes ≤ y.1.bytes) := by
  have hsort := perm_insertionSort (fun x y : Hash × Bytes => x.1.bytes ≤ y.1.bytes)
  apply List.Perm.eq_of_pairwise _ (pairwise_insertionSort _ l) (pairwise_insertionSort _ l')
  · exact ((hsort l).trans h).trans (hsort l').symm
  · intro a b ha hb hab hba
    have ha : a ∈ l := (hsort l).mem_iff.mp ha
    have hb : b ∈ l := h.mem_iff.mpr ((hsort l').mem_iff.mp hb)
    have hkey : a.1 = b.1 := by
      rw [← Hash.copy_bytes a.1, List.le_antisymm hab hba, Hash.copy_bytes]
    exact inj_on_of_nodup_map hl ha hb hkey

theorem Refines.reopen (h : Refines maxSize c l) (hmax : maxSize < 2 ^ 64) :
    ∃ c', newCache c.close c.maxSize = .ok c' ∧ Refines maxSize c' (lruStep maxSize .reopen l).2 := by
  have hlookup : ∀ k, l.lookup k = c.close.lookup k := by
    intro k
    rw [h.value, Cache.close, flushPending_lookup h.apart]
  have hperm := entries_perm h.nodup hlookup
  have heach : forEach c.close = l.insertionSort (fun x y => x.1.bytes ≤ y.1.bytes) :=
    (insertionSort_perm hperm.symm h.nodup).symm
  have hsorted : (forEach c.close).reverse.Perm l := by
    rw [heach]
    exact (reverse_perm _).trans (perm_insertionSort _ l)
  have hnodup := nodup_hashes_of_perm hsorted.symm h.nodup
  have htotal := total_perm hsorted
  have hle := h.total_le
  obtain ⟨c', nodes, hnew, hlisted, hsame⟩ := pushAll_listed
    (listed_empty c.close c.maxSize) (by simpa using hnodup) (by simpa [htotal] using by omega)
  rw [append_nil] at hlisted
  refine ⟨c', hnew, ?_⟩
  simp only [lruStep, ← heach]
  refine ⟨⟨nodes, hlisted⟩, hsame.maxSize.trans h.maxSize_eq, by omega, ?_, ?_⟩
  · intro k
    rw [lookup_perm hsorted hnodup, hlookup, stored, hsame.pendingPut, hsame.pendingDel, hsame.db]
    simp
  · rw [hsame.pendingDel]
    simp

end Refines

theorem refines_empty (maxSize : ℕ) : Refines maxSize ⟨∅, 0, maxSize, ∅, LruList.init, ∅, ∅⟩ [] where
  listed := ⟨[], listed_empty ∅ maxSize⟩
  maxSize_eq := rfl
  total_le := Nat.zero_le _
  value := by simp [stored]
  apart := by simp

section Run

/-- The value of a put is not larger than the cache. -/
def Op.Fits (maxSize : ℕ) : Op → Prop
  | .put _ val => val.length ≤ maxSize
  | _ => True

/-- The bytes in the cache and those of a new value can be counted by a `uint64`. -/
def Countable (l : Content) : Op → Prop
  | .put _ val => total l + val.length < 2 ^ 64
  | _ => True

def RunCountable (maxSize : ℕ) : List Op → Content → Prop
  | [], _ => True
  | op :: ops, l => Countable l op ∧ RunCountable maxSize ops (lruStep maxSize op l).2

theorem cacheStep_refines (hmax : maxSize < 2 ^ 64) {c : Cache} {l : Content} (h : Refines maxSize c l)
    (op : Op) (hop : op.Fits maxSize) (hcount : Countable l op) :
    ∃ c', cacheStep op c = (.ok (lruStep maxSize op l).1, c') ∧ Refines maxSize c' (lruStep maxSize op l).2 := by
  cases op with
  | get hash => exact h.get hash
  | put hash val =>
    obtain ⟨c', hput, hrefines⟩ := h.put hash hop hmax hcount
    have hnone : (lruStep maxSize (.put hash val) l).1 = none := by
      rw [lruStep]
      split <;> rfl
    exact ⟨c', by simp [cacheStep, hput, hnone, Except.map], hrefines⟩
  | flushPending => exact ⟨c.flushPending, rfl, h.flushPending⟩
  | reopen =>
    obtain ⟨c', hnew, hrefines⟩ := h.reopen hmax
    exact ⟨c', by simp [cacheStep, hnew, lruStep], hrefines⟩

theorem cacheRun_refines (hmax : maxSize < 2 ^ 64) {c : Cache} {l : Content} (h : Refines maxSize c l)
    (ops : List Op) (hops : ∀ op ∈ ops, op.Fits maxSize) (hcount : RunCountable maxSize ops l) :
    ∃ c', cacheRun ops c = ((lruRun maxSize ops l).1.map .ok, c') ∧ Refines maxSize c' (lruRun maxSize ops l).2 := by
  induction ops generalizing c l with
  | nil => exact ⟨c, rfl, h⟩
  | cons op ops ih =>
    obtain ⟨c₁, hstep, hrefines⟩ := cacheStep_refines hmax h op (hops op mem_cons_self) hcount.1
    obtain ⟨c', hrun, hrefines'⟩ := ih hrefines (fun op' hop' => hops op' (mem_cons_of_mem op hop')) hcount.2
    refine ⟨c', ?_, hrefines'⟩
    simp only [cacheRun, hstep, hrun, lruRun, map_cons]

theorem lruRun_append (ops ops' : List Op) (l : Content) :
    (lruRun maxSize (ops ++ ops') l).2 = (lruRun maxSize ops' (lruRun maxSize ops l).2).2 := by
  induction ops generalizing l with
  | nil => rfl
  | cons op ops ih => exact ih _

end Run

/-- The answers of a cache that is opened on an empty database are those of the reference.
The list of the cache has the pairs of the reference with their sizes in the same order,
the size is their sum, and to close and open the cache keeps the pairs. -/
theorem cache_refines_lru (maxSize : ℕ) (hmax : maxSize < 2 ^ 64) (ops : List Op)
    (hops : ∀ op ∈ ops, op.Fits maxSize) (hcount : RunCountable maxSize ops []) : ∃ c c' nodes, newCache ∅ maxSize = .ok c ∧
      cacheRun ops c = ((lruRun maxSize ops []).1.map .ok, c') ∧
      Listed c' (lruRun maxSize ops []).2 nodes ∧
      (lruRun maxSize (ops ++ [.reopen]) []).2.Perm (lruRun maxSize ops []).2 := by
  obtain ⟨c', hrun, hrefines⟩ := cacheRun_refines hmax (refines_empty maxSize) ops hops hcount
  obtain ⟨nodes, hlisted⟩ := hrefines.listed
  refine ⟨_, c', nodes, rfl, hrun, hlisted, ?_⟩
  rw [lruRun_append]
  exact (List.reverse_perm _).trans (List.perm_insertionSort _ _)

/-- The second chunk drops the first one. -/
theorem cache_refines_lru_two_chunks : ∃ c c', newCache ∅ 3 = .ok c ∧
    cacheRun [.put (Hash.copy [1]) [1, 2], .get (Hash.copy [1]), .put (Hash.copy [2]) [3, 4],
      .get (Hash.copy [1]), .reopen, .get (Hash.copy [2])] c =
      ([.ok none, .ok (some [1, 2]), .ok none, .ok none, .ok none, .ok (some [3, 4])], c') ∧
    c'.size = 2 := by
  obtain ⟨c, c', nodes, hnew, hrun, hlisted, -⟩ := cache_refines_lru 3 (by decide)
    [.put (Hash.copy [1]) [1, 2], .get (Hash.copy [1]), .put (Hash.copy [2]) [3, 4],
      .get (Hash.copy [1]), .reopen, .get (Hash.copy [2])] (by simp [Op.Fits])
    ⟨Nat.le_of_ble_eq_true rfl, trivial, Nat.le_of_ble_eq_true rfl, trivial, trivial, trivial, trivial⟩
  exact ⟨c, c', hnew, hrun, hlisted.size⟩

end Bpy.ChunkCacheRefinement
