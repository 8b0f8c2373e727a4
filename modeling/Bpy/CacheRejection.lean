import Bpy.ChunkCacheRefinement

/-!
# A value that the cache rejects

`Put` learns that a value is too large only after it has dropped everything else. The
invariant holds in every state of a cache, also where the sum of the sizes exceeds a
`uint64`, which the size then holds modulo `2 ^ 64`.
-/
namespace Bpy.CacheRejection
open ByteWords ContentStore LinkedRings ChunkCache ChunkCacheRefinement List

def tooLarge : GoError := .text "value too large for cache"

/-- The length of a slice is an `int`. -/
def Short (val : Bytes) : Prop := val.length < 2 ^ 63

/-- The sizes of the cached values, the last used one first. -/
def sizes (l : LruList) : List ℕ := (l.links.following l.len.toNat 0).map (fun x => (l.ents x).size)

/-- The list and the map are those of `l`, and the size is their sum. -/
structure Kept (c : Cache) (l : Content) (nodes : List ℕ) : Prop where
  placed : Placed c l nodes
  size : c.size = total l % 2 ^ 64
  short : ∀ e ∈ l, Short e.2
  db : ∀ hash val, c.db.lookup hash = some val → Short val
  pendingPut : ∀ hash val, c.pendingPut.lookup hash = some val → Short val

section Kept

variable {c : Cache} {l : Content} {nodes : List ℕ} {hash : Hash} {val : Bytes}

theorem Kept.length (h : Kept c l nodes) : c.lruList.len = l.length := by
  have hlen : c.lruList.len = nodes.length := h.placed.len
  have hcount := congrArg List.length h.placed.ents
  simp only [length_map] at hcount
  rw [hlen, hcount]

theorem Kept.sizes_eq (h : Kept c l nodes) : sizes c.lruList = l.map (fun e => e.2.length) := by
  have hlen : c.lruList.len = nodes.length := h.placed.len
  have hring : Ring c.lruList.links 0 nodes := h.placed.ring
  have hents := congrArg (map LruListEnt.size) h.placed.ents
  rw [sizes, hlen, Int.toNat_natCast, hring.following]
  simpa [Function.comp_def] using hents

theorem Kept.mem_iff (h : Kept c l nodes) : hash ∈ c.lruMap ↔ l.lookup hash ≠ none := by
  have hnone : c.lruMap.lookup hash = none ↔ l.lookup hash = none := h.placed.lookup_eq_none_iff
  rw [← AList.lookup_isSome, ne_eq, ← hnone, Option.isSome_iff_ne_none]

theorem Kept.push (h : Kept c l nodes) (hnew : l.lookup hash = none) (hval : Short val) :
    ∃ c' nodes', c.push hash val = .ok c' ∧ Kept c' ((hash, val) :: l) nodes' := by
  obtain ⟨c', x, hpush, hplaced, hsame, hsize⟩ := h.placed.push val hnew
  refine ⟨c', _, hpush, hplaced, ?_, ?_, ?_, ?_⟩
  · rw [hsize, addUint64, h.size, total_cons, Nat.mod_add_mod, Nat.add_comm]
  · exact forall_mem_cons.mpr ⟨hval, h.short⟩
  · rw [hsame.db]
    exact h.db
  · rw [hsame.pendingPut]
    exact h.pendingPut

theorem Kept.dropBack {e : Hash × Bytes} (h : Kept c (l ++ [e]) nodes) :
    ∃ x c' nodes', c.lruList.back = some x ∧ c.dropBack x = .ok c' ∧ Kept c' l nodes' ∧ c'.maxSize = c.maxSize := by
  obtain ⟨x, c', nodes', hback, hdrop, hplaced, hdb, hmax, hput, -, hsize⟩ := h.placed.dropBack
  have hshort := forall_mem_append.mp h.short
  refine ⟨x, c', nodes', hback, hdrop, ⟨hplaced, ?_, hshort.1, ?_, ?_⟩, hmax⟩
  · have hlen : e.2.length < 2 ^ 63 := hshort.2 e (mem_singleton_self e)
    have hsum : total (l ++ [e]) = total l + e.2.length := by simp [total]
    rw [hsize, subUint64, h.size, hsum]
    omega
  · rw [hdb]
    exact h.db
  · intro k v hv
    rw [hput] at hv
    by_cases hk : k = e.1
    · rw [hk, AList.lookup_erase] at hv
      cases hv
    · rw [AList.lookup_erase_ne hk] at hv
      exact h.pendingPut k v hv

variable (h : Kept c l nodes)
include h

theorem Kept.flushPending : Kept c.flushPending l nodes where
  placed := ⟨h.placed.ring, h.placed.fresh, h.placed.len, h.placed.ents, h.placed.nodup, h.placed.lruMap, rfl⟩
  size := h.size
  short := h.short
  db k v hv := by
    simp only [Cache.flushPending] at hv
    rw [lookup_foldl_erase] at hv
    split at hv
    · cases hv
    · rw [lookup_foldl_insert _ c.pendingPut.nodupKeys] at hv
      rcases Option.or_eq_some_iff.mp hv with hput | hdb
      · exact h.pendingPut k v hput
      · exact h.db k v hdb.2
  pendingPut := by simp [Cache.flushPending]

theorem Kept.get (hash : Hash) : ∃ l' nodes', Kept (c.get hash).2 l' nodes' ∧ (c.get hash).2.maxSize = c.maxSize := by
  cases hl : l.lookup hash with
  | none => exact ⟨l, nodes, by simpa [Cache.get, h.placed.lookup_eq_none_iff.mpr hl] using h⟩
  | some val =>
    obtain ⟨left, right, rfl, -⟩ := split_of_lookup h.placed.nodup hl
    obtain ⟨x, list, nodes', hmap, hmove, hplaced⟩ := h.placed.moveToFront
    have hstate : (c.get hash).2 = { c with lruList := list } := by
      simp only [Cache.get, hmap, hmove]
      split <;> rfl
    rw [hstate]
    refine ⟨_, nodes', ⟨hplaced, ?_, ?_, h.db, h.pendingPut⟩, rfl⟩
    · rw [← total_perm perm_middle]
      exact h.size
    · intro e he
      exact h.short e (perm_middle.mem_iff.mpr he)

/-- The loop of `Put` stops with the newest values that leave room. If none do, it has
dropped all of them. -/
theorem Kept.evict {rounds : ℕ} (len : ℕ) (hrounds : l.length < rounds) :
    ∃ x c' l' nodes', c.evict len rounds = (x, c') ∧ Kept c' l' nodes' ∧ l' <+: l ∧ c'.maxSize = c.maxSize ∧
      (x = .ok () ∧ (total l' + len) % 2 ^ 64 ≤ c.maxSize ∨
        x = .error tooLarge ∧ l' = [] ∧ ∀ front, front <+: l → c.maxSize < (total front + len) % 2 ^ 64) := by
  induction rounds generalizing c l nodes with
  | zero => omega
  | succ rounds ih =>
    have hadd : addUint64 c.size len = (total l + len) % 2 ^ 64 := by
      rw [addUint64, h.size, Nat.mod_add_mod]
    rw [Cache.evict, hadd]
    by_cases hfits : (total l + len) % 2 ^ 64 ≤ c.maxSize
    · rw [if_neg (by omega)]
      exact ⟨_, c, l, nodes, rfl, h, prefix_rfl, rfl, .inl ⟨rfl, hfits⟩⟩
    · rw [if_pos (by omega)]
      rcases eq_nil_or_concat' l with rfl | ⟨older, e, rfl⟩
      · rw [if_pos (by simpa using h.length)]
        refine ⟨_, c, [], nodes, rfl, h, prefix_rfl, rfl, .inr ⟨rfl, rfl, ?_⟩⟩
        intro front hfront
        rw [prefix_nil.mp hfront]
        omega
      · obtain ⟨x, c₁, nodes₁, hback, hdrop, hkept, hmax⟩ := h.dropBack
        have hne : c.lruList.len ≠ 0 := by
          have := h.length
          simp only [length_append, length_singleton] at this
          omega
        have hshort : older.length < rounds := by
          simp only [length_append, length_singleton] at hrounds
          omega
        obtain ⟨y, c', l', nodes', hrun, hkept', hpre, hmax', hend⟩ := ih hkept hshort
        rw [hmax] at hmax' hend
        rw [if_neg hne, hback]
        refine ⟨y, c', l', nodes', ?_, hkept', hpre.trans (prefix_append older [e]), hmax', ?_⟩
        · simp only [hdrop, hrun]
        · rcases hend with hok | ⟨hy, hnil, hall⟩
          · exact .inl hok
          · refine .inr ⟨hy, hnil, ?_⟩
            intro front hfront
            rcases prefix_concat_iff.mp hfront with rfl | hfront
            · omega
            · exact hall front hfront

theorem Kept.put (hash : Hash) (hval : Short val) : ∃ l' nodes', Kept (c.put hash val).2 l' nodes' := by
  cases hmap : c.lruMap.lookup hash with
  | some x => exact ⟨l, nodes, by simpa [Cache.put, hmap] using h⟩
  | none =>
    have hl : l.lookup hash = none := h.placed.lookup_eq_none_iff.mp hmap
    have hrounds : l.length < c.lruList.len.toNat + 1 := by
      rw [h.length]
      omega
    obtain ⟨x, c₁, l₁, nodes₁, hrun, hkept, hpre, -, hend⟩ := h.evict val.length hrounds
    rcases hend with ⟨rfl, -⟩ | ⟨rfl, -, -⟩
    · have hnew : l₁.lookup hash = none := by
        rw [lookup_eq_none_iff] at hl ⊢
        exact fun hmem => hl ((hpre.map Prod.fst).subset hmem)
      obtain ⟨c₂, nodes₂, hpush, hkept₂⟩ := hkept.push hnew hval
      have hpending : Kept { c₂ with
          pendingPut := c₂.pendingPut.insert hash val
          pendingDel := c₂.pendingDel.erase hash } ((hash, val) :: l₁) nodes₂ := by
        have hplaced := hkept₂.placed
        refine ⟨⟨hplaced.ring, hplaced.fresh, hplaced.len, hplaced.ents, hplaced.nodup, hplaced.lruMap, rfl⟩,
          hkept₂.size, hkept₂.short, hkept₂.db, ?_⟩
        intro k v hv
        by_cases hk : k = hash
        · rw [hk, AList.lookup_insert, Option.some.injEq] at hv
          rw [← hv]
          exact hval
        · rw [AList.lookup_insert_ne hk] at hv
          exact hkept₂.pendingPut k v hv
      simp only [Cache.put, hmap, hrun, hpush]
      split
      · exact ⟨_, _, hpending.flushPending⟩
      · exact ⟨_, _, hpending⟩
    · simp only [Cache.put, hmap, hrun]
      exact ⟨_, _, hkept⟩

theorem Kept.put_unchanged_iff (hash : Hash) (hval : Short val) :
    ((c.put hash val).1 = .error tooLarge → (c.put hash val).2 = c) ↔ hash ∈ c.lruMap ∨ c.lruList.len = 0 ∨
        ∃ front, front <+: sizes c.lruList ∧ (front.sum + val.length) % 2 ^ 64 ≤ c.maxSize := by
  cases hmap : c.lruMap.lookup hash with
  | some x =>
    have hmem : hash ∈ c.lruMap := by
      rw [← AList.lookup_isSome, hmap]
      rfl
    simp [Cache.put, hmap, hmem]
  | none =>
    have hl : l.lookup hash = none := h.placed.lookup_eq_none_iff.mp hmap
    have hnot : hash ∉ c.lruMap := by
      rw [h.mem_iff, hl]
      simp
    have hrounds : l.length < c.lruList.len.toNat + 1 := by
      rw [h.length]
      omega
    obtain ⟨x, c₁, l₁, nodes₁, hrun, hkept, hpre, -, hend⟩ := h.evict val.length hrounds
    rcases hend with ⟨rfl, hfits⟩ | ⟨rfl, rfl, hall⟩
    · have hnew : l₁.lookup hash = none := by
        rw [lookup_eq_none_iff] at hl ⊢
        exact fun hmem => hl ((hpre.map Prod.fst).subset hmem)
      obtain ⟨c₂, nodes₂, hpush, -⟩ := hkept.push hnew hval
      have hok : (c.put hash val).1 = .ok () := by
        simp only [Cache.put, hmap, hrun, hpush]
        split <;> rfl
      have hroom : ∃ front, front <+: sizes c.lruList ∧ (front.sum + val.length) % 2 ^ 64 ≤ c.maxSize := by
        rw [h.sizes_eq]
        exact ⟨_, hpre.map _, hfits⟩
      simp only [hok, hroom, reduceCtorEq, false_implies, or_true]
    · have hput : c.put hash val = (.error tooLarge, c₁) := by
        simp only [Cache.put, hmap, hrun]
      have hnone : ¬ ∃ front, front <+: sizes c.lruList ∧ (front.sum + val.length) % 2 ^ 64 ≤ c.maxSize := by
        rw [h.sizes_eq]
        intro hroom
        obtain ⟨front, hfront, hfits⟩ := hroom
        obtain ⟨newest, hnewest, rfl⟩ := prefix_map_iff.mp hfront
        exact absurd hfits (Nat.not_le.mpr (hall newest hnewest))
      simp only [hput, hnot, hnone, forall_const, false_or, or_false]
      constructor
      · intro hsame
        rw [← hsame, hkept.length]
        rfl
      · intro hempty
        -- an empty list is rejected in the first round
        rw [hempty] at hrun
        simp only [Int.toNat_zero, Cache.evict, hempty, if_true] at hrun
        split at hrun
        · exact (congrArg Prod.snd hrun).symm
        · simp at hrun

end Kept

section Run

variable {c : Cache} {l : Content} {nodes : List ℕ} {maxSize : ℕ}

theorem Kept.pushAll {es : Content} (h : Kept c l nodes) (hes : ((es.reverse ++ l).map Prod.fst).Nodup)
    (hshort : ∀ e ∈ es, Short e.2) : ∃ c' l' nodes', c.pushAll es = .ok c' ∧ Kept c' l' nodes' := by
  induction es generalizing c l nodes with
  | nil => exact ⟨c, l, nodes, rfl, h⟩
  | cons e es ih =>
    have hassoc : (e :: es).reverse ++ l = es.reverse ++ (e :: l) := by simp
    rw [hassoc] at hes
    have hnodup : ((e :: l).map Prod.fst).Nodup := by
      rw [map_append] at hes
      exact hes.of_append_right
    have hnew : l.lookup e.1 = none := lookup_eq_none_iff.mpr (nodup_cons.mp hnodup).1
    obtain ⟨c₁, nodes₁, hpush, hkept⟩ := h.push hnew (hshort e mem_cons_self)
    obtain ⟨c', l', nodes', hall, hkept'⟩ := ih hkept hes (fun e' he' => hshort e' (mem_cons_of_mem e he'))
    exact ⟨c', l', nodes', by rw [Cache.pushAll, hpush]; exact hall, hkept'⟩

theorem newCache_kept (db : Bucket) (maxSize : ℕ) (hdb : ∀ hash val, db.lookup hash = some val → Short val) :
    ∃ c l nodes, newCache db maxSize = .ok c ∧ Kept c l nodes := by
  have hperm : (forEach db).Perm (db.entries.map (fun e => (e.1, e.2))) := perm_insertionSort _ _
  have hempty : Kept ⟨db, 0, maxSize, ∅, LruList.init, ∅, ∅⟩ [] [] :=
    ⟨(listed_empty db maxSize).placed, rfl, by simp, hdb, by simp⟩
  have hnodup : (((forEach db).reverse ++ []).map Prod.fst).Nodup := by
    rw [append_nil]
    apply nodup_hashes_of_perm (hperm.symm.trans (reverse_perm _).symm)
    rw [map_map]
    exact db.nodupKeys
  apply hempty.pushAll hnodup
  intro e he
  obtain ⟨x, hx, rfl⟩ := mem_map.mp (hperm.mem_iff.mp he)
  exact hdb x.1 x.2 (AList.mem_lookup_iff.mpr hx)

def Op.Short : Op → Prop
  | .put _ val => CacheRejection.Short val
  | _ => True

theorem cacheStep_kept (h : Kept c l nodes) (op : Op) (hop : Op.Short op) :
    ∃ l' nodes', Kept (cacheStep op c).2 l' nodes' := by
  cases op with
  | get hash =>
    obtain ⟨l', nodes', hkept, -⟩ := h.get hash
    exact ⟨l', nodes', hkept⟩
  | put hash val => exact h.put hash hop
  | flushPending => exact ⟨l, nodes, h.flushPending⟩
  | reopen =>
    obtain ⟨c', l', nodes', hnew, hkept⟩ := newCache_kept c.close c.maxSize h.flushPending.db
    simp only [cacheStep, hnew]
    exact ⟨l', nodes', hkept⟩

theorem cacheRun_kept (h : Kept c l nodes) (ops : List Op) (hops : ∀ op ∈ ops, Op.Short op) :
    ∃ l' nodes', Kept (cacheRun ops c).2 l' nodes' := by
  induction ops generalizing c l nodes with
  | nil => exact ⟨l, nodes, h⟩
  | cons op ops ih =>
    obtain ⟨l₁, nodes₁, hkept⟩ := cacheStep_kept h op (hops op mem_cons_self)
    exact ih hkept (fun op' hop' => hops op' (mem_cons_of_mem op hop'))

/-- In every state of a cache, the value that `Put` rejects costs nothing just if there is
nothing to lose, or if it would not be rejected. -/
theorem rejected_put_unchanged_iff {db : Bucket} {c₀ : Cache}
    (hdb : ∀ hash val, db.lookup hash = some val → Short val) (hnew : newCache db maxSize = .ok c₀)
    (ops : List Op) (hops : ∀ op ∈ ops, Op.Short op) (hash : Hash) (val : Bytes) (hval : Short val) :
    let c := (cacheRun ops c₀).2
    ((c.put hash val).1 = .error tooLarge → (c.put hash val).2 = c) ↔
      hash ∈ c.lruMap ∨ c.lruList.len = 0 ∨
        ∃ front, front <+: sizes c.lruList ∧ (front.sum + val.length) % 2 ^ 64 ≤ c.maxSize := by
  obtain ⟨c₁, l₁, nodes₁, hnew₁, hkept₁⟩ := newCache_kept db maxSize hdb
  rw [hnew, Except.ok.injEq] at hnew₁
  subst hnew₁
  obtain ⟨l, nodes, hkept⟩ := cacheRun_kept hkept₁ ops hops
  exact hkept.put_unchanged_iff hash hval

/-- A value that is not larger than the cache is not rejected. -/
theorem rejected_put_unchanged_two_chunks : ∃ c₀, newCache ∅ 3 = .ok c₀ ∧
    let c := (cacheRun [.put (Hash.copy [1]) [1, 2]] c₀).2
    ((c.put (Hash.copy [2]) [3, 4]).1 = .error tooLarge → (c.put (Hash.copy [2]) [3, 4]).2 = c) := by
  refine ⟨_, rfl, ?_⟩
  have hdb : ∀ hash val, (∅ : Bucket).lookup hash = some val → Short val := by simp
  have hops : ∀ op ∈ [Op.put (Hash.copy [1]) [1, 2]], Op.Short op := by simp [Op.Short, Short]
  have hval : Short [3, 4] := by simp [Short]
  apply (rejected_put_unchanged_iff hdb rfl _ hops _ _ hval).mpr
  exact .inr (.inr ⟨[], nil_prefix, by decide +kernel⟩)

/-- The rejected value has cost the cached one. -/
theorem put_four_bytes : ∃ c₀, newCache ∅ 3 = .ok c₀ ∧
    let c := (cacheRun [.put (Hash.copy [1]) [1, 2]] c₀).2
    (c.put (Hash.copy [2]) [1, 2, 3, 4]).1 = .error tooLarge ∧
      (c.get (Hash.copy [1])).1 = .ok (some [1, 2]) ∧
      ((c.put (Hash.copy [2]) [1, 2, 3, 4]).2.get (Hash.copy [1])).1 = .ok none ∧
      c.size = 2 ∧ (c.put (Hash.copy [2]) [1, 2, 3, 4]).2.size = 0 := by
  refine ⟨_, rfl, ?_⟩
  decide +kernel

end Run

end Bpy.CacheRejection
