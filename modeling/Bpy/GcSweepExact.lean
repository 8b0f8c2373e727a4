import Bpy.GcSweepServer
import Bpy.PackRoundTrip

/-!
# What the sweep leaves on the server

Nobody else adds packs here. A pack is settled when the sweep will not remove it: it was
skipped, or the sweep has written it. Settled packs and the pack that is being written have
exactly the moved hashes, each in one place and once in it. Once the sweep is through, all
packs of the server are settled and every reachable hash has been moved.
-/
namespace Bpy.GcSweepExact
open ByteWords InteractionPrograms ContentStore PackFile PackRoundTrip StoreReader GcSweep ProgramLogic
open PackRuns GcSweepServer GcSweepRule Function
open GcSweepSafety (entHash_bytes)
open List hiding keys removeAll
open Method

section Spread

variable {ι κ : Type} {held : ι → List κ} {all : List κ}

/-- The elements of `all` are spread over places: each is in one of them, and once in it. -/
structure Spread (held : ι → List κ) (all : List κ) : Prop where
  nodup : ∀ i, (held i).Nodup
  mem_iff : ∀ k, k ∈ all ↔ ∃ i, k ∈ held i
  unique : ∀ {k i j}, k ∈ held i → k ∈ held j → i = j

theorem Spread.congr {all' : List κ} (h : Spread held all) (hall : ∀ k, k ∈ all' ↔ k ∈ all) : Spread held all' :=
  ⟨h.nodup, fun k => (hall k).trans (h.mem_iff k), h.unique⟩

variable [DecidableEq ι]

theorem Spread.grow (h : Spread held all) (i : ι) {new : List κ} (hnew : new.Nodup) (hfresh : ∀ k ∈ new, k ∉ all) :
    Spread (update held i (held i ++ new)) (new ++ all) := by
  have hmem : ∀ k j, k ∈ update held i (held i ++ new) j ↔ k ∈ held j ∨ (j = i ∧ k ∈ new) := by
    intro k j
    by_cases hj : j = i
    · subst hj
      simp
    · simp [hj]
  have hout : ∀ k ∈ new, ∀ j, k ∉ held j := by
    intro k hk j hj
    exact hfresh k hk ((h.mem_iff k).mpr ⟨j, hj⟩)
  refine ⟨fun j => ?_, fun k => ?_, fun {k j j'} hj hj' => ?_⟩
  · by_cases hj : j = i
    · subst hj
      rw [update_self, nodup_append]
      refine ⟨h.nodup j, hnew, fun a ha b hb hab => ?_⟩
      subst hab
      exact hout a hb j ha
    · rw [update_of_ne hj]
      exact h.nodup j
  · simp only [hmem, mem_append, h.mem_iff k]
    constructor
    · intro hk
      cases hk with
      | inl hk => exact ⟨i, .inr ⟨rfl, hk⟩⟩
      | inr hk =>
        obtain ⟨j, hj⟩ := hk
        exact ⟨j, .inl hj⟩
    · intro hk
      obtain ⟨j, hj | ⟨-, hj⟩⟩ := hk
      · exact .inr ⟨j, hj⟩
      · exact .inl hj
  · rw [hmem] at hj hj'
    rcases hj with hj | ⟨rfl, hj⟩
    · rcases hj' with hj' | ⟨-, hj'⟩
      · exact h.unique hj hj'
      · exact absurd hj (hout k hj' j)
    · rcases hj' with hj' | ⟨rfl, -⟩
      · exact absurd hj' (hout k hj j')
      · rfl

theorem Spread.transfer (h : Spread held all) {i j : ι} (hij : i ≠ j) (hempty : held j = []) {l : List κ}
    (hl : l.Perm (held i)) : Spread (update (update held i []) j l) all := by
  have hmem : ∀ k m, k ∈ update (update held i []) j l m ↔ k ∈ held (if m = j then i else m) ∧ m ≠ i := by
    intro k m
    by_cases hj : m = j
    · subst hj
      simp [hl.mem_iff, Ne.symm hij]
    · by_cases hi : m = i
      · subst hi
        simp [hij]
      · simp [hj, hi]
  refine ⟨fun m => ?_, fun k => ?_, fun {k m m'} hm hm' => ?_⟩
  · by_cases hj : m = j
    · subst hj
      rw [update_self]
      exact hl.nodup_iff.mpr (h.nodup i)
    · rw [update_of_ne hj]
      by_cases hi : m = i
      · subst hi
        rw [update_self]
        exact nodup_nil
      · rw [update_of_ne hi]
        exact h.nodup m
  · simp only [hmem, h.mem_iff k]
    constructor
    · rintro ⟨m, hm⟩
      by_cases hi : m = i
      · subst hi
        exact ⟨j, by rwa [if_pos rfl], Ne.symm hij⟩
      · refine ⟨m, ?_, hi⟩
        rw [if_neg]
        · exact hm
        · rintro rfl
          rw [hempty] at hm
          cases hm
    · rintro ⟨m, hm, -⟩
      exact ⟨_, hm⟩
  · rw [hmem] at hm hm'
    have heq := h.unique hm.1 hm'.1
    by_cases hj : m = j
    · by_cases hj' : m' = j
      · rw [hj, hj']
      · rw [if_pos hj, if_neg hj'] at heq
        exact absurd heq.symm hm'.2
    · by_cases hj' : m' = j
      · rw [if_neg hj, if_pos hj'] at heq
        exact absurd heq hm.2
      · rwa [if_neg hj, if_neg hj'] at heq

end Spread

/-- The hashes in the index of a pack are distinct. -/
structure WellKeyed (P : Pack) : Prop where
  key_length : ∀ e ∈ P.idx, e.key.length = 32
  nodup : (keys P.idx).Nodup

def packKeys (s : Server) (n : Bytes) : List Bytes :=
  match s.packs.lookup n with
  | some P => keys P.idx
  | none => []

def writerKeys (gc : GcState) : List Bytes :=
  match gc.newPack with
  | some p => keys p.index
  | none => []

/-- The keys in the settled packs, and as `none` those of the pack that is being written. -/
def settled (todo : List PackListing) (gc : GcState) (s : Server) : Option Bytes → List Bytes
  | none => writerKeys gc
  | some n =>
    if n ∈ gc.canDelete ∨ n ∈ todo.map PackListing.name then [] else packKeys s n

/-- The invariant of a sweep that began with the server `s₀`, with the packs in `todo` still to
be swept. -/
structure Exact (visited : List Hash) (s₀ : Server) (todo : List PackListing) (gc : GcState)
    (s : Server) : Prop where
  todo_pack : ∀ x ∈ todo, ∃ P, s₀.packs.lookup x.name = some P ∧ WellKeyed P ∧
    s.packs.lookup x.name = some P
  todo_nodup : (todo.map PackListing.name).Nodup
  delete_pack : ∀ n ∈ gc.canDelete, s.packs.lookup n ≠ none
  delete_todo : ∀ n ∈ gc.canDelete, n ∉ todo.map PackListing.name
  moved_visited : ∀ h ∈ gc.moved, h ∈ visited
  spread : Spread (settled todo gc s) (gc.moved.map Hash.bytes)
  needed_moved : ∀ h ∈ visited, (∃ n, h.bytes ∈ packKeys s₀ n) →
    h ∈ gc.moved ∨ ∃ n ∈ todo.map PackListing.name, h.bytes ∈ packKeys s₀ n

variable {Enc : Hash → Bytes → Prop} {visited : List Hash}
  {todo : List PackListing} {gc : GcState} {s₀ s s' : Server}

variable {n : Bytes} {p : PackWriter}

theorem packKeys_of_lookup {P : Pack} (h : s.packs.lookup n = some P) : packKeys s n = keys P.idx := by
  rw [packKeys, h]

theorem packKeys_of_none (h : s.packs.lookup n = none) : packKeys s n = [] := by
  rw [packKeys, h]

theorem packKeys_congr (h : s'.packs.lookup n = s.packs.lookup n) : packKeys s' n = packKeys s n := by
  rw [packKeys, packKeys, h]

theorem mem_moved_iff {h : Hash} : h.bytes ∈ gc.moved.map Hash.bytes ↔ h ∈ gc.moved := by
  constructor
  · intro hh
    obtain ⟨h', hmem, heq⟩ := mem_map.mp hh
    rwa [← Hash.bytes_inj heq]
  · exact mem_map_of_mem

theorem Exact.of_packs_eq (hinv : Exact visited s₀ todo gc s) (h : s'.packs = s.packs) :
    Exact visited s₀ todo gc s' := by
  have hkeys : packKeys s' = packKeys s := funext fun n => packKeys_congr (by rw [h])
  have hsettled : settled todo gc s' = settled todo gc s := by
    funext place
    cases place with
    | none => rfl
    | some n => rw [settled, settled, hkeys]
  exact {
    todo_pack := by rw [h]; exact hinv.todo_pack
    todo_nodup := hinv.todo_nodup
    delete_pack := by rw [h]; exact hinv.delete_pack
    delete_todo := hinv.delete_todo
    moved_visited := hinv.moved_visited
    spread := by rw [hsettled]; exact hinv.spread
    needed_moved := hinv.needed_moved }

theorem packs_eq_of_answer {q : SweepRequest} {r : q.Response} (h : Answer Enc s q r s')
    (hclose : ∀ n idx, q ≠ .closePack n idx) (hremove : ∀ n epoch, q ≠ .remove n epoch) : s'.packs = s.packs := by
  cases h with
  | closePack size hd hnew => exact absurd rfl (hclose _ _)
  | remove n epoch => exact absurd rfl (hremove _ _)
  | removeFails n epoch e => exact absurd rfl (hremove _ _)
  | _ => rfl

section

variable (hinv : Exact visited s₀ todo gc s)
include hinv

theorem Exact.outside (hn : s.packs.lookup n = none) : ¬ (n ∈ gc.canDelete ∨ n ∈ todo.map PackListing.name) := by
  rintro (h | h)
  · exact hinv.delete_pack n h hn
  · obtain ⟨x, hx, rfl⟩ := mem_map.mp h
    obtain ⟨P, -, -, hP⟩ := hinv.todo_pack x hx
    rw [hn] at hP
    cases hP

theorem Exact.close (hp : gc.newPack = some p) (hT : Answer Enc s (.closePack p.name (sortIndex p.index)) (.ok ()) s') :
    Exact visited s₀ todo { gc with newPack := none, newPackSize := 0 } s' := by
  cases hT with
  | closePack size hd hnew =>
    rename_i d
    have hlookup : ∀ n, n ≠ p.name →
        (s.packs.insert p.name ⟨sortIndex p.index, d, size⟩).lookup n = s.packs.lookup n :=
      fun n hn => AList.lookup_insert_ne hn
    have hold : ∀ n P, s.packs.lookup n = some P →
        (s.packs.insert p.name ⟨sortIndex p.index, d, size⟩).lookup n = some P := by
      intro n P hP
      rw [hlookup, hP]
      rintro rfl
      rw [hnew] at hP
      cases hP
    have hout := hinv.outside hnew
    have hsettled : settled todo { gc with newPack := none, newPackSize := 0 }
        { s with packs := s.packs.insert p.name ⟨sortIndex p.index, d, size⟩ } =
        update (update (settled todo gc s) none []) (some p.name) (keys (sortIndex p.index)) := by
      funext place
      cases place with
      | none => rfl
      | some n =>
        by_cases hn : n = p.name
        · subst hn
          rw [update_self, settled, if_neg hout, packKeys_of_lookup (AList.lookup_insert _)]
        · rw [update_of_ne (by simpa using hn), update_of_ne (by simp), settled,
            settled, packKeys_congr (hlookup n hn)]
    refine ⟨fun x hx => ?_, hinv.todo_nodup, fun n hn => ?_, hinv.delete_todo, hinv.moved_visited,
      ?_, hinv.needed_moved⟩
    · obtain ⟨P, hP, hwk, hP'⟩ := hinv.todo_pack x hx
      exact ⟨P, hP, hwk, hold _ P hP'⟩
    · obtain ⟨P, hP⟩ := Option.ne_none_iff_exists'.mp (hinv.delete_pack n hn)
      rw [hold n P hP]
      exact Option.some_ne_none P
    · rw [hsettled]
      apply hinv.spread.transfer (by simp)
      · rw [settled, if_neg hout, packKeys_of_none hnew]
      · rw [settled, writerKeys, hp]
        exact (perm_sortIndex p.index).map _

theorem Exact.removed (hkeep : ∀ n, n ∉ gc.canDelete → s'.packs.lookup n = s.packs.lookup n)
    (hgone : ∀ n ∈ gc.canDelete, s'.packs.lookup n = none) : Exact visited s₀ todo { gc with canDelete := [] } s' := by
  have htodo : ∀ n ∈ todo.map PackListing.name, s'.packs.lookup n = s.packs.lookup n :=
    fun n hn => hkeep n (fun hd => hinv.delete_todo n hd hn)
  have hsettled : settled todo { gc with canDelete := [] } s' = settled todo gc s := by
    funext place
    cases place with
    | none => rfl
    | some n =>
      rw [settled, settled]
      by_cases hd : n ∈ gc.canDelete
      · rw [packKeys_of_none (hgone n hd), ite_self, if_pos (.inl hd)]
      · rw [packKeys_congr (hkeep n hd)]
        simp [hd]
  refine ⟨fun x hx => ?_, hinv.todo_nodup, by simp, by simp, hinv.moved_visited, ?_, hinv.needed_moved⟩
  · rw [htodo _ (mem_map_of_mem hx)]
    exact hinv.todo_pack x hx
  · rw [hsettled]
    exact hinv.spread

theorem Exact.add (hp : gc.newPack = some p)
    {hash : Hash} (hnew : hash ∉ gc.moved) (hvisited : hash ∈ visited) {p' : PackWriter}
    (hp' : keys p'.index = keys p.index ++ [hash.bytes]) (size : ℕ) :
    Exact visited s₀ todo { gc with
      newPack := some p'
      newPackSize := size
      moved := hash :: gc.moved } s := by
  have hsettled : settled todo { gc with
        newPack := some p'
        newPackSize := size
        moved := hash :: gc.moved } s =
      update (settled todo gc s) none (settled todo gc s none ++ [hash.bytes]) := by
    funext place
    cases place with
    | none => rw [update_self, settled, settled, writerKeys, writerKeys, hp, ← hp']
    | some n => rfl
  refine ⟨hinv.todo_pack, hinv.todo_nodup, hinv.delete_pack, hinv.delete_todo, fun h hh => ?_, ?_,
    fun h hh hold => ?_⟩
  · rcases mem_cons.mp hh with rfl | hh
    · exact hvisited
    · exact hinv.moved_visited h hh
  · rw [hsettled]
    apply hinv.spread.grow none (nodup_singleton _)
    intro k hk
    rw [mem_singleton.mp hk, mem_moved_iff]
    exact hnew
  · rcases hinv.needed_moved h hh hold with hm | hrest
    · exact .inl (mem_cons_of_mem _ hm)
    · exact .inr hrest

end

section Steps

variable {epoch : Bytes} {cache : Bool}

theorem Exact.quiet (hinv : Exact visited s₀ todo gc s) {q : SweepRequest} {r : q.Response} (hq : Quiet q)
    (hT : Answer Enc s q r s') : Exact visited s₀ todo gc s' := by
  apply hinv.of_packs_eq
  apply packs_eq_of_answer hT
  · rintro n idx rfl
    exact hq
  · rintro n epoch rfl
    exact hq

theorem removeAll_wp (toDelete : List Bytes) : wp (Answer Enc) (fun _ _ => True) (removeAll epoch toDelete)
      (onOk fun _ gc' s' => gc' = gc ∧ (∀ n, n ∉ toDelete → s'.packs.lookup n = s.packs.lookup n) ∧
        ∀ n ∈ toDelete, s'.packs.lookup n = none) gc s := by
  induction toDelete generalizing s with
  | nil => exact ⟨rfl, fun _ _ => rfl, by simp⟩
  | cons n rest ih =>
    apply wp_seq_ok (wp_send_ok (P := fun _ gc' s' => gc' = gc ∧ s'.packs = s.packs.erase n) trivial ?_)
    · rintro - gc' s₁ ⟨rfl, hs₁⟩
      refine wp_mono_ok ?_ (ih (s := s₁))
      rintro - gc'' s₂ ⟨rfl, hkeep, hgone⟩
      refine ⟨rfl, fun m hm => ?_, fun m hm => ?_⟩
      · rw [mem_cons, not_or] at hm
        rw [hkeep m hm.2, hs₁, AList.lookup_erase_ne hm.1]
      · by_cases hrest : m ∈ rest
        · exact hgone m hrest
        · rw [hkeep m hrest, hs₁, (mem_cons.mp hm).resolve_right hrest]
          exact AList.lookup_erase _ _
    · intro r a s₁ hT hr
      rw [id_eq] at hr
      subst hr
      cases hT with
      | remove n epoch => exact ⟨rfl, rfl⟩

/-- With an empty pack being written, or with none, the settled packs are the same. -/
theorem Exact.renew (hinv : Exact visited s₀ todo gc s) (hnone : gc.newPack = none) {p : Option PackWriter}
    (hp : ∀ w, p = some w → w.index = []) (size : ℕ) :
    Exact visited s₀ todo { gc with newPack := p, newPackSize := size } s := by
  have hsettled : settled todo { gc with newPack := p, newPackSize := size } s = settled todo gc s := by
    funext place
    cases place with
    | none =>
      rw [settled, settled, writerKeys, writerKeys, hnone]
      cases p with
      | none => rfl
      | some w => exact congrArg keys (hp w rfl)
    | some n => rfl
  refine ⟨hinv.todo_pack, hinv.todo_nodup, hinv.delete_pack, hinv.delete_todo, hinv.moved_visited, ?_,
    hinv.needed_moved⟩
  rw [hsettled]
  exact hinv.spread

theorem Exact.fresh (hinv : Exact visited s₀ todo gc s) {p : PackWriter} (hp : gc.newPack = some p) {hash : Hash}
    (hnew : hash ∉ gc.moved) : hash.bytes ∉ keys p.index := by
  intro hk
  apply hnew
  rw [← mem_moved_iff, hinv.spread.mem_iff]
  refine ⟨none, ?_⟩
  rwa [settled, writerKeys, hp]

theorem runValues_true (run : Index) (data : Bytes) : RunValues (fun _ _ => True) run data := by
  induction run generalizing data with
  | nil => trivial
  | cons e run ih => exact fun _ => ⟨trivial, ih _⟩

variable {x : PackListing} {P : Pack}

section

variable (hinv : Exact visited s₀ (x :: todo) gc s) (hP : s₀.packs.lookup x.name = some P)
include hinv hP

theorem Exact.needed_cases {h : Hash} (hh : h ∈ visited) (hold : ∃ n, h.bytes ∈ packKeys s₀ n) :
    h ∈ gc.moved ∨ (∃ e ∈ P.idx, entHash e = h) ∨ ∃ n ∈ todo.map PackListing.name, h.bytes ∈ packKeys s₀ n := by
  rcases hinv.needed_moved h hh hold with hm | ⟨n, hn, hmem⟩
  · exact .inl hm
  · rcases mem_cons.mp hn with rfl | hn
    · rw [packKeys_of_lookup hP] at hmem
      obtain ⟨e, he, hkey⟩ := mem_map.mp hmem
      refine .inr (.inl ⟨e, he, ?_⟩)
      rw [entHash, hkey, Hash.copy_bytes]
    · exact .inr (.inr ⟨n, hn, hmem⟩)

theorem Exact.skip {idx : Index} (hidx : idx.Perm P.idx) (hmove : ∀ e ∈ idx, toMove visited gc.moved e = true) :
    Exact visited s₀ todo { gc with moved := (idx.map entHash).reverse ++ gc.moved } s := by
  obtain ⟨P', hP', hwk, hlookup⟩ := hinv.todo_pack x mem_cons_self
  cases hP.symm.trans hP'
  have hnodup := nodup_cons.mp hinv.todo_nodup
  have hdel : x.name ∉ gc.canDelete := fun h => hinv.delete_todo _ h mem_cons_self
  have hsettled : settled todo { gc with moved := (idx.map entHash).reverse ++ gc.moved } s =
      update (settled (x :: todo) gc s) (some x.name) (settled (x :: todo) gc s (some x.name) ++ keys P.idx) := by
    funext place
    cases place with
    | none => rfl
    | some n =>
      by_cases hn : n = x.name
      · subst hn
        have hnext : settled (x :: todo) gc s (some x.name) = [] := if_pos (.inr mem_cons_self)
        rw [update_self, hnext, nil_append, settled,
          if_neg (not_or.mpr ⟨hdel, hnodup.1⟩), packKeys_of_lookup hlookup]
      · rw [update_of_ne (by simpa using hn), settled, settled]
        simp [hn]
  have hhash : ∀ e ∈ P.idx, (entHash e).bytes = e.key := fun e he => entHash_bytes (hwk.key_length e he)
  refine ⟨fun y hy => hinv.todo_pack y (mem_cons_of_mem _ hy), hnodup.2, hinv.delete_pack,
    fun n hn hmem => hinv.delete_todo n hn (mem_cons_of_mem _ hmem), fun h hh => ?_, ?_,
    fun h hh hold => ?_⟩
  · simp only [mem_append, mem_reverse, mem_map] at hh
    rcases hh with ⟨e, he, rfl⟩ | hh
    · exact (toMove_iff.mp (hmove e he)).1
    · exact hinv.moved_visited h hh
  · rw [hsettled]
    refine (hinv.spread.grow (some x.name) hwk.nodup ?_).congr ?_
    · intro k hk
      obtain ⟨e, he, rfl⟩ := mem_map.mp hk
      rw [← hhash e he, mem_moved_iff]
      exact (toMove_iff.mp (hmove e (hidx.mem_iff.mpr he))).2
    · intro k
      have hkeys : (∃ e ∈ idx, (entHash e).bytes = k) ↔ k ∈ keys P.idx := by
        rw [keys, mem_map]
        constructor
        · rintro ⟨e, he, rfl⟩
          exact ⟨e, hidx.mem_iff.mp he, (hhash e (hidx.mem_iff.mp he)).symm⟩
        · rintro ⟨e, he, rfl⟩
          exact ⟨e, hidx.mem_iff.mpr he, hhash e he⟩
      rw [map_append, mem_append, mem_append, ← hkeys]
      simp
  · rcases hinv.needed_cases hP hh hold with hm | ⟨e, he, rfl⟩ | hrest
    · exact .inl (mem_append_right _ hm)
    · refine .inl (mem_append_left _ (mem_reverse.mpr ?_))
      exact mem_map_of_mem (hidx.mem_iff.mpr he)
    · exact .inr hrest

theorem Exact.retire (hmoved : ∀ e ∈ P.idx, entHash e ∈ visited → entHash e ∈ gc.moved) :
    Exact visited s₀ todo { gc with canDelete := gc.canDelete ++ [x.name] } s := by
  have hnodup := nodup_cons.mp hinv.todo_nodup
  have hsettled : settled todo { gc with canDelete := gc.canDelete ++ [x.name] } s = settled (x :: todo) gc s := by
    funext place
    cases place with
    | none => rfl
    | some n =>
      rw [settled, settled]
      simp [or_assoc]
  refine ⟨fun y hy => hinv.todo_pack y (mem_cons_of_mem _ hy), hnodup.2, fun n hn => ?_,
    fun n hn hmem => ?_, hinv.moved_visited, ?_, fun h hh hold => ?_⟩
  · rcases mem_append.mp hn with hn | hn
    · exact hinv.delete_pack n hn
    · obtain ⟨P', -, -, hlookup⟩ := hinv.todo_pack x mem_cons_self
      rw [mem_singleton.mp hn, hlookup]
      exact Option.some_ne_none _
  · rcases mem_append.mp hn with hn | hn
    · exact hinv.delete_todo n hn (mem_cons_of_mem _ hmem)
    · rw [mem_singleton.mp hn] at hmem
      exact hnodup.1 hmem
  · rw [hsettled]
    exact hinv.spread
  · rcases hinv.needed_cases hP hh hold with hm | ⟨e, he, rfl⟩ | hrest
    · exact .inl hm
    · exact .inl (hmoved e he hh)
    · exact .inr hrest

end

theorem exact_listed {l : List PackListing} (hl : l.Perm s.listing)
    (hwk : ∀ n P, s.packs.lookup n = some P → WellKeyed P) : Exact visited s l GcState.start s := by
  have hnames : ∀ n, n ∈ l.map PackListing.name ↔ n ∈ s.listing.map PackListing.name :=
    fun n => (hl.map PackListing.name).mem_iff
  have hsettled : ∀ place, settled l GcState.start s place = [] := by
    intro place
    cases place with
    | none => rfl
    | some n =>
      rw [settled]
      split
      · rfl
      · rename_i hout
        cases hn : s.packs.lookup n with
        | none => exact packKeys_of_none hn
        | some P => exact absurd (.inr ((hnames n).mpr (mem_listing hn))) hout
  refine ⟨fun x hx => ?_, ?_, by simp [GcState.start], by simp [GcState.start],
    by simp [GcState.start], ?_, fun h _ hold => .inr ?_⟩
  · obtain ⟨P, hP⟩ := lookup_of_mem_listing (hl.mem_iff.mp hx)
    exact ⟨P, hP, hwk _ P hP, hP⟩
  · apply (hl.map PackListing.name).nodup_iff.mpr
    rw [listing_names]
    exact AList.keys_nodup _
  · refine ⟨fun place => ?_, fun k => ?_, fun {k place place'} hk => ?_⟩
    · rw [hsettled]
      exact nodup_nil
    · simp only [hsettled]
      simp [GcState.start]
    · rw [hsettled] at hk
      cases hk
  · obtain ⟨n, hn⟩ := hold
    refine ⟨n, ?_, hn⟩
    cases hP : s.packs.lookup n with
    | none =>
      rw [packKeys_of_none hP] at hn
      cases hn
    | some P => exact (hnames n).mpr (mem_listing hP)

variable {byOffset : Index → Index} (hperm : ∀ idx, (byOffset idx).Perm idx)

variable (Enc visited s₀) in
def rule : Rule Server PackListing visited byOffset where
  T := Answer Enc
  G _ _ := True
  item := id
  Indexed x idx := ∃ P, s₀.packs.lookup x.name = some P ∧ idx = P.idx
  Val _ _ := True
  I := Exact visited s₀
  guard _ := trivial
  quiet hinv hq hT := hinv.quiet hq hT
  index := by
    intro x todo gc s idx s' hinv hT
    obtain ⟨P, hP, -, hlookup⟩ := hinv.todo_pack x List.mem_cons_self
    cases hT with
    | readIndex h =>
      cases h.symm.trans hlookup
      exact ⟨P, hP, rfl⟩
  read _ _ _ _ _ _ := runValues_true _ _
  cached _ := trivial
  create hinv hnone hT := by
    refine (hinv.of_packs_eq (packs_eq_of_answer hT (by simp) (by simp))).renew hnone ?_ _
    intro w hw
    cases hw
    rfl
  fresh hinv hp hnew := hinv.fresh hp hnew
  add hinv hp hnew hvisited _ hT :=
    (hinv.of_packs_eq (packs_eq_of_answer hT (by simp) (by simp))).add hp hnew hvisited (by simp [keys]) _
  close hinv hp hT := hinv.close hp hT
  unopened hinv hnone := hinv.renew (p := none) hnone nofun 0
  removed epoch hinv _ := by
    refine Method.wp_mono_ok ?_ (removeAll_wp _)
    rintro - gc' s' ⟨rfl, hkeep, hgone⟩
    exact ⟨rfl, hinv.removed hkeep hgone⟩
  skip := by
    rintro x todo gc s idx hinv ⟨P, hP, rfl⟩ hmove
    exact hinv.skip hP (hperm _) hmove
  retire := by
    rintro x todo gc s idx hinv ⟨P, hP, rfl⟩ hmoved
    exact hinv.retire hP (fun e he => hmoved e ((hperm _).mem_iff.mpr he))

end Steps

/-- After the sweep the packs have reachable hashes only, and a reachable hash that was in a pack
is in exactly one pack and once in its index. -/
theorem sweep_precise (Enc : Hash → Bytes → Prop) (epoch : Bytes) (visited : List Hash) (cache : Bool)
    (byOffset : Index → Index) (hperm : ∀ idx, (byOffset idx).Perm idx) (s s' : Server) (gc : GcState)
    (hwk : ∀ n P, s.packs.lookup n = some P → WellKeyed P)
    (hrun : Prog.Runs (Answer Enc) (sweep epoch visited cache byOffset GcState.start) s
      (.done (.ok (), gc)) s') :
    (∀ n P, s'.packs.lookup n = some P → ∀ k ∈ keys P.idx, ∃ h ∈ visited, h.bytes = k) ∧
    ∀ h ∈ visited, (∃ n P, s.packs.lookup n = some P ∧ h.bytes ∈ keys P.idx) →
      ∃ n P, s'.packs.lookup n = some P ∧ (keys P.idx).count h.bytes = 1 ∧
        ∀ n' P', s'.packs.lookup n' = some P' → h.bytes ∈ keys P'.idx → n' = n := by
  have hlisted : ∀ l s₁, Answer Enc s .listPacks (.ok l) s₁ →
      ∃ todo : List PackListing, todo.map id = l ∧ Exact visited s todo GcState.start s₁ := by
    intro l s₁ hT
    cases hT with
    | listPacks hl => exact ⟨l, List.map_id l, exact_listed hl hwk⟩
  obtain ⟨hinv, hdelete, hnone⟩ :=
    Prog.wp_of_runs hrun (sweep_wp (R := rule Enc visited s hperm) hlisted)
  dsimp only at hinv hdelete hnone
  have hall : ∀ n P, s'.packs.lookup n = some P → settled [] gc s' (some n) = keys P.idx := by
    intro n P hP
    rw [settled, if_neg (by simp [hdelete]), packKeys_of_lookup hP]
  constructor
  · intro n P hP k hk
    rw [← hall n P hP] at hk
    obtain ⟨h, hh, heq⟩ := List.mem_map.mp ((hinv.spread.mem_iff k).mpr ⟨_, hk⟩)
    exact ⟨h, hinv.moved_visited h hh, heq⟩
  · rintro h hh ⟨n₀, P₀, hP₀, hk⟩
    rw [← packKeys_of_lookup hP₀] at hk
    have hmoved : h ∈ gc.moved := by
      rcases hinv.needed_moved h hh ⟨n₀, hk⟩ with hm | ⟨n, hn, -⟩
      · exact hm
      · cases hn
    obtain ⟨place, hplace⟩ := (hinv.spread.mem_iff _).mp (mem_moved_iff.mpr hmoved)
    cases place with
    | none =>
      rw [settled, writerKeys, hnone] at hplace
      cases hplace
    | some n =>
      cases hP : s'.packs.lookup n with
      | none =>
        rw [settled, packKeys_of_none hP, ite_self] at hplace
        cases hplace
      | some P =>
        refine ⟨n, P, hP, ?_, fun n' P' hP' hk' => ?_⟩
        · rw [← hall n P hP]
          exact List.count_eq_one_of_mem (hinv.spread.nodup _) hplace
        · rw [← hall n' P' hP'] at hk'
          exact Option.some.inj (hinv.spread.unique hk' hplace)

section TwoPacks

def firstPack : Pack :=
  ⟨[⟨(Hash.copy [7]).bytes, 1, 0⟩, ⟨(Hash.copy [8]).bytes, 1, 1⟩], [7, 8], 100⟩

def secondPack : Pack := ⟨[⟨(Hash.copy [7]).bytes, 1, 0⟩], [7], 100⟩

def twoPacks : Server := ⟨(AList.singleton [2] secondPack).insert [1] firstPack, ∅⟩

/-- The server after the value has been moved and the old packs are gone. -/
def sweptPacks : Server :=
  ⟨((twoPacks.packs.insert newName ⟨sortIndex [⟨(Hash.copy [7]).bytes, 1, 0⟩], [7], 100⟩).erase
      [1]).erase [2],
    (twoPacks.uploads.insert newName []).insert newName [7]⟩

theorem runs_twoPacks : Prog.Runs (Answer (fun _ _ => True))
    (sweep [9] [Hash.copy [7]] false offsetSorted GcState.start) twoPacks
    (.done (.ok (), ⟨0, none, [Hash.copy [7]], []⟩)) sweptPacks := by
  refine .step (r := .ok [⟨[1], 100⟩, ⟨[2], 100⟩]) (.listPacks (.refl _)) ?_
  refine .step (r := .ok firstPack.idx) (.readIndex (P := firstPack) rfl) ?_
  refine .step (r := .ok [7]) (.readAt (P := firstPack) rfl (fun _ => rfl)) ?_
  refine .step (r := .ok [2]) (.randomFileName _ _) ?_
  refine .step (r := .ok ()) (.newPack rfl) ?_
  refine .step (r := .ok ()) (.initPack _ _) ?_
  refine .step (r := .ok ()) (.writePack rfl) ?_
  refine .step (r := .ok secondPack.idx) (.readIndex (P := secondPack) rfl) ?_
  refine .step (r := .ok ()) (.closePack 100 rfl rfl) ?_
  refine .step (r := .ok ()) (.remove _ _ _) ?_
  refine .step (r := .ok ()) (.remove _ _ _) ?_
  exact .refl _ _

theorem wellKeyed_twoPacks (n : Bytes) (P : Pack) (hP : twoPacks.packs.lookup n = some P) : WellKeyed P := by
  have hmem := AList.mem_lookup_iff.mp hP
  rcases mem_cons.mp hmem with heq | heq
  · cases heq
    exact ⟨by decide, by decide⟩
  · cases mem_singleton.mp heq
    exact ⟨by decide, by decide⟩

/-- The hash that two packs have is in one pack, the one that is not reachable in none. -/
theorem sweep_precise_twoPacks :
    Prog.Runs (Answer (fun _ _ => True)) (sweep [9] [Hash.copy [7]] false offsetSorted GcState.start)
      twoPacks (.done (.ok (), ⟨0, none, [Hash.copy [7]], []⟩)) sweptPacks ∧
    (∀ n P, sweptPacks.packs.lookup n = some P → ∀ k ∈ keys P.idx,
      ∃ h ∈ [Hash.copy [7]], h.bytes = k) ∧
    ∃ n P, sweptPacks.packs.lookup n = some P ∧ (keys P.idx).count (Hash.copy [7]).bytes = 1 ∧
      ∀ n' P', sweptPacks.packs.lookup n' = some P' → (Hash.copy [7]).bytes ∈ keys P'.idx → n' = n := by
  have hprecise := sweep_precise (fun _ _ => True) [9] [Hash.copy [7]] false offsetSorted
    sortsByOffset_offsetSorted.perm twoPacks sweptPacks _ wellKeyed_twoPacks runs_twoPacks
  refine ⟨runs_twoPacks, hprecise.1, hprecise.2 _ List.mem_cons_self ?_⟩
  exact ⟨[2], secondPack, rfl, List.mem_cons_self⟩

end TwoPacks

end Bpy.GcSweepExact
