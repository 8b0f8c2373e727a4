import Bpy.ObjectGraph

/-!
# What `PutRef` stores

A ref fits one leaf. `PutRef` closes its writer twice: the first `Close` puts the leaf and
leaves an entry for it at the level above, and the deferred one therefore puts an empty leaf
and a node with two entries.
-/
namespace Bpy.RefWrites
open ByteWords InteractionPrograms ContentStore HashTreeWriter
open References ObjectGraph ProgramLogic Method
open List hiding get

section Small

variable {σ : Type} {T : σ → (q : StoreRequest) → q.Response → σ → Prop} {G : σ → StoreRequest → Prop}
  {w : Writer} {s : σ}

theorem wp_write {P : Except GoError ℕ → Writer → σ → Prop} {buf : Bytes} (hbuf : buf ≠ [])
    (hfits : w.nbytes 0 + buf.length ≤ maxlen) (h : P (.ok buf.length) (w.setLvl 0 (w.lvls 0 ++ buf)) s) :
    wp T G (write buf) P w s := by
  have hpos : 0 < buf.length := length_pos_iff.mpr hbuf
  have hmin : min buf.length (maxlen - w.nbytes 0) = buf.length := by omega
  obtain ⟨k, hk⟩ : ∃ k, 2 * buf.length = k + 1 := ⟨2 * buf.length - 1, by omega⟩
  rw [write, hk, writeLoop, if_neg hbuf, wp_bind, wp_bind, wp_self]
  dsimp only [Method.after]
  rw [hmin, if_neg hpos.ne', wp_bind, wp_update]
  dsimp only [Method.after]
  rw [take_length, drop_length, writeLoop, if_pos rfl]
  exact h

/-- A writer with bytes in its lowest level only. -/
def filled (d : Bytes) : Writer := newWriter.setLvl 0 (0 :: d)

theorem filled_nil : filled [] = newWriter := by
  rw [filled, Writer.setLvl, newWriter, Writer.mk.injEq]
  refine ⟨?_, rfl⟩
  exact Function.update_eq_self 0 _

variable {P : Except GoError HTree → Writer → σ → Prop} {d : Bytes} {α : Type} {hash : Hash}

theorem wp_write_filled {P : Except GoError ℕ → Writer → σ → Prop} {buf : Bytes} (hbuf : buf ≠ [])
    (hfits : d.length + buf.length + 1 ≤ maxlen) (h : P (.ok buf.length) (filled (d ++ buf)) s) :
    wp T G (write buf) P (filled d) s := by
  have happend : (filled d).setLvl 0 ((filled d).lvls 0 ++ buf) = filled (d ++ buf) := by
    simp [filled, Writer.setLvl]
  have hlen : (filled d).nbytes 0 = d.length + 1 := rfl
  refine wp_write hbuf (by omega) ?_
  rw [happend]
  exact h

theorem wp_write_bind {P : Except GoError α → Writer → σ → Prop} {buf : Bytes} {f : ℕ → WriterM α}
    (hbuf : buf ≠ []) (hfits : d.length + buf.length + 1 ≤ maxlen)
    (h : wp T G (f buf.length) P (filled (d ++ buf)) s) : wp T G (write buf >>= f) P (filled d) s := by
  rw [wp_bind]
  exact wp_write_filled hbuf hfits h

theorem wp_catchError_write_bind {P : Except GoError α → Writer → σ → Prop} {buf : Bytes}
    {f : Except GoError ℕ → WriterM α} (hbuf : buf ≠ []) (hfits : d.length + buf.length + 1 ≤ maxlen)
    (h : wp T G (f (.ok buf.length)) P (filled (d ++ buf)) s) :
    wp T G (catchError (write buf) >>= f) P (filled d) s := by
  rw [catchError, bind_assoc, wp_bind, wp_attempt]
  exact wp_write_filled hbuf hfits h

theorem wp_put_bind {P : Except GoError α → Writer → σ → Prop} {data : Bytes} {f : Hash → WriterM α}
    (hG : G s (.put data)) (h : ∀ r s', T s (.put data) r s' → (∀ e, r = .error e → P (.error e) w s') ∧
      ∀ hash, r = .ok hash → wp T G (f hash) P w s') : wp T G (put data >>= f) P w s := by
  rw [wp_bind]
  refine ⟨hG, fun r s' hT => ?_⟩
  cases r with
  | error e => exact (h _ _ hT).1 e rfl
  | ok hash => exact (h _ _ hT).2 hash rfl

theorem wp_self_bind {P : Except GoError α → Writer → σ → Prop} {f : Writer → WriterM α}
    (h : wp T G (f w) P w s) : wp T G (self >>= f) P w s := h

theorem wp_flushLvl_bind {P : Except GoError α → Writer → σ → Prop} {f : Unit → WriterM α} {lvl : ℕ}
    (hlvl : lvl < 9) (hroom : w.nbytes (lvl + 1) + 40 ≤ maxlen) (hG : G s (.put (w.lvls lvl)))
    (h : ∀ r s', T s (.put (w.lvls lvl)) r s' → (∀ e, r = .error e → P (.error e) w s') ∧
      ∀ hash, r = .ok hash → wp T G (f ()) P (w.addEntry lvl hash) s') :
    wp T G (flushLvl lvl >>= f) P w s := by
  obtain ⟨n, hn⟩ : ∃ n, nlevels - 1 - lvl = n + 1 := ⟨nlevels - 2 - lvl, by simp only [nlevels]; omega⟩
  have hnot : ¬ maxlen - w.nbytes (lvl + 1) < 8 + 32 := by omega
  rw [flushLvl, hn, flushFrom, bind_assoc]
  refine wp_self_bind ?_
  simp only [if_neg hnot, bind_assoc]
  exact wp_put_bind hG h

/-- A writer after its only leaf has been put. -/
def emptied (d : Bytes) (hash : Hash) : Writer := (filled d).addEntry 0 hash

/-- The node that the second `Close` puts. -/
def spareNode (d : Bytes) (hash empty : Hash) : Bytes :=
  1 :: (leBytes 8 0 ++ hash.bytes ++ leBytes 8 (d.length % 2 ^ 64) ++ empty.bytes)

theorem wp_close_one {highest : ℕ} (hlt : highest + 1 < nlevels) {off : Bytes} (hoff : off.length = 8)
    {t : UInt8} (hlvl : w.lvls (highest + 1) = t :: (off ++ hash.bytes)) (h : P (.ok ⟨highest, hash⟩) w s) :
    wp T G (do
      let w ← self
      if nlevels ≤ highest + 1 then goPanic "index out of range"
      else if w.nbytes (highest + 1) = 41 then
        pure ⟨highest, Hash.copy (((w.lvls (highest + 1)).drop 9).take 32)⟩
      else do
        let hash ← put (w.lvls (highest + 1))
        pure ⟨highest + 1, hash⟩) P w s := by
  have hlen : w.nbytes (highest + 1) = 41 := by
    rw [Writer.nbytes, hlvl, length_cons, length_append, hoff, hash.length_bytes]
  refine wp_self_bind ?_
  rw [if_neg (by omega), if_pos hlen, hlvl, drop_succ_cons, List.drop_left' hoff,
    take_of_length_le hash.length_bytes.le, Hash.copy_bytes]
  exact h

theorem wp_close_filled (hG : G s (.put (0 :: d)))
    (h : ∀ r s', T s (.put (0 :: d)) r s' → (∀ e, r = .error e → P (.error e) (filled d) s') ∧
      ∀ hash, r = .ok hash → P (.ok ⟨0, hash⟩) (emptied d hash) s') : wp T G close P (filled d) s := by
  have hhighest : highestBelow (filled d) nlevels = some 0 := rfl
  rw [close]
  refine wp_self_bind ?_
  rw [hhighest]
  dsimp only
  rw [show range (0 + 1) = [0] from rfl, flushLevels, bind_assoc]
  refine wp_self_bind ?_
  rw [if_neg (by simp [Writer.nbytes, filled]), bind_assoc]
  refine wp_flushLvl_bind (by decide) ?_ hG (fun r s' hT => ⟨(h r s' hT).1, fun hash hr => ?_⟩)
  · exact (by decide : 0 + 40 ≤ maxlen)
  · rw [flushLevels, pure_bind]
    exact wp_close_one (by decide) (length_leBytes 8 0) rfl ((h r s' hT).2 hash hr)

theorem wp_writeRef_leaf {P : Except GoError Hash → Writer → σ → Prop} (ref : Ref) (hG : G s (.put (0 :: ref.encode)))
    (h : ∀ r s', T s (.put (0 :: ref.encode)) r s' → (∀ e, r = .error e → P (.error e) (filled ref.encode) s') ∧
      ∀ hash, r = .ok hash → P (.ok hash) (emptied ref.encode hash) s') :
    wp T G (writeRef ref) P newWriter s := by
  have hclose : wp T G (do let tree ← close; pure tree.data) P (filled ref.encode) s := by
    rw [wp_bind]
    exact wp_close_filled hG h
  have htime : (leBytes 8 ref.createdAt.toUInt64.toNat).length = 8 := length_leBytes _ _
  have hroot := ref.root.length_bytes
  have hprev := ref.prev.length_bytes
  rw [← filled_nil, writeRef]
  refine wp_write_bind (by rw [← length_pos_iff]; omega) (by simp [maxlen]) ?_
  refine wp_write_bind (by rw [← length_pos_iff]; omega) (by simp [maxlen, hroot]) ?_
  split
  · next hp =>
    refine wp_catchError_write_bind (by rw [← length_pos_iff]; omega) (by simp [maxlen, hroot, hprev]) ?_
    have henc : [] ++ leBytes 8 ref.createdAt.toUInt64.toNat ++ ref.root.bytes ++ ref.prev.bytes = ref.encode := by
      rw [Ref.encode, if_pos hp, nil_append]
    rw [henc]
    exact hclose
  · next hp =>
    have henc : [] ++ leBytes 8 ref.createdAt.toUInt64.toNat ++ ref.root.bytes = ref.encode := by
      rw [Ref.encode, if_neg hp, nil_append, append_nil]
    rw [henc]
    exact hclose

theorem wp_close_emptied
    (hG : ∀ s c, G s (.put c))
    (h : ∀ r s', T s (.put [0]) r s' → (∀ e, r = .error e → P (.error e) (emptied d hash) s') ∧
      ∀ empty, r = .ok empty → ∀ r' s'', T s' (.put (spareNode d hash empty)) r' s'' →
        (∀ e, r' = .error e → P (.error e) ((emptied d hash).addEntry 0 empty) s'') ∧
        ∀ node, r' = .ok node → P (.ok ⟨1, node⟩) (((emptied d hash).addEntry 0 empty).addEntry 1 node) s'') :
    wp T G close P (emptied d hash) s := by
  have hhighest : highestBelow (emptied d hash) nlevels = some 1 := rfl
  rw [close]
  refine wp_self_bind ?_
  rw [hhighest]
  dsimp only
  rw [show range (1 + 1) = [0, 1] from rfl, flushLevels, bind_assoc]
  refine wp_self_bind ?_
  have hlen : (emptied d hash).nbytes 1 = 41 := by
    have hlvl : (emptied d hash).lvls 1 = 1 :: (leBytes 8 0 ++ hash.bytes) := rfl
    rw [Writer.nbytes, hlvl, length_cons, length_append, length_leBytes, hash.length_bytes]
  have hzero : (emptied d hash).nbytes 0 = 1 := rfl
  rw [if_neg (by omega), bind_assoc]
  refine wp_flushLvl_bind (by decide) ?_ (hG _ _) (fun r s' hT => ⟨(h r s' hT).1, fun empty hr => ?_⟩)
  · rw [hlen]
    decide
  · have hoffset : (emptied d hash).offset = d.length % 2 ^ 64 := by
      simp [emptied, filled, Writer.addEntry, Writer.nbytes, newWriter]
    have hnode : ((emptied d hash).addEntry 0 empty).lvls 1 = spareNode d hash empty := by
      rw [spareNode, ← hoffset]
      rfl
    rw [flushLevels, bind_assoc]
    refine wp_self_bind ?_
    rw [if_neg (by rw [Writer.nbytes, hnode, spareNode]; simp), bind_assoc]
    refine wp_flushLvl_bind (by decide) ?_ (hG _ _) (fun r' s'' hT' => ?_)
    · exact (by decide : 0 + 40 ≤ maxlen)
    · rw [hnode] at hT'
      refine ⟨((h r s' hT).2 empty hr r' s'' hT').1, fun node hr' => ?_⟩
      rw [flushLevels, pure_bind]
      exact wp_close_one (by decide) (length_leBytes 8 0) rfl (((h r s' hT).2 empty hr r' s'' hT').2 node hr')

end Small

section Stores

/-- A content-addressed store: the hash of a chunk that has been put is the one that the content
has. A `Put` may fail. -/
def Addressed (sha256 : Bytes → Hash) : (q : StoreRequest) → q.Response → Prop
  | .put c, .ok hash => hash = sha256 c
  | .put _, .error e => ∀ msg, e ≠ .panic msg
  | .get _, _ => True

abbrev StoreTrace := Trace StoreRequest StoreRequest.Response

/-- What is asked of such a store is recorded. -/
def asked (sha256 : Bytes → Hash) (tr : StoreTrace) (q : StoreRequest) (r : q.Response) (tr' : StoreTrace) : Prop :=
  Addressed sha256 q r ∧ tr' = tr ++ [⟨q, r⟩]

def chunkPut : (q : StoreRequest) × q.Response → Option Bytes
  | ⟨.put c, .ok _⟩ => some c
  | _ => none

/-- The chunks that have been put. -/
def chunksPut (tr : StoreTrace) : List Bytes := tr.filterMap chunkPut

variable {sha256 : Bytes → Hash} {ω : Type}

/-- What `PutRef` has asked of the store when it returns a hash. -/
inductive Puts (sha256 : Bytes → Hash) (d : Bytes) : StoreTrace → Prop
  | leafOnly (e : GoError) : Puts sha256 d [⟨.put (0 :: d), .ok (sha256 (0 :: d))⟩, ⟨.put [0], .error e⟩]
  | more (r : Except GoError Hash) : Puts sha256 d [⟨.put (0 :: d), .ok (sha256 (0 :: d))⟩, ⟨.put [0], .ok (sha256 [0])⟩,
      ⟨.put (spareNode d (sha256 (0 :: d)) (sha256 [0])), r⟩]

theorem wp_anything {α : Type} {σ : Type} {T : σ → (q : StoreRequest) → q.Response → σ → Prop} (x : StoreM ω α)
    (w : ω) (s : σ) : wp T (fun _ _ => True) x (fun _ _ _ => True) w s := by
  rw [wp]
  induction x w generalizing s with
  | done a => trivial
  | call q k ih => exact ⟨trivial, fun r s' _ => ih r s'⟩

theorem wp_writeRef (ref : Ref) : wp (asked sha256) (fun _ _ => True) (writeRef ref)
    (fun r w tr => ∀ h, r = .ok h → h = sha256 (0 :: ref.encode) ∧ w = emptied ref.encode h ∧
      tr = [⟨.put (0 :: ref.encode), .ok h⟩]) newWriter [] := by
  refine wp_writeRef_leaf ref trivial (fun r tr hT => ⟨fun e _ h he => (nomatch he), fun hash hr h hh => ?_⟩)
  subst hr
  cases hh
  exact ⟨hT.1, rfl, hT.2⟩

theorem wp_deferredClose {d : Bytes} (w : ω) :
    wp (asked sha256) (fun _ _ => True) (deferredClose (emptied d (sha256 (0 :: d))))
      (fun _ _ tr => Puts sha256 d tr) w [⟨.put (0 :: d), .ok (sha256 (0 :: d))⟩] := by
  have hclose : wp (asked sha256) (fun _ _ => True) close (fun _ _ tr => Puts sha256 d tr)
      (emptied d (sha256 (0 :: d))) [⟨.put (0 :: d), .ok (sha256 (0 :: d))⟩] := by
    refine wp_close_emptied (fun _ _ => trivial) (fun r tr hT => ⟨fun e hr => ?_, fun empty hr r' tr' hT' => ?_⟩)
    · subst hr
      rw [hT.2]
      exact .leafOnly e
    · subst hr
      have hempty : empty = sha256 [0] := hT.1
      subst hempty
      have htr : Puts sha256 d tr' := by
        rw [hT'.2, hT.2]
        exact .more r'
      exact ⟨fun _ _ => htr, fun _ _ => htr⟩
  have hcatch : wp (asked sha256) (fun _ _ => True) (catchError close) (fun _ _ tr => Puts sha256 d tr)
      (emptied d (sha256 (0 :: d))) [⟨.put (0 :: d), .ok (sha256 (0 :: d))⟩] := by
    refine wp_seq_attempt hclose (fun r _ tr htr => ?_)
    split <;> exact htr
  rw [deferredClose, wp_bind, wp_on]
  refine wp_mono (fun r _ tr htr => ?_) _ _ _ hcatch
  cases r <;> exact htr

theorem wp_putRef (ref : Ref) (w : ω) : wp (asked sha256) (fun _ _ => True) (putRef ref)
    (fun r _ tr => ∀ h, r = .ok h → h = sha256 (0 :: ref.encode) ∧ Puts sha256 ref.encode tr) w [] := by
  rw [putRef, startRef, wp_bind, wp_on, wp_attempt]
  refine wp_mono (fun r w₁ tr hr => ?_) _ _ _ (wp_writeRef ref)
  change wp (asked sha256) (fun _ _ => True) (do deferredClose w₁; ofExcept r : StoreM ω Hash)
    (fun r _ tr => ∀ h, r = .ok h → h = sha256 (0 :: ref.encode) ∧ Puts sha256 ref.encode tr) w tr
  cases r with
  | error e =>
    refine wp_seq (wp_anything _ _ _) (fun _ _ _ _ h hh => ?_) (fun _ _ _ _ h hh => ?_)
    · cases hh
    · cases hh
  | ok h =>
    obtain ⟨rfl, rfl, rfl⟩ := hr h rfl
    refine wp_seq (wp_deferredClose w) (fun _ _ tr htr h hh => ?_) (fun _ _ _ _ h hh => ?_)
    · cases hh
      exact ⟨rfl, htr⟩
    · cases hh

/-- The chunks that `PutRef` has put are those that can be reached from the hash it returns. -/
def OnlyItsRef (sha256 : Bytes → Hash) (s : List Bytes) (h : Hash) (tr : StoreTrace) : Prop :=
  ∀ x, (∃ c ∈ chunksPut tr, sha256 c = x) ↔ Reach (Stored sha256 (chunksPut tr ++ s)) (.tree h) x

theorem onlyItsRef_iff {s : List Bytes} {d : Bytes} (hd : d ≠ []) {tr : StoreTrace} (hputs : Puts sha256 d tr)
    (hinj : Set.InjOn sha256 {c | c ∈ chunksPut tr ++ s}) :
    OnlyItsRef sha256 s (sha256 (0 :: d)) tr ↔ ∃ e, ⟨.put [0], .error e⟩ ∈ tr := by
  have hleaf : 0 :: d ∈ chunksPut tr := by
    cases hputs <;> exact mem_cons_self
  have hreach (x : Hash) : Reach (Stored sha256 (chunksPut tr ++ s)) (.tree (sha256 (0 :: d))) x ↔ x = sha256 (0 :: d) := by
    rw [reach_tree (functional_stored hinj) (c := 0 :: d) ⟨mem_append_left _ hleaf, rfl⟩]
    simp [children]
  simp only [OnlyItsRef, hreach]
  cases hputs with
  | leafOnly e =>
    refine iff_of_true (fun x => ?_) ⟨e, by simp⟩
    simp [chunksPut, chunkPut, eq_comm]
  | more r =>
    refine iff_of_false (fun honly => ?_) (by simp [spareNode])
    have hempty := (honly (sha256 [0])).mp ⟨[0], by simp [chunksPut, chunkPut], rfl⟩
    have heq : [0] = 0 :: d := hinj (by simp [chunksPut, chunkPut]) (mem_append_left _ hleaf) hempty
    exact hd (cons.inj heq).2.symm

theorem encode_ne_nil (ref : Ref) : ref.encode ≠ [] := by
  rw [← length_pos_iff, Ref.length_encode]
  split <;> decide

/-- In every run of `PutRef` that returns a hash, with a store that has the chunks `s`, what it puts
is reached from the hash exactly if the store fails to put the empty leaf of the deferred `Close`. -/
theorem putRef_only_its_ref_iff (sha256 : Bytes → Hash) (s : List Bytes) (ref : Ref) (w w' : ω) (h : Hash)
    (tr : StoreTrace) (hrun : Prog.Runs (asked sha256) (putRef ref w) [] (.done (.ok h, w')) tr)
    (hinj : Set.InjOn sha256 {c | c ∈ chunksPut tr ++ s}) :
    OnlyItsRef sha256 s h tr ↔ ∃ e, ⟨.put [0], .error e⟩ ∈ tr := by
  obtain ⟨rfl, hputs⟩ := Prog.wp_of_runs hrun (wp_putRef ref w) h rfl
  exact onlyItsRef_iff (encode_ne_nil ref) hputs hinj

/-- A store that fails to put some chunks, and records what it is asked. -/
def refusing (refuses : Bytes → Bool) : Handler StoreTrace
  | .put c, tr =>
    let r : Except GoError Hash := if refuses c then .error (.text "store full") else .ok (Hash.copy c)
    (r, tr ++ [⟨.put c, r⟩])
  | .get hash, tr => (.ok hash.bytes, tr ++ [⟨.get hash, .ok hash.bytes⟩])

theorem asked_refusing (refuses : Bytes → Bool) (tr : StoreTrace) (q : StoreRequest) :
    asked Hash.copy tr q (refusing refuses q tr).1 (refusing refuses q tr).2 := by
  cases q with
  | get hash => exact ⟨trivial, rfl⟩
  | put c =>
    simp only [refusing]
    split
    · exact ⟨by simp [Addressed], rfl⟩
    · exact ⟨rfl, rfl⟩

def someRef : Ref := ⟨1, Hash.zero, false, Hash.zero⟩

theorem putRef_only_its_ref_full_store : ∃ h tr,
    Prog.Runs (asked Hash.copy) (putRef someRef ()) [] (.done (.ok h, ())) tr ∧ OnlyItsRef Hash.copy [] h tr := by
  have hrun : Prog.Runs (asked Hash.copy) (putRef someRef ()) [] (.done (.ok (Hash.copy (0 :: someRef.encode)), ()))
      [⟨.put (0 :: someRef.encode), .ok (Hash.copy (0 :: someRef.encode))⟩, ⟨.put [0], .error (.text "store full")⟩] :=
    Prog.runs_run (asked_refusing (fun c => c == [0])) (putRef someRef ()) []
  refine ⟨_, _, hrun, (putRef_only_its_ref_iff Hash.copy [] someRef () () _ _ hrun ?_).mpr ⟨.text "store full", ?_⟩⟩
  · simp [chunksPut, chunkPut]
  · exact List.mem_cons_of_mem _ List.mem_cons_self

/-- A store that does not fail has two more chunks. -/
theorem putRef_spare_chunks : ∃ h tr,
    Prog.Runs (asked Hash.copy) (putRef someRef ()) [] (.done (.ok h, ())) tr ∧
    chunksPut tr = [0 :: someRef.encode, [0], spareNode someRef.encode h (Hash.copy [0])] ∧
    Set.InjOn Hash.copy {c | c ∈ chunksPut tr} ∧ ¬ OnlyItsRef Hash.copy [] h tr := by
  have hrun : Prog.Runs (asked Hash.copy) (putRef someRef ()) [] (.done (.ok (Hash.copy (0 :: someRef.encode)), ()))
      [⟨.put (0 :: someRef.encode), .ok (Hash.copy (0 :: someRef.encode))⟩, ⟨.put [0], .ok (Hash.copy [0])⟩,
        ⟨.put (spareNode someRef.encode (Hash.copy (0 :: someRef.encode)) (Hash.copy [0])),
          .ok (Hash.copy (spareNode someRef.encode (Hash.copy (0 :: someRef.encode)) (Hash.copy [0])))⟩] :=
    Prog.runs_run (asked_refusing (fun _ => false)) (putRef someRef ()) []
  have hinj : Set.InjOn Hash.copy {c | c ∈ [0 :: someRef.encode, [0],
      spareNode someRef.encode (Hash.copy (0 :: someRef.encode)) (Hash.copy [0])]} :=
    injOn_of_list (by decide +kernel)
  refine ⟨_, _, hrun, rfl, hinj, fun h => ?_⟩
  have herror := (onlyItsRef_iff (encode_ne_nil someRef) (.more _) (by rw [List.append_nil]; exact hinj)).mp h
  simp [spareNode] at herror

end Stores

end Bpy.RefWrites
