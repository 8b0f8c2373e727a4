import Bpy.GcSweepRule
import Bpy.PackRuns

/-!
# The sweep loses nothing

A value that has been moved is in a pack that the sweep does not remove, or in the pack
that is being written. A value that has not been moved is in a pack that is still to be
swept. Before a pack is removed the written pack has been closed, so at every point of the
sweep every value that is needed is in some pack of the server.
-/
namespace Bpy.GcSweepSafety
open ByteWords InteractionPrograms ContentStore PackFile StoreReader GcSweep GcSweepRule PackRuns ProgramLogic
open List hiding removeAll
open Method

/-- A pack of hashes and their encoded chunks, with `Enc h v` for `v` being an encoding of the
chunk with the hash `h`. -/
structure WellFormed (Enc : Hash → Bytes → Prop) (visited : List Hash) (P : Pack) : Prop where
  key_length : ∀ e ∈ P.idx, e.key.length = 32
  covered : P.Covered
  length_lt : P.data.length < 2 ^ 32
  value_enc : ∀ e ∈ P.idx, entHash e ∈ visited → Enc (entHash e) (P.value e)

/-- What the sweep relies on: how the server and the cache answer. A call may fail at any
time, and others may add packs. -/
structure World (σ : Type) (Enc : Hash → Bytes → Prop) (visited : List Hash) where
  T : σ → (q : SweepRequest) → q.Response → σ → Prop
  /-- the packs that are closed and not removed -/
  pack : σ → Bytes → Option Pack
  /-- the data of the packs that are being written -/
  upload : σ → Bytes → Option Bytes
  keeps : ∀ {s q r s' n P}, T s q r s' → (∀ epoch, q ≠ .remove n epoch) →
    pack s n = some P → pack s' n = some P
  upload_keeps : ∀ {s q r s' n d}, T s q r s' → q ≠ .newPack n → (∀ v, q ≠ .writePack n v) →
    (∀ idx, q ≠ .closePack n idx) → upload s n = some d → upload s' n = some d
  list_nodup : ∀ {s l s'}, T s .listPacks (.ok l) s' → (l.map PackListing.name).Nodup
  list_complete : ∀ {s l s' n P}, T s .listPacks (.ok l) s' → pack s n = some P →
    n ∈ l.map PackListing.name
  list_sound : ∀ {s l s'}, (∀ n P, pack s n = some P → WellFormed Enc visited P) →
    T s .listPacks (.ok l) s' → ∀ x ∈ l, ∃ P, pack s' x.name = some P ∧ WellFormed Enc visited P
  index_eq : ∀ {s x idx s' P}, T s (.readIndex x) (.ok idx) s' → pack s x.name = some P →
    idx = P.idx
  read_eq : ∀ {s n off size v s' P}, T s (.readAt n off size) (.ok v) s' → pack s n = some P →
    off + size ≤ P.data.length → v = (P.data.drop off).take size
  cached : ∀ {s h v s'}, T s (.getRaw h) (.ok (some v)) s' → Enc h v
  created : ∀ {s n s'}, T s (.newPack n) (.ok ()) s' → pack s n = none ∧ upload s' n = some []
  written : ∀ {s n v s' d}, T s (.writePack n v) (.ok ()) s' → upload s n = some d →
    upload s' n = some (d ++ v)
  closed : ∀ {s n idx s' d}, T s (.closePack n idx) (.ok ()) s' → upload s n = some d →
    ∃ P, pack s' n = some P ∧ P.idx = idx ∧ P.data = d

variable {σ : Type} {Enc : Hash → Bytes → Prop} {visited : List Hash} (W : World σ Enc visited)

/-- The pack `n` has the chunk with the hash `h`. -/
def Good (s : σ) (n : Bytes) (h : Hash) : Prop :=
  ∃ P e, W.pack s n = some P ∧ e ∈ P.idx ∧ e.key = h.bytes ∧ Enc h (P.value e)

variable (needed : Hash → Prop)

/-- A pack is removed only if what is needed is in other packs. -/
def Safe (s : σ) : SweepRequest → Prop
  | .remove n _ => ∀ h, needed h → ∃ m, m ≠ n ∧ Good W s m h
  | _ => True

/-- The state `d` of the pack that `p` writes. Every key in it counts as moved. -/
structure Writing (moved : List Hash) (p : PackWriter) (d : Bytes) (s : σ) : Prop where
  upload : W.upload s p.name = some d
  offset : p.offset = d.length
  within : ∀ e ∈ p.index, e.offset + e.size ≤ d.length
  keys : ∀ k ∈ keys p.index, ∃ h ∈ moved, k = h.bytes

/-- The chunk with the hash `h` is in the pack that is being written. -/
def InWriter (newPack : Option PackWriter) (s : σ) (h : Hash) : Prop :=
  ∃ p d e, newPack = some p ∧ W.upload s p.name = some d ∧ e ∈ p.index ∧ e.key = h.bytes ∧
    Enc h ((d.drop e.offset).take e.size)

abbrev Todo := List (PackListing × Pack)

def names (todo : Todo) : List Bytes := todo.map (fun x => x.1.name)

/-- The invariant of the sweep, with the packs in `todo` still to be swept. -/
structure Inv (todo : Todo) (gc : GcState) (s : σ) : Prop where
  todo_pack : ∀ x ∈ todo, W.pack s x.1.name = some x.2 ∧ WellFormed Enc visited x.2
  nodup : (names todo).Nodup
  delete_pack : ∀ n ∈ gc.canDelete, W.pack s n ≠ none
  delete_todo : ∀ n ∈ gc.canDelete, n ∉ names todo
  moved_good : ∀ h ∈ gc.moved,
    (∃ n, n ∉ gc.canDelete ∧ n ∉ names todo ∧ Good W s n h) ∨ InWriter W gc.newPack s h
  needed_good : ∀ h, needed h → h ∈ gc.moved ∨ ∃ n ∈ names todo, Good W s n h
  writing : ∀ p, gc.newPack = some p →
    p.name ∉ gc.canDelete ∧ p.name ∉ names todo ∧ ∃ d, Writing W gc.moved p d s

variable {W needed} {s s' : σ} {todo : Todo} {gc : GcState}

theorem entHash_bytes {e : IndexEnt} (h : e.key.length = 32) : (entHash e).bytes = e.key := by
  simp [entHash, Hash.copy, h]

theorem Good.keep {n : Bytes} {h : Hash} (hg : Good W s n h)
    (hkeep : ∀ P, W.pack s n = some P → W.pack s' n = some P) : Good W s' n h := by
  obtain ⟨P, e, hP, he⟩ := hg
  exact ⟨P, e, hkeep P hP, he⟩

theorem good_of_wellFormed {n : Bytes} {P : Pack} (hP : W.pack s n = some P) (hwf : WellFormed Enc visited P)
    {e : IndexEnt} (he : e ∈ P.idx) (hv : entHash e ∈ visited) : Good W s n (entHash e) :=
  ⟨P, e, hP, he, (entHash_bytes (hwf.key_length e he)).symm, hwf.value_enc e he hv⟩

theorem Inv.good_outside (hinv : Inv W needed todo gc s) (hnone : gc.newPack = none) {h : Hash}
    (hh : needed h) : ∃ n, n ∉ gc.canDelete ∧ Good W s n h := by
  rcases hinv.needed_good h hh with hm | ⟨n, hn, hgood⟩
  · rcases hinv.moved_good h hm with ⟨n, hn, -, hgood⟩ | ⟨p, d, e, hp, -⟩
    · exact ⟨n, hn, hgood⟩
    · rw [hnone] at hp
      cases hp
  · exact ⟨n, fun hd => hinv.delete_todo n hd hn, hgood⟩

theorem Inv.keep (hinv : Inv W needed todo gc s) (hpack : ∀ n P, W.pack s n = some P → W.pack s' n = some P)
    (hupload : ∀ p d, gc.newPack = some p → W.upload s p.name = some d →
      W.upload s' p.name = some d) : Inv W needed todo gc s' where
  todo_pack x hx := ⟨hpack _ _ (hinv.todo_pack x hx).1, (hinv.todo_pack x hx).2⟩
  nodup := hinv.nodup
  delete_pack n hn := by
    obtain ⟨P, hP⟩ := Option.ne_none_iff_exists'.mp (hinv.delete_pack n hn)
    simp [hpack n P hP]
  delete_todo := hinv.delete_todo
  moved_good h hh := by
    rcases hinv.moved_good h hh with ⟨n, hn, hn', hgood⟩ | ⟨p, d, e, hp, hd, he⟩
    · exact .inl ⟨n, hn, hn', hgood.keep (hpack n)⟩
    · exact .inr ⟨p, d, e, hp, hupload p d hp hd, he⟩
  needed_good h hh := by
    rcases hinv.needed_good h hh with hm | ⟨n, hn, hgood⟩
    · exact .inl hm
    · exact .inr ⟨n, hn, hgood.keep (hpack n)⟩
  writing p hp := by
    obtain ⟨hn, hn', d, hw⟩ := hinv.writing p hp
    exact ⟨hn, hn', d, hupload p d hp hw.upload, hw.offset, hw.within, hw.keys⟩

theorem Inv.quiet (hinv : Inv W needed todo gc s) {q : SweepRequest} {r : q.Response}
    (hq : Quiet q) (hT : W.T s q r s') : Inv W needed todo gc s' := by
  apply hinv.keep
  · intro n P
    apply W.keeps hT
    rintro epoch rfl
    exact hq
  · intro p d hp
    apply W.upload_keeps hT
    · rintro rfl
      exact hq
    · rintro v rfl
      exact hq
    · rintro idx rfl
      exact hq

section Writing

variable {epoch : Bytes}

theorem removeAll_wp (toDelete : List Bytes) (hgood : ∀ h, needed h → ∃ n, n ∉ toDelete ∧ Good W s n h) :
    wp W.T (Safe W needed) (removeAll epoch toDelete) (onOk fun _ gc' s' => gc' = gc ∧
        ∀ n P, n ∉ toDelete → W.pack s n = some P → W.pack s' n = some P) gc s := by
  induction toDelete generalizing s with
  | nil => exact ⟨rfl, fun _ _ _ h => h⟩
  | cons n rest ih =>
    have hsafe : Safe W needed s (.remove n epoch) := by
      intro h hh
      obtain ⟨m, hm, hg⟩ := hgood h hh
      exact ⟨m, fun heq => hm (heq ▸ mem_cons_self), hg⟩
    apply wp_seq_ok (wp_send_ok (P := fun _ gc' s' => gc' = gc ∧
      ∀ m P, m ≠ n → W.pack s m = some P → W.pack s' m = some P) hsafe ?_)
    · rintro - gc' s₁ ⟨rfl, hkeep⟩
      have hrest : ∀ h, needed h → ∃ m, m ∉ rest ∧ Good W s₁ m h := by
        intro h hh
        obtain ⟨m, hm, hg⟩ := hgood h hh
        rw [mem_cons, not_or] at hm
        exact ⟨m, hm.2, hg.keep (fun P => hkeep m P hm.1)⟩
      refine wp_mono_ok ?_ (ih hrest)
      rintro - gc'' s₂ ⟨rfl, hkeep'⟩
      refine ⟨rfl, fun m P hm hP => ?_⟩
      rw [mem_cons, not_or] at hm
      exact hkeep' m P hm.2 (hkeep m P hm.1 hP)
    · intro r a s₁ hT hr
      refine ⟨rfl, fun m P hm hP => W.keeps hT ?_ hP⟩
      intro epoch' heq
      injection heq with heq
      exact hm heq.symm

variable {p : PackWriter} {e : IndexEnt} {hash : Hash} {data : Bytes} {x : PackListing × Pack}

theorem Inv.close (hinv : Inv W needed todo gc s) (hp : gc.newPack = some p)
    (hT : W.T s (.closePack p.name (sortIndex p.index)) (.ok ()) s') :
    Inv W needed todo { gc with newPack := none, newPackSize := 0 } s' := by
  obtain ⟨hdel, htodo, d, hw⟩ := hinv.writing p hp
  obtain ⟨P, hP, hidx, hdata⟩ := W.closed hT hw.upload
  have hpack : ∀ n P, W.pack s n = some P → W.pack s' n = some P := fun n P => W.keeps hT (by simp)
  refine ⟨fun x hx => ⟨hpack _ _ (hinv.todo_pack x hx).1, (hinv.todo_pack x hx).2⟩, hinv.nodup,
    fun n hn => ?_, hinv.delete_todo, fun h hh => ?_, fun h hh => ?_, fun p hp => by cases hp⟩
  · obtain ⟨P, hP⟩ := Option.ne_none_iff_exists'.mp (hinv.delete_pack n hn)
    simp [hpack n P hP]
  · left
    rcases hinv.moved_good h hh with ⟨n, hn, hn', hgood⟩ | ⟨p', d', e, hp', hd', he, hkey, henc⟩
    · exact ⟨n, hn, hn', hgood.keep (hpack n)⟩
    · cases hp.symm.trans hp'
      cases hw.upload.symm.trans hd'
      refine ⟨p.name, hdel, htodo, P, e, hP, ?_, hkey, ?_⟩
      · rw [hidx]
        exact mem_mergeSort.mpr he
      · rw [Pack.value, hdata]
        exact henc
  · rcases hinv.needed_good h hh with hm | ⟨n, hn, hgood⟩
    · exact .inl hm
    · exact .inr ⟨n, hn, hgood.keep (hpack n)⟩

section

variable (hinv : Inv W needed todo gc s) (hnone : gc.newPack = none)
include hinv hnone

theorem Inv.unopened : Inv W needed todo { gc with newPack := none, newPackSize := 0 } s := by
  refine ⟨hinv.todo_pack, hinv.nodup, hinv.delete_pack, hinv.delete_todo, fun h hh => ?_,
    hinv.needed_good, fun p hp => by cases hp⟩
  rw [← hnone]
  exact hinv.moved_good h hh

theorem Inv.removed :
    wp W.T (Safe W needed) (removeAll epoch gc.canDelete)
      (onOk fun _ gc' s' => gc' = gc ∧ Inv W needed todo { gc with canDelete := [] } s') gc s := by
  refine wp_mono_ok ?_ (removeAll_wp gc.canDelete (fun h hh => hinv.good_outside hnone hh))
  rintro - gc' s' ⟨rfl, hkeep⟩
  refine ⟨rfl, fun x hx => ⟨hkeep _ _ ?_ (hinv.todo_pack x hx).1, (hinv.todo_pack x hx).2⟩, hinv.nodup,
    by simp, by simp, fun h hh => ?_, fun h hh => ?_, fun p hp => ?_⟩
  · exact fun hn => hinv.delete_todo _ hn (mem_map_of_mem hx)
  · left
    rcases hinv.moved_good h hh with ⟨n, hn, hn', hgood⟩ | ⟨p, d, e, hp, -⟩
    · exact ⟨n, not_mem_nil, hn', hgood.keep (fun P => hkeep n P hn)⟩
    · rw [hnone] at hp
      cases hp
  · rcases hinv.needed_good h hh with hm | ⟨n, hn, hgood⟩
    · exact .inl hm
    · exact .inr ⟨n, hn, hgood.keep (fun P => hkeep n P (fun hd => hinv.delete_todo n hd hn))⟩
  · dsimp only at hp
    rw [hnone] at hp
    cases hp

theorem Inv.create {n : Bytes}
    (hT : W.T s (.newPack n) (.ok ()) s') : Inv W needed todo { gc with newPack := some ⟨n, [], 0⟩ } s' := by
  obtain ⟨hfresh, hupload⟩ := W.created hT
  have hinv' : Inv W needed todo gc s' := by
    apply hinv.keep
    · exact fun m P => W.keeps hT (by simp)
    · intro p d hp
      rw [hnone] at hp
      cases hp
  refine ⟨hinv'.todo_pack, hinv'.nodup, hinv'.delete_pack, hinv'.delete_todo, fun h hh => ?_,
    hinv'.needed_good, fun p hp => ?_⟩
  · rcases hinv'.moved_good h hh with hgood | ⟨p, d, e, hp, -⟩
    · exact .inl hgood
    · rw [hnone] at hp
      cases hp
  · cases hp
    refine ⟨fun hn => hinv.delete_pack n hn hfresh, fun hn => ?_, [], hupload, rfl, by simp, by simp [PackFile.keys]⟩
    obtain ⟨x, hx, rfl⟩ := mem_map.mp hn
    have := (hinv.todo_pack x hx).1
    rw [hfresh] at this
    cases this

end

theorem slice_append {d : Bytes} (h : e.offset + e.size ≤ d.length) (v : Bytes) :
    ((d ++ v).drop e.offset).take e.size = (d.drop e.offset).take e.size := by
  rw [drop_append_of_le_length (by omega), take_append_of_le_length (by simp; omega)]

theorem Inv.add (hinv : Inv W needed todo gc s) (hp : gc.newPack = some p)
    {val : Bytes} (henc : Enc hash val)
    (hT : W.T s (.writePack p.name val) (.ok ()) s') :
    Inv W needed todo { gc with
      newPack := some { p with
        index := p.index ++ [⟨hash.bytes, val.length, p.offset⟩]
        offset := p.offset + val.length }
      newPackSize := gc.newPackSize + 32 + val.length
      moved := hash :: gc.moved } s' := by
  obtain ⟨hdel, htodo, d, hw⟩ := hinv.writing p hp
  have hupload := W.written hT hw.upload
  have hpack : ∀ n P, W.pack s n = some P → W.pack s' n = some P := fun n P => W.keeps hT (by simp)
  refine ⟨fun x hx => ⟨hpack _ _ (hinv.todo_pack x hx).1, (hinv.todo_pack x hx).2⟩, hinv.nodup,
    fun n hn => ?_, hinv.delete_todo, fun h hh => ?_, fun h hh => ?_, fun p' hp' => ?_⟩
  · obtain ⟨P, hP⟩ := Option.ne_none_iff_exists'.mp (hinv.delete_pack n hn)
    simp [hpack n P hP]
  · rcases mem_cons.mp hh with rfl | hh
    · refine .inr ⟨_, d ++ val, ⟨h.bytes, val.length, p.offset⟩, rfl, hupload, by simp, rfl, ?_⟩
      simpa [hw.offset] using henc
    · rcases hinv.moved_good h hh with ⟨n, hn, hn', hgood⟩ | ⟨p', d', e, hp', hd', he, hkey, henc'⟩
      · exact .inl ⟨n, hn, hn', hgood.keep (hpack n)⟩
      · cases hp.symm.trans hp'
        cases hw.upload.symm.trans hd'
        refine .inr ⟨_, d ++ val, e, rfl, hupload, by simp [he], hkey, ?_⟩
        rwa [slice_append (hw.within e he)]
  · rcases hinv.needed_good h hh with hm | ⟨n, hn, hgood⟩
    · exact .inl (mem_cons_of_mem _ hm)
    · exact .inr ⟨n, hn, hgood.keep (hpack n)⟩
  · cases hp'
    refine ⟨hdel, htodo, d ++ val, hupload, by simp [hw.offset], fun e he => ?_, fun k hk => ?_⟩
    · rcases mem_append.mp he with he | he
      · have := hw.within e he
        simp only [length_append]
        omega
      · rw [mem_singleton] at he
        subst he
        simp [hw.offset]
    · simp only [PackFile.keys, map_append, map_cons, map_nil, mem_append,
        mem_singleton] at hk
      rcases hk with hk | rfl
      · obtain ⟨h, hh, rfl⟩ := hw.keys k hk
        exact ⟨h, mem_cons_of_mem _ hh, rfl⟩
      · exact ⟨hash, mem_cons_self, rfl⟩

theorem Inv.fresh (hinv : Inv W needed todo gc s) (hp : gc.newPack = some p)
    (hnew : hash ∉ gc.moved) : hash.bytes ∉ PackFile.keys p.index := by
  intro hk
  obtain ⟨-, -, d, hw⟩ := hinv.writing p hp
  obtain ⟨h, hh, heq⟩ := hw.keys _ hk
  rw [Hash.bytes_inj heq] at hnew
  exact hnew hh

theorem runValues_of_contiguous {run : Index} {off n stop : ℕ} (hcont : Contiguous off run stop)
    (hn : off + n = stop) (henc : ∀ e ∈ run, Enc (entHash e) ((data.drop e.offset).take e.size)) :
    RunValues Enc run ((data.drop off).take n) := by
  induction run generalizing off n with
  | nil => trivial
  | cons e run ih =>
    obtain ⟨rfl, hrest⟩ := hcont
    have hle := hrest.le
    intro _
    rw [take_take, Nat.min_eq_left (by omega), drop_take, drop_drop]
    exact ⟨henc e mem_cons_self, ih hrest (by omega) (fun x hx => henc x (mem_cons_of_mem _ hx))⟩

theorem size_pos {P : Pack} (hwf : WellFormed Enc visited P) (hempty : ∀ h, ¬ Enc h [])
    (he : e ∈ P.idx) (hv : entHash e ∈ visited) : 0 < e.size := by
  have henc := hwf.value_enc e he hv
  rcases Nat.eq_zero_or_pos e.size with hzero | hpos
  · rw [Pack.value, hzero, take_zero] at henc
    exact absurd henc (hempty _)
  · exact hpos

theorem Inv.read (hinv : Inv W needed todo gc s) (hx : x ∈ todo) (hempty : ∀ h, ¬ Enc h [])
    {l pre run post : Index} (hl : l.Perm x.2.idx)
    (hsorted : l.Pairwise (fun a b => a.offset ≤ b.offset)) (hsplit : l = pre ++ e :: run ++ post)
    (hrun : ∀ a ∈ e :: run, entHash a ∈ visited)
    (hT : W.T s (.readAt x.1.name e.offset (runSize (e :: run))) (.ok data) s') : RunValues Enc (e :: run) data := by
  obtain ⟨hpack, hwf⟩ := hinv.todo_pack x hx
  have hmem : ∀ a ∈ e :: run, a ∈ x.2.idx := by
    intro a ha
    apply hl.mem_iff.mp
    rw [hsplit]
    exact mem_append_left _ (mem_append_right _ ha)
  have hcont := run_contiguous hwf.covered hl hsorted hsplit (fun a ha => size_pos hwf hempty (hmem a ha) (hrun a ha))
  have hle := run_le_length hwf.covered hcont (cons_ne_nil _ _) hmem
  have hlt := hwf.length_lt
  have hsize : runSize (e :: run) = ((e :: run).map IndexEnt.size).sum := Nat.mod_eq_of_lt (by omega)
  rw [W.read_eq hT hpack (by rw [hsize]; exact hle), hsize]
  exact runValues_of_contiguous hcont rfl (fun a ha => hwf.value_enc a (hmem a ha) (hrun a ha))

section

variable (hinv : Inv W needed (x :: todo) gc s)
include hinv

theorem Inv.needed_cases {h : Hash}
    (hh : needed h) : h ∈ gc.moved ∨ (∃ e ∈ x.2.idx, entHash e = h) ∨ ∃ n ∈ names todo, Good W s n h := by
  rcases hinv.needed_good h hh with hm | ⟨n, hn, hgood⟩
  · exact .inl hm
  · rcases mem_cons.mp hn with rfl | hn
    · obtain ⟨P, e, hP, he, hkey, -⟩ := hgood
      cases (hinv.todo_pack x mem_cons_self).1.symm.trans hP
      refine .inr (.inl ⟨e, he, ?_⟩)
      rw [entHash, hkey, Hash.copy_bytes]
    · exact .inr (.inr ⟨n, hn, hgood⟩)

theorem Inv.skip {idx : Index} (hidx : idx.Perm x.2.idx) (hvisited : ∀ e ∈ idx, entHash e ∈ visited) :
    Inv W needed todo { gc with moved := (idx.map entHash).reverse ++ gc.moved } s := by
  have hnodup := nodup_cons.mp hinv.nodup
  obtain ⟨hpack, hwf⟩ := hinv.todo_pack x mem_cons_self
  refine ⟨fun y hy => hinv.todo_pack y (mem_cons_of_mem _ hy), hnodup.2, hinv.delete_pack,
    fun n hn hmem => hinv.delete_todo n hn (mem_cons_of_mem _ hmem), fun h hh => ?_,
    fun h hh => ?_, fun p hp => ?_⟩
  · simp only [mem_append, mem_reverse, mem_map] at hh
    rcases hh with ⟨e, he, rfl⟩ | hh
    · refine .inl ⟨x.1.name, fun hn => hinv.delete_todo _ hn mem_cons_self, hnodup.1, ?_⟩
      exact good_of_wellFormed hpack hwf (hidx.mem_iff.mp he) (hvisited e he)
    · rcases hinv.moved_good h hh with ⟨n, hn, hn', hgood⟩ | hw
      · exact .inl ⟨n, hn, fun hmem => hn' (mem_cons_of_mem _ hmem), hgood⟩
      · exact .inr hw
  · simp only [mem_append, mem_reverse, mem_map]
    rcases hinv.needed_cases hh with hm | ⟨e, he, rfl⟩ | hgood
    · exact .inl (.inr hm)
    · exact .inl (.inl ⟨e, hidx.mem_iff.mpr he, rfl⟩)
    · exact .inr hgood
  · obtain ⟨hdel, htodo, d, hw⟩ := hinv.writing p hp
    refine ⟨hdel, fun hmem => htodo (mem_cons_of_mem _ hmem), d, hw.upload, hw.offset, hw.within, fun k hk => ?_⟩
    obtain ⟨h, hh, heq⟩ := hw.keys k hk
    exact ⟨h, mem_append_right _ hh, heq⟩

theorem Inv.retire (hmoved : ∀ e ∈ x.2.idx, entHash e ∈ visited → entHash e ∈ gc.moved)
    (hneeded : ∀ h, needed h → h ∈ visited) :
    Inv W needed todo { gc with canDelete := gc.canDelete ++ [x.1.name] } s := by
  have hnodup := nodup_cons.mp hinv.nodup
  have hout : ∀ n, n ∉ gc.canDelete → n ∉ names (x :: todo) → n ∉ gc.canDelete ++ [x.1.name] ∧ n ∉ names todo := by
    intro n hn hn'
    simp only [names, map_cons, mem_cons, not_or] at hn'
    simp only [mem_append, mem_singleton, not_or]
    exact ⟨⟨hn, hn'.1⟩, hn'.2⟩
  refine ⟨fun y hy => hinv.todo_pack y (mem_cons_of_mem _ hy), hnodup.2, fun n hn => ?_,
    fun n hn hmem => ?_, fun h hh => ?_, fun h hh => ?_, fun p hp => ?_⟩
  · rcases mem_append.mp hn with hn | hn
    · exact hinv.delete_pack n hn
    · rw [mem_singleton.mp hn, (hinv.todo_pack x mem_cons_self).1]
      exact Option.some_ne_none _
  · rcases mem_append.mp hn with hn | hn
    · exact hinv.delete_todo n hn (mem_cons_of_mem _ hmem)
    · rw [mem_singleton.mp hn] at hmem
      exact hnodup.1 hmem
  · rcases hinv.moved_good h hh with ⟨n, hn, hn', hgood⟩ | hw
    · exact .inl ⟨n, (hout n hn hn').1, (hout n hn hn').2, hgood⟩
    · exact .inr hw
  · rcases hinv.needed_cases hh with hm | ⟨e, he, rfl⟩ | hgood
    · exact .inl hm
    · exact .inl (hmoved e he (hneeded _ hh))
    · exact .inr hgood
  · obtain ⟨hdel, htodo, hw⟩ := hinv.writing p hp
    exact ⟨(hout _ hdel htodo).1, (hout _ hdel htodo).2, hw⟩

end

/-- What `sort.Sort` by offset returns. -/
structure SortsByOffset (byOffset : Index → Index) : Prop where
  perm : ∀ idx, (byOffset idx).Perm idx
  sorted : ∀ idx, (byOffset idx).Pairwise (fun a b => a.offset ≤ b.offset)

variable {byOffset : Index → Index} (hsort : SortsByOffset byOffset) (hempty : ∀ h, ¬ Enc h [])
  (hneeded : ∀ h, needed h → h ∈ visited)

theorem inv_listed {l : List PackListing} (hT : W.T s .listPacks (.ok l) s')
    (hwf : ∀ n P, W.pack s n = some P → WellFormed Enc visited P) (hgood : ∀ h, needed h → ∃ n, Good W s n h) :
    ∃ todo : Todo, todo.map Prod.fst = l ∧ Inv W needed todo GcState.start s' := by
  have hnames : ∀ f : PackListing → Pack, names (l.map fun x => (x, f x)) = l.map PackListing.name := by
    intro f
    simp [names]
  refine ⟨l.map fun x => (x, (W.pack s' x.name).getD ⟨[], [], 0⟩), by simp [Function.comp_def], ?_⟩
  refine ⟨fun x hx => ?_, ?_, ?_, ?_, ?_, fun h hh => .inr ?_, fun p hp => by cases hp⟩
  · obtain ⟨y, hy, rfl⟩ := mem_map.mp hx
    obtain ⟨P, hP, hPwf⟩ := W.list_sound hwf hT y hy
    rw [hP]
    exact ⟨rfl, hPwf⟩
  · rw [hnames]
    exact W.list_nodup hT
  · intro n hn
    cases hn
  · intro n hn
    cases hn
  · intro h hh
    cases hh
  · obtain ⟨n, hn⟩ := hgood h hh
    refine ⟨n, ?_, hn.keep (fun P => W.keeps hT (by simp))⟩
    obtain ⟨P, e, hP, -⟩ := hn
    rw [hnames]
    exact W.list_complete hT hP

variable (W) in
def rule : Rule σ (PackListing × Pack) visited byOffset where
  T := W.T
  G := Safe W needed
  item := Prod.fst
  Indexed x idx := idx = x.2.idx
  Val := Enc
  I := Inv W needed
  guard {s q} hq := by
    cases q with
    | remove n epoch => exact absurd rfl (hq n epoch)
    | _ => trivial
  quiet hinv hq hT := hinv.quiet hq hT
  index hinv hT := W.index_eq hT (hinv.todo_pack _ List.mem_cons_self).1
  read := by
    rintro x todo gc s idx pre e run post data s' hinv hx rfl hcut hrun hT
    exact hinv.read hx hempty (hsort.perm _) (hsort.sorted _) hcut hrun hT
  cached hT := W.cached hT
  create hinv hnone hT := hinv.create hnone hT
  fresh hinv hp hnew := hinv.fresh hp hnew
  add hinv hp _ _ henc hT := hinv.add hp henc hT
  close hinv hp hT := hinv.close hp hT
  unopened hinv hnone := hinv.unopened hnone
  removed _ hinv hnone := hinv.removed hnone
  skip := by
    rintro x todo gc s idx hinv rfl hmove
    exact hinv.skip (hsort.perm _) (fun e he => (toMove_iff.mp (hmove e he)).1)
  retire := by
    rintro x todo gc s idx hinv rfl hmoved
    exact hinv.retire (fun e he => hmoved e ((hsort.perm _).mem_iff.mpr he)) hneeded

include hsort hempty hneeded

theorem sweep_keeps {p' : Prog SweepRequest SweepRequest.Response (Except GoError Unit × GcState)}
    (hwf : ∀ n P, W.pack s n = some P → WellFormed Enc visited P)
    (hgood : ∀ h, needed h → ∃ n, Good W s n h)
    (hrun : Prog.Runs W.T (sweep epoch visited cache byOffset GcState.start) s p' s') {h : Hash}
    (hh : needed h) : ∃ n, Good W s' n h := by
  refine Prog.inv_of_runs (I := fun s => ∀ h, needed h → ∃ n, Good W s n h) hrun
    (sweep_wp (R := rule W hsort hempty hneeded) (fun _ _ hT => inv_listed hT hwf hgood)) hgood
    (fun s₁ q r s₂ hs hsafe hT h hh => ?_) h hh
  cases q with
  | remove n epoch' =>
    obtain ⟨m, hm, hg⟩ := hsafe h hh
    refine ⟨m, hg.keep (fun P => W.keeps hT ?_)⟩
    intro epoch'' heq
    injection heq with heq
    exact hm heq.symm
  | _ =>
    obtain ⟨m, hg⟩ := hs h hh
    exact ⟨m, hg.keep (fun P => W.keeps hT (by simp))⟩

end Writing

end Bpy.GcSweepSafety
