import Bpy.EncryptedPacks
import Bpy.StoreReader
import Mathlib.Data.List.AList

/-!
# Reading from honest packs

A pack is honest if it opens and every entry of its index leads to the deflated chunk with
the hash that is its key. Over a server with honest packs, the reader finds every hash that
some pack has, and what it returns for a hash has that hash.
-/
namespace Bpy.HonestPacks
open ByteWords ContentStore ByteSources CounterMode PackFile PackRoundTrip EncryptedPacks StoreReader
open List hiding keys
open Function

abbrev Files := AList (fun _ : Bytes => Bytes)

/-- What the server lists. -/
def listing (files : Files) : List PackListing := files.entries.map (fun x => ⟨x.1, x.2.length⟩)

/-- The server with the packs `files`, which lists them as `l`. -/
def server (files : Files) (l : List PackListing) : Remote where
  listing := .ok l
  packs n := match files.lookup n with
    | some file => .ok file
    | none => .error (.text "no such pack")

variable {B : Block} (sha256 : Bytes → Hash) (inflate : Bytes → Except GoError Bytes)
  (used : Set Bytes)

structure Honest (file : Bytes) (p : PackReader B) (idx : Index) : Prop extends Opens file p idx where
  increase : KeysIncrease idx
  fits : ∀ e ∈ idx, Fits e
  length_lt : idx.length < 2 ^ 64
  chunk : ∀ e ∈ idx, ∃ v c, p.getAt e.offset e.size = .ok v ∧ inflate v = .ok c ∧ c ∈ used ∧
    (sha256 c).bytes = e.key

variable (B) in
/-- The pack `n` of the server is honest and has the index `idx`. -/
def HasIndex (files : Files) (n : Bytes) (idx : Index) : Prop :=
  ∃ file, files.lookup n = some file ∧ ∃ p : PackReader B, Honest sha256 inflate used file p idx

variable (B) in
/-- Some honest pack has the key `k`. -/
def Stored (files : Files) (k : Bytes) : Prop :=
  ∃ n idx, HasIndex B sha256 inflate used files n idx ∧ k ∈ keys idx

variable (B) in
def AllHonest (files : Files) : Prop :=
  ∀ n file, files.lookup n = some file → ∃ (p : PackReader B) (idx : Index),
    Honest sha256 inflate used file p idx

/-- The information leads to an honest pack with the key `k`. -/
structure InfoOk (B : Block) (files : Files) (k : Bytes) (info : PackInfo) : Prop where
  size : ∀ file, files.lookup info.name = some file → info.size = file.length
  index : HasIndex B sha256 inflate used files info.name info.idx
  key : k ∈ keys info.idx

variable (B) in
def MidxOk (files : Files) (midx : MetaIndex) : Prop :=
  ∀ k info, midx.lookup k = some info → InfoOk sha256 inflate used B files k info

variable (B) in
/-- A cached index is that of the pack. -/
def CacheOk (files : Files) (cache : Bytes → Option Bytes) (n : Bytes) : Prop :=
  ∀ bytes, cache n = some bytes → ∃ idx, HasIndex B sha256 inflate used files n idx ∧
    bytes = encodeIndex idx

def LruOk (files : Files) (lru : List (Bytes × PackReader B)) : Prop :=
  ∀ x ∈ lru, ∃ file idx, files.lookup x.1 = some file ∧ Honest sha256 inflate used file x.2 idx

section Grows

variable {files files' : Files} (h : ∀ n file, files.lookup n = some file → files'.lookup n = some file)

variable {sha256 inflate used}
include h

theorem HasIndex.mono {n : Bytes} {idx : Index} (hi : HasIndex B sha256 inflate used files n idx) :
    HasIndex B sha256 inflate used files' n idx := by
  obtain ⟨file, hfile, hp⟩ := hi
  exact ⟨file, h n file hfile, hp⟩

theorem Stored.mono {k : Bytes} (hs : Stored B sha256 inflate used files k) :
    Stored B sha256 inflate used files' k := by
  obtain ⟨n, idx, hi, hk⟩ := hs
  exact ⟨n, idx, hi.mono h, hk⟩

theorem MidxOk.mono {midx : MetaIndex} (hm : MidxOk B sha256 inflate used files midx) :
    MidxOk B sha256 inflate used files' midx := by
  intro k info hk
  have hok := hm k info hk
  refine ⟨fun file hfile => ?_, hok.index.mono h, hok.key⟩
  obtain ⟨file', hfile', -⟩ := hok.index
  cases (h _ _ hfile').symm.trans hfile
  exact hok.size _ hfile'

theorem CacheOk.mono {cache : Bytes → Option Bytes} {n : Bytes}
    (hc : CacheOk B sha256 inflate used files cache n) : CacheOk B sha256 inflate used files' cache n := by
  intro bytes hb
  obtain ⟨idx, hi, heq⟩ := hc bytes hb
  exact ⟨idx, hi.mono h, heq⟩

theorem LruOk.mono {lru : List (Bytes × PackReader B)} (hl : LruOk sha256 inflate used files lru) :
    LruOk sha256 inflate used files' lru := by
  intro x hx
  obtain ⟨file, idx, hfile, hp⟩ := hl x hx
  exact ⟨file, idx, h _ _ hfile, hp⟩

end Grows

variable {sha256 inflate used} {files : Files} {l : List PackListing} {r : StoreReader.Reader B}

variable {n : Bytes} {idx : Index} {info : PackInfo}

theorem HasIndex.unique {idx' : Index} (h : HasIndex B sha256 inflate used files n idx)
    (h' : HasIndex B sha256 inflate used files n idx') : idx = idx' := by
  obtain ⟨file, hfile, p, hp⟩ := h
  obtain ⟨file', hfile', p', hp'⟩ := h'
  cases hfile.symm.trans hfile'
  cases hp.reader.symm.trans hp'.reader
  exact Except.ok.inj (hp.index.symm.trans hp'.index)

theorem HasIndex.facts (h : HasIndex B sha256 inflate used files n idx) :
    KeysIncrease idx ∧ (∀ e ∈ idx, Fits e) ∧ idx.length < 2 ^ 64 := by
  obtain ⟨file, -, p, hp⟩ := h
  exact ⟨hp.increase, hp.fits, hp.length_lt⟩

theorem sortIndex_of_increase (h : KeysIncrease idx) : sortIndex idx = idx := by
  apply mergeSort_of_pairwise
  apply h.imp
  intro a b hab
  exact decide_eq_true (List.le_of_lt hab)

theorem packs_server {file : Bytes} (h : files.lookup n = some file) : (server files l).packs n = .ok file := by
  simp only [server, h]

theorem getAndCacheIndex_spec {pack : PackListing} {file : Bytes} (hfile : files.lookup pack.name = some file)
    (hsize : pack.size = file.length) (hidx : HasIndex B sha256 inflate used files pack.name idx)
    (hcache : CacheOk B sha256 inflate used files r.cache pack.name) :
    getAndCacheIndex sortIndex (server files l) pack r =
      (.ok idx, { r with cache := update r.cache pack.name (some (encodeIndex idx)) }) := by
  obtain ⟨hincrease, hfits, hlen⟩ := hidx.facts
  rw [getAndCacheIndex_eq_ok, indexOf, copied]
  cases hc : r.cache pack.name with
  | some bytes =>
    obtain ⟨idx', hidx', rfl⟩ := hcache bytes hc
    cases hidx.unique hidx'
    exact ⟨readIndex_encodeIndex fileRead_delivers hfits hlen trivial (append_nil _).symm, rfl⟩
  | none =>
    obtain ⟨file', hfile', p, hp⟩ := hidx
    cases hfile.symm.trans hfile'
    have hopen : newEncryptedReader B file (int64 pack.size) = .ok p := by
      rw [hsize]
      exact hp.reader
    refine ⟨except_bind_eq_ok.mpr ⟨file, packs_server hfile, except_bind_eq_ok.mpr ⟨p, hopen, ?_⟩⟩, rfl⟩
    refine except_bind_eq_ok.mpr ⟨idx, hp.index, ?_⟩
    rw [sortIndex_of_increase hincrease]
    rfl

/-- What `addPacks` has to know about the packs that are left. -/
def Listed (files : Files) (l : List PackListing) : Prop :=
  ∀ pack ∈ l, ∃ file, files.lookup pack.name = some file ∧ pack.size = file.length

theorem addPacks_spec {packs : List PackListing} (midx : MetaIndex)
    (hhonest : AllHonest B sha256 inflate used files) (hlisted : Listed files packs)
    (hcache : ∀ pack ∈ packs, CacheOk B sha256 inflate used files r.cache pack.name)
    (hmidx : MidxOk B sha256 inflate used files midx) :
    ∃ midx' cache', addPacks sortIndex (server files l) packs midx r = (.ok midx', { r with cache := cache' }) ∧
      MidxOk B sha256 inflate used files midx' ∧
      (∀ k, (midx.lookup k).isSome → (midx'.lookup k).isSome) ∧
      (∀ pack ∈ packs, ∀ idx, HasIndex B sha256 inflate used files pack.name idx →
        ∀ k ∈ keys idx, (midx'.lookup k).isSome) ∧
      ∀ n, CacheOk B sha256 inflate used files r.cache n → CacheOk B sha256 inflate used files cache' n := by
  induction packs generalizing midx r with
  | nil => exact ⟨midx, r.cache, rfl, hmidx, fun _ h => h, by simp, fun _ h => h⟩
  | cons pack packs ih =>
    obtain ⟨file, hfile, hsize⟩ := hlisted pack mem_cons_self
    obtain ⟨p, idx, hp⟩ := hhonest _ file hfile
    have hidx : HasIndex B sha256 inflate used files pack.name idx := ⟨file, hfile, p, hp⟩
    have hget := getAndCacheIndex_spec (l := l) hfile hsize hidx (hcache pack mem_cons_self)
    have hcache₁ : ∀ n, CacheOk B sha256 inflate used files r.cache n → CacheOk B sha256 inflate used files
        (update r.cache pack.name (some (encodeIndex idx))) n := by
      intro n hn bytes hb
      by_cases heq : n = pack.name
      · subst heq
        rw [update_self] at hb
        exact ⟨idx, hidx, (Option.some.inj hb).symm⟩
      · rw [update_of_ne heq] at hb
        exact hn bytes hb
    have hlookup := lookup_reverse_map idx ⟨pack.name, pack.size, idx⟩ midx
    have hmidx₁ : MidxOk B sha256 inflate used files
        ((idx.map (fun e => (e.key, ⟨pack.name, pack.size, idx⟩))).reverse ++ midx) := by
      intro k info hk
      rw [hlookup] at hk
      split at hk
      · next hmem =>
        cases hk
        refine ⟨fun file' hfile' => ?_, hidx, hmem⟩
        cases hfile.symm.trans hfile'
        exact hsize
      · exact hmidx k info hk
    obtain ⟨midx', cache', hrun, hmidx', hkeep, hall, hcache'⟩ :=
      ih _ (r := { r with cache := update r.cache pack.name (some (encodeIndex idx)) })
        (fun x hx => hlisted x (mem_cons_of_mem _ hx))
        (fun x hx => hcache₁ _ (hcache x (mem_cons_of_mem _ hx))) hmidx₁
    refine ⟨midx', cache', bind_eq_ok.mpr ⟨idx, _, hget, hrun⟩, hmidx', fun k hk => ?_, fun x hx idx' hidx' k hk => ?_,
      fun n hn => hcache' n (hcache₁ n hn)⟩
    · apply hkeep
      rw [hlookup]
      split
      · rfl
      · exact hk
    · rcases mem_cons.mp hx with rfl | hx
      · cases hidx.unique hidx'
        apply hkeep
        rw [hlookup, if_pos hk]
        rfl
      · exact hall x hx idx' hidx' k hk

theorem listed_of_perm (hl : l.Perm (listing files)) : Listed files l := by
  intro pack hpack
  obtain ⟨x, hx, rfl⟩ := mem_map.mp (hl.mem_iff.mp hpack)
  exact ⟨x.2, AList.mem_lookup_iff.mpr hx, rfl⟩

theorem mem_names_of_lookup (hl : l.Perm (listing files)) {file : Bytes} (h : files.lookup n = some file) :
    ∃ pack ∈ l, pack.name = n :=
  ⟨⟨n, file.length⟩, hl.mem_iff.mpr (mem_map_of_mem (AList.mem_lookup_iff.mp h)), rfl⟩

/-- After the indexes have been read, every stored key is found, and only indexes of packs that
are on the server are cached. -/
theorem readAndCacheMetaIndex_spec (hl : l.Perm (listing files)) (hhonest : AllHonest B sha256 inflate used files)
    (hcache : ∀ n, (files.lookup n).isSome → CacheOk B sha256 inflate used files r.cache n) :
    ∃ midx cache', readAndCacheMetaIndex sortIndex (server files l) r = (.ok midx, { r with cache := cache' }) ∧
      MidxOk B sha256 inflate used files midx ∧
      (∀ k, Stored B sha256 inflate used files k → (midx.lookup k).isSome) ∧
      ∀ n, CacheOk B sha256 inflate used files cache' n := by
  let cache₁ : Bytes → Option Bytes :=
    fun n => if n ∈ l.map PackListing.name then r.cache n else none
  have hcache₁ : ∀ n, CacheOk B sha256 inflate used files cache₁ n := by
    intro n bytes hb
    by_cases hn : n ∈ l.map PackListing.name
    · obtain ⟨pack, hpack, rfl⟩ := mem_map.mp hn
      obtain ⟨file, hfile, -⟩ := listed_of_perm hl pack hpack
      rw [show cache₁ pack.name = r.cache pack.name from if_pos hn] at hb
      exact hcache _ (by rw [hfile]; rfl) bytes hb
    · rw [show cache₁ n = none from if_neg hn] at hb
      cases hb
  obtain ⟨midx, cache', hrun, hmidx, -, hall, hcache'⟩ := addPacks_spec (l := l) []
    (r := { r with cache := cache₁ }) hhonest (listed_of_perm hl) (fun pack _ => hcache₁ pack.name)
    (by intro k info h; cases h)
  refine ⟨midx, cache', ?_, hmidx, fun k hk => ?_, fun n => hcache' n (hcache₁ n)⟩
  · apply bind_eq_ok.mpr ⟨l, r, rfl, ?_⟩
    exact bind_eq_ok.mpr ⟨(), _, rfl, hrun⟩
  · obtain ⟨n, idx, hidx, hmem⟩ := hk
    obtain ⟨file, hfile, hp⟩ := hidx
    obtain ⟨pack, hpack, rfl⟩ := mem_names_of_lookup hl hfile
    exact hall pack hpack idx ⟨file, hfile, hp⟩ k hmem

theorem searchMetaIndex_spec {midx : MetaIndex} (hmidx : MidxOk B sha256 inflate used files midx) (h : Hash) :
    (midx.lookup h.bytes = none ∧ searchMetaIndex midx h = .ok none) ∨
    ∃ info e, searchMetaIndex midx h = .ok (some (info, e)) ∧
      InfoOk sha256 inflate used B files h.bytes info ∧ e ∈ info.idx ∧ e.key = h.bytes := by
  cases hl : midx.lookup h.bytes with
  | none => exact .inl ⟨rfl, searchMetaIndex_eq_none.mpr hl⟩
  | some info =>
    have hok := hmidx _ info hl
    obtain ⟨e, he, hkey⟩ := mem_map.mp hok.key
    have hsearch := (search_eq_some_iff hok.index.facts.1).mpr ⟨he, hkey⟩
    exact .inr ⟨info, e, searchMetaIndex_eq_some.mpr ⟨hl, hsearch⟩, hok, he, hkey⟩

theorem getPackReader_spec {remote : Remote} {k : Bytes}
    (hlru : LruOk sha256 inflate used files r.lru) (hinfo : InfoOk sha256 inflate used B files k info)
    (hread : ∀ file, files.lookup info.name = some file →
      remote.packs info.name = .ok file ∨ ∃ x ∈ r.lru, x.1 = info.name) :
    ∃ p lru', getPackReader remote info r = (.ok p, { r with lru := lru' }) ∧
      LruOk sha256 inflate used files lru' ∧
      ∃ file, Honest sha256 inflate used file p info.idx := by
  obtain ⟨file, hfile, p, hp⟩ := hinfo.index
  rw [getPackReader, bind_of_ok (get_run r)]
  cases hfind : r.lru.find? (fun e => e.1 = info.name) with
  | some ent =>
    have hmem := mem_of_find?_eq_some hfind
    have hname : ent.1 = info.name := by simpa using find?_some hfind
    obtain ⟨file', idx', hfile', hp'⟩ := hlru ent hmem
    rw [hname] at hfile'
    cases hfile.symm.trans hfile'
    cases hp.reader.symm.trans hp'.reader
    refine ⟨ent.2, ent :: r.lru.eraseP (fun e => e.1 = info.name), rfl, fun x hx => ?_, file, hp⟩
    rcases mem_cons.mp hx with rfl | hx
    · exact hlru _ hmem
    · exact hlru x (mem_of_mem_eraseP hx)
  | none =>
    have hpacks : remote.packs info.name = .ok file := by
      refine (hread file hfile).resolve_right ?_
      rintro ⟨x, hx, hname⟩
      exact find?_eq_none.mp hfind x hx (decide_eq_true hname)
    have hopen : newEncryptedReader B file (int64 info.size) = .ok p := by
      rw [hinfo.size file hfile]
      exact hp.reader
    refine ⟨p, ((info.name, p) :: r.lru).take 5, ?_, fun x hx => ?_, file, hp⟩
    · dsimp only
      rw [bind_of_ok (liftExcept_eq_ok.mpr ⟨hpacks, rfl⟩), bind_of_ok (liftExcept_eq_ok.mpr ⟨hopen, rfl⟩)]
      rfl
    · rcases mem_cons.mp (mem_of_mem_take hx) with rfl | hx
      · exact ⟨file, info.idx, hfile, hp⟩
      · exact hlru x hx

/-- The second part of `Reader.Get`, behind `locate`. -/
def readValue (remote : Remote) (inflate : Bytes → Except GoError Bytes) (info : PackInfo)
    (ent : IndexEnt) : ReaderM B Bytes := do
  let packrdr ← getPackReader remote info
  let buf ← liftExcept (packrdr.getAt ent.offset ent.size)
  liftExcept (inflate buf)

theorem readValue_spec {k : Bytes} {e : IndexEnt}
    (hlru : LruOk sha256 inflate used files r.lru) (hinfo : InfoOk sha256 inflate used B files k info)
    (he : e ∈ info.idx) : ∃ c lru', readValue (server files l) inflate info e r = (.ok c, { r with lru := lru' }) ∧
      LruOk sha256 inflate used files lru' ∧ c ∈ used ∧ (sha256 c).bytes = e.key := by
  obtain ⟨p, lru', hrun, hlru', file, hp⟩ := getPackReader_spec hlru hinfo
    (fun file hfile => .inl (packs_server (l := l) hfile))
  obtain ⟨v, c, hget, hinflate, hused, hhash⟩ := hp.chunk e he
  refine ⟨c, lru', ?_, hlru', hused, hhash⟩
  apply bind_eq_ok.mpr ⟨p, _, hrun, ?_⟩
  apply bind_eq_ok.mpr ⟨v, _, liftExcept_eq_ok.mpr ⟨hget, rfl⟩, ?_⟩
  exact liftExcept_eq_ok.mpr ⟨hinflate, rfl⟩

end Bpy.HonestPacks
