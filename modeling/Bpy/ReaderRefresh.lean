import Bpy.HonestPacks

/-!
# A reader that lives long

Packs come and go on the server while a reader is in use. `Get` reads the indexes again only
if its map has no entry for the hash. An entry may name a pack that is gone, and then `Get`
fails, also if another pack has the chunk.
-/
namespace Bpy.ReaderRefresh
open ByteWords ContentStore ByteSources CounterMode PackFile PackRoundTrip EncryptedPacks StoreReader HonestPacks

variable {B : Block} (sha256 : Bytes → Hash) (inflate : Bytes → Except GoError Bytes) (used : Set Bytes)

/-- The packs that are on the server now are among those that have ever been there. -/
def Within (ever files : Files) : Prop := ∀ n file, files.lookup n = some file → ever.lookup n = some file

/-- The lives of a reader. `ever` are the packs that are ever on the server, each under a name of
its own; which of them are there changes between the calls. Other readers share the
directory of cached indexes. -/
inductive History (ever : Files) : Files → Reader B → Prop
  | opened {files : Files} {l : List PackListing} (r : Reader B) (hfiles : Within ever files)
      (hl : l.Perm (listing files)) (hcache : ∀ n, CacheOk B sha256 inflate used ever r.cache n) :
      History ever files (newReader sortIndex (server files l) r).2
  | repacked {files files' : Files} {r : Reader B} (h : History ever files r) (hfiles : Within ever files') :
      History ever files' r
  | cached {files : Files} {r : Reader B} {cache : Bytes → Option Bytes} (h : History ever files r)
      (hcache : ∀ n, CacheOk B sha256 inflate used ever cache n) : History ever files { r with cache := cache }
  | get {files : Files} {r : Reader B} {l : List PackListing} (hash : Hash) (h : History ever files r)
      (hl : l.Perm (listing files)) : History ever files (getChunk sortIndex (server files l) inflate hash r).2

/-- What the reader has comes from packs that have been on the server. -/
structure Sound (ever : Files) (r : Reader B) : Prop where
  midx : MidxOk B sha256 inflate used ever r.midx
  lru : LruOk sha256 inflate used ever r.lru
  cache : ∀ n, CacheOk B sha256 inflate used ever r.cache n

variable (B) in
/-- What is found for a hash leads to its chunk in a pack that has been on the server. -/
structure Located (ever : Files) (h : Hash) (found : PackInfo × IndexEnt) : Prop where
  info : InfoOk sha256 inflate used B ever h.bytes found.1
  entry : found.2 ∈ found.1.idx
  key : found.2.key = h.bytes

/-- The pack can be read: it is on the server, or the reader has it open. -/
def Readable (files : Files) (r : Reader B) (name : Bytes) : Prop :=
  (files.lookup name).isSome = true ∨ ∃ x ∈ r.lru, x.1 = name

variable {sha256 inflate used} {ever files : Files} {l : List PackListing} {r : Reader B} {h : Hash}

theorem hasIndex_within {n : Bytes} {idx : Index} (hi : HasIndex B sha256 inflate used ever n idx)
    (hfiles : Within ever files) (hn : (files.lookup n).isSome = true) :
    HasIndex B sha256 inflate used files n idx := by
  obtain ⟨file, hfile⟩ := Option.isSome_iff_exists.mp hn
  obtain ⟨file', hfile', hp⟩ := hi
  cases (hfiles n file hfile).symm.trans hfile'
  exact ⟨file, hfile, hp⟩

theorem cacheOk_within {cache : Bytes → Option Bytes} {n : Bytes} (hc : CacheOk B sha256 inflate used ever cache n)
    (hfiles : Within ever files) (hn : (files.lookup n).isSome = true) :
    CacheOk B sha256 inflate used files cache n := by
  intro bytes hb
  obtain ⟨idx, hidx, heq⟩ := hc bytes hb
  exact ⟨idx, hasIndex_within hidx hfiles hn, heq⟩

/-- Reading the indexes again gives a map in which all stored chunks are found, in packs that are
there. -/
theorem refresh_spec (hhonest : AllHonest B sha256 inflate used ever) (hfiles : Within ever files)
    (hl : l.Perm (listing files)) (hcache : ∀ n, CacheOk B sha256 inflate used ever r.cache n) :
    ∃ midx cache, readAndCacheMetaIndex sortIndex (server files l) r = (.ok midx, { r with cache := cache }) ∧
      MidxOk B sha256 inflate used files midx ∧
      (∀ k, Stored B sha256 inflate used files k → (midx.lookup k).isSome) ∧
      ∀ n, CacheOk B sha256 inflate used ever cache n := by
  have hhonest' : AllHonest B sha256 inflate used files := fun n file hfile => hhonest n file (hfiles n file hfile)
  obtain ⟨midx, cache, hrun, hmidx, hall, hcache'⟩ := readAndCacheMetaIndex_spec hl hhonest'
    (fun n hn => cacheOk_within (hcache n) hfiles hn)
  exact ⟨midx, cache, hrun, hmidx, hall, fun n => (hcache' n).mono hfiles⟩

theorem locate_of_lookup (files : Files) (l : List PackListing) {info : PackInfo}
    (hr : Sound sha256 inflate used ever r) (hinfo : r.midx.lookup h.bytes = some info) :
    ∃ e, locate sortIndex (server files l) h r = (.ok (info, e), r) ∧
      Located B sha256 inflate used ever h (info, e) := by
  have hok := hr.midx _ info hinfo
  obtain ⟨e, he, hkey⟩ := List.mem_map.mp hok.key
  have hsearch := searchMetaIndex_eq_some.mpr ⟨hinfo, (search_eq_some_iff hok.index.facts.1).mpr ⟨he, hkey⟩⟩
  refine ⟨e, ?_, hok, he, hkey⟩
  rw [locate, bind_of_ok (get_run r), bind_of_ok (liftExcept_eq_ok.mpr ⟨hsearch, rfl⟩)]
  rfl

theorem locate_of_none (hhonest : AllHonest B sha256 inflate used ever) (hfiles : Within ever files)
    (hl : l.Perm (listing files)) (hr : Sound sha256 inflate used ever r) (hnone : r.midx.lookup h.bytes = none) :
    ∃ res r₁, locate sortIndex (server files l) h r = (res, r₁) ∧ Sound sha256 inflate used ever r₁ ∧ r₁.lru = r.lru ∧
      (∀ found, res = .ok found → Located B sha256 inflate used ever h found ∧
        (files.lookup found.1.name).isSome = true) ∧
      (Stored B sha256 inflate used files h.bytes → ∃ found, res = .ok found) := by
  obtain ⟨midx, cache, hrun, hmidx, hall, hcache⟩ := refresh_spec hhonest hfiles hl hr.cache
  have hsound : Sound sha256 inflate used ever { r with midx := midx, cache := cache } :=
    ⟨hmidx.mono hfiles, hr.lru, hcache⟩
  have hfirst := searchMetaIndex_eq_none.mpr hnone
  have hlocate : locate sortIndex (server files l) h r =
      ((searchMetaIndex midx h).bind (fun found => found.elim (.error (.text "hash not in cstore")) .ok),
        { r with midx := midx, cache := cache }) := by
    rw [locate, bind_of_ok (get_run r), bind_of_ok (liftExcept_eq_ok.mpr ⟨hfirst, rfl⟩)]
    dsimp only
    rw [bind_of_ok hrun]
    cases hsearch : searchMetaIndex midx h with
    | error e => rfl
    | ok found =>
      cases found with
      | none => rfl
      | some found => rfl
  rcases searchMetaIndex_spec hmidx h with ⟨hlookup, hsearch⟩ | ⟨info, e, hsearch, hinfo, he, hkey⟩
  · rw [hsearch] at hlocate
    refine ⟨_, _, hlocate, hsound, rfl, (fun found hfound => by cases hfound), ?_⟩
    intro hstored
    have hsome := hall _ hstored
    rw [hlookup] at hsome
    cases hsome
  · rw [hsearch] at hlocate
    refine ⟨_, _, hlocate, hsound, rfl, ?_, fun _ => ⟨_, rfl⟩⟩
    intro found hfound
    cases hfound
    obtain ⟨file, hfile, -⟩ := hinfo.index
    refine ⟨⟨⟨?_, hinfo.index.mono hfiles, hinfo.key⟩, he, hkey⟩, by rw [hfile]; rfl⟩
    intro file' hfile'
    cases (hfiles _ _ hfile).symm.trans hfile'
    exact hinfo.size _ hfile

theorem getPackReader_cases {k : Bytes} {info : PackInfo} (hfiles : Within ever files)
    (hr : Sound sha256 inflate used ever r) (hinfo : InfoOk sha256 inflate used B ever k info) :
    (Readable files r info.name ∧ ∃ p r₁, getPackReader (server files l) info r = (.ok p, r₁) ∧
      Sound sha256 inflate used ever r₁ ∧ ∃ file, Honest sha256 inflate used file p info.idx) ∨
    (¬ Readable files r info.name ∧ ∃ e, getPackReader (server files l) info r = (.error e, r)) := by
  by_cases hreadable : Readable files r info.name
  · have hread : ∀ file, ever.lookup info.name = some file →
        (server files l).packs info.name = .ok file ∨ ∃ x ∈ r.lru, x.1 = info.name := by
      intro file hfile
      refine hreadable.imp_left fun hsome => ?_
      obtain ⟨file', hfile'⟩ := Option.isSome_iff_exists.mp hsome
      cases hfile.symm.trans (hfiles _ _ hfile')
      exact packs_server hfile'
    obtain ⟨p, lru', hrun, hlru, hp⟩ := getPackReader_spec hr.lru hinfo hread
    exact .inl ⟨hreadable, p, _, hrun, ⟨hr.midx, hlru, hr.cache⟩, hp⟩
  · refine .inr ⟨hreadable, .text "no such pack", ?_⟩
    obtain ⟨hlookup, hopen⟩ := not_or.mp hreadable
    have hfind : r.lru.find? (fun e => e.1 = info.name) = none :=
      List.find?_eq_none.mpr fun x hx hname => hopen ⟨x, hx, of_decide_eq_true hname⟩
    have hpacks : (server files l).packs info.name = .error (.text "no such pack") := by
      simp only [server, Option.not_isSome_iff_eq_none.mp hlookup]
    rw [getPackReader, bind_of_ok (get_run r), hfind]
    exact bind_of_error (by rw [hpacks]; rfl)

theorem readValue_cases {found : PackInfo × IndexEnt} (hfiles : Within ever files)
    (hr : Sound sha256 inflate used ever r) (hfound : Located B sha256 inflate used ever h found) :
    (Readable files r found.1.name ∧ ∃ c r₁, readValue (server files l) inflate found.1 found.2 r = (.ok c, r₁) ∧
      Sound sha256 inflate used ever r₁ ∧ c ∈ used ∧ (sha256 c).bytes = h.bytes) ∨
    (¬ Readable files r found.1.name ∧
      ∃ e, readValue (server files l) inflate found.1 found.2 r = (.error e, r)) := by
  rw [readValue]
  rcases getPackReader_cases (l := l) hfiles hr hfound.info with
    ⟨hreadable, p, r₁, hrun, hsound, file, hp⟩ | ⟨hgone, e, hrun⟩
  · obtain ⟨v, c, hget, hinflate, hused, hhash⟩ := hp.chunk _ hfound.entry
    refine Or.inl ⟨hreadable, c, r₁, ?_, hsound, hused, hhash.trans hfound.key⟩
    rw [bind_of_ok hrun, bind_of_ok (liftExcept_eq_ok.mpr ⟨hget, rfl⟩)]
    exact liftExcept_eq_ok.mpr ⟨hinflate, rfl⟩
  · exact Or.inr ⟨hgone, e, bind_of_error hrun⟩

theorem getChunk_eq (remote : Remote) :
    getChunk sortIndex remote inflate h = (locate sortIndex remote h >>= fun found =>
      (readValue remote inflate found.1 found.2 : ReaderM B Bytes)) := rfl

/-- The pack that the map of the reader names for the hash, if it names one, can be read. -/
def Current (files : Files) (r : Reader B) (h : Hash) : Prop :=
  ∀ info, r.midx.lookup h.bytes = some info → Readable files r info.name

/-- `Get` keeps the reader sound. A chunk that is stored is returned exactly if the entry of the
map for it is current. -/
theorem getChunk_spec (hhonest : AllHonest B sha256 inflate used ever) (hfiles : Within ever files)
    (hl : l.Perm (listing files)) (hr : Sound sha256 inflate used ever r) :
    ∃ res r₁, getChunk sortIndex (server files l) inflate h r = (res, r₁) ∧ Sound sha256 inflate used ever r₁ ∧
      (Current files r h → Stored B sha256 inflate used files h.bytes →
        ∃ c ∈ used, res = .ok c ∧ (sha256 c).bytes = h.bytes) ∧
      (∀ c, res = .ok c → Current files r h) := by
  rw [getChunk_eq]
  cases hlookup : r.midx.lookup h.bytes with
  | some info =>
    obtain ⟨e, hrun, hfound⟩ := locate_of_lookup files l hr hlookup
    rw [bind_of_ok hrun]
    rcases readValue_cases (l := l) hfiles hr hfound with ⟨hreadable, c, r₁, hread, hsound, hused, hhash⟩ | ⟨hgone, e', hread⟩
    · refine ⟨_, _, hread, hsound, fun _ _ => ⟨c, hused, rfl, hhash⟩, ?_⟩
      intro _ _ info' hinfo
      cases hlookup.symm.trans hinfo
      exact hreadable
    · exact ⟨_, _, hread, hr, fun hcurrent => absurd (hcurrent info hlookup) hgone, nofun⟩
  | none =>
    have hcurrent : Current files r h := by
      intro info hinfo
      cases hlookup.symm.trans hinfo
    obtain ⟨res, r₁, hrun, hsound, -, hfound, hstored⟩ := locate_of_none hhonest hfiles hl hr hlookup
    cases res with
    | error e =>
      refine ⟨_, _, bind_of_error hrun, hsound, ?_, fun _ _ => hcurrent⟩
      intro _ hst
      obtain ⟨found, hx⟩ := hstored hst
      cases hx
    | ok found =>
      rw [bind_of_ok hrun]
      obtain ⟨hloc, hthere⟩ := hfound found rfl
      rcases readValue_cases (l := l) hfiles hsound hloc with ⟨-, c, r₂, hread, hsound', hused, hhash⟩ | ⟨hgone, -⟩
      · exact ⟨_, _, hread, hsound', fun _ _ => ⟨c, hused, rfl, hhash⟩, fun _ _ => hcurrent⟩
      · exact absurd (Or.inl hthere) hgone

theorem History.sound (hhonest : AllHonest B sha256 inflate used ever)
    (hr : History sha256 inflate used ever files r) : Sound sha256 inflate used ever r ∧ Within ever files := by
  induction hr with
  | opened r hfiles hl hcache =>
    obtain ⟨midx, cache, hrun, hmidx, -, hcache'⟩ := refresh_spec hhonest hfiles hl hcache
    rw [StoreReader.newReader, bind_of_ok hrun]
    exact ⟨⟨hmidx.mono hfiles, nofun, hcache'⟩, hfiles⟩
  | repacked h hfiles ih => exact ⟨ih.1, hfiles⟩
  | cached h hcache ih => exact ⟨⟨ih.1.midx, ih.1.lru, hcache⟩, ih.2⟩
  | get hash h hl ih =>
    obtain ⟨res, r₁, hrun, hsound, -⟩ := getChunk_spec (h := hash) hhonest ih.2 hl ih.1
    rw [hrun]
    exact ⟨hsound, ih.2⟩

/-- At every point of the life of a reader, `Get` returns the chunk of a hash that a pack on the
server has, exactly if the pack that the map of the reader names for it can be read. -/
theorem get_follows_repacking (hhonest : AllHonest B sha256 inflate used ever)
    (hr : History sha256 inflate used ever files r) (hl : l.Perm (listing files))
    (hstored : Stored B sha256 inflate used files h.bytes) :
    (∃ c r', getChunk sortIndex (server files l) inflate h r = (.ok c, r') ∧ c ∈ used ∧ sha256 c = h) ↔
      Current files r h := by
  obtain ⟨hsound, hfiles⟩ := hr.sound hhonest
  obtain ⟨res, r₁, hrun, -, hget, hcurrent⟩ := getChunk_spec (h := h) hhonest hfiles hl hsound
  rw [hrun]
  constructor
  · rintro ⟨c, r', heq, -, -⟩
    cases heq
    exact hcurrent c rfl
  · intro hc
    obtain ⟨c, hused, rfl, hhash⟩ := hget hc hstored
    exact ⟨c, r₁, rfl, hused, Hash.bytes_inj hhash⟩

section Repacking

/-- The server with the pack of the chunk `[7]` under the name `n`. -/
def onePack (n : Bytes) : Files := AList.singleton n honestPack

theorem honest_honestPack : ∃ p : PackReader flipBlock, Honest Hash.copy .ok {[7]} honestPack p
    [⟨(Hash.copy [7]).bytes, 1, 0⟩] := by
  have hfits : ∀ e ∈ ([⟨(Hash.copy [7]).bytes, 1, 0⟩] : Index), Fits e := by
    intro e he
    rw [List.mem_singleton] at he
    subst he
    exact ⟨by decide, by decide, by decide⟩
  obtain ⟨p, hopens, hget⟩ : ∃ p : PackReader flipBlock, Opens honestPack p [⟨(Hash.copy [7]).bytes, 1, 0⟩] ∧
      ∀ off sz, off + sz ≤ ([7] : Bytes).length → p.getAt off sz = .ok ((([7] : Bytes).drop off).take sz) :=
    opens_sealed rfl (by decide +kernel) hfits
  refine ⟨p, hopens, List.pairwise_singleton _ _, hfits, by decide, ?_⟩
  intro e he
  rw [List.mem_singleton] at he
  subst he
  exact ⟨[7], [7], hget 0 1 (by decide), rfl, rfl, rfl⟩

/-- A chunk that comes after the reader. -/
theorem get_follows_repacking_new : ∃ c r', getChunk sortIndex (server (onePack [97]) (listing (onePack [97]))) .ok
    (Hash.copy [7]) (StoreReader.newReader sortIndex (server ∅ []) (⟨[], [], fun _ => none⟩ : Reader flipBlock)).2 =
      (.ok c, r') ∧ c ∈ ({[7]} : Set Bytes) ∧ Hash.copy c = Hash.copy [7] := by
  obtain ⟨p, hp⟩ := honest_honestPack
  have hlookup : (onePack [97]).lookup [97] = some honestPack := AList.lookup_insert ∅
  have hhonest : AllHonest flipBlock Hash.copy .ok {[7]} (onePack [97]) := by
    intro n file hfile
    have hmem := AList.mem_lookup_iff.mp hfile
    cases List.mem_singleton.mp hmem
    exact ⟨p, _, hp⟩
  have hlife : History Hash.copy .ok {[7]} (onePack [97]) (onePack [97])
      (StoreReader.newReader sortIndex (server ∅ []) (⟨[], [], fun _ => none⟩ : Reader flipBlock)).2 :=
    .repacked (.opened _ nofun (.refl _) nofun) (fun _ _ hfile => hfile)
  refine (get_follows_repacking hhonest hlife (.refl _) ⟨[97], _, ⟨honestPack, hlookup, p, hp⟩, ?_⟩).mpr nofun
  exact List.mem_singleton_self _

/-- A pack is replaced by another pack with the same chunk. -/
theorem get_after_repacking :
    ((do StoreReader.newReader sortIndex (server (onePack [97]) (listing (onePack [97])))
         getChunk sortIndex (server (onePack [98]) (listing (onePack [98]))) .ok (Hash.copy [7]) :
      ReaderM flipBlock Bytes) ⟨[], [], fun _ => none⟩).1 = .error (.text "no such pack") ∧
    ((do StoreReader.newReader sortIndex (server (onePack [98]) (listing (onePack [98])))
         getChunk sortIndex (server (onePack [98]) (listing (onePack [98]))) .ok (Hash.copy [7]) :
      ReaderM flipBlock Bytes) ⟨[], [], fun _ => none⟩).1 = .ok [7] := by
  decide +kernel

end Repacking

end Bpy.ReaderRefresh
