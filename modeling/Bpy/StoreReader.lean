import Bpy.CryptFileRoundTrip
import Bpy.PackPlaintext

/-!
# `cstore.Reader`

The reader keeps a map from hashes to packs, built from the indexes of the packs that
the server lists, and the last five packs that it opened. Everything it reads comes from
the server or from the local copies of the indexes. Inflating is a parameter, and so is
the order in which sorting leaves entries with equal keys.
-/
namespace Bpy.StoreReader
open ByteWords ContentStore ByteSources CounterMode CryptFile PackFile PackPlaintext Function List

structure PackListing where
  name : Bytes
  size : ℕ
  deriving DecidableEq

/-- What the server supplies: a listing, and some bytes for every pack. -/
structure Remote where
  listing : Except GoError (List PackListing)
  packs : Bytes → Except GoError Bytes

structure PackInfo where
  name : Bytes
  size : ℕ
  idx : Index

/-- `metaIndex`, with the newest assignment to a key first. -/
abbrev MetaIndex := List (Bytes × PackInfo)

/-- `cstore.Reader` with its directory of cached indexes. -/
structure Reader (B : Block) where
  midx : MetaIndex
  lru : List (Bytes × PackReader B)
  cache : Bytes → Option Bytes

variable {B : Block}

abbrev ReaderM (B : Block) (α : Type) := ExceptT GoError (StateM (Reader B)) α

theorem get_run (r : Reader B) : (MonadState.get : ReaderM B (Reader B)) r = (.ok r, r) := rfl

def searchMetaIndex (midx : MetaIndex) (hash : Hash) : Except GoError (Option (PackInfo × IndexEnt)) :=
  match midx.lookup hash.bytes with
  | none => .ok none
  | some info =>
    match search info.idx hash.bytes with
    | none => .error (.panic "corrupt meta index")
    | some ent => .ok (some (info, ent))

section Get

variable (sortIndex : Index → Index) (remote : Remote)

def cleanOldIndexes (listing : List PackListing) : ReaderM B Unit :=
  modify (fun r => { r with
    cache := fun name => if name ∈ listing.map PackListing.name then r.cache name else none })

/-- The index written to the cache has been sorted in place, so the sorted one is used. -/
def getAndCacheIndex (pack : PackListing) : ReaderM B Index := do
  match (← get).cache pack.name with
  | some bytes => liftExcept (readIndex fileRead bytes)
  | none =>
    let f ← liftExcept (remote.packs pack.name)
    let p ← liftExcept (newEncryptedReader B f (int64 pack.size))
    let idx ← liftExcept p.readIndex
    let idx := sortIndex idx
    modify (fun r => { r with cache := update r.cache pack.name (some (encodeIndex idx)) })
    pure idx

def addPacks : List PackListing → MetaIndex → ReaderM B MetaIndex
  | [], midx => pure midx
  | pack :: packs, midx => do
    let idx ← getAndCacheIndex sortIndex remote pack
    addPacks packs ((idx.map (fun e => (e.key, ⟨pack.name, pack.size, idx⟩))).reverse ++ midx)

def readAndCacheMetaIndex : ReaderM B MetaIndex := do
  let listing ← liftExcept remote.listing
  cleanOldIndexes listing
  addPacks sortIndex remote listing []

/-- `NewReader`, over the cached indexes of the initial state. -/
def newReader : ReaderM B Unit := do
  let midx ← readAndCacheMetaIndex sortIndex remote
  modify (fun r => { r with midx := midx, lru := [] })

/-- The first part of `Get`: the entry for the hash, if need be after the indexes have
been read again. -/
def locate (hash : Hash) : ReaderM B (PackInfo × IndexEnt) := do
  match ← liftExcept (searchMetaIndex (← get).midx hash) with
  | some found => pure found
  | none =>
    let midx ← readAndCacheMetaIndex sortIndex remote
    modify (fun r => { r with midx := midx })
    match ← liftExcept (searchMetaIndex midx hash) with
    | some found => pure found
    | none => throw (.text "hash not in cstore")

def getPackReader (info : PackInfo) : ReaderM B (PackReader B) := do
  match (← get).lru.find? (fun e => e.1 = info.name) with
  | some ent =>
    modify (fun r => { r with lru := ent :: r.lru.eraseP (fun e => e.1 = info.name) })
    pure ent.2
  | none =>
    let f ← liftExcept (remote.packs info.name)
    let pack ← liftExcept (newEncryptedReader B f (int64 info.size))
    modify (fun r => { r with lru := ((info.name, pack) :: r.lru).take 5 })
    pure pack

def getChunk (inflate : Bytes → Except GoError Bytes) (hash : Hash) : ReaderM B Bytes := do
  let (info, ent) ← locate sortIndex remote hash
  let packrdr ← getPackReader remote info
  let buf ← liftExcept (packrdr.getAt ent.offset ent.size)
  liftExcept (inflate buf)

end Get

/-- `Writer.Get`: chunks of the working set do not come from the server. -/
def writerGet (sortIndex : Index → Index) (remote : Remote) (inflate : Bytes → Except GoError Bytes)
    (workingSet : Hash → Option Bytes) (hash : Hash) : ReaderM B Bytes :=
  match workingSet hash with
  | some val => pure val
  | none => getChunk sortIndex remote inflate hash

section Sources

variable (sortIndex : Index → Index) (remote : Remote)

/-- The index of a listed pack: its local copy, or else what the pack on the server has. -/
def indexOf (B : Block) (cache : Bytes → Option Bytes) (pack : PackListing) : Except GoError Index :=
  match cache pack.name with
  | some bytes => readIndex fileRead bytes
  | none => do
    let f ← remote.packs pack.name
    let p ← newEncryptedReader B f (int64 pack.size)
    let idx ← p.readIndex
    pure (sortIndex idx)

/-- The local copies after the index of the pack has been looked at. -/
def copied (cache : Bytes → Option Bytes) (name : Bytes) (idx : Index) : Bytes → Option Bytes :=
  update cache name (some ((cache name).getD (encodeIndex idx)))

/-- The listed packs with their indexes. A pack that is listed again has a local copy. -/
def indexes (B : Block) : (Bytes → Option Bytes) → List PackListing → Except GoError (List PackInfo)
  | _, [] => .ok []
  | cache, pack :: packs => do
    let idx ← indexOf sortIndex remote B cache pack
    let infos ← indexes B (copied cache pack.name idx) packs
    pure (⟨pack.name, pack.size, idx⟩ :: infos)

/-- The last of the packs that has an entry with the key. -/
def lastWith (k : Bytes) (infos : List PackInfo) : Option PackInfo :=
  infos.reverse.find? (fun info => k ∈ keys info.idx)

/-- The indexes name the pack and the entry for the hash: those that the reader has or, if none of
them has the hash, those of the packs that the server lists. -/
def Named (r : Reader B) (hash : Hash) (info : PackInfo) (ent : IndexEnt) : Prop :=
  search info.idx hash.bytes = some ent ∧
    (r.midx.lookup hash.bytes = some info ∨ r.midx.lookup hash.bytes = none ∧
      ∃ listing infos, remote.listing = .ok listing ∧ indexes sortIndex remote B r.cache listing = .ok infos ∧
        lastWith hash.bytes infos = some info)

/-- The pack is open under its name or, if there is none, it is what the server has there. -/
def Supplied (lru : List (Bytes × PackReader B)) (info : PackInfo) (p : PackReader B) : Prop :=
  match lru.find? (fun e => e.1 = info.name) with
  | some ent => p = ent.2
  | none => ∃ file, remote.packs info.name = .ok file ∧ newEncryptedReader B file (int64 info.size) = .ok p

/-- The decrypted bytes of the pack that the indexes name for the hash, at the offset and with the
size that they name, inflate to nothing but a chunk with that hash, if they can be read. -/
def Genuine (sha256 : Bytes → Hash) (inflate : Bytes → Except GoError Bytes) (hash : Hash) (r : Reader B) : Prop :=
  ∀ info ent p, Named sortIndex remote r hash info ent → Supplied remote r.lru info p →
    (p.getAt ent.offset ent.size).isOk →
    ∀ chunk, inflate (slice p ent.offset ent.size) = .ok chunk → sha256 chunk = hash

variable {sortIndex remote} {r r' : Reader B} {hash : Hash} {info : PackInfo} {ent : IndexEnt} {p : PackReader B}
  {pack : PackListing} {packs : List PackListing} {infos : List PackInfo} {midx midx' : MetaIndex} {idx : Index}

theorem except_bind_eq_ok {α β : Type} {x : Except GoError α} {f : α → Except GoError β} {b : β} :
    (x >>= f) = .ok b ↔ ∃ a, x = .ok a ∧ f a = .ok b := by
  cases x <;> simp [bind, Except.bind]

theorem lookup_reverse_map (idx : Index) (info : PackInfo) (midx : MetaIndex) (k : Bytes) :
    ((idx.map (fun e => (e.key, info))).reverse ++ midx).lookup k =
      if k ∈ keys idx then some info else midx.lookup k := by
  rw [lookup_append]
  by_cases hk : k ∈ keys idx
  · have hmem : (k, info) ∈ (idx.map (fun e => (e.key, info))).reverse := by
      obtain ⟨e, he, rfl⟩ := mem_map.mp hk
      exact mem_reverse.mpr (mem_map.mpr ⟨e, he, rfl⟩)
    rw [if_pos hk]
    cases hl : (idx.map (fun e => (e.key, info))).reverse.lookup k with
    | none => exact absurd (lookup_eq_none_iff.mp hl _ hmem) (by simp)
    | some info' =>
      obtain ⟨l₁, l₂, heq, -⟩ := lookup_eq_some_iff.mp hl
      have hin : (k, info') ∈ (idx.map (fun e => (e.key, info))).reverse := by
        rw [heq]
        exact mem_append_right _ mem_cons_self
      obtain ⟨e, -, hpair⟩ := mem_map.mp (mem_reverse.mp hin)
      cases hpair
      rfl
  · rw [if_neg hk]
    have hnone : (idx.map (fun e => (e.key, info))).reverse.lookup k = none := by
      rw [lookup_eq_none_iff]
      intro x hx
      obtain ⟨e, he, rfl⟩ := mem_map.mp (mem_reverse.mp hx)
      have hne : k ≠ e.key := fun heq => hk (heq ▸ mem_map_of_mem he)
      simpa using hne
    rw [hnone]
    rfl

/-- The map of the packs, over the one that there is. -/
def mapOf (infos : List PackInfo) (midx : MetaIndex) : MetaIndex :=
  infos.foldl (fun m info => (info.idx.map (fun e => (e.key, info))).reverse ++ m) midx

theorem lookup_mapOf (infos : List PackInfo) (midx : MetaIndex) (k : Bytes) :
    (mapOf infos midx).lookup k = (lastWith k infos).or (midx.lookup k) := by
  induction infos generalizing midx with
  | nil => rfl
  | cons info infos ih =>
    rw [mapOf, foldl_cons, ← mapOf, ih, lookup_reverse_map, lastWith, lastWith, reverse_cons,
      find?_append, Option.or_assoc]
    by_cases hk : k ∈ keys info.idx <;> simp [hk]

theorem getAndCacheIndex_eq_ok : getAndCacheIndex sortIndex remote pack r = (.ok idx, r') ↔
    indexOf sortIndex remote B r.cache pack = .ok idx ∧ r' = { r with cache := copied r.cache pack.name idx } := by
  rw [getAndCacheIndex, bind_of_ok (get_run r), indexOf, copied]
  cases hc : r.cache pack.name with
  | some bytes =>
    have hsame : update r.cache pack.name (some bytes) = r.cache := by rw [← hc, update_eq_self]
    rw [Option.getD_some, hsame]
    exact liftExcept_eq_ok
  | none =>
    simp only [bind_eq_ok, liftExcept_eq_ok, except_bind_eq_ok]
    constructor
    · rintro ⟨file, _, ⟨hfile, rfl⟩, p, _, ⟨hopen, rfl⟩, raw, _, ⟨hread, rfl⟩, _, _, hset, hpure⟩
      cases hset
      cases hpure
      exact ⟨⟨file, hfile, p, hopen, raw, hread, rfl⟩, rfl⟩
    · rintro ⟨⟨file, hfile, p, hopen, raw, hread, hsort⟩, rfl⟩
      cases hsort
      exact ⟨file, r, ⟨hfile, rfl⟩, p, r, ⟨hopen, rfl⟩, raw, r, ⟨hread, rfl⟩, (), _, rfl, rfl⟩

theorem addPacks_ok (h : addPacks sortIndex remote packs midx r = (.ok midx', r')) :
    r'.lru = r.lru ∧ ∃ infos, indexes sortIndex remote B r.cache packs = .ok infos ∧ midx' = mapOf infos midx := by
  induction packs generalizing midx r with
  | nil =>
    cases h
    exact ⟨rfl, [], rfl, rfl⟩
  | cons pack packs ih =>
    obtain ⟨idx, r₁, hidx, hrest⟩ := bind_eq_ok.mp h
    obtain ⟨hindex, rfl⟩ := getAndCacheIndex_eq_ok.mp hidx
    obtain ⟨hlru, infos, hinfos, hmap⟩ := ih hrest
    exact ⟨hlru, _, except_bind_eq_ok.mpr ⟨idx, hindex, except_bind_eq_ok.mpr ⟨infos, hinfos, rfl⟩⟩, hmap⟩

theorem addPacks_of_indexes (midx : MetaIndex) (h : indexes sortIndex remote B r.cache packs = .ok infos) :
    ∃ r', addPacks sortIndex remote packs midx r = (.ok (mapOf infos midx), r') := by
  induction packs generalizing infos midx r with
  | nil =>
    cases h
    exact ⟨r, rfl⟩
  | cons pack packs ih =>
    obtain ⟨idx, hindex, h⟩ := except_bind_eq_ok.mp h
    obtain ⟨infos', hinfos, hpure⟩ := except_bind_eq_ok.mp h
    cases hpure
    obtain ⟨r', hrun⟩ := ih (r := { r with cache := copied r.cache pack.name idx }) _ hinfos
    exact ⟨r', bind_eq_ok.mpr ⟨idx, _, getAndCacheIndex_eq_ok.mpr ⟨hindex, rfl⟩, hrun⟩⟩

theorem indexes_congr {cache cache' : Bytes → Option Bytes} (h : ∀ pack ∈ packs, cache' pack.name = cache pack.name) :
    indexes sortIndex remote B cache' packs = indexes sortIndex remote B cache packs := by
  induction packs generalizing cache cache' with
  | nil => rfl
  | cons pack packs ih =>
    have hrest (idx : Index) : indexes sortIndex remote B (copied cache' pack.name idx) packs =
        indexes sortIndex remote B (copied cache pack.name idx) packs := by
      refine ih fun pack' hpack' => ?_
      simp only [copied, update_apply, h pack mem_cons_self, h pack' (mem_cons_of_mem _ hpack')]
    simp only [indexes, indexOf, h pack mem_cons_self, hrest]

/-- Only the copies for packs that are not listed are removed before the indexes are read. -/
theorem indexes_listed (r : Reader B) (listing : List PackListing) : indexes sortIndex remote B
    (fun name => if name ∈ listing.map PackListing.name then r.cache name else none) listing =
      indexes sortIndex remote B r.cache listing :=
  indexes_congr fun _ hpack => if_pos (mem_map_of_mem hpack)

theorem searchMetaIndex_eq_some : searchMetaIndex midx hash = .ok (some (info, ent)) ↔
    midx.lookup hash.bytes = some info ∧ search info.idx hash.bytes = some ent := by
  rw [searchMetaIndex]
  cases midx.lookup hash.bytes with
  | none => simp
  | some info' =>
    dsimp only
    cases hsearch : search info'.idx hash.bytes with
    | none =>
      simp only [reduceCtorEq, Option.some.injEq, false_iff]
      rintro ⟨rfl, hent⟩
      cases hsearch.symm.trans hent
    | some ent' =>
      simp only [Except.ok.injEq, Option.some.injEq, Prod.mk.injEq]
      constructor
      · rintro ⟨rfl, rfl⟩
        exact ⟨rfl, hsearch⟩
      · rintro ⟨rfl, hent⟩
        exact ⟨rfl, Option.some.inj (hsearch.symm.trans hent)⟩

theorem searchMetaIndex_eq_none : searchMetaIndex midx hash = .ok none ↔ midx.lookup hash.bytes = none := by
  rw [searchMetaIndex]
  cases midx.lookup hash.bytes with
  | none => simp
  | some info =>
    dsimp only
    cases search info.idx hash.bytes <;> simp

theorem locate_ok (h : locate sortIndex remote hash r = (.ok (info, ent), r')) :
    Named sortIndex remote r hash info ent ∧ r'.lru = r.lru := by
  simp only [locate, readAndCacheMetaIndex, bind_eq_ok, liftExcept_eq_ok] at h
  obtain ⟨_, _, hget, found, _, ⟨hsearch, rfl⟩, h⟩ := h
  cases hget
  cases found with
  | some found =>
    cases h
    obtain ⟨hlookup, hent⟩ := searchMetaIndex_eq_some.mp hsearch
    exact ⟨⟨hent, .inl hlookup⟩, rfl⟩
  | none =>
    simp only [bind_eq_ok, liftExcept_eq_ok] at h
    obtain ⟨midx, r₁, ⟨listing, _, ⟨hlisting, rfl⟩, _, _, hclean, hadd⟩, _, _, hset, found, _, ⟨hsearch', rfl⟩, h⟩ := h
    cases hclean
    cases hset
    cases found with
    | none => cases h
    | some found =>
      cases h
      obtain ⟨hlru, infos, hinfos, rfl⟩ := addPacks_ok hadd
      obtain ⟨hlookup, hent⟩ := searchMetaIndex_eq_some.mp hsearch'
      rw [lookup_mapOf, lookup_nil, Option.or_none] at hlookup
      rw [indexes_listed] at hinfos
      exact ⟨⟨hent, .inr ⟨searchMetaIndex_eq_none.mp hsearch, listing, infos, hlisting, hinfos, hlookup⟩⟩, hlru⟩

theorem locate_of_named (h : Named sortIndex remote r hash info ent) :
    ∃ r', locate sortIndex remote hash r = (.ok (info, ent), r') := by
  simp only [locate, readAndCacheMetaIndex, bind_eq_ok, liftExcept_eq_ok]
  obtain ⟨hent, hlookup | ⟨hnone, listing, infos, hlisting, hinfos, hlast⟩⟩ := h
  · exact ⟨r, r, r, rfl, some (info, ent), r, ⟨searchMetaIndex_eq_some.mpr ⟨hlookup, hent⟩, rfl⟩, rfl⟩
  · rw [← indexes_listed] at hinfos
    obtain ⟨r', hrun⟩ := addPacks_of_indexes (r := { r with
      cache := fun name => if name ∈ listing.map PackListing.name then r.cache name else none }) [] hinfos
    have hlookup : (mapOf infos []).lookup hash.bytes = some info := by
      rw [lookup_mapOf, hlast, Option.some_or]
    refine ⟨{ r' with midx := mapOf infos [] }, r, r, rfl, none, r, ⟨searchMetaIndex_eq_none.mpr hnone, rfl⟩, ?_⟩
    simp only [bind_eq_ok, liftExcept_eq_ok]
    exact ⟨_, r', ⟨listing, r, ⟨hlisting, rfl⟩, (), _, rfl, hrun⟩, (), _, rfl, some (info, ent), _,
      ⟨searchMetaIndex_eq_some.mpr ⟨hlookup, hent⟩, rfl⟩, rfl⟩

theorem getPackReader_eq_ok : (∃ r', getPackReader remote info r = (.ok p, r')) ↔ Supplied remote r.lru info p := by
  rw [getPackReader, bind_of_ok (get_run r), Supplied]
  cases r.lru.find? (fun e => e.1 = info.name) with
  | some ent =>
    constructor
    · rintro ⟨r', h⟩
      cases h
      rfl
    · rintro rfl
      exact ⟨_, rfl⟩
  | none =>
    simp only [bind_eq_ok, liftExcept_eq_ok]
    constructor
    · rintro ⟨r', file, _, ⟨hfile, rfl⟩, p', _, ⟨hopen, rfl⟩, _, _, hset, hpure⟩
      cases hset
      cases hpure
      exact ⟨file, hfile, hopen⟩
    · rintro ⟨file, hfile, hopen⟩
      exact ⟨_, file, r, ⟨hfile, rfl⟩, p, r, ⟨hopen, rfl⟩, (), _, rfl, rfl⟩

end Sources

/-- What `Get` returns has the hash asked for exactly if what the indexes name for it is genuine:
no hash is compared. The same holds for `Writer.Get` outside its working set. -/
theorem get_hash_iff_genuine (sha256 : Bytes → Hash) (sortIndex : Index → Index) (remote : Remote)
    (inflate : Bytes → Except GoError Bytes) (hash : Hash) (r : Reader B) :
    ((∀ data r', getChunk sortIndex remote inflate hash r = (.ok data, r') → sha256 data = hash) ↔
      Genuine sortIndex remote sha256 inflate hash r) ∧
    ∀ workingSet : Hash → Option Bytes, workingSet hash = none →
      ((∀ data r', writerGet sortIndex remote inflate workingSet hash r = (.ok data, r') →
        sha256 data = hash) ↔ Genuine sortIndex remote sha256 inflate hash r) := by
  have hreader : (∀ data r', getChunk sortIndex remote inflate hash r = (.ok data, r') →
      sha256 data = hash) ↔ Genuine sortIndex remote sha256 inflate hash r := by
    simp only [getChunk, bind_eq_ok, liftExcept_eq_ok]
    constructor
    · intro h info ent p hnamed hsupplied hok chunk hinflate
      obtain ⟨r₁, hlocate⟩ := locate_of_named hnamed
      rw [← (locate_ok hlocate).2] at hsupplied
      obtain ⟨r₂, hpack⟩ := getPackReader_eq_ok.mpr hsupplied
      cases hget : p.getAt ent.offset ent.size with
      | error e => simp [hget, Except.isOk, Except.toBool] at hok
      | ok buf =>
        rw [← getAt_ok hget] at hinflate
        exact h chunk r₂ ⟨(info, ent), r₁, hlocate, p, r₂, hpack, buf, r₂, ⟨hget, rfl⟩, hinflate, rfl⟩
    · rintro h data r' ⟨⟨info, ent⟩, r₁, hlocate, p, r₂, hpack, buf, r₃, ⟨hget, rfl⟩, hinflate, rfl⟩
      obtain ⟨hnamed, hlru⟩ := locate_ok hlocate
      have hsupplied := getPackReader_eq_ok.mp ⟨_, hpack⟩
      rw [hlru] at hsupplied
      exact h info ent p hnamed hsupplied (by rw [hget]; rfl) data (getAt_ok hget ▸ hinflate)
  refine ⟨hreader, fun workingSet hws => ?_⟩
  simpa only [writerGet, hws] using hreader

section Tampering

/-- A cipher that flips bits. -/
def flipBlock : Block := ⟨16, by decide, map (· ^^^ 0xf0), by simp⟩

/-- The pack of the chunk `[7]`, with the hash and the codec that copy their input. -/
def honestPack : Bytes := CryptFileRoundTrip.sealedFile flipBlock (replicate 16 0)
  ([7] ++ encodeIndex [⟨(Hash.copy [7]).bytes, 1, 0⟩] ++ leBytes 8 1)

/-- A server that lists the pack, with four bits of its first encrypted byte changed. -/
def tamperedRemote : Remote :=
  ⟨.ok [⟨[112], 80⟩], fun _ => .ok (honestPack.set 16 (honestPack.getD 16 0 ^^^ 15))⟩

/-- A fresh reader of the tampered pack returns `[8]` for the hash of `[7]`. -/
theorem get_returns_tampered_chunk :
    ((do newReader id tamperedRemote; getChunk id tamperedRemote .ok (Hash.copy [7]) :
      ReaderM flipBlock Bytes) ⟨[], [], fun _ => none⟩).1 = .ok [8] ∧
    Hash.copy [8] ≠ Hash.copy [7] := by
  refine ⟨by decide +kernel, by decide⟩

end Tampering

end Bpy.StoreReader
