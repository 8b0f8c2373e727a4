import Bpy.HonestPacks
import Bpy.StoreWriter

/-!
# What was put is read back

One writer runs against a server whose packs are honest. Every call to the server and to the
directory of cached indexes succeeds, and others may add honest packs. A chunk that `Put` has
taken is in the working set, and so in the open pack, or it is in a pack of the server; in
both cases `Get` returns it, also when the index of the reader is older than the pack.
-/
namespace Bpy.ReadYourWrites
open ByteWords InteractionPrograms CryptFileRoundTrip PackFile
open CounterMode (Block)
open CryptFile (fileSink)
open PackRoundTrip EncryptedPacks StoreReader HonestPacks ProgramLogic StoreWriter
open ContentStore hiding put get
open Method

/-- A pack that is being written: the encrypting writer, what it has sent, and the length of the
values. -/
structure Upload where
  out : CryptFile.Writer
  sent : Bytes
  len : ℕ

/-- The server, and the opened packs and cached indexes of the reader. -/
structure World (B : Block) where
  files : Files
  uploads : AList (fun _ : Bytes => Upload)
  rdr : StoreReader.Reader B

variable {B : Block} (sha256 : Bytes → Hash) (inflate : Bytes → Except GoError Bytes)
  (used : Set Bytes)

/-- `cacheIndex`: an index that is already there stays. -/
def cacheIndex (cache : Bytes → Option Bytes) (n : Bytes) (idx : Index) : Bytes → Option Bytes :=
  if (cache n).isSome then cache else Function.update cache n (some (encodeIndex (sortIndex idx)))

/-- How the calls of the writer are answered. The bytes of a pack are written by the code of
`bpack` and `cryptofile`, and they are read by the code of `cstore.Reader`. -/
inductive Answer : World B → (q : Request) → q.Response → World B → Prop
  | randomName (s : World B) (n : Bytes) : Answer s .randomName (.ok n) s
  | newPack {s : World B} {n : Bytes} (h : s.files.lookup n = none) : Answer s (.newPack n) (.ok ()) s
  | initPack {s : World B} (n iv : Bytes) {sent : Bytes} {out : CryptFile.Writer}
      (hiv : iv.length = B.size)
      (h : exec fileSink (CryptFile.newWriter B iv) () [] = (.ok out, (), sent)) :
      Answer s (.initPack n) (.ok ()) { s with uploads := s.uploads.insert n ⟨out, sent, 0⟩ }
  | cancelPack (s : World B) (n : Bytes) : Answer s (.cancelPack n) (.ok ()) s
  | writePack {s : World B} {n val sent : Bytes} {u : Upload} {out : CryptFile.Writer}
      (hu : s.uploads.lookup n = some u)
      (h : exec fileSink (cryptWrite B val) u.out u.sent = (.ok (), out, sent)) :
      Answer s (.writePack n val) (.ok ())
        { s with uploads := s.uploads.insert n ⟨out, sent, u.len + val.length⟩ }
  /-- the size of a file is an `int64` -/
  | closePack {s : World B} {n file : Bytes} {idx idx' : Index} {u : Upload} {out : CryptFile.Writer}
      (hu : s.uploads.lookup n = some u) (hnew : s.files.lookup n = none)
      (h : exec fileSink (PackWriter.close (cryptWrite B) (CryptFile.close B) ⟨n, idx, u.len⟩)
        u.out u.sent = (.ok idx', out, file)) (hlen : file.length < 2 ^ 63) :
      Answer s (.closePack n idx) (.ok ()) { s with files := s.files.insert n file }
  | cacheIndex (s : World B) (n : Bytes) (idx : Index) : Answer s (.cacheIndex n idx) (.ok ())
      { s with rdr := { s.rdr with cache := cacheIndex s.rdr.cache n idx } }
  | loadIndex {s : World B} {l : List PackListing} (hl : l.Perm (listing s.files)) :
      Answer s .loadIndex (readAndCacheMetaIndex sortIndex (server s.files l) s.rdr).1
        { s with rdr := (readAndCacheMetaIndex sortIndex (server s.files l) s.rdr).2 }
  | readChunk (s : World B) (info : PackInfo) (ent : IndexEnt) :
      Answer s (.readChunk info ent) (readValue (server s.files []) inflate info ent s.rdr).1
        { s with rdr := (readValue (server s.files []) inflate info ent s.rdr).2 }
  | closeReader (s : World B) :
      Answer s .closeReader (.ok ()) { s with rdr := { s.rdr with lru := [] } }

/-- Others may have added packs, and may have added and removed cached indexes. -/
structure Others (s s' : World B) : Prop where
  keep : ∀ n file, s.files.lookup n = some file → s'.files.lookup n = some file
  added : ∀ n file, s'.files.lookup n = some file → s.files.lookup n = some file ∨
    ∃ (p : PackReader B) (idx : Index), Honest sha256 inflate used file p idx
  uploads : s'.uploads = s.uploads
  lru : s'.rdr.lru = s.rdr.lru
  cache : ∀ n bytes, s'.rdr.cache n = some bytes → s.rdr.cache n = some bytes ∨
    ∃ idx, HasIndex B sha256 inflate used s'.files n idx ∧ bytes = encodeIndex idx

theorem Others.refl (s : World B) : Others sha256 inflate used s s :=
  ⟨fun _ _ h => h, fun _ _ h => .inl h, rfl, rfl, fun _ _ h => .inl h⟩

def step (s : World B) (q : Request) (r : q.Response) (s' : World B) : Prop :=
  ∃ s₁, Others sha256 inflate used s s₁ ∧ Answer inflate s₁ q r s'

structure Good (s : World B) : Prop where
  honest : AllHonest B sha256 inflate used s.files
  lru : LruOk sha256 inflate used s.files s.rdr.lru
  cache : ∀ n, CacheOk B sha256 inflate used s.files s.rdr.cache n

def Grows (s s' : World B) : Prop :=
  ∀ n file, s.files.lookup n = some file → s'.files.lookup n = some file

variable {sha256 inflate used} {s s' : World B}

theorem Good.others (hs : Good sha256 inflate used s) (h : Others sha256 inflate used s s') :
    Good sha256 inflate used s' where
  honest n file hfile := by
    cases h.added n file hfile with
    | inl hold => exact hs.honest n file hold
    | inr hnew => exact hnew
  lru := by
    rw [h.lru]
    exact hs.lru.mono h.keep
  cache n bytes hb := by
    cases h.cache n bytes hb with
    | inl hold => exact (hs.cache n).mono h.keep bytes hold
    | inr hnew => exact hnew

variable (sha256 inflate used) in
/-- What the indexes that the server lists lead to. -/
structure Loaded (s : World B) (midx : MetaIndex) : Prop where
  ok : MidxOk B sha256 inflate used s.files midx
  complete : ∀ k, Stored B sha256 inflate used s.files k → (midx.lookup k).isSome

theorem load_answer {r : Request.Response .loadIndex} (h : Answer inflate s .loadIndex r s')
    (hhonest : AllHonest B sha256 inflate used s.files) (hlru : LruOk sha256 inflate used s.files s.rdr.lru)
    (hcache : ∀ n, (s.files.lookup n).isSome → CacheOk B sha256 inflate used s.files s.rdr.cache n) :
    ∃ midx, r = .ok midx ∧ Loaded sha256 inflate used s' midx ∧
      Good sha256 inflate used s' ∧ s'.files = s.files ∧ s'.uploads = s.uploads := by
  cases h with
  | loadIndex hl =>
    obtain ⟨midx, cache', hrun, hmidx, hall, hcache'⟩ := readAndCacheMetaIndex_spec hl hhonest hcache
    rw [hrun]
    exact ⟨midx, rfl, ⟨hmidx, hall⟩, ⟨hhonest, hlru, hcache'⟩, rfl, rfl⟩

theorem read_answer {k : Bytes} {info : PackInfo} {e : IndexEnt} {r : Request.Response (.readChunk info e)}
    (h : Answer inflate s (.readChunk info e) r s') (hs : Good sha256 inflate used s)
    (hinfo : InfoOk sha256 inflate used B s.files k info) (he : e ∈ info.idx) :
    ∃ c, r = .ok c ∧ c ∈ used ∧ (sha256 c).bytes = e.key ∧ Good sha256 inflate used s' ∧
      s'.files = s.files ∧ s'.uploads = s.uploads := by
  cases h with
  | readChunk info e =>
    obtain ⟨c, lru', hrun, hlru', hused, hhash⟩ := readValue_spec (l := []) hs.lru hinfo he
    rw [hrun]
    exact ⟨c, rfl, hused, hhash, ⟨hs.honest, hlru', hs.cache⟩, rfl, rfl⟩

/-- The requests that change neither the files nor the uploads nor the cached indexes. -/
def Idle : Request → Prop
  | .randomName | .newPack _ | .closeReader => True
  | _ => False

theorem idle_answer {q : Request} {r : q.Response} (hq : Idle q) (h : Answer inflate s q r s')
    (hs : Good sha256 inflate used s) : Good sha256 inflate used s' ∧ s'.files = s.files ∧ s'.uploads = s.uploads := by
  cases h with
  | randomName n => exact ⟨hs, rfl, rfl⟩
  | newPack hnew => exact ⟨hs, rfl, rfl⟩
  | closeReader => exact ⟨⟨hs.honest, by simp [LruOk], hs.cache⟩, rfl, rfl⟩
  | _ => exact hq.elim

variable {taken : List (Hash × Bytes)} {w : StoreWriter.Writer} {p : PackWriter}

section Writing

variable (sha256 inflate used) (deflate : Bytes → Bytes)

/-- The pack `p` is being written, and `data` are the deflated chunks in it. -/
structure Writing (s : World B) (p : PackWriter) (u : Upload) (iv data : Bytes)
    (ops : List (Bytes × Bytes)) : Prop where
  upload : s.uploads.lookup p.name = some u
  length_iv : iv.length = B.size
  written : Written B iv u.out u.sent data
  len : u.len = data.length
  filled : Filled ops p data
  chunks : ∀ x ∈ ops, ∃ c ∈ used, x = ((sha256 c).bytes, deflate c)

/-- The invariant of a session, with the chunks that `Put` has taken. -/
structure Inv (taken : List (Hash × Bytes)) (w : StoreWriter.Writer) (s : World B) : Prop where
  good : Good sha256 inflate used s
  rdr : ∃ midx, w.rdr = some midx ∧ MidxOk B sha256 inflate used s.files midx
  taken : ∀ x ∈ taken, x.1 = sha256 x.2 ∧ x.2 ∈ used ∧
    ((w.workingSet.lookup x.1).isSome ∨ Stored B sha256 inflate used s.files x.1.bytes)
  working : ∀ h d, w.workingSet.lookup h = some d → h = sha256 d ∧ d ∈ used ∧
    ∃ p, w.pack = some p ∧ h.bytes ∈ keys p.index
  pack : ∀ p, w.pack = some p → ∃ u iv data ops, Writing sha256 used deflate s p u iv data ops

variable {sha256 inflate used deflate}

theorem Inv.keep (hi : Inv sha256 inflate used deflate taken w s) (hgood : Good sha256 inflate used s')
    (hgrows : Grows s s') (huploads : s'.uploads = s.uploads) :
    Inv sha256 inflate used deflate taken w s' where
  good := hgood
  rdr := by
    obtain ⟨midx, hw, hm⟩ := hi.rdr
    exact ⟨midx, hw, hm.mono hgrows⟩
  taken x hx := by
    obtain ⟨hhash, hused, hplace⟩ := hi.taken x hx
    exact ⟨hhash, hused, hplace.imp_right (fun h => h.mono hgrows)⟩
  working := hi.working
  pack p hp := by
    obtain ⟨u, iv, data, ops, hw⟩ := hi.pack p hp
    exact ⟨u, iv, data, ops, huploads ▸ hw.upload, hw.length_iv, hw.written, hw.len, hw.filled, hw.chunks⟩

theorem Inv.others (hi : Inv sha256 inflate used deflate taken w s)
    (h : Others sha256 inflate used s s') : Inv sha256 inflate used deflate taken w s' :=
  hi.keep (hi.good.others h) h.keep h.uploads

variable {u : Upload} {ops : List (Bytes × Bytes)}

theorem Writing.value {iv data : Bytes} (hw : Writing sha256 used deflate s p u iv data ops) {e : IndexEnt}
    (he : e ∈ p.index) : ∃ c ∈ used, (data.drop e.offset).take e.size = deflate c ∧ (sha256 c).bytes = e.key := by
  have hlookup := hw.filled.value e he
  obtain ⟨l₁, l₂, heq, -⟩ := List.lookup_eq_some_iff.mp hlookup
  have hmem : (e.key, (data.drop e.offset).take e.size) ∈ ops := by
    rw [heq]
    exact List.mem_append_right _ List.mem_cons_self
  obtain ⟨c, hc, hx⟩ := hw.chunks _ hmem
  exact ⟨c, hc, (Prod.mk.inj hx).2, (Prod.mk.inj hx).1.symm⟩

theorem Writing.honest (hdeflate : ∀ c, inflate (deflate c) = .ok c)
    {iv data : Bytes} (hw : Writing sha256 used deflate s p u iv data ops)
    (hlen : (sealedFile B iv (packBytes data (sortIndex p.index))).length < 2 ^ 63) :
    ∃ r : PackReader B, Honest sha256 inflate used
      (sealedFile B iv (packBytes data (sortIndex p.index))) r (sortIndex p.index) := by
  have hmem : ∀ e, e ∈ sortIndex p.index ↔ e ∈ p.index := fun e => (perm_sortIndex p.index).mem_iff
  have hbound : ∀ e ∈ p.index, e.offset + e.size ≤ data.length := by
    intro e he
    have hend := (hw.filled.contiguous.bounds he).2
    rwa [hw.filled.offset_eq] at hend
  have hpack := length_packBytes data (sortIndex p.index)
  have hle := length_le_sealedFile hw.length_iv (packBytes data (sortIndex p.index))
  have hfits : ∀ e ∈ sortIndex p.index, Fits e := by
    intro e he
    have hend := hbound e ((hmem e).mp he)
    have hmax := hw.filled.fits e ((hmem e).mp he)
    simp only [maxPackEntrySize] at hmax
    constructor <;> omega
  obtain ⟨r, hopens, hget⟩ := opens_sealed hw.length_iv hlen hfits
  refine ⟨r, hopens, keysIncrease_sortIndex hw.filled.nodup, hfits, ?_, fun e he => ?_⟩
  · have := length_le_encodeIndex (sortIndex p.index)
    omega
  · obtain ⟨c, hc, hval, hkey⟩ := hw.value ((hmem e).mp he)
    refine ⟨_, c, hget e.offset e.size (hbound e ((hmem e).mp he)), ?_, hc, hkey⟩
    rw [hval, hdeflate]

end Writing

section Methods

variable {deflate : Bytes → Bytes} {α : Type}

variable (sha256 inflate used) in
/-- Every run of `x` ends with `P`. -/
abbrev Always (x : WriterM α) (P : Except GoError α → StoreWriter.Writer → World B → Prop)
    (w : StoreWriter.Writer) (s : World B) : Prop :=
  wp (step sha256 inflate used) (fun _ _ => True) x P w s

variable {q : Request} {r : Except GoError Unit} {data : Bytes}

theorem always_send {f : q.Response → Except GoError α} {P : Except GoError α → StoreWriter.Writer → World B → Prop} :
    Always sha256 inflate used (send q f) P w s ↔ ∀ r s', step sha256 inflate used s q r s' → P (f r) w s' := by
  rw [Always, wp_send]
  exact ⟨fun h => h.2, fun h => ⟨trivial, h⟩⟩

theorem Inv.idle (hi : Inv sha256 inflate used deflate taken w s) {r : q.Response} (hq : Idle q)
    (h : step sha256 inflate used s q r s') : Inv sha256 inflate used deflate taken w s' := by
  obtain ⟨s₁, ho, ha⟩ := h
  have hi₁ := hi.others ho
  obtain ⟨hgood, hfiles, huploads⟩ := idle_answer hq ha hi₁.good
  apply hi₁.keep hgood _ huploads
  intro n file hfile
  rwa [hfiles]

theorem close_step (hdeflate : ∀ c, inflate (deflate c) = .ok c) (hi : Inv sha256 inflate used deflate taken w s)
    (hp : w.pack = some p) (h : step sha256 inflate used s (.closePack p.name (sortIndex p.index)) r s') :
    r = .ok () ∧ Good sha256 inflate used s' ∧ Grows s s' ∧
      HasIndex B sha256 inflate used s'.files p.name (sortIndex p.index) := by
  obtain ⟨s₁, ho, ha⟩ := h
  obtain ⟨u, iv, data, ops, hw⟩ := (hi.others ho).pack p hp
  have hgood := hi.good.others ho
  cases ha with
  | closePack hu hnew hrun hlen =>
    rename_i file idx' u' out
    cases hw.upload.symm.trans hu
    have hsorted : sortIndex (sortIndex p.index) = sortIndex p.index :=
      sortIndex_of_increase (keysIncrease_sortIndex hw.filled.nodup)
    obtain ⟨out', hclose⟩ := close_encrypted hw.length_iv hw.written (p := ⟨p.name, sortIndex p.index, u.len⟩) hw.len
      (fun e he => (hw.filled.fits e ((perm_sortIndex p.index).mem_iff.mp he)).1)
    rw [hrun] at hclose
    simp only [Prod.mk.injEq, hsorted] at hclose
    obtain ⟨-, -, rfl⟩ := hclose
    obtain ⟨reader, hhonest⟩ := hw.honest hdeflate hlen
    have hkeep : ∀ n file, s₁.files.lookup n = some file →
        (s₁.files.insert p.name (sealedFile B iv (packBytes data (sortIndex p.index)))).lookup n =
          some file := by
      intro n file hfile
      rw [AList.lookup_insert_ne]
      · exact hfile
      · rintro rfl
        rw [hnew] at hfile
        cases hfile
    refine ⟨rfl, ⟨fun n file hfile => ?_, hgood.lru.mono hkeep, fun n => (hgood.cache n).mono hkeep⟩,
      fun n file hfile => hkeep n file (ho.keep n file hfile), _, AList.lookup_insert _, reader, hhonest⟩
    by_cases hn : n = p.name
    · subst hn
      cases (AList.lookup_insert _).symm.trans hfile
      exact ⟨reader, _, hhonest⟩
    · rw [AList.lookup_insert_ne hn] at hfile
      exact hgood.honest n file hfile

theorem cache_step (hs : Good sha256 inflate used s) {n : Bytes} {idx : Index}
    (hidx : HasIndex B sha256 inflate used s.files n idx) (h : step sha256 inflate used s (.cacheIndex n idx) r s') :
    r = .ok () ∧ Good sha256 inflate used s' ∧ Grows s s' := by
  obtain ⟨s₁, ho, ha⟩ := h
  have hs₁ := hs.others ho
  cases ha with
  | cacheIndex n idx =>
    refine ⟨rfl, ⟨hs₁.honest, hs₁.lru, fun m bytes hb => ?_⟩, ho.keep⟩
    simp only [cacheIndex] at hb
    split at hb
    · exact hs₁.cache m bytes hb
    · by_cases hm : m = n
      · subst hm
        rw [Function.update_self, sortIndex_of_increase hidx.facts.1] at hb
        exact ⟨idx, hidx.mono ho.keep, (Option.some.inj hb).symm⟩
      · rw [Function.update_of_ne hm] at hb
        exact hs₁.cache m bytes hb

theorem flushWorkingSet_spec (hdeflate : ∀ c, inflate (deflate c) = .ok c)
    (hi : Inv sha256 inflate used deflate taken w s) :
    Always sha256 inflate used flushWorkingSet
      (fun r w' s' => r = .ok () ∧ Inv sha256 inflate used deflate taken w' s') w s := by
  cases hp : w.pack with
  | none =>
    simp only [flushWorkingSet, Always, wp_bind, wp_self, after, hp, wp_pure]
    exact ⟨trivial, hi⟩
  | some p =>
    simp only [flushWorkingSet, Always, wp_bind, wp_self, after, hp, wp_update, always_send]
    intro r s₁ hclose
    obtain ⟨rfl, hgood₁, hgrows₁, hidx⟩ := close_step hdeflate hi hp hclose
    simp only [id]
    intro r s₂ hcache
    obtain ⟨rfl, hgood₂, hgrows₂⟩ := cache_step hgood₁ hidx hcache
    have hgrows : Grows s s₂ := fun n file h => hgrows₂ n file (hgrows₁ n file h)
    obtain ⟨midx, hrdr, hmidx⟩ := hi.rdr
    refine ⟨trivial, hgood₂, ⟨midx, hrdr, hmidx.mono hgrows⟩, fun x hx => ?_, by simp, by simp⟩
    obtain ⟨hhash, hused, hplace⟩ := hi.taken x hx
    refine ⟨hhash, hused, .inr ?_⟩
    cases hplace with
    | inl hworking =>
      obtain ⟨d, hd⟩ := Option.isSome_iff_exists.mp hworking
      obtain ⟨-, -, p', hp', hkey⟩ := hi.working _ d hd
      cases hp.symm.trans hp'
      exact ⟨p.name, sortIndex p.index, hidx.mono hgrows₂, mem_keys_sortIndex.mpr hkey⟩
    | inr hstored => exact hstored.mono hgrows

section

variable (hi : Inv sha256 inflate used deflate taken w s)
include hi

theorem has_spec (h : Hash) :
    Always sha256 inflate used (has h) (fun r w' s' => w' = w ∧ s' = s ∧
      ∃ b, r = .ok b ∧ (b = true → Stored B sha256 inflate used s.files h.bytes)) w s := by
  obtain ⟨midx, hrdr, hmidx⟩ := hi.rdr
  simp only [has, Always, wp_bind, wp_self, after, hrdr, wp_ofExcept]
  rcases searchMetaIndex_spec hmidx h with ⟨-, hsearch⟩ | ⟨info, e, hsearch, hinfo, -⟩
  · simp [hsearch]
  · simp only [hsearch, wp_pure]
    exact ⟨trivial, trivial, true, rfl, fun _ => ⟨info.name, info.idx, hinfo.index, hinfo.key⟩⟩

theorem init_step (hp : w.pack = none) {n : Bytes} (h : step sha256 inflate used s (.initPack n) r s') :
    r = .ok () ∧ Inv sha256 inflate used deflate taken { w with pack := some ⟨n, [], 0⟩ } s' := by
  obtain ⟨s₁, ho, ha⟩ := h
  have hi₁ := hi.others ho
  cases ha with
  | initPack n iv hiv hrun =>
    rename_i sent out
    cases hrun
    refine ⟨rfl, ⟨hi₁.good.honest, hi₁.good.lru, hi₁.good.cache⟩, hi₁.rdr, hi₁.taken, fun h d hd => ?_,
      fun p hp' => ?_⟩
    · obtain ⟨-, -, p, hp', -⟩ := hi₁.working h d hd
      rw [hp] at hp'
      cases hp'
    · cases hp'
      exact ⟨_, iv, [], [], AList.lookup_insert _, hiv, written_new B iv, rfl, filled_new n, by simp⟩

theorem openPack_spec :
    Always sha256 inflate used openPack (fun r w' s' => ∃ p, r = .ok p ∧ w'.pack = some p ∧
      Inv sha256 inflate used deflate taken w' s') w s := by
  simp only [openPack, Always, wp_bind, wp_self, after]
  cases hp : w.pack with
  | some p => exact ⟨p, rfl, hp, hi⟩
  | none =>
    simp only [wp_bind, always_send]
    rintro r s₁ hstep₁
    have hi₁ := hi.idle (q := .randomName) trivial hstep₁
    obtain ⟨t₁, -, ha₁⟩ := hstep₁
    cases ha₁ with
    | randomName name =>
      simp only [id, after, wp_bind, always_send]
      rintro r s₂ hstep₂
      have hi₂ := hi₁.idle (q := .newPack _) trivial hstep₂
      obtain ⟨t₂, -, ha₂⟩ := hstep₂
      cases ha₂ with
      | newPack hnew =>
        simp only [after, wp_attempt, always_send]
        rintro r s₃ hstep₃
        obtain ⟨rfl, hi₃⟩ := init_step hi₂ hp hstep₃
        exact ⟨_, rfl, rfl, hi₃⟩

theorem write_step (hp : w.pack = some p) (hused : data ∈ used)
    (hkey : (sha256 data).bytes ∉ keys p.index) (hsize : (deflate data).length ≤ maxPackEntrySize)
    (h : step sha256 inflate used s (.writePack p.name (deflate data)) r s') :
    r = .ok () ∧ Inv sha256 inflate used deflate taken { w with
      pack := some { p with
        index := p.index ++ [⟨(sha256 data).bytes, (deflate data).length, p.offset⟩]
        offset := p.offset + (deflate data).length } } s' := by
  obtain ⟨s₁, ho, ha⟩ := h
  have hi₁ := hi.others ho
  obtain ⟨u, iv, d, ops, hw⟩ := hi₁.pack p hp
  cases ha with
  | writePack hu hrun =>
    rename_i sent u' out
    cases hw.upload.symm.trans hu
    obtain ⟨out', sent', hemit, hwritten⟩ := cryptWrite_emits hw.length_iv (deflate data) _ _ _ hw.written
    rw [hrun] at hemit
    cases hemit
    refine ⟨rfl, ⟨hi₁.good.honest, hi₁.good.lru, hi₁.good.cache⟩, hi₁.rdr, hi₁.taken, fun h d' hd => ?_,
      fun p' hp' => ?_⟩
    · obtain ⟨hhash, hd', p', hp', hmem⟩ := hi₁.working h d' hd
      cases hp.symm.trans hp'
      exact ⟨hhash, hd', _, rfl, by simpa [keys] using .inl (by simpa [keys] using hmem)⟩
    · cases hp'
      have hlen : (sha256 data).bytes.length ≤ maxPackEntrySize := by
        rw [(sha256 data).length_bytes]
        decide
      refine ⟨_, iv, d ++ deflate data, _, AList.lookup_insert _, hw.length_iv, hwritten, ?_,
        hw.filled.add hkey hlen hsize, fun x hx => ?_⟩
      · simp [hw.len]
      · rcases List.mem_append.mp hx with hx | hx
        · exact hw.chunks x hx
        · exact ⟨data, hused, List.mem_singleton.mp hx⟩

theorem add_spec (hp : w.pack = some p) (hused : data ∈ used) :
    Always sha256 inflate used (add p (sha256 data).bytes (deflate data)) (fun r w' s' =>
      Inv sha256 inflate used deflate taken w' s' ∧ w'.workingSet = w.workingSet ∧
      (r = .ok () → ∃ p', w'.pack = some p' ∧ (sha256 data).bytes ∈ keys p'.index)) w s := by
  simp only [add, PackWriter.add, Always, wp_bind]
  split
  · next hkey =>
    have hsame : { w with pack := some p } = w := by rw [← hp]
    simp only [wp_pure, after, wp_update, hsame]
    exact ⟨hi, trivial, fun _ => ⟨p, rfl, hkey⟩⟩
  · next hkey =>
    split
    · exact ⟨hi, rfl, by simp⟩
    · next hsize =>
      simp only [wp_bind, always_send]
      intro r s₁ hstep
      obtain ⟨rfl, hi₁⟩ := write_step hi hp hused hkey (by omega) hstep
      exact ⟨hi₁, rfl, fun _ => ⟨_, rfl, by simp [keys]⟩⟩

end

/-- The chunks that `Put` has taken, after a call that returned `r`. -/
def take (taken : List (Hash × Bytes)) (data : Bytes) : Except GoError Hash → List (Hash × Bytes)
  | .ok h => (h, data) :: taken
  | .error _ => taken

theorem Inv.take (hi : Inv sha256 inflate used deflate taken w s) (hused : data ∈ used)
    (hplace : (w.workingSet.lookup (sha256 data)).isSome ∨ Stored B sha256 inflate used s.files (sha256 data).bytes) :
    Inv sha256 inflate used deflate ((sha256 data, data) :: taken) w s := by
  refine ⟨hi.good, hi.rdr, fun x hx => ?_, hi.working, hi.pack⟩
  rcases List.mem_cons.mp hx with rfl | hx
  · exact ⟨rfl, hused, hplace⟩
  · exact hi.taken x hx

theorem put_spec (hdeflate : ∀ c, inflate (deflate c) = .ok c)
    (hi : Inv sha256 inflate used deflate taken w s) (hused : data ∈ used) :
    Always sha256 inflate used (StoreWriter.put sha256 deflate data) (fun r w' s' =>
      Inv sha256 inflate used deflate (take taken data r) w' s') w s := by
  simp only [StoreWriter.put, Always, wp_bind, wp_self, after]
  split
  · next hworking => exact hi.take hused (.inl hworking)
  · refine wp_seq (has_spec hi (sha256 data)) ?_ ?_
    · rintro b w' s' ⟨rfl, rfl, b', hb, hstored⟩
      cases hb
      split
      · next htrue => exact hi.take hused (.inr (hstored htrue))
      · refine wp_seq (openPack_spec hi) ?_ ?_
        · rintro p w₁ s₁ ⟨p', hp', hp₁, hi₁⟩
          cases hp'
          refine wp_seq (add_spec hi₁ hp₁ hused) ?_ (fun e w₂ s₂ h => h.1)
          rintro u w₂ s₂ ⟨hi₂, -, hadd⟩
          obtain ⟨p', hp', hkey⟩ := hadd rfl
          have hnew : Inv sha256 inflate used deflate ((sha256 data, data) :: taken) { w₂ with
              workingSetSz := w₂.workingSetSz + (deflate data).length
              workingSet := (sha256 data, data) :: w₂.workingSet } s₂ := by
            have hold : Inv sha256 inflate used deflate taken { w₂ with
                workingSetSz := w₂.workingSetSz + (deflate data).length
                workingSet := (sha256 data, data) :: w₂.workingSet } s₂ := by
              refine ⟨hi₂.good, hi₂.rdr, fun x hx => ?_, fun h d hd => ?_, hi₂.pack⟩
              · obtain ⟨hhash, hx', hplace⟩ := hi₂.taken x hx
                refine ⟨hhash, hx', hplace.imp_left (fun h => ?_)⟩
                rw [List.lookup_cons]
                split
                · rfl
                · exact h
              · rw [List.lookup_cons] at hd
                split at hd
                · next heq =>
                  cases hd
                  rw [beq_iff_eq] at heq
                  subst heq
                  exact ⟨rfl, hused, p', hp', hkey⟩
                · exact hi₂.working h d hd
            exact hold.take hused (.inl (by simp))
          simp only [wp_bind, wp_update, wp_self, after]
          split
          · refine wp_seq (flushWorkingSet_spec hdeflate hnew) ?_ ?_
            · rintro - w₃ s₃ ⟨-, hi₃⟩
              exact hi₃
            · rintro e w₃ s₃ ⟨herr, -⟩
              cases herr
          · exact hnew
        · rintro e w₁ s₁ ⟨p, hp, -⟩
          cases hp
    · rintro e w' s' ⟨-, -, b, hb, -⟩
      cases hb

theorem load_step (hi : Inv sha256 inflate used deflate taken w s) {r : Request.Response .loadIndex}
    (h : step sha256 inflate used s .loadIndex r s') :
    ∃ midx, r = .ok midx ∧ Loaded sha256 inflate used s' midx ∧ Grows s s' ∧
      Inv sha256 inflate used deflate taken { w with rdr := some midx } s' := by
  obtain ⟨s₁, ho, ha⟩ := h
  have hi₁ := hi.others ho
  obtain ⟨midx, hr, hloaded, hgood, hfiles, huploads⟩ :=
    load_answer ha hi₁.good.honest hi₁.good.lru (fun n _ => hi₁.good.cache n)
  have hgrows : Grows s₁ s' := by
    intro n file hfile
    rwa [hfiles]
  have hi' := hi₁.keep hgood hgrows huploads
  exact ⟨midx, hr, hloaded, fun n file hfile => hgrows n file (ho.keep n file hfile),
    hi'.good, ⟨midx, rfl, hloaded.ok⟩, hi'.taken, hi'.working, hi'.pack⟩

theorem flush_spec (hdeflate : ∀ c, inflate (deflate c) = .ok c) (hi : Inv sha256 inflate used deflate taken w s) :
    Always sha256 inflate used flush (fun _ w' s' => Inv sha256 inflate used deflate taken w' s') w s := by
  rw [flush]
  refine wp_seq_attempt (flushWorkingSet_spec hdeflate hi) ?_
  rintro r w₁ s₁ ⟨rfl, hi₁⟩
  simp only [wp_bind, always_send]
  intro r s₂ hclose
  have hi₂ := hi₁.idle (q := .closeReader) trivial hclose
  obtain ⟨t₂, -, ha₂⟩ := hclose
  cases ha₂ with
  | closeReader =>
    simp only [id, after, wp_bind, wp_attempt, always_send]
    intro r s₃ hload
    obtain ⟨midx, rfl, -, -, hi₃⟩ := load_step hi₂ hload
    exact hi₃

variable (sha256 inflate used) in
/-- The world answers the request. -/
def Answered (s : World B) (q : Request) : Prop := ∃ r s', step sha256 inflate used s q r s'

variable (hinj : Set.InjOn sha256 used) (hi : Inv sha256 inflate used deflate taken w s)
include hinj hi

theorem readChunk_spec {hash : Hash} {info : PackInfo} {e : IndexEnt}
    (hinfo : InfoOk sha256 inflate used B s.files hash.bytes info) (he : e ∈ info.idx) (hkey : e.key = hash.bytes) :
    wp (step sha256 inflate used) (Answered sha256 inflate used) (send (.readChunk info e) id : WriterM Bytes)
      (fun r w' s' => Inv sha256 inflate used deflate taken w' s' ∧ ∀ d, (hash, d) ∈ taken → r = .ok d) w s := by
  rw [wp_send]
  refine ⟨⟨_, _, s, Others.refl _ _ _ s, .readChunk s info e⟩, ?_⟩
  rintro r s' ⟨s₁, ho, ha⟩
  have hi₁ := hi.others ho
  have hinfo₁ : InfoOk sha256 inflate used B s₁.files hash.bytes info := by
    have hm : MidxOk B sha256 inflate used s.files [(hash.bytes, info)] := by
      intro k info' hk
      rw [List.lookup_cons] at hk
      split at hk
      · next heq =>
        cases hk
        rw [beq_iff_eq] at heq
        rwa [heq]
      · cases hk
    exact hm.mono ho.keep hash.bytes info (by simp)
  obtain ⟨c, rfl, hused, hhash, hgood, hfiles, huploads⟩ := read_answer ha hi₁.good hinfo₁ he
  refine ⟨hi₁.keep hgood (fun n file hfile => by rwa [hfiles]) huploads, fun d hd => ?_⟩
  obtain ⟨hd', hdused, -⟩ := hi.taken _ hd
  have hsame : sha256 c = sha256 d := by
    rw [← hd']
    exact Hash.bytes_inj (hhash.trans hkey)
  rw [id_eq, hinj hused hdused hsame]

theorem get_spec (hash : Hash) :
    wp (step sha256 inflate used) (Answered sha256 inflate used) (StoreWriter.get hash)
      (fun r w' s' => Inv sha256 inflate used deflate taken w' s' ∧ ∀ d, (hash, d) ∈ taken → r = .ok d) w s := by
  obtain ⟨midx, hrdr, hmidx⟩ := hi.rdr
  simp only [StoreWriter.get, wp_bind, wp_self, after, hrdr]
  cases hworking : w.workingSet.lookup hash with
  | some val =>
    obtain ⟨hval, hvused, -⟩ := hi.working hash val hworking
    refine ⟨hi, fun d hd => ?_⟩
    obtain ⟨hd', hdused, -⟩ := hi.taken _ hd
    rw [hinj hvused hdused (hval.symm.trans hd')]
  | none =>
    simp only [wp_bind, wp_ofExcept]
    rcases searchMetaIndex_spec hmidx hash with ⟨-, hsearch⟩ | ⟨info, e, hsearch, hinfo, he, hkey⟩
    · simp only [hsearch, after, wp_bind, wp_send]
      refine ⟨⟨_, _, s, Others.refl _ _ _ s, .loadIndex (.refl _)⟩, ?_⟩
      intro r s₁ hload
      obtain ⟨midx', rfl, hloaded, hgrows, hi₁⟩ := load_step hi hload
      simp only [id, after, wp_bind, wp_update, wp_ofExcept]
      rcases searchMetaIndex_spec hloaded.ok hash with ⟨hnone, hsearch'⟩ | ⟨info, e, hsearch', hinfo, he, hkey⟩
      · simp only [hsearch', wp_raise]
        refine ⟨hi₁, fun d hd => ?_⟩
        -- a taken chunk that is not in the working set is in a pack, so it was found
        obtain ⟨-, -, hplace⟩ := hi.taken _ hd
        cases hplace with
        | inl hin =>
          rw [hworking] at hin
          cases hin
        | inr hstored =>
          have hsome := hloaded.complete _ (hstored.mono hgrows)
          rw [hnone] at hsome
          cases hsome
      · simp only [hsearch']
        exact readChunk_spec hinj hi₁ hinfo he hkey
    · simp only [hsearch, after]
      exact readChunk_spec hinj hi hinfo he hkey

end Methods

section Session

variable (sha256 inflate used) (deflate : Bytes → Bytes)

/-- The call `x` of a method of `w` returned `r` and left the writer `w'`. -/
def Returned {α : Type} (x : WriterM α) (w : StoreWriter.Writer) (s : World B) (r : Except GoError α)
    (w' : StoreWriter.Writer) (s' : World B) : Prop :=
  Prog.Runs (step sha256 inflate used) (x w) s (.done (r, w')) s'

/-- The runs of one writer, with the chunks that its calls of `Put` took. When it is opened, the
cached indexes may be those of packs that are gone. -/
inductive Session : List (Hash × Bytes) → StoreWriter.Writer → World B → Prop
  | opened {w : StoreWriter.Writer} {s s' : World B} (hhonest : AllHonest B sha256 inflate used s.files)
      (hcache : ∀ n, (s.files.lookup n).isSome → CacheOk B sha256 inflate used s.files s.rdr.cache n)
      (hlru : s.rdr.lru = [])
      (h : Prog.Runs (Answer inflate) (newWriter ()) s (.done (.ok w, ())) s') : Session [] w s'
  | put {taken : List (Hash × Bytes)} {w w' : StoreWriter.Writer} {s s' : World B}
      {r : Except GoError Hash} (data : Bytes) (hused : data ∈ used) (hrun : Session taken w s)
      (h : Returned sha256 inflate used (StoreWriter.put sha256 deflate data) w s r w' s') :
      Session (take taken data r) w' s'
  | get {taken : List (Hash × Bytes)} {w w' : StoreWriter.Writer} {s s' : World B}
      {r : Except GoError Bytes} (hash : Hash) (hrun : Session taken w s)
      (h : Returned sha256 inflate used (StoreWriter.get hash) w s r w' s') : Session taken w' s'
  | flush {taken : List (Hash × Bytes)} {w w' : StoreWriter.Writer} {s s' : World B}
      {r : Except GoError Unit} (hrun : Session taken w s)
      (h : Returned sha256 inflate used StoreWriter.flush w s r w' s') : Session taken w' s'

variable {sha256 inflate used deflate}

theorem inv_of_newWriter (hhonest : AllHonest B sha256 inflate used s.files)
    (hcache : ∀ n, (s.files.lookup n).isSome → CacheOk B sha256 inflate used s.files s.rdr.cache n)
    (hlru : s.rdr.lru = []) (h : Prog.Runs (Answer inflate) (newWriter ()) s (.done (.ok w, ())) s') :
    Inv sha256 inflate used deflate [] w s' := by
  have hw : wp (Answer inflate) (fun _ _ => True) (newWriter : Method _ _ _ Unit StoreWriter.Writer)
      (onOk fun w _ s' => Inv sha256 inflate used deflate [] w s') () s := by
    apply wp_seq_ok (wp_send_ok (G := fun _ _ => True) (q := Request.loadIndex)
      (P := fun midx _ s' => Inv sha256 inflate used deflate [] ⟨none, [], 0, some midx⟩ s') trivial ?_)
    · intro midx _ s₁ hi
      exact hi
    · intro r midx s₁ hT hr
      obtain ⟨midx', hmidx', hloaded, hgood, -⟩ := load_answer hT hhonest (by simp [hlru, LruOk]) hcache
      rw [id_eq, hmidx'] at hr
      cases hr
      exact ⟨hgood, ⟨midx, rfl, hloaded.ok⟩, by simp, by simp, by simp⟩
  exact Prog.wp_of_runs h hw

theorem Session.inv (hinj : Set.InjOn sha256 used) (hdeflate : ∀ c, inflate (deflate c) = .ok c)
    (h : Session sha256 inflate used deflate taken w s) : Inv sha256 inflate used deflate taken w s := by
  induction h with
  | opened hhonest hcache hlru h => exact inv_of_newWriter hhonest hcache hlru h
  | put data hused _ h hi => exact Prog.wp_of_runs h (put_spec hdeflate hi hused)
  | get hash _ h hi => exact (Prog.wp_of_runs h (get_spec hinj hi hash)).1
  | flush _ h hi => exact Prog.wp_of_runs h (flush_spec hdeflate hi)

end Session

/-- At every point of a session, `Get` of a hash that `Put` returned comes to an end, and what it
returns is the data that was put. -/
theorem read_your_writes (B : Block) (sha256 : Bytes → Hash) (inflate : Bytes → Except GoError Bytes)
    (deflate : Bytes → Bytes) (used : Set Bytes) (hinj : Set.InjOn sha256 used)
    (hdeflate : ∀ c, inflate (deflate c) = .ok c) (taken : List (Hash × Bytes)) (w : StoreWriter.Writer)
    (s : World B) (hrun : Session sha256 inflate used deflate taken w s) (h : Hash) (d : Bytes)
    (hput : (h, d) ∈ taken) :
    (∃ w' s', Returned sha256 inflate used (StoreWriter.get h) w s (.ok d) w' s') ∧
    ∀ r w' s', Returned sha256 inflate used (StoreWriter.get h) w s r w' s' → r = .ok d := by
  have hget := get_spec hinj (hrun.inv hinj hdeflate) h
  have hall : ∀ r w' s', Returned sha256 inflate used (StoreWriter.get h) w s r w' s' → r = .ok d :=
    fun r w' s' hret => (Prog.wp_of_runs hret hget).2 d hput
  refine ⟨?_, hall⟩
  obtain ⟨⟨r, w'⟩, s', hret⟩ := Prog.exists_runs_of_wp (fun _ _ h => h) hget
  obtain rfl := hall r w' s' hret
  exact ⟨w', s', hret⟩

section OneChunk

def emptyWorld : World flipBlock := ⟨∅, ∅, ⟨[], [], fun _ => none⟩⟩

def oneName : Bytes := [1] ++ ascii ".ebpack"

/-- The writer of a new store with one chunk in its open pack. -/
def oneWriter : StoreWriter.Writer :=
  ⟨some ⟨oneName, [⟨(Hash.copy [7]).bytes, 1, 0⟩], 1⟩, [(Hash.copy [7], [7])], 1, some []⟩

def newUpload : Upload := ⟨⟨List.replicate 16 0, 0, List.replicate 16 0⟩, List.replicate 16 0, 0⟩

def oneUpload : Upload := ⟨⟨7 :: List.replicate 15 0, 1, List.replicate 16 0⟩, List.replicate 16 0, 1⟩

def oneWorld : World flipBlock :=
  ⟨∅, ((∅ : AList (fun _ : Bytes => Upload)).insert oneName newUpload).insert oneName oneUpload,
    emptyWorld.rdr⟩

theorem session_one_chunk : Session Hash.copy .ok {[7]} id [(Hash.copy [7], [7])] oneWriter oneWorld := by
  have hopen : Session (B := flipBlock) Hash.copy .ok {[7]} id [] ⟨none, [], 0, some []⟩ emptyWorld := by
    refine .opened (s := emptyWorld) (by intro n file h; cases h) (by intro n h; cases h) rfl ?_
    exact .step (.loadIndex (l := []) (.refl _)) (.refl _ _)
  have hwrite : exec fileSink (cryptWrite flipBlock [7]) newUpload.out newUpload.sent =
      (.ok (), oneUpload.out, oneUpload.sent) := rfl
  refine .put [7] rfl hopen (r := .ok (Hash.copy [7])) ?_
  refine .step (r := .ok [1]) ⟨_, Others.refl _ _ _ _, .randomName _ _⟩ ?_
  refine .step (r := .ok ()) ⟨_, Others.refl _ _ _ _, .newPack rfl⟩ ?_
  refine .step (r := .ok ()) ⟨_, Others.refl _ _ _ _, .initPack _ (List.replicate 16 0) rfl rfl⟩ ?_
  refine .step (r := .ok ()) ⟨_, Others.refl _ _ _ _, .writePack (u := newUpload) rfl hwrite⟩ ?_
  exact .refl _ _

theorem written_one : Written flipBlock (List.replicate 16 0) oneUpload.out oneUpload.sent [7] :=
  ⟨by decide, by decide, [], 0, by decide, rfl, by decide, by decide⟩

/-- `Flush` seals the pack, empties the working set and opens the reader again. -/
theorem session_flushed : ∃ w s, Session (B := flipBlock) Hash.copy .ok {[7]} id [(Hash.copy [7], [7])] w s ∧
    w.workingSet = [] ∧ (s.files.lookup oneName).isSome := by
  let idx : Index := [⟨(Hash.copy [7]).bytes, 1, 0⟩]
  have hsorted : sortIndex idx = idx := by simp [idx, sortIndex]
  have hidx : ∀ e ∈ idx, e.key.length ≤ maxPackEntrySize := by decide
  obtain ⟨out, hclose⟩ := close_encrypted rfl written_one (p := ⟨oneName, idx, 1⟩) rfl hidx
  rw [hsorted] at hclose
  let s₁ : World flipBlock := { oneWorld with files := oneWorld.files.insert oneName honestPack }
  have hclosed : step Hash.copy .ok {[7]} oneWorld (.closePack oneName (sortIndex idx)) (.ok ()) s₁ := by
    rw [hsorted]
    exact ⟨_, Others.refl _ _ _ _, .closePack (u := oneUpload) rfl rfl hclose (by decide)⟩
  let s₂ : World flipBlock := { s₁ with rdr := { s₁.rdr with cache := cacheIndex s₁.rdr.cache oneName (sortIndex idx) } }
  have hcached : step Hash.copy .ok {[7]} s₁ (.cacheIndex oneName (sortIndex idx)) (.ok ()) s₂ :=
    ⟨_, Others.refl _ _ _ _, .cacheIndex _ _ _⟩
  let s₃ : World flipBlock := { s₂ with rdr := { s₂.rdr with lru := [] } }
  have hreader : step Hash.copy .ok {[7]} s₂ .closeReader (.ok ()) s₃ := ⟨_, Others.refl _ _ _ _, .closeReader _⟩
  have hload (r s₄) (h : step Hash.copy .ok {[7]} s₃ .loadIndex r s₄) :
      ∃ r' w, Returned Hash.copy .ok {[7]} StoreWriter.flush oneWriter oneWorld r' w s₄ ∧ w.workingSet = [] := by
    cases r with
    | error e => exact ⟨_, _, .step hclosed (.step hcached (.step hreader (.step h (.refl _ _)))), rfl⟩
    | ok midx => exact ⟨_, _, .step hclosed (.step hcached (.step hreader (.step h (.refl _ _)))), rfl⟩
  obtain ⟨r, w, hflush, hempty⟩ := hload _ _ ⟨_, Others.refl _ _ _ _, .loadIndex (.refl _)⟩
  exact ⟨w, _, .flush session_one_chunk hflush, hempty, rfl⟩

/-- `Get` reads the chunk back from the pack. -/
theorem read_your_writes_flushed :
    ∃ w s, Session (B := flipBlock) Hash.copy .ok {[7]} id [(Hash.copy [7], [7])] w s ∧
    w.workingSet = [] ∧ (s.files.lookup oneName).isSome ∧
    (∃ w' s', Returned Hash.copy .ok {[7]} (StoreWriter.get (Hash.copy [7])) w s (.ok [7]) w' s') ∧
    ∀ r w' s', Returned Hash.copy .ok {[7]} (StoreWriter.get (Hash.copy [7])) w s r w' s' → r = .ok [7] := by
  obtain ⟨w, s, hsession, hempty, hclosed⟩ := session_flushed
  exact ⟨w, s, hsession, hempty, hclosed, read_your_writes flipBlock Hash.copy .ok id {[7]} (Set.injOn_singleton _ _)
    (fun _ => rfl) _ w s hsession _ [7] List.mem_cons_self⟩

end OneChunk

end Bpy.ReadYourWrites
