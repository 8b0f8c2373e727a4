import Bpy.GcSweepSafety
import Mathlib.Data.List.AList
import Mathlib.Data.List.Sort

/-!
# The sweep against a server

The server keeps the packs that were closed without an error and have not been removed.
Any call may fail. A call that fails may have been carried out in part: a pack can be gone
although its removal was answered with an error. Others add packs but remove none.
-/
namespace Bpy.GcSweepServer
open ByteWords InteractionPrograms ContentStore PackFile StoreReader GcSweep PackRuns ProgramLogic AList
open GcSweepSafety

structure Server where
  packs : AList (fun _ : Bytes => Pack)
  /-- the data of the packs that are being written -/
  uploads : AList (fun _ : Bytes => Bytes)

def Server.listing (s : Server) : List PackListing := s.packs.entries.map (fun x => ⟨x.1, x.2.size⟩)

/-- The answer to a call that fails. -/
def failed (e : GoError) : (q : SweepRequest) → q.Response
  | .listPacks => .error e
  | .readIndex _ => .error e
  | .readAt _ _ _ => .error e
  | .getRaw _ => .error e
  | .putRaw _ _ => .error e
  | .randomFileName => .error e
  | .newPack _ => .error e
  | .initPack _ => .error e
  | .writePack _ _ => .error e
  | .closePack _ _ => .error e
  | .remove _ _ => .error e

variable (Enc : Hash → Bytes → Prop) (visited : List Hash)

/-- How the server and the cache answer a request. -/
inductive Answer : Server → (q : SweepRequest) → q.Response → Server → Prop
  | fails (s : Server) (q : SweepRequest) (e : GoError) : Answer s q (failed e q) s
  | listPacks {s : Server} {l : List PackListing} (h : l.Perm s.listing) :
      Answer s .listPacks (.ok l) s
  | readIndex {s : Server} {x : PackListing} {P : Pack} (h : s.packs.lookup x.name = some P) :
      Answer s (.readIndex x) (.ok P.idx) s
  /-- behind the values a read gets bytes of the index -/
  | readAt {s : Server} {n : Bytes} {P : Pack} {off size : ℕ} {v : Bytes}
      (h : s.packs.lookup n = some P)
      (hv : off + size ≤ P.data.length → v = (P.data.drop off).take size) :
      Answer s (.readAt n off size) (.ok v) s
  | getRaw {s : Server} {h : Hash} {v : Option Bytes} (henc : ∀ x, v = some x → Enc h x) :
      Answer s (.getRaw h) (.ok v) s
  | putRaw (s : Server) (h : Hash) (v : Bytes) : Answer s (.putRaw h v) (.ok ()) s
  | randomFileName (s : Server) (n : Bytes) : Answer s .randomFileName (.ok n) s
  | newPack {s : Server} {n : Bytes} (h : s.packs.lookup n = none) :
      Answer s (.newPack n) (.ok ()) { s with uploads := s.uploads.insert n [] }
  | initPack (s : Server) (n : Bytes) : Answer s (.initPack n) (.ok ()) s
  | writePack {s : Server} {n d v : Bytes} (h : s.uploads.lookup n = some d) :
      Answer s (.writePack n v) (.ok ()) { s with uploads := s.uploads.insert n (d ++ v) }
  /-- some of the value may have been written -/
  | writeFails (s : Server) (n v d : Bytes) (e : GoError) :
      Answer s (.writePack n v) (.error e) { s with uploads := s.uploads.insert n d }
  | closePack {s : Server} {n d : Bytes} {idx : Index} (size : ℕ)
      (h : s.uploads.lookup n = some d) (hnew : s.packs.lookup n = none) :
      Answer s (.closePack n idx) (.ok ()) { s with packs := s.packs.insert n ⟨idx, d, size⟩ }
  | remove (s : Server) (n epoch : Bytes) :
      Answer s (.remove n epoch) (.ok ()) { s with packs := s.packs.erase n }
  | removeFails (s : Server) (n epoch : Bytes) (e : GoError) :
      Answer s (.remove n epoch) (.error e) { s with packs := s.packs.erase n }

/-- Others may have added packs. -/
structure Others (s s' : Server) : Prop where
  keep : ∀ n P, s.packs.lookup n = some P → s'.packs.lookup n = some P
  added : ∀ n P, s'.packs.lookup n = some P → s.packs.lookup n = some P ∨ WellFormed Enc visited P
  uploads : s'.uploads = s.uploads

theorem Others.refl (s : Server) : Others Enc visited s s :=
  ⟨fun _ _ h => h, fun _ _ h => .inl h, rfl⟩

def step (s : Server) (q : SweepRequest) (r : q.Response) (s' : Server) : Prop :=
  ∃ s₁, Others Enc visited s s₁ ∧ Answer Enc s₁ q r s'

variable {Enc visited} {s s' : Server}

variable {q : SweepRequest} {n : Bytes}

theorem step_of_answer {r : q.Response} (h : Answer Enc s q r s') :
    step Enc visited s q r s' := ⟨s, Others.refl _ _ s, h⟩

theorem Answer.keeps {r : q.Response} {P : Pack} (h : Answer Enc s q r s')
    (hq : ∀ epoch, q ≠ .remove n epoch) (hP : s.packs.lookup n = some P) : s'.packs.lookup n = some P := by
  cases h with
  | closePack size hd hnew =>
    rw [lookup_insert_ne]
    · exact hP
    · rintro rfl
      rw [hnew] at hP
      cases hP
  | remove m epoch =>
    rw [lookup_erase_ne]
    · exact hP
    · rintro rfl
      exact hq epoch rfl
  | removeFails m epoch e =>
    rw [lookup_erase_ne]
    · exact hP
    · rintro rfl
      exact hq epoch rfl
  | _ => exact hP

theorem Answer.upload_keeps {r : q.Response} {d : Bytes}
    (h : Answer Enc s q r s') (hnew : q ≠ .newPack n) (hwrite : ∀ v, q ≠ .writePack n v)
    (hd : s.uploads.lookup n = some d) : s'.uploads.lookup n = some d := by
  cases h with
  | newPack hnone =>
    rw [lookup_insert_ne]
    · exact hd
    · rintro rfl
      exact hnew rfl
  | writePack hup =>
    rw [lookup_insert_ne]
    · exact hd
    · rintro rfl
      exact hwrite _ rfl
  | writeFails m v d' e =>
    rw [lookup_insert_ne]
    · exact hd
    · rintro rfl
      exact hwrite _ rfl
  | _ => exact hd

theorem listing_names (s : Server) : s.listing.map PackListing.name = s.packs.keys := by
  simp [Server.listing, AList.keys, List.keys, Function.comp_def]

theorem mem_listing {P : Pack} (h : s.packs.lookup n = some P) : n ∈ s.listing.map PackListing.name := by
  rw [listing_names]
  apply mem_keys.mp
  rw [← lookup_isSome, h]
  rfl

theorem lookup_of_mem_listing {x : PackListing} (hx : x ∈ s.listing) : ∃ P, s.packs.lookup x.name = some P := by
  have hmem : x.name ∈ s.packs.keys := by
    rw [← listing_names]
    exact List.mem_map_of_mem hx
  exact Option.isSome_iff_exists.mp (lookup_isSome.mpr (mem_keys.mpr hmem))

variable (Enc visited) in
/-- The server as the sweep sees it. -/
def world : World Server Enc visited where
  T := step Enc visited
  pack s := s.packs.lookup
  upload s := s.uploads.lookup
  keeps := by
    rintro s q r s' n P ⟨s₁, ho, ha⟩ hq hP
    exact ha.keeps hq (ho.keep n P hP)
  upload_keeps := by
    rintro s q r s' n d ⟨s₁, ho, ha⟩ hnew hwrite - hd
    exact ha.upload_keeps hnew hwrite (ho.uploads ▸ hd)
  list_nodup := by
    rintro s l s' ⟨s₁, ho, ha⟩
    cases ha with
    | listPacks hl =>
      apply (hl.map PackListing.name).nodup_iff.mpr
      rw [listing_names]
      exact keys_nodup _
  list_complete := by
    rintro s l s' n P ⟨s₁, ho, ha⟩ hP
    cases ha with
    | listPacks hl =>
      exact (hl.map PackListing.name).mem_iff.mpr (mem_listing (ho.keep n P hP))
  list_sound := by
    rintro s l s' hwf ⟨s₁, ho, ha⟩ x hx
    cases ha with
    | listPacks hl =>
      obtain ⟨P, hP⟩ := lookup_of_mem_listing (hl.mem_iff.mp hx)
      refine ⟨P, hP, ?_⟩
      rcases ho.added _ P hP with hold | hnew
      · exact hwf _ P hold
      · exact hnew
  index_eq := by
    rintro s x idx s' P ⟨s₁, ho, ha⟩ hP
    cases ha with
    | readIndex h =>
      cases h.symm.trans (ho.keep _ P hP)
      rfl
  read_eq := by
    rintro s n off size v s' P ⟨s₁, ho, ha⟩ hP hle
    cases ha with
    | readAt h hv =>
      cases h.symm.trans (ho.keep _ P hP)
      exact hv hle
  cached := by
    rintro s h v s' ⟨s₁, ho, ha⟩
    cases ha with
    | getRaw henc => exact henc v rfl
  created := by
    rintro s n s' ⟨s₁, ho, ha⟩
    cases ha with
    | newPack h =>
      refine ⟨?_, lookup_insert _⟩
      by_contra hne
      obtain ⟨P, hP⟩ := Option.ne_none_iff_exists'.mp hne
      rw [ho.keep n P hP] at h
      cases h
  written := by
    rintro s n v s' d ⟨s₁, ho, ha⟩ hd
    cases ha with
    | writePack h =>
      rw [← ho.uploads, h] at hd
      cases hd
      exact lookup_insert _
  closed := by
    rintro s n idx s' d ⟨s₁, ho, ha⟩ hd
    cases ha with
    | closePack size h hnew =>
      rw [← ho.uploads, h] at hd
      cases hd
      exact ⟨_, lookup_insert _, rfl, rfl⟩

/-- However far the sweep gets, every chunk that was in a pack and is reachable is in a pack
that was closed without an error and has not been removed. -/
theorem sweep_crash_safe (inflate : Bytes → Except GoError Bytes) (chunkOf : Hash → Bytes)
    (hinflate : ∀ c, inflate [] ≠ .ok c) (epoch : Bytes) (visited : List Hash) (cache : Bool)
    (byOffset : Index → Index) (hsort : SortsByOffset byOffset) (s s' : Server)
    (p : Prog SweepRequest SweepRequest.Response (Except GoError Unit × GcState))
    (hwf : ∀ n P, s.packs.lookup n = some P →
      WellFormed (fun h v => inflate v = .ok (chunkOf h)) visited P)
    (hrun : Prog.Runs (step (fun h v => inflate v = .ok (chunkOf h)) visited)
      (sweep epoch visited cache byOffset GcState.start) s p s')
    (h : Hash) (hvisited : h ∈ visited)
    (hlisted : ∃ n P, s.packs.lookup n = some P ∧ h.bytes ∈ keys P.idx) :
    ∃ n P e, s'.packs.lookup n = some P ∧ e ∈ P.idx ∧ e.key = h.bytes ∧
      inflate (P.value e) = .ok (chunkOf h) := by
  let W := world (fun h v => inflate v = .ok (chunkOf h)) visited
  have hgood : ∀ h, (h ∈ visited ∧ ∃ n P, s.packs.lookup n = some P ∧ h.bytes ∈ keys P.idx) →
      ∃ n, Good W s n h := by
    rintro h ⟨hv, n, P, hP, hk⟩
    obtain ⟨e, he, hkey⟩ := List.mem_map.mp hk
    have hhash : entHash e = h := by rw [entHash, hkey, Hash.copy_bytes]
    rw [← hhash] at hv ⊢
    exact ⟨n, good_of_wellFormed (W := W) hP (hwf n P hP) he hv⟩
  obtain ⟨n, P, e, hP, he, hkey, henc⟩ := sweep_keeps (W := W) hsort (fun h => hinflate _)
    (fun h hh => hh.1) hwf hgood hrun ⟨hvisited, hlisted⟩
  exact ⟨n, P, e, hP, he, hkey, henc⟩

section OnePack

def offsetSorted (idx : Index) : Index := idx.insertionSort (fun a b => a.offset ≤ b.offset)

theorem sortsByOffset_offsetSorted : SortsByOffset offsetSorted where
  perm idx := List.perm_insertionSort _ idx
  sorted idx := by
    have : Std.Total (fun a b : IndexEnt => a.offset ≤ b.offset) := ⟨fun a b => le_total _ _⟩
    have : IsTrans IndexEnt (fun a b => a.offset ≤ b.offset) := ⟨fun a b c => le_trans⟩
    exact List.pairwise_insertionSort _ idx

/-- A value encodes itself. -/
def storedInflate (v : Bytes) : Except GoError Bytes :=
  if v = [] then .error .unexpectedEOF else .ok v

def oldPack : Pack := ⟨[⟨(Hash.copy [7]).bytes, 1, 0⟩], [7], 100⟩

def oldServer : Server := ⟨singleton [1] oldPack, ∅⟩

def newName : Bytes := [2] ++ ascii ".ebpack"

/-- The server after the value has been moved and the old pack is gone. -/
def newServer : Server :=
  ⟨(oldServer.packs.insert newName ⟨sortIndex [⟨(Hash.copy [7]).bytes, 1, 0⟩], [7], 100⟩).erase [1],
    (oldServer.uploads.insert newName []).insert newName [7]⟩

theorem oldPack_wellFormed : WellFormed (fun _ v => storedInflate v = .ok [7]) [Hash.copy [7]] oldPack := by
  refine ⟨by decide, ⟨oldPack.idx, .refl _, rfl, rfl⟩, by decide, ?_⟩
  intro e he _
  rw [List.mem_singleton.mp he]
  rfl

theorem runs_onePack : Prog.Runs (step (fun _ v => storedInflate v = .ok [7]) [Hash.copy [7]])
    (sweep [9] [Hash.copy [7]] false offsetSorted GcState.start) oldServer
    (.done (.ok (), ⟨0, none, [Hash.copy [7]], []⟩)) newServer := by
  refine .step (r := .ok [⟨[1], 100⟩]) (step_of_answer (.listPacks (.refl _))) ?_
  refine .step (r := .ok oldPack.idx) (step_of_answer (.readIndex (P := oldPack) rfl)) ?_
  refine .step (r := .ok [7]) (step_of_answer (.readAt (P := oldPack) rfl (fun _ => rfl))) ?_
  refine .step (r := .ok [2]) (step_of_answer (.randomFileName _ _)) ?_
  refine .step (r := .ok ()) (step_of_answer (.newPack rfl)) ?_
  refine .step (r := .ok ()) (step_of_answer (.initPack _ _)) ?_
  refine .step (r := .ok ()) (step_of_answer (.writePack rfl)) ?_
  refine .step (r := .ok ()) (step_of_answer (.closePack 100 rfl rfl)) ?_
  refine .step (r := .ok ()) (step_of_answer (.remove _ _ _)) ?_
  exact .refl _ _

theorem sweep_crash_safe_onePack :
    Prog.Runs (step (fun _ v => storedInflate v = .ok [7]) [Hash.copy [7]])
      (sweep [9] [Hash.copy [7]] false offsetSorted GcState.start) oldServer
      (.done (.ok (), ⟨0, none, [Hash.copy [7]], []⟩)) newServer ∧
    newServer.packs.lookup [1] = none ∧
    ∃ n P e, newServer.packs.lookup n = some P ∧ e ∈ P.idx ∧ e.key = (Hash.copy [7]).bytes ∧
      storedInflate (P.value e) = .ok [7] := by
  refine ⟨runs_onePack, rfl, ?_⟩
  apply sweep_crash_safe storedInflate (fun _ => [7]) (fun c => by simp [storedInflate]) [9]
    [Hash.copy [7]] false offsetSorted sortsByOffset_offsetSorted oldServer newServer _ ?_ runs_onePack
  · exact List.mem_cons_self
  · exact ⟨[1], oldPack, rfl, List.mem_cons_self⟩
  · intro n P hP
    have hmem := mem_lookup_iff.mp hP
    cases List.mem_singleton.mp hmem
    exact oldPack_wellFormed

end OnePack

end Bpy.GcSweepServer
