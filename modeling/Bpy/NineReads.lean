import Bpy.NineRoots

/-!
# Reading a file over 9P

The handle of an open file has a reader of its tree, and `Tread` returns what the reader has
next: the offset of the request is not looked at. So the replies to a sequence of requests are
consecutive parts of the file, and a reply is the one asked for if the offset is the number of
bytes returned since the file was opened.
-/
namespace Bpy.NineReads
open ByteWords InteractionPrograms ContentStore ByteSources HashTreeWriter HashTreeReader HashTreeReading
open HashTreeStreams NineMessages NineServer NineFiles NineRoots Function
open List hiding get le_antisymm

structure Request where
  tag : UInt16
  offset : UInt64
  count : UInt32

def Request.msg (fid : UInt32) (r : Request) : Msg := .Tread r.tag fid r.offset r.count

/-- The data that a request with this offset and room for `c` bytes asks for. -/
def Honours (d : Bytes) (offset : UInt64) (c : ℕ) (out : Bytes) : Prop :=
  if offset.toNat < d.length then out ≠ [] ∧ out.length ≤ c ∧ out <+: d.drop offset.toNat else out = []

/-- Each request that has room for a byte asks for what follows the `pos` bytes returned so far,
or for bytes behind the end when all have been returned. -/
def Sequential (d : Bytes) (neg : UInt32) : ℕ → List Request → List Bytes → Prop
  | pos, r :: rs, out :: outs =>
    (0 < clamp neg r.count → r.offset.toNat = pos ∨ (pos = d.length ∧ d.length ≤ r.offset.toNat)) ∧
      Sequential d neg (pos + out.length) rs outs
  | _, _, _ => True

variable {σ : Type} {D : Drive σ} {room : ℕ → ℕ} {stored : Hash → Bytes → Prop}

/-- The fid has a handle of the file `f` with an open reader, which has the bytes `Y` left. -/
structure Open (D : Drive σ) (stored : Hash → Bytes → Prop) (st : Server ℕ × World σ) (fid : UInt32) (h : ℕ) (f : File)
    (Y : Bytes) : Prop where
  fid : st.1.fids fid = some (some h)
  handle : ∃ rdr, st.2.handles h = .fileHandle f (some rdr) ∧ Reading stored rdr Y
  serves : Serves D.store st.2.env stored

section Steps

theorem take_padded {nbytes : ℕ} {out : Bytes} (h : out.length ≤ nbytes) :
    (padded nbytes out).1.take out.length = out := by
  rw [padded, take_take, min_eq_left h, take_left]

variable {st : Server ℕ × World σ} {fid : UInt32} {h : ℕ} {f : File} {Y : Bytes}

theorem tread_open (room : ℕ → ℕ) {rdr : Reader} {w : World σ} (hhandle : w.handles h = .fileHandle f (some rdr))
    (hreading : Reading stored rdr Y) (hserves : Serves D.store w.env stored) (offset : UInt64) (nbytes : ℕ) :
    ∃ out rdr', tread D room h offset nbytes w = (.ok (padded nbytes out, UInt32.ofNat out.length),
        { w with handles := update w.handles h (.fileHandle f (some rdr')) }) ∧
      out = Y.take out.length ∧ out.length ≤ nbytes ∧ (0 < nbytes → Y ≠ [] → out ≠ []) ∧
      Reading stored rdr' (Y.drop out.length) := by
  have hget : getHandle h w = (.ok (.fileHandle f (some rdr)), w) := by rw [getHandle, hhandle]
  obtain ⟨hend, hmore⟩ := read_spec nbytes hserves hreading
  by_cases hY : Y = []
  · have hrun : readFile D h f rdr nbytes w =
        (.ok (.error .eof), { w with handles := update w.handles h (.fileHandle f (some rdr)) }) := by
      rw [readFile, hend hY]
    refine ⟨[], rdr, ?_, rfl, Nat.zero_le _, fun _ hne => absurd hY hne, by simpa [hY] using hreading⟩
    rw [tread, bind_of_ok hget]
    dsimp only [treadFile]
    rw [bind_of_ok hrun]
    rfl
  · obtain ⟨rdr', out, hexec, hout⟩ := hmore hY
    have hrun : readFile D h f rdr nbytes w =
        (.ok (.ok out), { w with handles := update w.handles h (.fileHandle f (some rdr')) }) := by
      rw [readFile, hexec]
    refine ⟨out, rdr', ?_, hout.eq_take, hout.length_le, fun hpos _ => hout.ne_nil hpos, hout.reading⟩
    rw [tread, bind_of_ok hget]
    dsimp only [treadFile]
    rw [bind_of_ok hrun]
    rfl

theorem Open.dispatch (room : ℕ → ℕ) (hopen : Open D stored st fid h f Y) (r : Request) :
    ∃ out w', dispatch (files D room) (r.msg fid) st = (.ok (.Rread r.tag out), (st.1, w')) ∧
      out = Y.take out.length ∧ out.length ≤ clamp st.1.negMessageSize r.count ∧
      (0 < clamp st.1.negMessageSize r.count → Y ≠ [] → out ≠ []) ∧
      Open D stored (st.1, w') fid h f (Y.drop out.length) := by
  obtain ⟨rdr, hhandle, hreading⟩ := hopen.handle
  obtain ⟨out, rdr', hread, htake, hlen, hne, hreading'⟩ := tread_open room hhandle hreading hopen.serves
    r.offset (clamp st.1.negMessageSize r.count)
  have hclamp : clamp st.1.negMessageSize r.count < 2 ^ 32 := (min_le_left _ _).trans_lt r.count.toNat_lt
  have hcount : (UInt32.ofNat out.length).toNat = out.length := by
    rw [UInt32.toNat_ofNat', Nat.mod_eq_of_lt (hlen.trans_lt hclamp)]
  have hget : (get : ServerM (World σ) ℕ _) st = (.ok st, st) := rfl
  let w' : World σ := { st.2 with handles := update st.2.handles h (.fileHandle f (some rdr')) }
  refine ⟨out, w', ?_, htake, hlen, hne, hopen.fid, ⟨rdr', update_self _ _ _, hreading'⟩, hopen.serves⟩
  rw [Request.msg, NineServer.dispatch, handleRead, withFid_of_some hopen.fid, bind_of_ok hget]
  refine (orReply_of_ok (call_eq ((bind_of_ok (deref_some h)).trans hread))).trans ?_
  dsimp only
  rw [hcount, if_pos hlen, take_padded hlen]
  rfl

theorem dispatch_open (room : ℕ → ℕ) {t : HTree} {d : Bytes} {rdr : Option Reader} {srv : Server ℕ} {w : World σ}
    (hfid : srv.fids fid = some (some h)) (hhandle : w.handles h = .fileHandle f rdr)
    (hserves : Serves D.store w.env stored) (htree : Tree stored t d) (hdata : f.ent.htree.data = t.data)
    (tag : UInt16) (mode : UInt8) :
    ∃ w', dispatch (files D room) (.Topen tag fid mode) (srv, w) =
        (.ok (.Ropen tag f.qid (srv.negMessageSize - writeOverhead)), (srv, w')) ∧
      Open D stored (srv, w') fid h f d := by
  obtain ⟨rdr', hexec, hreading, -⟩ := newReader_spec () hserves htree.holds htree.depth_lt
  let w' : World σ := { w with handles := update w.handles h (.fileHandle f (some rdr')) }
  have hopen : topen D room h w = (.ok f.qid, w') := by
    let w₁ : World σ := { w with handles := update w.handles h (.fileHandle f none) }
    have hget : getHandle h w = (.ok (.fileHandle f rdr), w) := by rw [getHandle, hhandle]
    have hset : setHandle h (.fileHandle f none) w = (.ok (), w₁) := rfl
    have hreader : inStore D (newReader f.ent.htree.data) w₁ = (.ok rdr', w₁) := by
      rw [hdata]
      exact inStore_eq hexec
    have hset' : setHandle h (.fileHandle f (some rdr')) w₁ = (.ok (), w') := by
      rw [setHandle, update_idem]
    rw [topen, bind_of_ok hget]
    dsimp only
    rw [bind_of_ok hset, bind_of_ok hreader, bind_of_ok hset']
    rfl
  refine ⟨w', ?_, hfid, ⟨rdr', update_self _ _ _, hreading⟩, hserves⟩
  rw [NineServer.dispatch, handleOpen, withFid_of_some hfid]
  exact (orReply_of_ok (call_eq ((bind_of_ok (deref_some h)).trans hopen))).trans rfl

end Steps

section Runs

variable {st : Server ℕ × World σ} {fid : UInt32} {h : ℕ} {f : File} {d : Bytes}

theorem honours_next {pos c : ℕ} {offset : UInt64} {out : Bytes} (hpos : pos ≤ d.length)
    (htake : out = (d.drop pos).take out.length) (hlen : out.length ≤ c) (hne : d.drop pos ≠ [] → out ≠ [])
    (hoffset : offset.toNat = pos ∨ (pos = d.length ∧ d.length ≤ offset.toNat)) : Honours d offset c out := by
  rw [Honours]
  split
  · next hlt =>
    have heq : offset.toNat = pos := hoffset.elim id (fun h => absurd hlt (Nat.not_lt.mpr h.2))
    rw [heq] at hlt ⊢
    refine ⟨hne (fun hnil => ?_), hlen, ?_⟩
    · exact absurd (drop_eq_nil_iff.mp hnil) (Nat.not_le.mpr hlt)
    · rw [htake]
      exact take_prefix _ _
  · next hge =>
    have hend : pos = d.length := hoffset.elim (fun h => le_antisymm hpos (h ▸ Nat.le_of_not_lt hge)) And.left
    rw [htake, hend, drop_length, take_nil]

theorem Open.replies (room : ℕ → ℕ) {pos : ℕ} (hpos : pos ≤ d.length) (hopen : Open D stored st fid h f (d.drop pos))
    (reads : List Request) :
    ∃ outs st', replies (files D room) (reads.map (Request.msg fid)) st =
        (.ok (zipWith (fun r out => .Rread r.tag out) reads outs), st') ∧
      outs.length = reads.length ∧
      (Sequential d st.1.negMessageSize pos reads outs → List.Forall₂ (fun r out =>
        0 < clamp st.1.negMessageSize r.count → Honours d r.offset (clamp st.1.negMessageSize r.count) out)
          reads outs) := by
  induction reads generalizing pos st with
  | nil => exact ⟨[], st, rfl, rfl, fun _ => .nil⟩
  | cons r reads ih =>
    obtain ⟨out, w', hrun, htake, hlen, hne, hopen'⟩ := hopen.dispatch room r
    rw [drop_drop] at hopen'
    have hle : pos + out.length ≤ d.length := by
      have hlength := congrArg length htake
      rw [length_take, length_drop] at hlength
      omega
    obtain ⟨outs, st', hruns, hlength, hall⟩ := ih hle hopen'
    refine ⟨out :: outs, st', ?_, congrArg Nat.succ hlength, fun hseq => .cons (fun hc => ?_) (hall hseq.2)⟩
    · exact replies_cons hrun hruns
    · exact honours_next hpos htake hlen (hne hc) (hseq.1 hc)

/-- The data of the replies is what the requests ask for, if they read the file in sequence. -/
theorem sequential_reads_honour_offsets {t : HTree} {rdr : Option Reader} {srv : Server ℕ} {w : World σ}
    (hfid : srv.fids fid = some (some h)) (hhandle : w.handles h = .fileHandle f rdr)
    (hserves : Serves D.store w.env stored) (htree : Tree stored t d) (hdata : f.ent.htree.data = t.data)
    (tag : UInt16) (mode : UInt8) (reads : List Request) :
    ∃ outs st', replies (files D room) (.Topen tag fid mode :: reads.map (Request.msg fid)) (srv, w) =
        (.ok (.Ropen tag f.qid (srv.negMessageSize - writeOverhead) ::
          List.zipWith (fun r out => .Rread r.tag out) reads outs), st') ∧
      outs.length = reads.length ∧
      (Sequential d srv.negMessageSize 0 reads outs → List.Forall₂ (fun r out =>
        0 < clamp srv.negMessageSize r.count → Honours d r.offset (clamp srv.negMessageSize r.count) out)
          reads outs) := by
  obtain ⟨w', hopen, hstate⟩ := dispatch_open room hfid hhandle hserves htree hdata tag mode
  obtain ⟨outs, st', hruns, hlength, hall⟩ := Open.replies room (Nat.zero_le d.length) hstate reads
  exact ⟨outs, st', replies_cons hopen hruns, hlength, hall⟩

end Runs

section Instances

/-- The server and the world after a walk from the root of the small drive to its file. -/
def walkedServer : Server ℕ := { attachedServer with fids := update attachedServer.fids 1 (some (some 1)) }

def walkedWorld : World Unit := { attachedWorld.advance 0 1 with
  handles := update attachedWorld.handles 1 (.fileHandle smallFile none)
  opened := 2 }

theorem small_walk : dispatch (files smallDrive id) (.Twalk 1 0 1 [ascii "f"]) (attachedServer, attachedWorld) =
    (.ok (.Rwalk 1 [smallRoot.qid]), (walkedServer, walkedWorld)) := by
  have hwalk : twalk smallDrive id 0 [ascii "f"] attachedWorld =
      (.ok (some (.file smallFile), [smallRoot.qid]), attachedWorld.advance 0 1) := by
    have hdir : isDir smallRoot.qid = true := rfl
    rw [twalk_eq attachedWorld_file, map_apply, walkLoop_down (by decide) (by decide) hdir attachedWorld_child]
    rfl
  have hadd : addFid 1 (some 1) (attachedServer, walkedWorld) = (.ok (), (walkedServer, walkedWorld)) :=
    addFid_of_free _ _ (by decide) rfl
  have hfid : attachedServer.fids 0 = some (some 0) := rfl
  have hcall : (do (files smallDrive id).twalk (← deref (some 0)) (.Twalk 1 0 1 [ascii "f"])) attachedWorld =
      (.ok (some (.file smallFile), [smallRoot.qid]), attachedWorld.advance 0 1) := by
    rw [bind_of_ok (deref_some 0)]
    exact hwalk
  have hnew : (files smallDrive id).newHandle (.file smallFile) (attachedWorld.advance 0 1) =
      (.ok (some 1), walkedWorld) := rfl
  rw [dispatch, handleWalk, withFid_of_some hfid, orReply_of_ok (call_eq hcall)]
  refine (orReply_of_ok (call_eq hnew)).trans ?_
  exact (orReply_of_ok hadd).trans rfl

theorem smallChunk_file : smallChunk fileHash = some (0 :: ascii "ab") := by
  rw [smallChunk, if_neg (by decide), if_neg (by decide), if_pos rfl]

def openedWorld : World Unit := { walkedWorld with
  handles := update walkedWorld.handles 1 (.fileHandle smallFile
    (some (Reader.load { Reader.ofRoot fileHash with height := 0 } 0 (0 :: ascii "ab")))) }

theorem small_open : dispatch (files smallDrive id) (.Topen 1 1 0) (walkedServer, walkedWorld) =
    (.ok (.Ropen 1 smallFile.qid (8192 - writeOverhead)), (walkedServer, openedWorld)) := by
  let w₁ : World Unit := { walkedWorld with handles := update walkedWorld.handles 1 (.fileHandle smallFile none) }
  have hget : getHandle 1 walkedWorld = (.ok (.fileHandle smallFile none), walkedWorld) := rfl
  have hset : setHandle 1 (.fileHandle smallFile none) walkedWorld = (.ok (), w₁) := rfl
  have hreader : inStore smallDrive (newReader fileHash) w₁ =
      (.ok (Reader.load { Reader.ofRoot fileHash with height := 0 } 0 (0 :: ascii "ab")), w₁) := by
    have hload : Method.exec smallDrive.store (ContentStore.get fileHash) () () = (.ok (0 :: ascii "ab"), (), ()) := by
      rw [exec_get, serves_small _ _ smallChunk_file]
    refine inStore_eq ?_
    rw [newReader, Method.exec_bind_ok _ hload]
    rfl
  have hopen : topen smallDrive id 1 walkedWorld = (.ok smallFile.qid, openedWorld) := by
    rw [topen, bind_of_ok hget]
    dsimp only
    rw [bind_of_ok hset]
    refine (bind_of_ok hreader).trans ?_
    change (_, World.mk _ _ (update (update _ _ _) _ _) _ _) = _
    rw [update_idem]
    rfl
  have hfid : walkedServer.fids 1 = some (some 1) := rfl
  rw [dispatch, handleOpen, withFid_of_some hfid]
  exact (orReply_of_ok (call_eq ((bind_of_ok (deref_some 1)).trans hopen))).trans rfl

/-- Two reads, one after the other. -/
theorem two_reads_honour_offsets : ∃ st', replies (files smallDrive id)
      [.Topen 1 1 0, .Tread 1 1 0 1, .Tread 2 1 1 1] (walkedServer, walkedWorld) =
      (.ok [.Ropen 1 smallFile.qid (8192 - writeOverhead), .Rread 1 (ascii "a"), .Rread 2 (ascii "b")], st') ∧
    Honours (ascii "ab") 0 (clamp 8192 1) (ascii "a") ∧ Honours (ascii "ab") 1 (clamp 8192 1) (ascii "b") := by
  have hreads : (replies (files smallDrive id) [.Tread 1 1 0 1, .Tread 2 1 1 1] (walkedServer, openedWorld)).1 =
    .ok [.Rread 1 (ascii "a"), .Rread 2 (ascii "b")] := rfl
  have hruns := replies_cons small_open (Prod.ext hreads rfl)
  have htree := tree_small fileHash (ascii "ab") smallChunk_file (by decide)
  obtain ⟨outs, st', hruns', hlength, hall⟩ := @sequential_reads_honour_offsets Unit smallDrive id _ 1 1 smallFile
    (ascii "ab") ⟨0, fileHash⟩ none walkedServer walkedWorld rfl rfl serves_small htree rfl 1 0 [⟨1, 0, 1⟩, ⟨2, 1, 1⟩]
  obtain ⟨out, out', rfl⟩ := List.length_eq_two.mp hlength
  have houts := congrArg Prod.fst (hruns'.symm.trans hruns)
  cases houts
  have hhonours := hall ⟨fun _ => .inl rfl, fun _ => .inl rfl, trivial⟩
  exact ⟨_, hruns, (forall₂_cons.mp hhonours).1 (by decide), (forall₂_cons.mp (forall₂_cons.mp hhonours).2).1 (by decide)⟩

/-- A second read at the start of the file returns nothing. -/
theorem second_read_ignores_offset : ∃ st', replies (files smallDrive id)
      [.Tattach 1 0 noFid [] [], .Twalk 1 0 1 [ascii "f"], .Topen 1 1 0, .Tread 1 1 0 10, .Tread 1 1 0 10]
      (startServe (newServer 8192), smallWorld) =
      (.ok [.Rattach 1 ⟨qtDir, 1, 0⟩, .Rwalk 1 [smallRoot.qid], .Ropen 1 smallFile.qid (8192 - writeOverhead),
        .Rread 1 (ascii "ab"), .Rread 1 []], st') ∧
    0 < clamp 8192 10 ∧ ¬ Honours (ascii "ab") 0 (clamp 8192 10) [] := by
  have hreads : (replies (files smallDrive id) [.Tread 1 1 0 10, .Tread 1 1 0 10] (walkedServer, openedWorld)).1 =
    .ok [.Rread 1 (ascii "ab"), .Rread 1 []] := rfl
  refine ⟨_, replies_cons small_attach (replies_cons small_walk (replies_cons small_open (Prod.ext hreads rfl))),
    by decide, ?_⟩
  rw [Honours, if_pos (by decide)]
  exact fun h => h.1 rfl

end Instances

end Bpy.NineReads
