import Bpy.NineFids
import Bpy.NineRoundTrip

/-!
# The size of the replies

A reply is packed into a buffer of the negotiated size. The data of a read is cut to what the
buffer has room for, and the other replies are short, except for that of a walk: it has 13 bytes
for every name, while the request has three for a name of one letter.
-/
namespace Bpy.NineReplies

open List
open ByteWords ContentStore ByteSources ByteSlices NineMessages NineRoundTrip NineServer NineWalks NineFids

variable {σ φ η α : Type}

section Sizes

/-- The buffer for the replies has the negotiated size. -/
def Sized (srv : Server η) : Prop := srv.outbuf.len = srv.negMessageSize.toNat

theorem keeps_addFid_of_fids {P : Server η → Prop} (hP : ∀ srv fids, P srv → P { srv with fids := fids })
    (fid : UInt32) (fh : Option η) : Keeps P (addFid fid fh : ServerM σ η Unit) := by
  rw [addFid]
  split
  · exact keeps_throw _
  · refine (keeps_lookupFid fid).bind (fun found => ?_)
    cases found with
    | some _ => exact keeps_throw _
    | none => exact keeps_setFid (fun srv h => hP srv _ h)

variable (I : Files σ φ η)

theorem keeps_dispatch_of_fids {P : Server η → Prop} (hP : ∀ srv fids, P srv → P { srv with fids := fids })
    {msg : Msg} (hversion : ∀ tag size version, msg = .Tversion tag size version →
      Keeps P (handleVersion tag size : ServerM σ η Msg)) : Keeps P (dispatch I msg) :=
  keeps_dispatch I hversion (keeps_addFid_of_fids hP) (fun _ => keeps_setFid (fun srv h => hP srv _ h))
    (fun _ _ _ _ => keeps_setFid (fun srv h => hP srv _ h))

theorem negMessageSize_eq {msg resp : Msg} {st st' : Server η × σ}
    (hmsg : ∀ tag size version, msg ≠ .Tversion tag size version) (h : dispatch I msg st = (.ok resp, st')) :
    st'.1.negMessageSize = st.1.negMessageSize := by
  have hkept := keeps_dispatch_of_fids I (P := fun srv => srv.negMessageSize = st.1.negMessageSize)
    (fun _ _ h => h) (fun tag size version h => absurd h (hmsg tag size version)) st rfl
  rwa [h] at hkept

theorem handleVersion_eq_ok {tag : UInt16} {messageSize : UInt32} {st st' : Server η × σ} {resp : Msg}
    (h : handleVersion tag messageSize st = (.ok resp, st')) :
    IsError resp ∨ resp = .Rversion tag st'.1.negMessageSize (ascii "9P2000") := by
  rw [handleVersion] at h
  split at h
  · cases h
    exact .inl trivial
  · cases h
    exact .inr rfl

theorem keeps_sized_handleVersion (tag : UInt16) (messageSize : UInt32) :
    Keeps Sized (handleVersion tag messageSize : ServerM σ η Msg) := by
  intro st hst
  rw [handleVersion]
  split
  · exact hst
  · rfl

theorem keeps_sized (msg : Msg) : Keeps Sized (dispatch I msg) :=
  keeps_dispatch_of_fids I (fun _ _ h => h) (fun tag size _ _ => keeps_sized_handleVersion tag size)

theorem Serving.sized {max : UInt32} {s₀ s : σ} {srv : Server η} (h : Serving I max s₀ srv s) : Sized srv := by
  induction h with
  | start => rfl
  | @round srv srv' s s' msg resp received packed _ hdispatch ih =>
    have hsized := keeps_sized I msg ({ srv with inbuf := ⟨srv.inbuf.len, received⟩ }, s) ih
    rw [hdispatch] at hsized
    exact hsized

end Sizes

section Walks

variable {F : FileOps σ φ}

theorem walkErr_eq_ok {i : ℕ} {f' : Option φ} {wqids qids : List Qid} {e : GoError} {s s' : σ}
    (h : (walkErr i wqids e : SourceM σ (Option φ × List Qid)) s = (.ok (f', qids), s')) : qids = wqids := by
  rw [walkErr] at h
  split at h
  · cases h
  · cases h
    rfl

theorem length_walkLoop {i : ℕ} {f f' : Option φ} {names : List Bytes} {wqids qids : List Qid} {s s' : σ}
    (h : walkLoop F i f names wqids s = (.ok (f', qids), s')) : qids.length ≤ wqids.length + names.length := by
  induction names generalizing i f wqids s with
  | nil =>
    cases h
    exact Nat.le_add_right _ _
  | cons name names ih =>
    have hstep : ∀ {i f q s}, walkLoop F i f names (wqids ++ [q]) s = (.ok (f', qids), s') →
        qids.length ≤ wqids.length + (name :: names).length := by
      intro i f q s hrest
      have hlength := ih hrest
      rw [length_append, length_singleton] at hlength
      rw [length_cons]
      omega
    rw [walkLoop] at h
    split at h
    · cases h
    · split at h
      · obtain ⟨_, _, -, h⟩ := bind_eq_ok.mp h
        obtain ⟨_, _, -, h⟩ := bind_eq_ok.mp h
        obtain ⟨_, _, -, h⟩ := bind_eq_ok.mp h
        obtain ⟨_, _, -, hrest⟩ := bind_eq_ok.mp h
        exact hstep hrest
      · obtain ⟨_, _, -, h⟩ := bind_eq_ok.mp h
        obtain ⟨_, _, -, h⟩ := bind_eq_ok.mp h
        split at h
        · obtain ⟨_, _, -, h⟩ := bind_eq_ok.mp h
          obtain ⟨r, _, -, h⟩ := bind_eq_ok.mp h
          cases r with
          | error e =>
            dsimp only at h
            split at h
            · rw [walkErr_eq_ok h]
              exact Nat.le_add_right _ _
            · cases h
          | ok child => exact hstep h
        · rw [walkErr_eq_ok h]
          exact Nat.le_add_right _ _

end Walks

section Bounds

/-- The reply has room in `neg` bytes, and a buffer of its size is enough to pack it. -/
def Fitting (neg : UInt32) (resp : Msg) : Prop :=
  wireLen resp ≤ neg.toNat ∧
    ∀ (buf : Slice) mem, wireLen resp ≤ buf.len → ∃ out mem', packMsg buf resp mem = (.ok out, mem')

theorem fitting_of_bounded {neg : UInt32} {resp : Msg} (hlen : wireLen resp ≤ neg.toNat) (hm : Bounded resp)
    (hfits : Fits resp) : Fitting neg resp :=
  ⟨hlen, fun _ mem h => ⟨_, _, fills_msg hm hfits h mem⟩⟩

variable {tag : UInt16}

theorem fitting_walk {neg : UInt32} {qids : List Qid} (h : 9 + 13 * qids.length ≤ neg.toNat) :
    Fitting neg (.Rwalk tag qids) := by
  constructor
  · simp only [wireLen, headerSize, qidSize]
    omega
  · intro buf mem hlen
    exact ⟨_, _, fills_msg_of_body (length_walked tag qids) (fun _ => fills_walked) hlen mem⟩

theorem fitting_read {neg : UInt32} {data : Bytes} (h : 11 + data.length ≤ neg.toNat) :
    Fitting neg (.Rread tag data) := by
  have hneg := neg.toNat_lt
  refine fitting_of_bounded ?_ ?_ ?_
  · simp only [wireLen, headerSize]
    omega
  · simp only [Bounded]
    omega
  · simp only [Fits]
    omega

/-- A reply that has room in 64 bytes. -/
def Short (msg : Msg) : Prop := wireLen msg ≤ 64 ∧ Bounded msg ∧ Fits msg

theorem short_version (tag : UInt16) (size : UInt32) : Short (.Rversion tag size (ascii "9P2000")) := by
  have hlength : (ascii "9P2000").length = 6 := rfl
  refine ⟨?_, ?_, trivial⟩
  · simp [wireLen, headerSize, truncstrlen, u16, hlength]
  · simp [Bounded, hlength]

/-- A reply is an error or has room in `neg` bytes. -/
def Answers (neg : UInt32) (x : ServerM σ η Msg) : Prop :=
  ∀ st resp st', x st = (.ok resp, st') → IsError resp ∨ Fitting neg resp

variable {neg : UInt32} {x : ServerM σ η α}

theorem answers_error (tag : UInt16) (e : GoError) : Answers neg (pure (makeError tag e) : ServerM σ η Msg) :=
  returns_pure (.inl trivial)

theorem answers_pure {msg : Msg} (hmsg : Fitting neg msg) : Answers neg (pure msg : ServerM σ η Msg) :=
  returns_pure (.inr hmsg)

theorem Answers.bind {f : α → ServerM σ η Msg} (h : ∀ a, Answers neg (f a)) : Answers neg (x >>= f) := Returns.bind h

theorem Answers.orReply {k : α → ServerM σ η Msg}
    (hk : ∀ a, (∃ st st', x st = (.ok a, st')) → Answers neg (k a)) : Answers neg (orReply tag x k) :=
  Returns.orReply (fun _ => .inl trivial) hk

theorem Answers.withFid {fid : UInt32} {k : Option η → ServerM σ η Msg}
    (hk : ∀ fh, Answers neg (k fh)) : Answers neg (withFid tag fid k) :=
  Returns.withFid (fun _ => .inl trivial) hk

end Bounds

section Handlers

variable {I : Files σ φ η} {neg : UInt32} (hneg : 64 ≤ neg.toNat)
include hneg

theorem Short.fitting {msg : Msg} (h : Short msg) : Fitting neg msg :=
  fitting_of_bounded (h.1.trans hneg) h.2.1 h.2.2

theorem answers_handleAttach (tag : UInt16) (fid afid : UInt32) (aname : Bytes) :
    Answers neg (handleAttach I tag fid afid aname) := by
  refine handleAttach_returns I (fun _ => .inl trivial) fid afid aname (fun qid => .inr (Short.fitting hneg ?_))
  exact ⟨by simp [wireLen, headerSize, qidSize], trivial, trivial⟩

theorem answers_handleOpen (tag : UInt16) (fid : UInt32) (mode : UInt8) : Answers neg (handleOpen I tag fid mode) := by
  refine handleOpen_returns I (fun _ => .inl trivial) fid mode (fun qid iounit => .inr (Short.fitting hneg ?_))
  exact ⟨by simp [wireLen, headerSize, qidSize], trivial, trivial⟩

theorem answers_handleCreate (tag : UInt16) (fid : UInt32) (name : Bytes) (perm : UInt32) (mode : UInt8) :
    Answers neg (handleCreate I tag fid name perm mode) := by
  refine handleCreate_returns I (fun _ => .inl trivial) fid name perm mode (fun qid iounit => .inr ?_)
  exact Short.fitting hneg ⟨by simp [wireLen, headerSize, qidSize], trivial, trivial⟩

theorem answers_call {tag : UInt16} {y : SourceM σ α} {msg : α → Msg} (hshort : ∀ a, Short (msg a)) :
    Answers neg (orReply tag (call y) (fun a => pure (msg a)) : ServerM σ η Msg) :=
  Answers.orReply (fun a _ => answers_pure ((hshort a).fitting hneg))

theorem handleRead_fitting {tag : UInt16} {fid : UInt32} {offset : UInt64} {count : UInt32} {st st' : Server η × σ}
    {resp : Msg} (hst : st.1.negMessageSize = neg) (h : handleRead I tag fid offset count st = (.ok resp, st')) :
    IsError resp ∨ Fitting neg resp := by
  have hclamp : clamp neg count ≤ neg.toNat - 11 := by
    have hle : readOverhead ≤ neg := UInt32.le_iff_toNat_le.mpr (le_trans (by decide) hneg)
    rw [clamp, UInt32.toNat_sub_of_le _ _ hle]
    exact min_le_right _ _
  cases hfid : st.1.fids fid with
  | none =>
    rw [handleRead, withFid_of_none hfid] at h
    cases h
    exact .inl trivial
  | some fh =>
    rw [handleRead, withFid_of_some hfid] at h
    obtain ⟨srv, st₁, hget, h⟩ := bind_eq_ok.mp h
    cases hget
    rcases orReply_eq_ok h with ⟨e, -, -, rfl⟩ | ⟨⟨buf, n⟩, st₁, -, h⟩
    · exact .inl trivial
    · dsimp only at h
      split at h
      · cases h
        refine .inr (fitting_read ?_)
        have hlength : (buf.1.take n.toNat).length ≤ clamp neg count := by
          rw [length_take, buf.2, hst]
          exact min_le_right _ _
        omega
      · cases h

omit hneg in
theorem answers_handleWalk {start : η → SourceM σ (Option φ)} (hwalks : WalksFrom I start) (tag : UInt16)
    (fid newFid : UInt32) (names : List Bytes) (hnames : 9 + 13 * names.length ≤ neg.toNat) :
    Answers neg (handleWalk I tag fid newFid names) := by
  refine Answers.withFid (fun fh => Answers.orReply (fun walked hwalk => ?_))
  obtain ⟨f, wqids⟩ := walked
  have hlength : wqids.length ≤ names.length := by
    obtain ⟨st, st', hcall⟩ := hwalk
    obtain ⟨h, s₁, -, hwalk⟩ := bind_eq_ok.mp (call_eq_ok hcall).1
    rw [hwalks] at hwalk
    obtain ⟨f₀, s₂, -, hwalk⟩ := bind_eq_ok.mp hwalk
    have hloop := length_walkLoop hwalk
    rwa [length_nil, Nat.zero_add] at hloop
  have hreply : Fitting neg (.Rwalk tag wqids) := fitting_walk (by omega)
  cases f with
  | none => exact answers_pure hreply
  | some f =>
    refine Answers.orReply (fun newfh _ => ?_)
    dsimp only
    split
    · exact Answers.bind (fun _ => Answers.bind (fun _ => Answers.orReply (fun _ _ => answers_pure hreply)))
    · exact Answers.orReply (fun _ _ => answers_pure hreply)

end Handlers

section Runs

/-- A walk has so few names that a reply with a qid for each of them has room in `neg` bytes. The
reply to `Tstat` has strings of the implementation. -/
def Modest (neg : UInt32) : Msg → Prop
  | .Twalk _ _ _ names => 9 + 13 * names.length ≤ neg.toNat
  | .Tstat _ _ => False
  | _ => True

variable {I : Files σ φ η} {start : η → SourceM σ (Option φ)} (hwalks : WalksFrom I start)
include hwalks

theorem dispatch_fitting {msg resp : Msg} {st st' : Server η × σ} (hmsg : Modest st.1.negMessageSize msg)
    (h : dispatch I msg st = (.ok resp, st')) (hneg : 64 ≤ st'.1.negMessageSize.toNat) :
    IsError resp ∨ Fitting st'.1.negMessageSize resp := by
  by_cases hversion : ∃ tag size version, msg = .Tversion tag size version
  · obtain ⟨tag, size, version, rfl⟩ := hversion
    refine (handleVersion_eq_ok h).imp_right (fun hresp => ?_)
    rw [hresp]
    exact (short_version tag _).fitting hneg
  · rw [negMessageSize_eq I (fun tag size version h => hversion ⟨tag, size, version, h⟩) h] at hneg ⊢
    cases msg with
    | Tversion tag size version => exact absurd ⟨tag, size, version, rfl⟩ hversion
    | Tstat tag fid => exact hmsg.elim
    | Tattach tag fid afid uname aname => exact answers_handleAttach hneg tag fid afid aname st resp st' h
    | Twalk tag fid newFid names => exact answers_handleWalk hwalks tag fid newFid names hmsg st resp st' h
    | Topen tag fid mode => exact answers_handleOpen hneg tag fid mode st resp st' h
    | Tread tag fid offset count => exact handleRead_fitting hneg rfl h
    | Twrite tag fid offset data =>
      refine Answers.withFid (fun fh => answers_call hneg (fun n => ?_)) st resp st' h
      exact ⟨by simp [wireLen, headerSize], trivial, trivial⟩
    | Tclunk tag fid =>
      refine Answers.withFid (fun fh => Answers.bind (fun _ => answers_call hneg (fun _ => ?_))) st resp st' h
      exact ⟨by simp [wireLen, headerSize], trivial, trivial⟩
    | Tremove tag fid =>
      refine Answers.withFid (fun fh => Answers.bind (fun _ => answers_call hneg (fun _ => ?_))) st resp st' h
      exact ⟨by simp [wireLen, headerSize], trivial, trivial⟩
    | Twstat tag fid stat =>
      refine Answers.withFid (fun fh => ?_) st resp st' h
      split
      · exact answers_call hneg (fun _ => ⟨by simp [wireLen, headerSize], trivial, trivial⟩)
      · exact answers_error _ _
    | Tauth tag afid uname aname => exact answers_error _ _ st resp st' h
    | Tcreate tag fid name perm mode => exact answers_handleCreate hneg tag fid name perm mode st resp st' h
    | _ => cases h

/-- In every run of `Serve`, whatever was requested before: a modest request that has been read is
answered with an error, or `WriteMsg` finds room for the reply. -/
theorem replies_fit {ρ : Type} {read : ReadFn ρ} {max : UInt32} {c₀ c c₁ c₂ : Conn ρ σ η} {rounds : ℕ}
    {log : List (Msg × Msg)} {msg resp : Msg} (hstart : c₀.srv = startServe (newServer max))
    (hserve : serve I read rounds c₀ = (.ok log, c)) (hreceive : receive read c = (.ok msg, c₁))
    (hmsg : Modest c₁.srv.negMessageSize msg) (hhandle : handle I msg c₁ = (.ok resp, c₂))
    (hneg : 64 ≤ c₂.srv.negMessageSize.toNat) (hresp : ¬ IsError resp) :
    wireLen resp ≤ c₂.srv.negMessageSize.toNat ∧ ∃ c₃, reply resp c₂ = (.ok (), c₃) := by
  have hserving : Serving I max c₀.impl c.srv c.impl := by
    refine Serving.serve I read ?_ hserve
    rw [hstart]
    exact .start
  obtain rfl : (receive read c).2 = c₁ := congrArg Prod.snd hreceive
  have hsized : Sized (receive read c).2.srv := (Serving.sized I hserving : Sized c.srv)
  cases hrun : dispatch I msg ((receive read c).2.srv, (receive read c).2.impl) with
  | mk r st =>
    have hkept := keeps_sized I msg ((receive read c).2.srv, (receive read c).2.impl) hsized
    rw [handle, hrun] at hhandle
    rw [hrun] at hkept
    obtain rfl : r = .ok resp := congrArg Prod.fst hhandle
    obtain rfl : { (receive read c).2 with srv := st.1, impl := st.2 } = c₂ := congrArg Prod.snd hhandle
    obtain ⟨hlen, hpacks⟩ := (dispatch_fitting hwalks hmsg hrun hneg).resolve_left hresp
    refine ⟨hlen, ?_⟩
    obtain ⟨out, mem, hpack⟩ := hpacks st.1.outbuf.whole st.1.outbuf.mem (hlen.trans hkept.ge)
    simp only [reply, writeMsg, bind_of_ok hpack]
    exact ⟨_, rfl⟩

end Runs

section Received

variable {ρ : Type} {read : ReadFn ρ} {stream : ρ → Bytes} {Inv : ρ → Prop}

theorem readMsg_wire (hread : Delivers read stream Inv) {r : ρ} {m : Msg} {rest : Bytes} (buf : Slice) (mem : Memory)
    (hr : Inv r) (hstream : stream r = wire m ++ rest) (hm : Bounded m) (hfits : Fits m) (hlen : wireLen m ≤ buf.len)
    (hbuf : buf.len < 2 ^ 32) :
    ∃ r', readMsg read buf (r, mem) = (.ok m, (r', mem.write buf.off (wire m))) ∧ Inv r' ∧ stream r' = rest := by
  have hcap := buf.len_le
  have hwire : wire m = (leBytes 4 (wireLen m) ++ [(msgType m).toByte]) ++ body m := by
    rw [wire, append_assoc]
  have hlength := length_body hm
  generalize hhead : leBytes 4 (wireLen m) ++ [(msgType m).toByte] = head at hwire
  have hfive : head.length = 5 := by rw [← hhead]; simp
  rw [hwire, append_assoc] at hstream
  obtain ⟨r₁, hread₁, hr₁, hstream₁⟩ := readFull_yields_append hread hr hstream
  obtain ⟨r₂, hread₂, hr₂, hstream₂⟩ := readFull_yields_append hread hr₁ hstream₁
  rw [hfive] at hread₁
  have hbody : wireLen m - 5 = (body m).length := by omega
  have hcopy : copyTo buf 0 5 head mem = (.ok (), mem.write buf.off head) := fills_copyTo (by omega) mem
  have hsize : uint 4 buf 0 4 (mem.write buf.off head) = (.ok (wireLen m), mem.write buf.off head) := by
    refine (parses_uint (by omega) (by omega)).eval ?_ (Nat.add_zero buf.off)
    rw [← hhead]
    exact (Memory.read_append.mp Memory.read_write).1
  have hrest : copyTo buf 5 (wireLen m) (body m) (mem.write buf.off head) = (.ok (), mem.write buf.off (wire m)) := by
    rw [fills_copyTo (by omega), Memory.write_append (by omega), hwire]
  have hparse : (do unpackMsg (← slice buf 0 (wireLen m))) (mem.write buf.off (wire m)) =
      (.ok m, mem.write buf.off (wire m)) := by
    refine (bind_of_ok (slice_ok ⟨Nat.zero_le _, hlen.trans hcap⟩)).trans (parses_msg hm hfits ?_)
    rw [part_off, part_len, Nat.add_zero, Nat.sub_zero, ← length_wire hm]
    exact Memory.read_write
  refine ⟨r₂, ?_, hr₂, hstream₂⟩
  rw [readMsg, if_neg (by omega), bind_of_ok (onFirst_eq hread₁), bind_of_ok (onSecond_eq hcopy),
    bind_of_ok (onSecond_eq hsize), if_neg (by omega), if_neg (by rw [u32_of_lt hbuf]; omega), hbody,
    bind_of_ok (onFirst_eq hread₂), bind_of_ok (onSecond_eq hrest), onSecond_eq hparse]

variable {I : Files σ φ η} {c : Conn Bytes σ η} {m resp : Msg} {rest : Bytes}

theorem receive_wire (hsrc : c.src = wire m ++ rest) (hm : Bounded m) (hfits : Fits m)
    (hlen : wireLen m ≤ c.srv.inbuf.len) (hbuf : c.srv.inbuf.len < 2 ^ 32) :
    receive fileRead c = (.ok m, { c with
      src := rest
      srv := { c.srv with inbuf := ⟨c.srv.inbuf.len, c.srv.inbuf.mem.write 0 (wire m)⟩ } }) := by
  obtain ⟨src, hrun, -, hstream⟩ := readMsg_wire fileRead_delivers c.srv.inbuf.whole c.srv.inbuf.mem
    trivial hsrc hm hfits hlen hbuf
  obtain rfl : src = rest := hstream
  simp only [receive, hrun]
  rfl

theorem reply_wire (hm : Bounded resp) (hfits : Fits resp) (hlen : wireLen resp ≤ c.srv.outbuf.len) :
    reply resp c = (.ok (), { c with
      srv := { c.srv with outbuf := ⟨c.srv.outbuf.len, c.srv.outbuf.mem.write 0 (wire resp)⟩ }
      sent := c.sent ++ [wire resp] }) := by
  have hpack : packMsg c.srv.outbuf.whole resp c.srv.outbuf.mem = _ := fills_msg hm hfits hlen c.srv.outbuf.mem
  have hwrite : writeMsg c.srv.outbuf.whole resp c.srv.outbuf.mem =
      (.ok (wire resp), c.srv.outbuf.mem.write 0 (wire resp)) := by
    rw [writeMsg, bind_of_ok hpack]
    change (Except.ok ((c.srv.outbuf.mem.write 0 (wire resp)).read 0 (wireLen resp)), _) = _
    rw [← length_wire hm, Memory.read_write]
    rfl
  simp only [reply, hwrite]

theorem serveRound_wire {srv' : Server η} {s' : σ} (hsrc : c.src = wire m ++ rest) (hm : Bounded m) (hfits : Fits m)
    (hlen : wireLen m ≤ c.srv.inbuf.len) (hbuf : c.srv.inbuf.len < 2 ^ 32)
    (hrun : dispatch I m ({ c.srv with inbuf := ⟨c.srv.inbuf.len, c.srv.inbuf.mem.write 0 (wire m)⟩ }, c.impl) =
      (.ok resp, (srv', s')))
    (hm' : Bounded resp) (hfits' : Fits resp) (hlen' : wireLen resp ≤ srv'.outbuf.len) :
    serveRound I fileRead c = (.ok (m, resp), {
      src := rest
      srv := { srv' with outbuf := ⟨srv'.outbuf.len, srv'.outbuf.mem.write 0 (wire resp)⟩ }
      impl := s'
      sent := c.sent ++ [wire resp] }) := by
  have hhandle : handle I m (receive fileRead c).2 = (.ok resp, { c with src := rest, srv := srv', impl := s' }) := by
    simp only [handle, receive_wire hsrc hm hfits hlen hbuf, hrun]
  rw [receive_wire hsrc hm hfits hlen hbuf] at hhandle
  rw [serveRound, bind_of_ok (receive_wire hsrc hm hfits hlen hbuf), bind_of_ok hhandle,
    bind_of_ok (reply_wire hm' hfits' hlen')]
  rfl

end Received

section Instances

def deepTree : Files Unit ℕ ℕ :=
  treeFiles 0 (fun f => if f = 0 then none else some (f - 1)) (fun f _ => some (f + 1))
    (fun f => ⟨qtDir, 0, f.toUInt64⟩)

theorem walksFrom_deepTree : WalksFrom deepTree (fun f => pure (some f)) := fun _ _ _ _ _ => rfl

def attachRequest : Msg := .Tattach 1 0 noFid [] []

def attachReply : Msg := .Rattach 1 ⟨qtDir, 0, 0⟩

/-- A client that attaches and then walks as many levels down as there are names. -/
def walkConn (names : List Bytes) : Conn Bytes Unit ℕ where
  src := wire attachRequest ++ wire (.Twalk 2 0 1 names)
  srv := startServe (newServer 64)
  impl := ()
  sent := []

def attachedConn (names : List Bytes) : Conn Bytes Unit ℕ where
  src := wire (.Twalk 2 0 1 names)
  srv := {
    maxMessageSize := 64
    negMessageSize := 64
    fids := Function.update (fun _ => none) 0 (some (some 0))
    inbuf := ⟨64, (Buffer.new 64).mem.write 0 (wire attachRequest)⟩
    outbuf := ⟨64, (Buffer.new 64).mem.write 0 (wire attachReply)⟩ }
  impl := ()
  sent := [wire attachReply]

theorem round_attach (names : List Bytes) : serveRound deepTree fileRead (walkConn names) =
    (.ok (attachRequest, attachReply), attachedConn names) := by
  have hrequest : wireLen attachRequest ≤ 64 := by decide
  have hreply : wireLen attachReply ≤ 64 := by decide
  have hbounded : Bounded attachRequest := ⟨Nat.zero_le _, Nat.zero_le _⟩
  have hbuf : (walkConn names).srv.inbuf.len < 2 ^ 32 := by simp [walkConn, startServe, newServer, Buffer.new]
  have hrun : dispatch deepTree attachRequest _ = (.ok attachReply, _) :=
    (rfl : dispatch deepTree attachRequest ({ (walkConn names).srv with
      inbuf := ⟨64, (walkConn names).srv.inbuf.mem.write 0 (wire attachRequest)⟩ }, ()) = _)
  exact serveRound_wire (c := walkConn names) rfl hbounded (Nat.zero_le _) hrequest hbuf hrun trivial trivial hreply

theorem serve_attach (names : List Bytes) : serve deepTree fileRead 1 (walkConn names) =
    (.ok [(attachRequest, attachReply)], attachedConn names) := by
  rw [serve, bind_of_ok (round_attach names)]
  rfl

theorem receive_walk {names : List Bytes} (hm : Bounded (.Twalk 2 0 1 names)) (hfits : Fits (.Twalk 2 0 1 names))
    (hlen : wireLen (.Twalk 2 0 1 names) ≤ 64) :
    receive fileRead (attachedConn names) = (.ok (.Twalk 2 0 1 names), { attachedConn names with
      src := []
      srv := { (attachedConn names).srv with
        inbuf := ⟨64, (attachedConn names).srv.inbuf.mem.write 0 (wire (.Twalk 2 0 1 names))⟩ } }) :=
  receive_wire (append_nil _).symm hm hfits hlen (by simp [attachedConn])

/-- A walk of one name. -/
theorem replies_fit_walk : ∃ c₁ c₂ c₃,
    receive fileRead (attachedConn [ascii "a"]) = (.ok (.Twalk 2 0 1 [ascii "a"]), c₁) ∧
    handle deepTree (.Twalk 2 0 1 [ascii "a"]) c₁ = (.ok (.Rwalk 2 [⟨qtDir, 0, 0⟩]), c₂) ∧
    wireLen (.Rwalk 2 [⟨qtDir, 0, 0⟩]) ≤ c₂.srv.negMessageSize.toNat ∧
    reply (.Rwalk 2 [⟨qtDir, 0, 0⟩]) c₂ = (.ok (), c₃) := by
  have hm : Bounded (.Twalk 2 0 1 [ascii "a"]) := ⟨by decide, by decide⟩
  have hfits : Fits (.Twalk 2 0 1 [ascii "a"]) := by
    change _ < _
    decide
  have hreceive := receive_walk hm hfits (by decide)
  have hmodest : Modest 64 (.Twalk 2 0 1 [ascii "a"]) := by
    change _ ≤ _
    decide
  obtain ⟨hlen, c₃, hreply⟩ := replies_fit walksFrom_deepTree rfl (serve_attach _) hreceive hmodest
    (rfl : handle deepTree _ _ = (.ok (.Rwalk 2 [⟨qtDir, 0, 0⟩]), _)) (by decide) id
  exact ⟨_, _, c₃, hreceive, rfl, hlen, hreply⟩

/-- With a negotiated size of 64 bytes and a request of 32, the reply has 74. -/
theorem walk_reply_too_long : ∃ c₁ c₂ qids,
    serve deepTree fileRead 1 (walkConn (replicate 5 (ascii "a"))) =
      (.ok [(attachRequest, attachReply)], attachedConn (replicate 5 (ascii "a"))) ∧
    receive fileRead (attachedConn (replicate 5 (ascii "a"))) =
      (.ok (.Twalk 2 0 1 (replicate 5 (ascii "a"))), c₁) ∧
    handle deepTree (.Twalk 2 0 1 (replicate 5 (ascii "a"))) c₁ = (.ok (.Rwalk 2 qids), c₂) ∧
    c₂.srv.negMessageSize = 64 ∧ wireLen (.Rwalk 2 qids) = 74 ∧
    reply (.Rwalk 2 qids) c₂ = (.error errBuffTooSmall, c₂) := by
  have hm : Bounded (.Twalk 2 0 1 (replicate 5 (ascii "a"))) := ⟨by decide, by decide⟩
  have hfits : Fits (.Twalk 2 0 1 (replicate 5 (ascii "a"))) := by
    change _ < _
    decide
  have hreceive := receive_walk hm hfits (by decide)
  exact ⟨_, _, _, serve_attach _, hreceive, rfl, rfl, rfl, rfl⟩

end Instances

end Bpy.NineReplies
