import Bpy.NineReplies

/-!
# One reply for each request

`Serve` answers the requests of a connection one by one. A reply has the tag of its request. It
is an error, or its type is the one behind the type of the request.
-/
namespace Bpy.NineAnswers
open ByteWords ContentStore ByteSources ByteSlices NineMessages NineRoundTrip NineServer NineFids NineReplies

variable {σ φ η : Type}

/-- The reply to a request. A body starts with the tag. -/
structure Answering (msg resp : Msg) : Prop where
  tag : (body resp).take 2 = (body msg).take 2
  type : IsError resp ∨ (msgType resp).toByte = (msgType msg).toByte + 1

theorem answering_error {msg : Msg} {tag : UInt16} (h : (body msg).take 2 = leBytes 2 tag.toNat) (e : GoError) :
    Answering msg (makeError tag e) := ⟨h.symm, .inl trivial⟩

section Dispatch

variable (I : Files σ φ η)

theorem handleWalk_answers (tag : UInt16) (fid newFid : UInt32) (names : List Bytes) :
    Returns (Answering (.Twalk tag fid newFid names)) (handleWalk I tag fid newFid names) := by
  have herror : ∀ e, Answering (.Twalk tag fid newFid names) (makeError tag e) := answering_error rfl
  have hreply : ∀ qids, Answering (.Twalk tag fid newFid names) (.Rwalk tag qids) := fun _ => ⟨rfl, .inr rfl⟩
  refine Returns.withFid herror (fun fh => Returns.orReply herror ?_)
  rintro ⟨f, wqids⟩ -
  cases f with
  | none => exact returns_pure (hreply wqids)
  | some f =>
    apply Returns.orReply herror
    intro newfh _
    have hlast := Returns.orReply (x := addFid (σ := σ) newFid newfh) herror (fun _ _ => returns_pure (hreply wqids))
    dsimp only
    split
    · exact Returns.bind (fun _ => Returns.bind (fun _ => hlast))
    · exact hlast

theorem dispatch_answers (msg : Msg) : Returns (Answering msg) (dispatch I msg) := by
  cases msg with
  | Tversion tag size version =>
    rw [dispatch, handleVersion]
    split
    · exact returns_pure (answering_error rfl _)
    · exact Returns.bind (fun _ => Returns.bind (fun _ => returns_pure ⟨rfl, .inr rfl⟩))
  | Tattach tag fid afid uname aname =>
    exact handleAttach_returns I (answering_error rfl) fid afid aname (fun _ => ⟨rfl, .inr rfl⟩)
  | Twalk tag fid newFid names => exact handleWalk_answers I tag fid newFid names
  | Topen tag fid mode => exact handleOpen_returns I (answering_error rfl) fid mode (fun _ _ => ⟨rfl, .inr rfl⟩)
  | Tread tag fid offset count =>
    have herror : ∀ e, Answering (.Tread tag fid offset count) (makeError tag e) := answering_error rfl
    refine Returns.withFid herror (fun fh => Returns.bind (fun _ => Returns.orReply herror (fun x _ => ?_)))
    dsimp only
    split
    · exact returns_pure ⟨rfl, .inr rfl⟩
    · exact fun _ _ _ h => by cases h
  | Tclunk tag fid | Tremove tag fid =>
    refine Returns.withFid (answering_error rfl) (fun fh => Returns.bind (fun _ => ?_))
    exact Returns.orReply (answering_error rfl) (fun _ _ => returns_pure ⟨rfl, .inr rfl⟩)
  | Tstat tag fid | Twrite tag fid offset data =>
    refine Returns.withFid (answering_error rfl) (fun fh => ?_)
    exact Returns.orReply (answering_error rfl) (fun _ _ => returns_pure ⟨rfl, .inr rfl⟩)
  | Twstat tag fid stat =>
    apply Returns.withFid (answering_error rfl)
    intro fh
    split
    · exact Returns.orReply (answering_error rfl) (fun _ _ => returns_pure ⟨rfl, .inr rfl⟩)
    · exact returns_pure (answering_error rfl _)
  | Tauth tag afid uname aname => exact returns_pure (answering_error rfl _)
  | Tcreate tag fid name perm mode =>
    exact handleCreate_returns I (answering_error rfl) fid name perm mode (fun _ _ => ⟨rfl, .inr rfl⟩)
  | _ => exact fun _ _ _ h => by cases h

variable {ρ : Type} (read : ReadFn ρ) {c c' : Conn ρ σ η}

/-- The bytes are sent for the reply to the request. -/
def Sends (round : Msg × Msg) (bytes : Bytes) : Prop :=
  Answering round.1 round.2 ∧ ∃ buf mem mem', writeMsg buf round.2 mem = (.ok bytes, mem')

theorem serveRound_sends {round : Msg × Msg} (h : serveRound I read c = (.ok round, c')) :
    ∃ bytes, c'.sent = c.sent ++ [bytes] ∧ Sends round bytes := by
  obtain ⟨msg, c₁, hreceive, h⟩ := bind_eq_ok.mp h
  obtain ⟨resp, c₂, hhandle, h⟩ := bind_eq_ok.mp h
  obtain ⟨_, c₃, hreply, h⟩ := bind_eq_ok.mp h
  cases h
  have hsent₁ : c₁.sent = c.sent := (congrArg (fun x => x.2.sent) hreceive).symm
  have hsent₂ : c₂.sent = c₁.sent := (congrArg (fun x => x.2.sent) hhandle).symm
  have hdispatch : (dispatch I msg (c₁.srv, c₁.impl)).1 = .ok resp := congrArg Prod.fst hhandle
  have hanswer := dispatch_answers I msg (c₁.srv, c₁.impl) resp _ (Prod.ext hdispatch rfl)
  simp only [reply] at hreply
  split at hreply
  · cases hreply
  next bytes hbytes =>
    cases hreply
    exact ⟨bytes, by rw [hsent₂, hsent₁], hanswer, _, _, _, Prod.ext hbytes rfl⟩

/-- `Serve` sends one reply for each round, in the order of the requests. -/
theorem serve_replies_in_order {rounds : ℕ} {log : List (Msg × Msg)} (h : serve I read rounds c = (.ok log, c')) :
    log.length = rounds ∧ ∃ sent, c'.sent = c.sent ++ sent ∧ List.Forall₂ Sends log sent := by
  induction rounds generalizing c log with
  | zero =>
    cases h
    exact ⟨rfl, [], (List.append_nil _).symm, .nil⟩
  | succ rounds ih =>
    obtain ⟨first, c₁, hround, h⟩ := bind_eq_ok.mp h
    obtain ⟨rest, c₂, hrest, h⟩ := bind_eq_ok.mp h
    cases h
    obtain ⟨bytes, hbytes, hsends⟩ := serveRound_sends I read hround
    obtain ⟨hlength, sent, hsent, hall⟩ := ih hrest
    refine ⟨by rw [List.length_cons, hlength], bytes :: sent, ?_, .cons hsends hall⟩
    rw [hsent, hbytes, List.append_assoc]
    rfl

/-- An attach, and a walk of one name. -/
def twoRounds : List (Msg × Msg) :=
  [(attachRequest, attachReply), (.Twalk 2 0 1 [ascii "a"], .Rwalk 2 [⟨qtDir, 0, 0⟩])]

theorem serve_replies_in_order_walk : ∃ c, serve deepTree fileRead 2 (walkConn [ascii "a"]) = (.ok twoRounds, c) ∧
    ∃ sent, c.sent = (walkConn [ascii "a"]).sent ++ sent ∧ List.Forall₂ Sends twoRounds sent := by
  have hfits : Fits (.Twalk 2 0 1 [ascii "a"]) := by
    change _ < _
    decide
  have hlen : wireLen (.Rwalk 2 [⟨qtDir, 0, 0⟩]) ≤ 64 := by decide
  have hrun : dispatch deepTree (.Twalk 2 0 1 [ascii "a"]) _ = (.ok (.Rwalk 2 [⟨qtDir, 0, 0⟩]), _) :=
    (rfl : dispatch deepTree _ ({ (attachedConn [ascii "a"]).srv with
      inbuf := ⟨64, (attachedConn [ascii "a"]).srv.inbuf.mem.write 0 (wire (.Twalk 2 0 1 [ascii "a"]))⟩ }, ()) = _)
  obtain ⟨c, hround⟩ : ∃ c, serveRound deepTree fileRead (attachedConn [ascii "a"]) =
      (.ok (.Twalk 2 0 1 [ascii "a"], .Rwalk 2 [⟨qtDir, 0, 0⟩]), c) :=
    ⟨_, serveRound_wire (List.append_nil _).symm ⟨by decide, by decide⟩ hfits (by decide) (by simp [attachedConn]) hrun
      (Nat.succ_le_succ (Nat.zero_le _)) trivial hlen⟩
  have hwalk : serve deepTree fileRead 1 (attachedConn [ascii "a"]) = (.ok twoRounds.tail, c) := by
    rw [serve, bind_of_ok hround]
    rfl
  have hserve : serve deepTree fileRead 2 (walkConn [ascii "a"]) = (.ok twoRounds, c) := by
    rw [serve, bind_of_ok (round_attach _), bind_of_ok hwalk]
    rfl
  exact ⟨c, hserve, (serve_replies_in_order deepTree fileRead hserve).2⟩

end Dispatch

end Bpy.NineAnswers
