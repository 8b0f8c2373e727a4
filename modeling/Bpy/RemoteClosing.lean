import Bpy.RemoteCalls

/-!
# `Close` and the calls in progress

`Close` closes the channels of the calls in progress and leaves them in the map. The reader
takes a message from the connection outside of the lock, so it may then still send on one
of them.
-/
namespace Bpy.RemoteClosing
open ByteWords ContentStore RemoteMessages Interleaving RemoteClient RemoteProtocol RemoteCalls Function

/-- A send on a closed channel, or a second close of a channel. -/
def crashes : ClientEvent → Bool
  | .act _ _ (.deliver _ _) (.error _) => true
  | .act _ _ .close (.error _) => true
  | _ => false

/-- The message that the reader has decoded and not yet delivered. -/
def inHand : List ClientEvent → Option Message
  | [] => none
  | .act _ _ (.readBody _) (.ok bytes) :: _ => (unpackMessage bytes).toOption
  | .act _ _ (.deliver _ _) _ :: _ => none
  | .act _ _ .readHead _ :: _ => none
  | _ :: past => inHand past

/-- `Close` does not come between the decoding of a message and its delivery to a call that is
in progress, and nothing is read from a connection that has been closed. -/
def Timely (w : World) (past : List ClientEvent) : ClientEvent → Prop
  | .act _ _ .close _ => w.client.closed = true ∨
      ∀ m ∈ inHand past, w.client.calls.lookup (getMessageId m) = none
  | .act _ _ (.readBody _) (.ok _) => w.client.closed = false
  | _ => True

instance (w : World) (past : List ClientEvent) (ev : ClientEvent) : Decidable (Timely w past ev) := by
  unfold Timely
  split <;> infer_instance

/-- No message that the reader holds is for a call with a closed channel. -/
structure Safe (phases : ℕ → Option (Op × Phase)) (w : World) (past : List ClientEvent) : Prop where
  holding : ∀ {i bytes m}, part reads phases i = some (.holding bytes) → unpackMessage bytes = .ok m →
    inHand past = some m
  stale : ∀ {m}, w.client.closed = true → inHand past = some m → w.client.calls.lookup (getMessageId m) = none
  quiet : ∀ ev ∈ past, crashes ev = false

variable {phases phases' : ℕ → Option (Op × Phase)} {w w' : World} {past : List ClientEvent} {ev : ClientEvent}
  {i : ℕ} {op : Op} {c : Choice}

theorem Safe.congr (h : Safe phases w past) (hreads : part reads phases' = part reads phases)
    (hclosed : w'.client.closed = w.client.closed)
    (hcalls : ∀ mid, w.client.calls.lookup mid = none → w.client.closed = true → w'.client.calls.lookup mid = none)
    (hev : inHand (ev :: past) = inHand past) (hcrash : crashes ev = false) : Safe phases' w' (ev :: past) where
  holding hi hm := by
    rw [hreads] at hi
    rw [hev]
    exact h.holding hi hm
  stale hclosed' hm := by
    rw [hclosed] at hclosed'
    rw [hev] at hm
    exact hcalls _ (h.stale hclosed' hm) hclosed'
  quiet ev' hmem := by
    rcases List.mem_cons.mp hmem with rfl | hmem
    · exact hcrash
    · exact h.quiet ev' hmem

variable {slot : ℕ → Option (ℕ × UInt16)} {client : Client} {maxsz : UInt32} {ph : Phase} {q : Request}

theorem nodup_chans (h : Registered slot client past) : (client.calls.map Prod.snd).Nodup := by
  apply List.Nodup.map_on _ (List.Nodup.of_map _ h.keys)
  intro x hx y hy hxy
  obtain ⟨mid, ch⟩ := x
  obtain ⟨mid', ch'⟩ := y
  obtain rfl : ch = ch' := hxy
  obtain ⟨i, hi⟩ := h.owner hx
  obtain ⟨j, hj⟩ := h.owner hy
  obtain rfl := h.apart hi hj
  rw [hi] at hj
  cases hj
  rfl

theorem close_ok (h : Registered slot client past) : client.close.1 = .ok () := by
  rw [Client.close]
  split
  · rfl
  · next hopen =>
    rw [Bool.not_eq_true] at hopen
    rw [if_neg]
    intro hany
    rw [Bool.or_eq_true] at hany
    rcases hany with hany | hany
    · obtain ⟨kv, hkv, hclosed⟩ := List.any_eq_true.mp hany
      rw [h.closing (show (kv.1, kv.2) ∈ client.calls from hkv), hopen] at hclosed
      cases hclosed
    · rw [decide_eq_true (nodup_chans h)] at hany
      cases hany

theorem Safe.neutral {r : Response q} (h : Safe phases w past) (hi : phases i = some (op, ph)) (hq : Neutral q)
    (hallows : allows maxsz ph q) (hact : act maxsz c i q w = some (r, w')) :
    Safe (update phases i (some (op, next ph q r))) w' (.act i c q r :: past) := by
  have hsame := same_of_neutral hq hact
  have hreader : ¬ OfReader q := by cases q <;> first | exact id | cases hq
  have hev : inHand (.act i c q r :: past) = inHand past ∧ crashes (.act i c q r) = false := by
    cases q <;> first | exact ⟨rfl, rfl⟩ | cases hq
  refine h.congr (part_update_same hi (reads_next hallows hreader r)) hsame.closed ?_ hev.1 hev.2
  intro mid hlookup _
  rw [hsame.calls]
  exact hlookup

theorem Safe.read {st st' : Reading} (hinv : Inv phases w past) (h : Safe phases w past)
    (hi : phases i = some (op, .reading st))
    (hholding : ∀ bytes m, st' = .holding bytes → unpackMessage bytes = .ok m → inHand (ev :: past) = some m)
    (hstale : ∀ m, w'.client.closed = true → inHand (ev :: past) = some m →
      w'.client.calls.lookup (getMessageId m) = none)
    (hcrash : crashes ev = false) :
    Safe (update phases i (some (op, .reading st'))) w' (ev :: past) where
  holding hj hm := hholding _ _ (hinv.reads_update hi hj).2.symm hm
  stale := hstale _
  quiet ev' hmem := by
    rcases List.mem_cons.mp hmem with rfl | hmem
    · exact hcrash
    · exact h.quiet ev' hmem

theorem deliver_ok {bytes : Bytes} {msg : Message} {r : Except GoError Unit}
    (hinv : Inv phases w past) (h : Safe phases w past) (hi : phases i = some (op, .reading (.holding bytes)))
    (hmsg : unpackMessage bytes = .ok msg)
    (hdeliver : w.client.deliver (getMessageId msg) (held msg) = some (r, client)) : r = .ok () := by
  rw [Client.deliver] at hdeliver
  split at hdeliver
  · cases hdeliver
    rfl
  · next ch hlookup =>
    split at hdeliver
    · next hclosed =>
      rw [hinv.registered.closing (mem_of_lookup hlookup)] at hclosed
      rw [h.stale hclosed (h.holding (part_of_phase hi) hmsg)] at hlookup
      cases hlookup
    · split at hdeliver <;> cases hdeliver
      rfl

theorem safe_act {r : Response q} (hinv : Inv phases w past) (h : Safe phases w past) (hi : phases i = some (op, ph))
    (hallows : allows maxsz ph q) (hact : act maxsz c i q w = some (r, w')) (hok : Timely w past (.act i c q r)) :
    Safe (update phases i (some (op, next ph q r))) w' (.act i c q r :: past) := by
  have hreads (hq : ¬ OfReader q) : part reads (update phases i (some (op, next ph q r))) =
      part reads phases := part_update_same hi (reads_next hallows hq r)
  cases q with
  | newCall =>
    obtain ⟨client, hnew, rfl⟩ := act_newCall hact
    cases r with
    | ok x =>
      obtain ⟨mid, -, -, hopen, -, rfl⟩ := newCall_ok hnew
      refine h.congr (hreads id) rfl ?_ rfl rfl
      intro mid' _ hclosed
      rw [hopen] at hclosed
      cases hclosed
    | error e =>
      obtain rfl := newCall_error hnew
      exact h.congr (hreads id) rfl (fun _ hlookup _ => hlookup) rfl rfl
  | deleteCall mid =>
    cases hact
    refine h.congr (hreads id) rfl ?_ rfl rfl
    intro mid' hlookup _
    change (delete w.client.calls mid).lookup mid' = none
    rw [lookup_delete, hlookup, ite_self]
  | writeMessage m =>
    have hclient := (writeMessage_client hact).1
    exact h.congr (hreads id) (by rw [hclient]) (fun _ hlookup _ => by rw [hclient]; exact hlookup) rfl rfl
  | park ch =>
    cases hact
    exact h.congr (hreads id) rfl (fun _ hlookup _ => hlookup) rfl rfl
  | receive ch =>
    obtain ⟨hrec, rfl⟩ := act_receive hact
    exact h.congr (hreads id) rfl (fun _ hlookup _ => hlookup) rfl rfl
  | close =>
    cases hact
    have hcalls : w.client.close.2.calls = w.client.calls := by
      rcases close_cases w.client with hsame | ⟨-, hclose⟩
      · rw [hsame]
      · rw [hclose]
    refine ⟨?_, ?_, ?_⟩
    · intro j bytes m hj hm
      rw [hreads id] at hj
      exact h.holding hj hm
    · intro m _ hm
      change w.client.close.2.calls.lookup (getMessageId m) = none
      rw [hcalls]
      rcases hok with hclosed | hnone
      · exact h.stale hclosed hm
      · exact hnone m hm
    · intro ev hev
      rcases List.mem_cons.mp hev with rfl | hev
      · rw [close_ok hinv.registered]
        rfl
      · exact h.quiet ev hev
  | readHead =>
    have hcrash : crashes (.act i c .readHead r) = false := rfl
    rcases hallows with rfl | ⟨bytes, rfl⟩ <;> cases r <;> exact h.read hinv hi (by simp) (fun _ _ h => by cases h) hcrash
  | readBody sz =>
    obtain ⟨head, rfl, rfl, -⟩ := hallows
    have hsame := sameCalls_readFull hact
    cases r with
    | error e =>
      refine h.read hinv hi (by simp) ?_ rfl
      intro m hclosed hm
      rw [hsame.closed] at hclosed
      rw [hsame.calls]
      exact h.stale hclosed hm
    | ok bytes =>
      refine h.read hinv hi ?_ ?_ rfl
      · intro bytes' m hbytes hm
        cases hbytes
        change (unpackMessage bytes).toOption = some m
        rw [hm]
        rfl
      · intro m hclosed _
        rw [hsame.closed, show w.client.closed = false from hok] at hclosed
        cases hclosed
  | deliver mid m =>
    obtain ⟨bytes, msg, rfl, hmsg, rfl, rfl⟩ := hallows
    obtain ⟨client, hdeliver, rfl⟩ := act_deliver hact
    obtain rfl := deliver_ok hinv h hi hmsg hdeliver
    exact h.read hinv hi (by simp) (fun _ _ h => by cases h) rfl
  | _ => exact h.neutral hi trivial hallows hact

/-- `Close` at the right times: no reply is sent on a closed channel, and no channel is closed
twice. -/
theorem close_safe {maxsz : UInt32} {rule : Message → Bool → Message → Bool} {rounds : ℕ} {ls : List ClientLabel}
    {p : Pool Op Request Response Choice ServerStep Outcome World}
    (hok : Careful (system maxsz rule) Timely ls (attached maxsz rounds))
    (hrun : run (system maxsz rule) ls (attached maxsz rounds) = some p) : ∀ ev ∈ p.past, crashes ev = false := by
  have hsafe : Extends maxsz rule Timely Safe := by
    refine ⟨?_, safe_act, ?_⟩
    · intro phases w past i op _ h hi hop _
      rw [hop]
      exact h.congr (part_start hi rfl) rfl (fun _ hlookup _ => hlookup) rfl rfl
    · intro phases w past e w' _ h henv _
      obtain ⟨inbox, unanswered, rfl⟩ := serve_client henv
      exact h.congr rfl rfl (fun _ hlookup _ => hlookup) rfl rfl
  have hinit : Safe (attachedPhases rounds) (World.init maxsz) [] := by
    refine ⟨?_, ?_, ?_⟩
    · intro i bytes m hi
      rw [part, attachedPhases] at hi
      split at hi <;> cases hi
    · intro m _ hm
      cases hm
    · intro ev hev
      cases hev
  obtain ⟨phases, -, -, hsafe⟩ := hsafe.of_run hinit hok hrun
  exact hsafe.quiet

/-- A call that ends, and then the client is closed. -/
theorem close_safe_getRoot : ∃ p,
    run (system 100 fun _ _ _ => true) (getRootRun ++ [.start 2 .close, .act 2 .go]) (attached 100 2) = some p ∧
      ∀ ev ∈ p.past, crashes ev = false := by
  have hsome : (run (system 100 fun _ _ _ => true) (getRootRun ++ [.start 2 .close, .act 2 .go])
      (attached 100 2)).isSome = true := by decide +kernel
  have hchecks : checks (system 100 fun _ _ _ => true) Timely (getRootRun ++ [.start 2 .close, .act 2 .go])
      (attached 100 2) = true := by decide +kernel
  obtain ⟨p, hp⟩ := Option.isSome_iff_exists.mp hsome
  exact ⟨p, hp, close_safe (careful_of_checks hchecks) hp⟩

/-- `Close` comes after the reader has decoded the answer to a call and before the answer is
delivered. -/
theorem close_before_delivery : ((run (system 100 fun _ _ _ => true)
    (getRootRun.take 7 ++ [.start 2 .close, .act 2 .go, .act 0 .go]) (attached 100 2)).any
      fun p => p.past.any crashes) = true := by
  decide +kernel

end Bpy.RemoteClosing
