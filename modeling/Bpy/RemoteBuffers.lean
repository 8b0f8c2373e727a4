import Bpy.RemoteCalls

/-!
# The receive buffer

`UnpackMessage` leaves the `Data` of an `RReadAt` in the receive buffer, and `File.Read`
copies it after its call is over. Meanwhile the reader may read the next message into the
same buffer. If it waits for the copy, every `File.Read` returns the bytes that the server
has sent for it.
-/
namespace Bpy.RemoteBuffers
open ByteWords ContentStore RemoteMessages RemoteMessageRoundTrip Interleaving RemoteClient RemoteProtocol Function
  RemoteCalls
open List

section Load

/-- The value that a field of a held message has as long as the buffer keeps its bytes. -/
def load (buf : Bytes) : (k : Kind) → Ref k → k.Value
  | .bool, v => v
  | .uint16, v => v
  | .uint32, v => v
  | .uint64, v => v
  | .string, str => str
  | .slice, s => s.load buf

def loadAll (buf : Bytes) : (ks : List Kind) → Refs ks → Values ks
  | [], _ => ()
  | k :: ks, (v, vs) => (load buf k v, loadAll buf ks vs)

theorem load_refer {k : Kind} {v : k.Value} {buf rest : Bytes} {off : ℕ}
    (h : unpackField k (buf.drop off) = .ok (v, rest)) : load buf k (refer k off v) = v := by
  cases k with
  | slice =>
    obtain ⟨a, tail, hlen, hbuf, hv⟩ := bind_cut_eq_ok h
    obtain ⟨-, rfl⟩ := cut_eq_ok hv
    change ((buf.drop (off + 4)).take v.length) = v
    rw [← drop_drop, hbuf, List.drop_left' hlen, take_left]
  | _ => rfl

theorem loadAll_referAll {ks : List Kind} {vs : Values ks} {buf : Bytes} {off : ℕ}
    (h : unpackFields ks (buf.drop off) = .ok vs) : loadAll buf ks (referAll ks off vs) = vs := by
  induction ks generalizing off with
  | nil => rfl
  | cons k ks ih =>
    obtain ⟨v, vs⟩ := vs
    rw [unpackFields] at h
    split at h
    · cases h
    · next v' rest hfield =>
      split at h
      · cases h
      · next vs' hfields =>
        cases h
        obtain ⟨bytes, hbytes, hlen, -⟩ := unpackField_spec hfield
        have hrest : rest = buf.drop (off + fieldSize k v) := by
          rw [← drop_drop, hbytes, List.drop_left' hlen]
        rw [hrest] at hfields
        change (load buf k (refer k off v), loadAll buf ks (referAll ks (off + fieldSize k v) vs)) = (v, vs)
        rw [load_refer hfield, ih hfields]

theorem unpackFields_of_unpackMessage {m : Message} {bytes : Bytes} (h : unpackMessage bytes = .ok m) :
    unpackFields m.type.kinds (bytes.drop 5) = .ok m.vals := by
  rw [unpackMessage] at h
  split at h
  · cases h
  · split at h
    · cases h
    · split at h
      · cases h
      · next hvals =>
        cases h
        exact hvals

theorem load_data {mid : UInt16} {data bytes : Bytes} (h : frame ⟨.RReadAt, (mid, data, ())⟩ = some bytes) :
    (dataOf (held ⟨.RReadAt, (mid, data, ())⟩)).load bytes = data ∧
      (dataOf (held ⟨.RReadAt, (mid, data, ())⟩)).off + data.length = bytes.length := by
  obtain ⟨head, body, -, -, -, hunpack⟩ := frame_spec h
  refine ⟨?_, ?_⟩
  · have hload := loadAll_referAll (unpackFields_of_unpackMessage hunpack)
    exact congrArg (fun vs : Values MessageType.RReadAt.kinds => vs.2.1) hload
  · rw [(unpackMessage_spec 0 hunpack).1]
    change 5 + 2 + 4 + data.length = 5 + (2 + (4 + data.length + 0))
    omega

theorem load_of_take {s : Slice} {buf front : Bytes} (hfront : buf.take front.length = front)
    (hs : s.off + s.len ≤ front.length) : s.load buf = s.load front := by
  have hdrop : front.drop s.off = (buf.drop s.off).take (front.length - s.off) := by
    rw [← drop_take, hfront]
  rw [Slice.load, Slice.load, hdrop, take_take, Nat.min_eq_left (by omega)]

end Load

section Condition

/-- The data of an `RReadAt` has been delivered to a call and not been copied since. -/
def pendingCopy : List ClientEvent → Bool
  | [] => false
  | .act _ _ (.copyData _) _ :: _ => false
  | .act _ _ (.deliver mid m) _ :: past =>
    (decide (m.type = .RReadAt) && (dataOf m).len != 0 && ((underway past).map Prod.snd).contains mid) ||
      pendingCopy past
  | _ :: past => pendingCopy past

/-- The reader does not read into the buffer while there is data to be copied out of it. -/
def Patient (_ : World) (past : List ClientEvent) : ClientEvent → Prop
  | .act _ _ .readHead _ => pendingCopy past = false
  | .act _ _ (.readBody _) _ => pendingCopy past = false
  | _ => True

instance (w : World) (past : List ClientEvent) (ev : ClientEvent) : Decidable (Patient w past ev) := by
  unfold Patient
  split <;> infer_instance

/-- An answer for a `File.Read` has no more data than the buffer of the caller holds. -/
def fits : ClientEvent → ClientEvent → Bool
  | .env (.answer i m), .start j (.fileRead _ _ len) => i != j || decide ((dataOf (held m)).len ≤ len)
  | _, _ => true

def Fitting (past : List ClientEvent) : Prop := ∀ ev ∈ past, ∀ ev' ∈ past, fits ev ev' = true

instance (past : List ClientEvent) : Decidable (Fitting past) := by
  unfold Fitting
  infer_instance

theorem Fitting.len_le {past : List ClientEvent} (h : Fitting past) {i f len : ℕ} {m : Message} {fid : UInt32}
    (hm : .env (.answer i m) ∈ past) (hi : .start i (.fileRead f fid len) ∈ past) : (dataOf (held m)).len ≤ len := by
  have hfits := h _ hm _ hi
  simpa [fits] using hfits

end Condition

section Kept

/-- The message that a call has received and whose data is not yet copied. -/
def uncopied : Phase → Option Held
  | .calling _ _ (.over resp) => resp
  | .returned resp => resp
  | _ => none

/-- What `File.Read` has copied. -/
def copies : Phase → Option (Held × Slice × Bytes)
  | .copied resp s data => some (resp, s, data)
  | _ => none

/-- The thread has been handed an `RReadAt` with data and has not yet copied the data. -/
def Uncopied (phases : ℕ → Option (Op × Phase)) (w : World) (i : ℕ) (resp : Held) : Prop :=
  resp.type = .RReadAt ∧ (dataOf resp).len ≠ 0 ∧
    ((∃ ch mid, part waits phases i = some (ch, mid) ∧ (w.client.chans ch).got = some resp) ∨
      part uncopied phases i = some resp)

/-- The message is what the server has produced for the thread, and `front` is its encoding. -/
def Source (past : List ClientEvent) (i : ℕ) (resp : Held) (front : Bytes) : Prop :=
  ∃ m, .env (.answer i m) ∈ past ∧ resp = held m ∧ frame m = some front

/-- The reader is in the middle of a message. -/
def Reading.busy : Reading → Prop
  | .headed _ => True
  | .holding _ => True
  | _ => False

/-- The bytes that are to be copied are still in the buffer. -/
structure Kept (phases : ℕ → Option (Op × Phase)) (w : World) (past : List ClientEvent) : Prop where
  pending : ∀ {i resp}, Uncopied phases w i resp → pendingCopy past = true
  intact : ∀ {i resp}, Uncopied phases w i resp → ∃ front, Source past i resp front ∧
    w.client.rBuf.take front.length = front
  single : ∀ {i j resp resp'}, Uncopied phases w i resp → Uncopied phases w j resp' → i = j
  reading : ∀ {i st}, part reads phases i = some st → Reading.busy st → pendingCopy past = false
  copied : ∀ {i resp s data}, part copies phases i = some (resp, s, data) → resp.type = .RReadAt ∧
    ∃ front, Source past i resp front ∧ data = s.load front
  started : ∀ {i op ph}, phases i = some (op, ph) → (∀ n, op ≠ .readMessages n) → .start i op ∈ past

variable {phases phases' : ℕ → Option (Op × Phase)} {w w' : World} {past : List ClientEvent} {ev : ClientEvent}
  {i : ℕ} {op : Op} {ph : Phase} {c : Choice} {maxsz : UInt32}

variable {resp : Held} {ph' : Phase} {q : Request}

theorem Source.mono {front : Bytes} (h : Source past i resp front) (ev : ClientEvent) :
    Source (ev :: past) i resp front := by
  obtain ⟨m, hm, hresp⟩ := h
  exact ⟨m, mem_cons_of_mem _ hm, hresp⟩

theorem started_update
    (h : ∀ {i op ph}, phases i = some (op, ph) → (∀ n, op ≠ .readMessages n) → (.start i op : ClientEvent) ∈ past)
    (hi : phases i = some (op, ph)) {j : ℕ} {op' : Op} {ph'' : Phase}
    (hj : update phases i (some (op, ph')) j = some (op', ph'')) (hne : ∀ n, op' ≠ .readMessages n) :
    .start j op' ∈ ev :: past := by
  by_cases hji : j = i
  · subst hji
    rw [update_self] at hj
    cases hj
    exact mem_cons_of_mem _ (h hi hne)
  · rw [update_of_ne hji] at hj
    exact mem_cons_of_mem _ (h hj hne)

theorem Kept.congr (h : Kept phases w past)
    (huncopied : ∀ {i resp}, Uncopied phases' w' i resp → Uncopied phases w i resp)
    (hbuf : w'.client.rBuf = w.client.rBuf) (hreads : part reads phases' = part reads phases)
    (hcopies : part copies phases' = part copies phases)
    (hstarted : ∀ {i op ph}, phases' i = some (op, ph) → (∀ n, op ≠ .readMessages n) → .start i op ∈ ev :: past)
    (hev : pendingCopy (ev :: past) = pendingCopy past) : Kept phases' w' (ev :: past) where
  pending hi := by
    rw [hev]
    exact h.pending (huncopied hi)
  intact hi := by
    obtain ⟨front, hsource, hfront⟩ := h.intact (huncopied hi)
    rw [hbuf]
    exact ⟨front, hsource.mono ev, hfront⟩
  single hi hj := h.single (huncopied hi) (huncopied hj)
  reading hi hst := by
    rw [hreads] at hi
    rw [hev]
    exact h.reading hi hst
  copied hi := by
    rw [hcopies] at hi
    obtain ⟨htype, front, hsource, hdata⟩ := h.copied hi
    exact ⟨htype, front, hsource.mono ev, hdata⟩
  started := hstarted

theorem Kept.step (h : Kept phases w past) (hi : phases i = some (op, ph))
    (huncopied : ∀ {j resp}, Uncopied (update phases i (some (op, ph'))) w' j resp → Uncopied phases w j resp)
    (hbuf : w'.client.rBuf = w.client.rBuf) (hreads : reads ph' = reads ph) (hcopies : copies ph' = copies ph)
    (hev : pendingCopy (ev :: past) = pendingCopy past) : Kept (update phases i (some (op, ph'))) w' (ev :: past) :=
  h.congr huncopied hbuf (part_update_same hi hreads) (part_update_same hi hcopies) (started_update h.started hi) hev

theorem uncopied_congr (hwaits : part waits phases' = part waits phases)
    (huncopied : part uncopied phases' = part uncopied phases)
    (hgot : ∀ ch, (w'.client.chans ch).got = (w.client.chans ch).got) (h : Uncopied phases' w' i resp) :
    Uncopied phases w i resp := by
  obtain ⟨htype, hlen, hi⟩ := h
  refine ⟨htype, hlen, ?_⟩
  rcases hi with ⟨ch, mid, hch, hresp⟩ | hi
  · rw [hwaits] at hch
    rw [hgot] at hresp
    exact Or.inl ⟨ch, mid, hch, hresp⟩
  · rw [huncopied] at hi
    exact Or.inr hi

theorem Kept.neutral {r : Response q} (h : Kept phases w past) (hi : phases i = some (op, ph))
    (hq : Neutral q) (hcopy : ∀ s, q ≠ .copyData s) (hact : act maxsz c i q w = some (r, w')) :
    Kept (update phases i (some (op, next ph q r))) w' (.act i c q r :: past) := by
  have hsame := same_of_neutral hq hact
  have hnext : next ph q r = ph ∧ pendingCopy (.act i c q r :: past) = pendingCopy past := by
    cases q <;> first | exact ⟨rfl, rfl⟩ | exact absurd rfl (hcopy _) | cases hq
  rw [hnext.1]
  refine h.step hi ?_ hsame.rBuf rfl rfl hnext.2
  exact uncopied_congr (part_update_same hi rfl) (part_update_same hi rfl) (fun ch => by rw [hsame.chans])

theorem Kept.read {st st' : Reading} (hinv : Inv phases w past) (h : Kept phases w past)
    (hi : phases i = some (op, .reading st)) (hsame : SameCalls w w') (hpending : pendingCopy past = false)
    (hev : pendingCopy (ev :: past) = false ∨ ¬ Reading.busy st') :
    Kept (update phases i (some (op, .reading st'))) w' (ev :: past) := by
  have hnone {j : ℕ} {resp : Held} (hj : Uncopied (update phases i (some (op, .reading st'))) w' j resp) : False := by
    have hj : Uncopied phases w j resp := uncopied_congr (part_update_same hi (by rfl))
      (part_update_same hi (by rfl)) (fun ch => by rw [hsame.chans]) hj
    rw [h.pending hj] at hpending
    cases hpending
  refine ⟨fun hj => (hnone hj).elim, fun hj => (hnone hj).elim, fun hj => (hnone hj).elim, ?_, ?_,
    started_update h.started hi⟩
  · intro j st'' hj hbusy
    rw [(hinv.reads_update hi hj).2] at hbusy
    rcases hev with hev | hev
    · exact hev
    · exact absurd hbusy hev
  · intro j resp s data hj
    rw [part_update_same hi (by rfl)] at hj
    obtain ⟨htype, front, hsource, hdata⟩ := h.copied hj
    exact ⟨htype, front, hsource.mono ev, hdata⟩

theorem Kept.deliver {bytes : Bytes} {msg : Message} {client : Client} {r : Except GoError Unit}
    (hinv : Inv phases w past) (h : Kept phases w past) (hi : phases i = some (op, .reading (.holding bytes)))
    (hmsg : unpackMessage bytes = .ok msg)
    (hdeliver : w.client.deliver (getMessageId msg) (held msg) = some (r, client)) :
    Kept (update phases i (some (op, .reading .between))) { w with client := client }
      (.act i c (.deliver (getMessageId msg) (held msg)) r :: past) := by
  have hpending := h.reading (part_of_phase hi) trivial
  rcases deliver_cases hdeliver with rfl | ⟨ch, hlookup, hchan, rfl⟩
  · exact h.read hinv hi (SameCalls.refl w) hpending (Or.inr id)
  · obtain ⟨k, rest, hawaited, -, hwaits, hframe, hfront⟩ := hinv.recipient hi hmsg hlookup hchan
    have hanswer := (hawaited.sent mem_cons_self).2
    -- only the thread that receives the message has data to copy
    have honly {j : ℕ} {resp : Held} (hj : Uncopied (update phases i (some (op, .reading .between)))
        { w with client := { w.client with
          chans := update w.client.chans ch ⟨false, false, some (held msg)⟩ } } j resp) :
        j = k ∧ resp = held msg := by
      obtain ⟨htype, hlen, hj⟩ := hj
      rw [part_update_same hi (by rfl), part_update_same hi (by rfl)] at hj
      rcases hj with ⟨ch', mid, hch', hresp⟩ | hj
      · change (update w.client.chans ch _ ch').got = some resp at hresp
        by_cases hch : ch' = ch
        · rw [hch, update_self] at hresp
          cases hresp
          rw [hch] at hch'
          exact ⟨hinv.registered.apart (slot_of_waits hch') (slot_of_waits hwaits), rfl⟩
        · rw [update_of_ne hch] at hresp
          rw [h.pending ⟨htype, hlen, Or.inl ⟨ch', mid, hch', hresp⟩⟩] at hpending
          cases hpending
      · rw [h.pending ⟨htype, hlen, Or.inr hj⟩] at hpending
        cases hpending
    refine ⟨?_, ?_, ?_, ?_, ?_, started_update h.started hi⟩
    · intro j resp hj
      have hmem : getMessageId msg ∈ (underway past).map Prod.snd := by
        rw [hinv.registered.ids]
        exact mem_map_of_mem (f := Prod.fst) (mem_of_lookup hlookup)
      obtain ⟨-, rfl⟩ := honly hj
      have htype : decide ((held msg).type = .RReadAt) = true := decide_eq_true hj.1
      have hlen : ((dataOf (held msg)).len != 0) = true := bne_iff_ne.mpr hj.2.1
      rw [pendingCopy, htype, hlen, contains_iff_mem.mpr hmem]
      rfl
    · intro j resp hj
      obtain ⟨rfl, rfl⟩ := honly hj
      exact ⟨bytes, ⟨msg, mem_cons_of_mem _ hanswer, rfl, hframe⟩, hfront⟩
    · intro j j' resp resp' hj hj'
      rw [(honly hj).1, (honly hj').1]
    · intro j st hj hbusy
      rw [(hinv.reads_update hi hj).2] at hbusy
      exact hbusy.elim
    · intro j resp s data hj
      rw [part_update_same hi (by rfl)] at hj
      obtain ⟨htype, front, hsource, hdata⟩ := h.copied hj
      exact ⟨htype, front, hsource.mono _, hdata⟩

theorem Kept.copyData {s : Slice} (h : Kept phases w past)
    (hi : phases i = some (op, .returned (some resp))) (htype : resp.type = .RReadAt)
    (hlen : (dataOf resp).len ≠ 0) (hoff : s.off = (dataOf resp).off) (hs : s.len ≤ (dataOf resp).len) :
    Kept (update phases i (some (op, .copied resp s (s.load w.client.rBuf)))) w
      (.act i c (.copyData s) (s.load w.client.rBuf) :: past) := by
  have hme : Uncopied phases w i resp := ⟨htype, hlen, Or.inr (part_of_phase hi)⟩
  have hnone {j : ℕ} {resp' : Held}
      (hj : Uncopied (update phases i (some (op, .copied resp s (s.load w.client.rBuf)))) w j resp') :
      False := by
    obtain ⟨htype', hlen', hj⟩ := hj
    rw [part_update_same hi (by rfl), part_update] at hj
    have hother : j ≠ i := by
      rintro rfl
      rcases hj with ⟨ch, mid, hch, -⟩ | hj
      · rw [part_of_phase hi] at hch
        cases hch
      · rw [update_self] at hj
        cases hj
    rw [update_of_ne hother] at hj
    exact hother (h.single ⟨htype', hlen', hj⟩ hme)
  refine ⟨fun hj => (hnone hj).elim, fun hj => (hnone hj).elim, fun hj => (hnone hj).elim, ?_, ?_,
    started_update h.started hi⟩
  · intro _ _ _ _
    rfl
  · intro j resp' s' data hj
    rw [part_update] at hj
    by_cases hji : j = i
    · subst hji
      rw [update_self] at hj
      cases hj
      obtain ⟨front, hsource, hfront⟩ := h.intact hme
      refine ⟨htype, front, hsource.mono _, load_of_take hfront ?_⟩
      obtain ⟨m, -, rfl, hframe⟩ := hsource
      obtain ⟨t, vals⟩ := m
      obtain rfl : t = .RReadAt := htype
      obtain ⟨mid, data, u⟩ := vals
      have hend := (load_data hframe).2
      rw [hoff, ← hend]
      exact Nat.add_le_add_left hs _
    · rw [update_of_ne hji] at hj
      obtain ⟨htype', front, hsource, hdata⟩ := h.copied hj
      exact ⟨htype', front, hsource.mono _, hdata⟩

theorem kept_act {r : Response q} (hinv : Inv phases w past) (h : Kept phases w past) (hi : phases i = some (op, ph))
    (hallows : allows maxsz ph q) (hact : act maxsz c i q w = some (r, w')) (hok : Patient w past (.act i c q r)) :
    Kept (update phases i (some (op, next ph q r))) w' (.act i c q r :: past) := by
  cases q with
  | newCall =>
    obtain rfl := hallows
    obtain ⟨client, hnew, rfl⟩ := act_newCall hact
    cases r with
    | error e =>
      obtain rfl := newCall_error hnew
      exact h.step hi (uncopied_congr (part_update_same hi rfl) (part_update_same hi rfl) (fun _ => rfl)) rfl rfl
        rfl rfl
    | ok x =>
      have hbuf : client.rBuf = w.client.rBuf := by
        obtain ⟨mid, -, -, -, -, rfl⟩ := newCall_ok hnew
        rfl
      refine h.step hi ?_ hbuf rfl rfl rfl
      intro j resp hj
      obtain ⟨htype, hlen, hj⟩ := hj
      rw [part_update_same hi (by rfl),
        part_update_same hi (by rfl)] at hj
      refine ⟨htype, hlen, ?_⟩
      rcases hj with ⟨ch, mid, hch, hresp⟩ | hj
      · exact Or.inl ⟨ch, mid, hch, (hinv.registered.newCall_got hnew (slot_of_waits hch)).symm.trans hresp⟩
      · exact Or.inr hj
  | deleteCall mid =>
    obtain ⟨ch, resp, rfl⟩ := hallows
    cases hact
    exact h.step hi (uncopied_congr (part_update_same hi rfl) (part_update_same hi rfl) (fun _ => rfl)) rfl rfl
      rfl rfl
  | writeMessage m =>
    have hclient := (writeMessage_client hact).1
    rcases hallows with ⟨rfl, -⟩ | ⟨ch, rfl, -⟩
    · exact h.step hi (uncopied_congr (part_update_same hi rfl) (part_update_same hi rfl)
        (fun _ => by rw [hclient])) (by rw [hclient]) rfl rfl rfl
    · cases r with
      | error e =>
        exact h.step hi (uncopied_congr (part_update_same hi rfl) (part_update_same hi rfl)
          (fun _ => by rw [hclient])) (by rw [hclient]) rfl rfl rfl
      | ok u =>
        refine h.step hi ?_ (by rw [hclient]) rfl rfl rfl
        intro j resp hj
        obtain ⟨htype, hlen, hj⟩ := hj
        rw [part_update, part_update_same hi (by rfl), hclient] at hj
        refine ⟨htype, hlen, ?_⟩
        rcases hj with ⟨ch', mid, hch, hresp⟩ | hj
        · by_cases hji : j = i
          · -- nothing can have been delivered before the message was written
            subst hji
            rw [update_self] at hch
            cases hch
            rw [hinv.untouched (part_of_phase hi)] at hresp
            cases hresp
          · rw [update_of_ne hji] at hch
            exact Or.inl ⟨ch', mid, hch, hresp⟩
        · exact Or.inr hj
  | park ch =>
    obtain ⟨mid, rfl⟩ := hallows
    cases hact
    exact h.step hi (uncopied_congr (part_update_same hi rfl) (part_update_same hi rfl)
      (fun ch' => (park_chan w.client ch ch').2)) rfl rfl rfl rfl
  | receive ch =>
    obtain ⟨mid, rfl⟩ := hallows
    obtain ⟨hrec, rfl⟩ := act_receive hact
    refine h.step hi ?_ rfl rfl rfl rfl
    intro j resp hj
    obtain ⟨htype, hlen, hj⟩ := hj
    rw [part_update, part_update] at hj
    refine ⟨htype, hlen, ?_⟩
    by_cases hji : j = i
    · subst hji
      rw [update_self, update_self] at hj
      rcases hj with ⟨ch', mid', hch, -⟩ | hj
      · cases hch
      · cases hj
        exact Or.inl ⟨ch, mid, part_of_phase hi, got_of_receive hrec⟩
    · rw [update_of_ne hji, update_of_ne hji] at hj
      exact hj
  | close =>
    cases hact
    exact h.step hi (uncopied_congr (part_update_same hi rfl) (part_update_same hi rfl)
      (close_got w.client)) (close_rBuf w.client) rfl rfl rfl
  | readHead =>
    have hsame := sameCalls_readFull hact
    rcases hallows with rfl | ⟨bytes, rfl⟩ <;> cases r <;> exact h.read hinv hi hsame hok (Or.inl hok)
  | readBody sz =>
    obtain ⟨head, rfl, rfl, -⟩ := hallows
    have hsame := sameCalls_readFull hact
    cases r <;> exact h.read hinv hi hsame hok (Or.inl hok)
  | deliver mid m =>
    obtain ⟨bytes, msg, rfl, hmsg, rfl, rfl⟩ := hallows
    obtain ⟨client, hdeliver, rfl⟩ := act_deliver hact
    exact h.deliver hinv hi hmsg hdeliver
  | copyData s =>
    obtain ⟨resp, rfl, htype, hlen, hoff, hs⟩ := hallows
    cases hact
    exact h.copyData hi htype hlen hoff hs
  | _ => exact h.neutral hi trivial (by simp) hact

theorem kept_extends (rule : Message → Bool → Message → Bool) : Extends maxsz rule Patient Kept := by
  refine ⟨?_, kept_act, ?_⟩
  · intro phases w past i op _ h hi hop _
    rw [hop]
    refine h.congr (uncopied_congr (part_start hi rfl) (part_start hi rfl) (fun _ => rfl)) rfl
      (part_start hi rfl) (part_start hi rfl) ?_ rfl
    intro j op' ph hj hne
    by_cases hji : j = i
    · subst hji
      rw [update_self] at hj
      cases hj
      exact mem_cons_self
    · rw [update_of_ne hji] at hj
      exact mem_cons_of_mem _ (h.started hj hne)
  · intro phases w past e w' _ h henv _
    obtain ⟨inbox, unanswered, rfl⟩ := serve_client henv
    exact h.congr (uncopied_congr rfl rfl (fun _ => rfl)) rfl rfl rfl
      (fun hj hne => mem_cons_of_mem _ (h.started hj hne)) rfl

theorem kept_init (maxsz : UInt32) (rounds : ℕ) : Kept (attachedPhases rounds) (World.init maxsz) [] := by
  have hnone {i : ℕ} {resp : Held} (hi : Uncopied (attachedPhases rounds) (World.init maxsz) i resp) : False := by
    obtain ⟨-, -, ⟨ch, mid, hch, -⟩ | hi⟩ := hi
    · rw [part, attachedPhases] at hch
      split at hch <;> cases hch
    · rw [part, attachedPhases] at hi
      split at hi <;> cases hi
  refine ⟨fun hi => (hnone hi).elim, fun hi => (hnone hi).elim, fun hi => (hnone hi).elim, ?_, ?_, ?_⟩
  · intro i st _ _
    rfl
  · intro i resp s data hi
    rw [part, attachedPhases] at hi
    split at hi <;> cases hi
  · intro i op ph hi hne
    rw [attachedPhases] at hi
    split at hi
    · cases hi
      exact absurd rfl (hne rounds)
    · cases hi

end Kept

section Reads

variable {maxsz : UInt32} {rule : Message → Bool → Message → Bool} {rounds : ℕ} {ls : List ClientLabel}
  {p : Pool Op Request Response Choice ServerStep Outcome World}

theorem readAt_of_held {m : Message} (h : (held m).type = .RReadAt) : ∃ mid data, m = ⟨.RReadAt, (mid, data, ())⟩ := by
  obtain ⟨type, vals⟩ := m
  obtain rfl : type = .RReadAt := h
  exact ⟨vals.1, vals.2.1, rfl⟩

theorem fileRead_of_final {op : Op} {data : Bytes} {ph : Phase} (h : final op (.ok (.read data), ()) ph) :
    ∃ f fid len resp, op = .fileRead f fid len ∧
      ph = .copied resp ⟨(dataOf resp).off, min len (dataOf resp).len⟩ data := by
  cases op with
  | fileRead f fid len =>
    obtain ⟨resp, hph⟩ := h
    exact ⟨f, fid, len, resp, rfl, hph⟩
  | _ => exact h.elim

/-- If the reader waits for the copies and the server sends no more than the buffer of the
caller holds, every `File.Read` returns the bytes that the server has sent for it. -/
theorem read_own_bytes (hok : Careful (system maxsz rule) Patient ls (attached maxsz rounds))
    (hrun : run (system maxsz rule) ls (attached maxsz rounds) = some p)
    (hfits : Fitting p.past) {i : ℕ} {data : Bytes} (hread : p.results i = some (.ok (.read data), ())) :
    ∃ mid, .env (.answer i ⟨.RReadAt, (mid, data, ())⟩) ∈ p.past := by
  obtain ⟨phases, hviews, -, hkept⟩ := (kept_extends rule).of_run (kept_init maxsz rounds) hok hrun
  obtain ⟨op, ph, hphase, hfinal⟩ := Discipline.final_of_result (hviews.fits i) hread
  obtain ⟨f, fid, len, resp, rfl, rfl⟩ := fileRead_of_final hfinal
  obtain ⟨htype, front, ⟨m, hm, rfl, hframe⟩, hdata⟩ := hkept.copied (part_of_phase hphase)
  obtain ⟨mid, sent, rfl⟩ := readAt_of_held htype
  have hlen := hfits.len_le hm (hkept.started hphase nofun)
  rw [Nat.min_eq_right hlen] at hdata
  have hsent : data = sent := hdata.trans (load_data hframe).1
  rw [hsent]
  exact ⟨mid, hm⟩

def readOf : Option Outcome → Option Bytes
  | some (.ok (.read data), ()) => some data
  | _ => none

/-- A file is opened, two reads of it are sent, and both are answered. -/
def twoReads : List ClientLabel :=
  [.start 1 (.openFile []), .act 1 .go, .act 1 .go, .act 1 (.received true), .act 1 .go,
    .env (.answer 1 ⟨.ROpen, (1, ())⟩), .act 0 .go, .act 0 .go, .act 0 .go, .act 1 .go, .act 1 .go,
    .start 2 (.fileRead 1 1 2), .act 2 .go, .act 2 .go, .act 2 (.received false), .act 2 .go,
    .start 3 (.fileRead 1 1 2), .act 3 .go, .act 3 .go, .act 3 (.received false), .act 3 .go,
    .env (.answer 2 ⟨.RReadAt, (1, [10, 11], ())⟩), .env (.answer 3 ⟨.RReadAt, (2, [20, 21], ())⟩)]

/-- The steps of a `File.Read` after its answer has been delivered. -/
def finishRead (i : ℕ) : List ClientLabel := List.replicate 5 (.act i .go)

theorem results_of_readOf {i : ℕ} {data : Bytes} (h : readOf (p.results i) = some data) :
    p.results i = some (.ok (.read data), ()) := by
  unfold readOf at h
  split at h
  · next heq =>
    cases h
    exact heq
  · cases h

def patientRun : List ClientLabel :=
  twoReads ++ List.replicate 3 (.act 0 .go) ++ finishRead 2 ++ List.replicate 3 (.act 0 .go) ++ finishRead 3

/-- The second answer is read after the first has been copied. -/
theorem read_own_bytes_twice : ∃ p, run (system 100 fun _ _ _ => true) patientRun (attached 100 3) = some p ∧
    (∃ mid, .env (.answer 2 ⟨.RReadAt, (mid, [10, 11], ())⟩) ∈ p.past) ∧
    ∃ mid, .env (.answer 3 ⟨.RReadAt, (mid, [20, 21], ())⟩) ∈ p.past := by
  have hchecks : checks (system 100 fun _ _ _ => true) Patient patientRun (attached 100 3) = true := by
    decide +kernel
  have hresult : ((run (system 100 fun _ _ _ => true) patientRun (attached 100 3)).any fun p =>
      decide (Fitting p.past ∧ readOf (p.results 2) = some [10, 11] ∧ readOf (p.results 3) = some [20, 21])) =
      true := by
    decide +kernel
  obtain ⟨p, hp, hresult⟩ := (Option.any_eq_true _ _).mp hresult
  obtain ⟨hfits, hsecond, hthird⟩ := of_decide_eq_true hresult
  exact ⟨p, hp, read_own_bytes (careful_of_checks hchecks) hp hfits (results_of_readOf hsecond),
    read_own_bytes (careful_of_checks hchecks) hp hfits (results_of_readOf hthird)⟩

/-- The data of an answer to a thread. -/
def sentTo (i : ℕ) : ClientEvent → Option Bytes
  | .env (.answer j ⟨.RReadAt, (_, data, ())⟩) => if j = i then some data else none
  | _ => none

/-- The second answer is read into the buffer before the first has been copied, and the first
`File.Read` returns the bytes of the second. -/
theorem read_foreign_bytes : ((run (system 100 fun _ _ _ => true)
    (twoReads ++ List.replicate 5 (.act 0 .go) ++ finishRead 2) (attached 100 3)).any fun p =>
      decide (Fitting p.past ∧ p.past.filterMap (sentTo 2) = [[10, 11]] ∧
        readOf (p.results 2) = some [20, 21])) = true := by
  decide +kernel

end Reads

end Bpy.RemoteBuffers
