import Bpy.RemoteCalls

/-!
# Requests that are sent

`WriteMessage` should return `nil` only if all of the message is on the connection, so that
a call that waits has a request on the wire, and an error if the message cannot be encoded,
so that the call returns it and frees its id.
-/
namespace Bpy.SentRequests
open ByteWords InteractionPrograms ContentStore RemoteMessages RemoteMessageRoundTrip Interleaving Function
  RemoteClient RemoteProtocol RemoteCalls
open List hiding lt_of_le_of_lt
open Discipline

section Encoding

/-- The strings of the message are short, and the message fits the buffer. -/
def Encodable (maxsz : UInt32) (m : Message) : Prop :=
  ShortStrings m.type.kinds m.vals ∧ size m ≤ maxsz.toNat

/-- What `WriteMessage` puts on the connection, if nothing is cut off. -/
def onConnection (maxsz : UInt32) (c : Choice) (m : Message) : Option Bytes :=
  match packMessage m maxsz.toNat, c with
  | .ok bytes, .lost => some bytes
  | .ok bytes, .received _ => some bytes
  | _, _ => none

/-- All of the encoding of the message is on the connection. -/
def Complete (maxsz : UInt32) (c : Choice) (m : Message) : Prop :=
  ∃ bytes, onConnection maxsz c m = some bytes ∧ bytes.length = size m ∧ unpackMessage bytes = .ok m

/-- `WriteMessage` does as it should with the message, whatever the connection does. -/
def Reports (maxsz : UInt32) (m : Message) : Prop :=
  ∀ w c i r w', World.writeMessage maxsz w c i m = some (r, w') →
    (r = .ok () → Complete maxsz c m) ∧
    (¬ Encodable maxsz m → ∃ e, r = .error e ∧ ∀ msg, e ≠ .panic msg)

/-- The data of the message has a length that is a `uint32` value. -/
def SmallData : (ks : List Kind) → Values ks → Prop
  | [], _ => True
  | .slice :: ks, (data, vs) => data.length < 2 ^ 32 ∧ SmallData ks vs
  | _ :: ks, (_, vs) => SmallData ks vs

def Small (m : Message) : Prop := SmallData m.type.kinds m.vals

variable {maxsz : UInt32} {m : Message} {c : Choice} {i : ℕ} {w w' : World} {bytes : Bytes}

theorem smallData_cons {k : Kind} {ks : List Kind} {v : k.Value} {vs : Values ks} (h : SmallData (k :: ks) (v, vs)) :
    SmallData [k] (v, ()) ∧ SmallData ks vs := by
  cases k with
  | slice => exact ⟨⟨h.1, trivial⟩, h.2⟩
  | _ => exact ⟨trivial, h⟩

theorem length_packField {k : Kind} {v : k.Value} {room : ℕ} (h : packField k v room = .ok bytes) :
    bytes.length ≤ room ∧ (SmallData [k] (v, ()) → bytes.length = fieldSize k v) := by
  cases k with
  | string =>
    simp only [packField] at h
    split at h
    · cases h
    · split at h
      · cases h
      · split at h
        · cases h
        · cases h
          simp only [length_append, length_beBytes, fieldSize, implies_true, and_true]
          omega
  | slice =>
    simp only [packField] at h
    split at h
    · cases h
    · split at h
      · cases h
      · split at h
        · cases h
        · have hmod : v.length % 2 ^ 32 ≤ v.length := Nat.mod_le _ _
          have hroom : (room - 4) % 2 ^ 32 ≤ room - 4 := Nat.mod_le _ _
          cases h
          simp only [length_append, length_beBytes, length_take_of_le hmod, fieldSize, SmallData]
          refine ⟨by omega, fun hsmall => ?_⟩
          rw [Nat.mod_eq_of_lt hsmall.1]
  | _ =>
    simp only [packField] at h
    split at h
    · cases h
    · cases h
      simp only [length_beBytes, length_singleton, fieldSize, implies_true, and_true]
      omega

theorem length_packFields {ks : List Kind} {vs : Values ks} {room : ℕ} (h : packFields ks vs room = .ok bytes) :
    bytes.length ≤ room ∧ (SmallData ks vs → bytes.length = fieldsSize ks vs) := by
  induction ks generalizing room bytes with
  | nil =>
    cases h
    exact ⟨Nat.zero_le _, fun _ => rfl⟩
  | cons k ks ih =>
    obtain ⟨v, vs⟩ := vs
    rw [packFields] at h
    split at h
    · cases h
    · next first hfirst =>
      split at h
      · cases h
      · next rest hrest =>
        cases h
        have hlen := length_packField hfirst
        have hlens := ih hrest
        rw [length_append, fieldsSize]
        refine ⟨by omega, fun hsmall => ?_⟩
        rw [hlen.2 (smallData_cons hsmall).1, hlens.2 (smallData_cons hsmall).2]

theorem length_packMessage {n : ℕ} (h : packMessage m n = .ok bytes) :
    ShortStrings m.type.kinds m.vals ∧ bytes.length ≤ n ∧ (Small m → bytes.length = size m) := by
  rw [packMessage] at h
  split at h
  · cases h
  · split at h
    · cases h
    · next fields hfields =>
      cases h
      have hlen := length_packFields hfields
      rw [length_append, length_beBytes, length_cons, size]
      refine ⟨shortStrings_of_packFields hfields, by omega, fun hsmall => ?_⟩
      have := hlen.2 hsmall
      omega

theorem encodable_of_packs (h : packMessage m maxsz.toNat = .ok bytes) (hlen : bytes.length = size m) :
    Encodable maxsz m :=
  ⟨(length_packMessage h).1, hlen ▸ (length_packMessage h).2.1⟩

theorem packs_of_encodable (h : Encodable maxsz m) :
    ∃ bytes, packMessage m maxsz.toNat = .ok bytes ∧ bytes.length = size m ∧ unpackMessage bytes = .ok m := by
  have hlt : maxsz.toNat < 2 ^ 32 := maxsz.toNat_lt
  obtain ⟨head, body, hpack, hfour, -, hsize, hunpack⟩ := packMessage_spec h.1 (by rw [Nat.mod_eq_of_lt hlt]; exact h.2)
  exact ⟨_, hpack, by rw [length_append, hfour, hsize], hunpack⟩

theorem writeMessage_ok (h : World.writeMessage maxsz w c i m = some (.ok (), w')) :
    (∃ e, packMessage m maxsz.toNat = .error e) ∨ ∃ bytes, onConnection maxsz c m = some bytes := by
  unfold World.writeMessage at h
  split at h
  · cases h
  · next e _ hpack => exact .inl ⟨e, hpack⟩
  · cases h
  · next bytes hpack => exact .inr ⟨bytes, by simp [onConnection, hpack]⟩
  · next bytes _ hpack => exact .inr ⟨bytes, by simp [onConnection, hpack]⟩
  · cases h

theorem writeMessage_error {e : GoError} (h : World.writeMessage maxsz w c i m = some (.error e, w')) :
    (∃ msg, e = .panic msg) ∨ ∃ bytes, packMessage m maxsz.toNat = .ok bytes := by
  unfold World.writeMessage at h
  split at h
  · cases h
    exact .inl ⟨_, rfl⟩
  · cases h
  · next hpack => exact .inr ⟨_, hpack⟩
  · cases h
  · split at h <;> cases h
  · cases h

theorem packs_of_onConnection (h : onConnection maxsz c m = some bytes) : packMessage m maxsz.toNat = .ok bytes := by
  unfold onConnection at h
  split at h
  · next hpack =>
    cases h
    exact hpack
  · next hpack =>
    cases h
    exact hpack
  · cases h

theorem complete_of_encodable (hm : Encodable maxsz m)
    (h : World.writeMessage maxsz w c i m = some (.ok (), w')) : Complete maxsz c m := by
  obtain ⟨bytes, hpack, hspec⟩ := packs_of_encodable hm
  rcases writeMessage_ok h with ⟨e, he⟩ | ⟨bytes', hbytes⟩
  · rw [hpack] at he
    cases he
  · have hsame := packs_of_onConnection hbytes
    rw [hpack] at hsame
    cases hsame
    exact ⟨bytes, hbytes, hspec⟩

theorem encodable_of_complete (h : Complete maxsz c m) : Encodable maxsz m := by
  obtain ⟨bytes, hbytes, hlen, -⟩ := h
  exact encodable_of_packs (packs_of_onConnection hbytes) hlen

theorem reports_iff : Reports maxsz m ↔ Encodable maxsz m := by
  constructor
  · intro h
    by_contra hm
    -- the connection takes whatever it is given
    have hlost (r : Except GoError Unit) (hr : World.writeMessage maxsz (World.init maxsz) .lost 0 m =
        some (r, World.init maxsz)) : r ≠ .ok () :=
      fun hok => hm (encodable_of_complete ((h _ _ _ _ _ hr).1 hok))
    cases hpack : packMessage m maxsz.toNat with
    | ok bytes => exact hlost _ (by simp [World.writeMessage, hpack]) rfl
    | error e =>
      cases e with
      | panic msg =>
        have hpanics : World.writeMessage maxsz (World.init maxsz) .lost 0 m =
            some (.error (.panic msg), World.init maxsz) := by
          simp only [World.writeMessage, hpack]
        obtain ⟨e, he, hnot⟩ := (h _ _ _ _ _ hpanics).2 hm
        cases he
        exact hnot msg rfl
      | _ => exact hlost _ (by simp only [World.writeMessage, hpack]) rfl
  · intro hm w c i r w' h
    refine ⟨fun hr => ?_, fun hnot => absurd hm hnot⟩
    subst hr
    exact complete_of_encodable hm h

end Encoding

section Courses

/-- How far a thread is with its call. -/
inductive Course where
  | outside
  | sent (m : Message)
  | waiting (m : Message)
  | over (m : Message)
  /-- `WriteMessage` has returned an error -/
  | refused (m : Message)
  /-- and the id is given back -/
  | failed (m : Message)

/-- A call whose `WriteMessage` returns `nil` waits, and otherwise gives its id back at once. -/
def courses : Discipline Request Response Course where
  allows
    | ph, .park _ => ∃ m, ph = .sent m
    | ph, .receive _ => ∃ m, ph = .waiting m
    | ph, .deleteCall mid => ∃ m, (ph = .over m ∨ ph = .refused m) ∧ mid = getMessageId m
    | ph, .writeMessage m => ph = .outside ∧ Small m
    | ph, _ => ph = .outside ∨ ∃ m, ph = .failed m
  next
    | .outside, .writeMessage m, .ok _ => if m.type = .TWritePack then .outside else .sent m
    | .outside, .writeMessage m, .error _ => if m.type = .TWritePack then .outside else .refused m
    | .sent m, .park _, _ => .waiting m
    | .waiting m, .receive _, _ => .over m
    | .over _, .deleteCall _, _ => .outside
    | .refused m, .deleteCall _, _ => .failed m
    | ph, _, _ => ph

variable {maxsz : UInt32} {α β : Type} {m : Message}

/-- A call that failed has returned an error. -/
def Ends (r : Except GoError α) (_ : Unit) (ph : Course) : Prop :=
  ph = .outside ∨ ∃ m e, ph = .failed m ∧ r = .error e

theorem ends_ok {a : α} {ph : Course} (h : Ends (.ok a) () ph) : ph = .outside := by
  rcases h with h | ⟨m, e, -, he⟩
  · exact h
  · cases he

theorem wp_then {x : ClientM α} {f : α → ClientM β} (hx : courses.wp x Ends () .outside)
    (hf : ∀ a, courses.wp (f a) Ends () .outside) : courses.wp (x >>= f) Ends () .outside := by
  apply wp_bind _ hx
  · intro a _ ph ha
    rw [ends_ok ha]
    exact hf a
  · intro e _ ph he
    rcases he with he | ⟨m, e', hph, -⟩
    · exact .inl he
    · exact .inr ⟨m, e, hph, rfl⟩

theorem wp_exchange (hm : m.type ≠ .TWritePack) (hsmall : Small m) (ch : ℕ) :
    courses.wp (exchange m ch) (fun r _ ph => ph = .over m ∨ ∃ e, ph = .refused m ∧ r = .error e) () .outside := by
  refine wp_send_bind ⟨rfl, hsmall⟩ ?_ ?_
  · intro r u hr
    have hnext : courses.next .outside (.writeMessage m) r = .sent m := by
      rw [show r = .ok u from hr]
      exact if_neg hm
    rw [hnext]
    refine wp_ask_bind ⟨m, rfl⟩ (fun _ => ?_)
    refine wp_send_bind ⟨m, rfl⟩ ?_ ?_
    · intro r resp _
      exact wp_ofExcept (.inl rfl)
    · intro r e _
      exact .inl rfl
  · intro r e hr
    cases hr
    exact .inr ⟨e, if_neg hm, rfl⟩

theorem wp_call (hm : m.type ≠ .TWritePack) (hsmall : Small m) (ch : ℕ) :
    courses.wp (call m ch (getMessageId m)) Ends () .outside := by
  apply wp_attempt_bind _ (wp_exchange hm hsmall ch)
  intro r _ ph hph
  rcases hph with rfl | ⟨e, rfl, rfl⟩
  · exact wp_ask_bind ⟨m, .inl rfl, rfl⟩ (fun _ => wp_ofExcept (.inl rfl))
  · exact wp_ask_bind ⟨m, .inr rfl, rfl⟩ (fun _ => wp_ofExcept (.inr ⟨m, e, rfl, rfl⟩))

theorem wp_plain {q : Request} {f : Response q → Except GoError α} (hallows : courses.allows .outside q)
    (hnext : ∀ r, courses.next .outside q r = .outside) : courses.wp (Method.send q f) Ends () .outside :=
  wp_send hallows (fun r => .inl (hnext r))

theorem wp_request {m : UInt16 → Message}
    (hm : ∀ mid, getMessageId (m mid) = mid ∧ (m mid).type ≠ .TWritePack ∧ Small (m mid)) (t : MessageType) :
    courses.wp (request m t) Ends () .outside := by
  refine wp_then (wp_plain (.inl rfl) (fun _ => rfl)) (fun b => ?_)
  obtain ⟨ch, mid⟩ := b
  have hcall := wp_call (hm mid).2.1 (hm mid).2.2 ch
  rw [(hm mid).1] at hcall
  apply wp_then hcall
  intro resp
  split
  · exact wp_pure (.inl rfl)
  · exact wp_raise (.inl rfl)

theorem wp_freeId {t : Table} {id : UInt32} {e : GoError} {ph : Course} (h : Ends (.error e : Except GoError β) () ph) :
    courses.wp (do ask (.freeId t id); Method.raise e : ClientM α) Ends () ph := by
  rcases h with rfl | ⟨m, e', rfl, -⟩
  · exact wp_ask_bind (.inl rfl) (fun _ => wp_raise (.inl rfl))
  · exact wp_ask_bind (.inr ⟨m, rfl⟩) (fun _ => wp_raise (.inr ⟨m, e, rfl, rfl⟩))

theorem wp_newPack (name : Bytes) : courses.wp (newPack name) Ends () .outside := by
  refine wp_then (wp_plain (.inl rfl) (fun _ => rfl)) (fun pid => ?_)
  refine wp_then (wp_plain (.inl rfl) (fun _ => rfl)) (fun b => ?_)
  obtain ⟨ch, mid⟩ := b
  apply wp_attempt_bind _ (wp_call (m := ⟨.TNewPack, (mid, pid, name, ())⟩) nofun trivial ch)
  intro r _ ph hph
  cases r with
  | error e => exact wp_freeId hph
  | ok resp =>
    rw [ends_ok hph]
    dsimp only
    split
    · exact wp_pure (.inl rfl)
    · exact wp_freeId (β := Unit) (.inl rfl)

theorem wp_openFile (name : Bytes) : courses.wp (openFile name) Ends () .outside := by
  refine wp_then (wp_plain (.inl rfl) (fun _ => rfl)) (fun fid => ?_)
  apply wp_attempt_bind _ (wp_request (m := fun mid => ⟨.TOpen, (mid, fid, name, ())⟩)
    (fun _ => ⟨rfl, nofun, trivial⟩) .ROpen)
  intro r _ ph hph
  cases r with
  | error e => exact wp_freeId hph
  | ok resp =>
    rw [ends_ok hph]
    exact wp_pure (.inl rfl)

theorem wp_writeLoop (maxn pid : UInt32) (rounds : ℕ) (buf : Bytes) (nsent : ℕ) :
    courses.wp (writeLoop maxn pid rounds buf nsent) Ends () .outside := by
  induction rounds generalizing buf nsent with
  | zero => exact wp_plain (.inl rfl) (fun _ => rfl)
  | succ rounds ih =>
    rw [writeLoop]
    split
    · exact wp_pure (.inl rfl)
    · apply wp_attempt_bind (fun _ _ ph => ph = .outside)
      · apply wp_send
        · refine ⟨rfl, ?_, trivial⟩
          exact lt_of_le_of_lt (length_take_le _ _) (UInt32.toNat_lt _)
        · intro r
          cases r <;> rfl
      · intro r _ ph hph
        rw [hph]
        cases r with
        | error e => exact wp_pure (.inl rfl)
        | ok u => exact ih _ _

theorem wp_readMessages (rounds : ℕ) : courses.wp (readMessages maxsz rounds) Ends () .outside := by
  induction rounds with
  | zero => exact wp_plain (.inl rfl) (fun _ => rfl)
  | succ rounds ih =>
    have hdeliver (mid : UInt16) (m : Held) : courses.wp
        (do Method.send (.deliver mid m) id; readMessages maxsz rounds) Ends () .outside :=
      wp_then (wp_plain (.inl rfl) (fun _ => rfl)) (fun _ => ih)
    have hread : courses.wp (readMessage maxsz) (fun _ _ ph => ph = .outside) () .outside := by
      rw [RemoteClient.readMessage]
      split
      · exact wp_raise rfl
      · refine wp_send_bind (.inl rfl) ?_ ?_
        · intro r head hr
          dsimp only
          split
          · exact wp_raise rfl
          · split
            · exact wp_raise rfl
            · exact wp_send_bind (.inl rfl) (fun _ _ _ => wp_ofExcept rfl) (fun _ _ _ => rfl)
        · intros
          rfl
    apply wp_attempt_bind _ hread
    intro r _ ph hph
    rw [hph]
    cases r with
    | error e =>
      cases e with
      | panic msg => exact wp_raise (.inl rfl)
      | _ => exact wp_plain (.inl rfl) (fun _ => rfl)
    | ok m =>
      dsimp only
      split
      · split
        · exact wp_then (wp_plain (.inl rfl) (fun _ => rfl)) (fun _ => hdeliver _ _)
        · exact ih
      · exact hdeliver _ _

theorem wp_fileRead (f : ℕ) (fid : UInt32) (len : ℕ) : courses.wp (fileRead maxsz f fid len) Ends () .outside := by
  refine wp_then (wp_plain (.inl rfl) (fun _ => rfl)) (fun offset => ?_)
  refine wp_then (wp_request (m := fun mid => ⟨.TReadAt, (mid, fid, offset, readSize maxsz len, ())⟩)
    (fun _ => ⟨rfl, nofun, trivial⟩) .RReadAt) (fun resp => ?_)
  dsimp only
  split
  · exact wp_raise (.inl rfl)
  · refine wp_then (wp_plain (.inl rfl) (fun _ => rfl)) (fun data => ?_)
    refine wp_then (wp_plain (.inl rfl) (fun _ => rfl)) (fun offset => ?_)
    exact wp_then (wp_plain (.inl rfl) (fun _ => rfl)) (fun _ => wp_pure (.inl rfl))

theorem wp_fileSeek (f : ℕ) (offset : UInt64) (whence : ℕ) :
    courses.wp (fileSeek f offset whence) Ends () .outside := by
  rw [fileSeek]
  split
  · exact wp_then (wp_plain (.inl rfl) (fun _ => rfl)) (fun _ => wp_plain (.inl rfl) (fun _ => rfl))
  · exact wp_raise (.inl rfl)

theorem wp_free_request (t : Table) (id : UInt32) {m : UInt16 → Message}
    (hm : ∀ mid, getMessageId (m mid) = mid ∧ (m mid).type ≠ .TWritePack ∧ Small (m mid)) (type : MessageType) :
    courses.wp (do let _ ← ask (.freeId t id); let _ ← request m type; pure ()) Ends () .outside := by
  refine wp_then (wp_plain (.inl rfl) (fun _ => rfl)) (fun _ => ?_)
  exact wp_then (wp_request hm type) (fun _ => wp_pure (.inl rfl))

theorem wp_packWrite (pid : UInt32) (buf : Bytes) (rounds : ℕ) :
    courses.wp (packWrite maxsz pid buf rounds) Ends () .outside := by
  refine wp_then (wp_plain (.inl rfl) (fun _ => rfl)) (fun err => ?_)
  cases err with
  | some e => exact wp_pure (.inl rfl)
  | none => exact wp_writeLoop _ pid rounds buf 0

theorem method_courses (op : Op) : courses.wp (op.method maxsz) Ends () .outside := by
  have hpure {α : Type} {x : ClientM α} (hx : courses.wp x Ends () .outside) (f : α → Result) :
      courses.wp (x >>= fun a => pure (f a)) Ends () .outside :=
    wp_then hx (fun _ => wp_pure (.inl rfl))
  have hcall {m : UInt16 → Message} (t : MessageType)
      (hm : ∀ mid, getMessageId (m mid) = mid ∧ (m mid).type ≠ .TWritePack ∧ Small (m mid)) :
      courses.wp (request m t >>= fun resp => pure (Result.message resp)) Ends () .outside :=
    hpure (wp_request hm t) _
  cases op with
  | readMessages rounds => exact hpure (wp_readMessages rounds) _
  | tCasRoot newValue newVersion signature epoch =>
    exact hcall .RCasRoot (fun _ => ⟨rfl, nofun, trivial⟩)
  | tGetRoot => exact hcall .RGetRoot (fun _ => ⟨rfl, nofun, trivial⟩)
  | tRemove path epoch => exact hcall .RRemove (fun _ => ⟨rfl, nofun, trivial⟩)
  | tGetEpoch => exact hcall .RGetEpoch (fun _ => ⟨rfl, nofun, trivial⟩)
  | tStartGC => exact hcall .RStartGC (fun _ => ⟨rfl, nofun, trivial⟩)
  | tStopGC => exact hcall .RStopGC (fun _ => ⟨rfl, nofun, trivial⟩)
  | newPack name => exact hpure (wp_newPack name) _
  | openFile name => exact hpure (wp_openFile name) _
  | fileRead f fid len => exact hpure (wp_fileRead f fid len) _
  | fileSeek f fid offset whence => exact hpure (wp_fileSeek f offset whence) _
  | fileClose f fid =>
    exact hpure (wp_free_request (m := fun mid => ⟨.TClose, (mid, fid, ())⟩) .file fid
      (fun _ => ⟨rfl, nofun, trivial⟩) .RClose) _
  | packWrite p pid buf rounds => exact hpure (wp_packWrite pid buf rounds) _
  | packClose p pid =>
    exact hpure (wp_free_request (m := fun mid => ⟨.TClosePack, (mid, pid, ())⟩) .pack pid
      (fun _ => ⟨rfl, nofun, trivial⟩) .RClosePack) _
  | packCancel p pid =>
    exact hpure (wp_free_request (m := fun mid => ⟨.TCancelPack, (mid, pid, ())⟩) .pack pid
      (fun _ => ⟨rfl, nofun, trivial⟩) .RCancelPack) _
  | close => exact wp_then (wp_plain (.inl rfl) (fun _ => rfl)) (fun _ => wp_pure (.inl rfl))

end Courses

section Runs

/-- The thread whose request an event answers. -/
def threadOf : ClientEvent → Option ℕ
  | .act i _ _ _ => some i
  | _ => none

def latest (i : ℕ) (past : List ClientEvent) : Option ClientEvent := past.find? (fun ev => threadOf ev == some i)

variable (maxsz : UInt32)

/-- After a run: what `WriteMessage` returned `nil` for is on the connection, a call that waits
has just written its request, and a request that cannot be encoded has been refused with an
error. A call that was refused gives its id back next, and returns an error. -/
structure Requested (p : Pool Op Request Response Choice ServerStep Outcome World) : Prop where
  written : ∀ {i c m}, .act i c (.writeMessage m) (.ok ()) ∈ p.past → Complete maxsz c m
  waiting : ∀ {i c ch before}, (.act i c (.park ch) () :: before) <:+ p.past →
    ∃ c' m, latest i before = some (.act i c' (.writeMessage m) (.ok ())) ∧ m.type ≠ .TWritePack ∧ Complete maxsz c' m
  refused : ∀ {i c m r}, .act i c (.writeMessage m) r ∈ p.past → ¬ Encodable maxsz m →
    ∃ e, r = .error e ∧ ∀ msg, e ≠ .panic msg
  freed : ∀ {i c q r c' m e before}, (.act i c q r :: before) <:+ p.past →
    latest i before = some (.act i c' (.writeMessage m) (.error e)) → m.type ≠ .TWritePack →
    q = .deleteCall (getMessageId m)
  returned : ∀ {i c m e a}, .act i c (.writeMessage m) (.error e) ∈ p.past → m.type ≠ .TWritePack →
    p.results i = some a → (∃ e', a.1 = .error e') ∧ ∃ c', .act i c' (.deleteCall (getMessageId m)) () ∈ p.past

/-- What the phases of the threads say of the past. -/
structure Kept (phases : ℕ → Option (Op × Course)) (past : List ClientEvent) : Prop where
  answered : ∀ {i c m r}, .act i c (.writeMessage m) r ∈ past →
    Small m ∧ ∃ w w', World.writeMessage maxsz w c i m = some (r, w')
  parked : ∀ {i c ch before}, (.act i c (.park ch) () :: before) <:+ past →
    ∃ c' m, latest i before = some (.act i c' (.writeMessage m) (.ok ())) ∧ m.type ≠ .TWritePack
  freed : ∀ {i c q r c' m e before}, (.act i c q r :: before) <:+ past →
    latest i before = some (.act i c' (.writeMessage m) (.error e)) → m.type ≠ .TWritePack →
    q = .deleteCall (getMessageId m)
  unused : ∀ {i ev}, phases i = none → ev ∈ past → threadOf ev ≠ some i
  sent : ∀ {i m}, part some phases i = some (.sent m) →
    ∃ c, latest i past = some (.act i c (.writeMessage m) (.ok ())) ∧ m.type ≠ .TWritePack
  refused : ∀ {i c m e}, latest i past = some (.act i c (.writeMessage m) (.error e)) → m.type ≠ .TWritePack →
    part some phases i = some (.refused m)
  ever : ∀ {i c m e}, .act i c (.writeMessage m) (.error e) ∈ past → m.type ≠ .TWritePack →
    part some phases i = some (.refused m) ∨ part some phases i = some (.failed m)
  failed : ∀ {i m}, part some phases i = some (.failed m) → ∃ c, .act i c (.deleteCall (getMessageId m)) () ∈ past

variable {maxsz} {phases phases' : ℕ → Option (Op × Course)} {past : List ClientEvent} {w w' : World} {i j : ℕ}
  {op : Op} {ph : Course} {c : Choice} {q : Request} {r : Response q} {m : Message} {ev : ClientEvent}

theorem latest_self : latest i (.act i c q r :: past) = some (.act i c q r) := by
  simp [latest, threadOf]

theorem latest_other (h : threadOf ev ≠ some i) : latest i (ev :: past) = latest i past := by
  simp [latest, h]

theorem mem_of_latest (h : latest i past = some ev) : ev ∈ past := List.mem_of_find?_eq_some h

theorem refused_allows (h : courses.allows (.refused m) q) : q = .deleteCall (getMessageId m) := by
  cases q with
  | deleteCall mid =>
    obtain ⟨m', hph, rfl⟩ := h
    rcases hph with hph | hph <;> cases hph
    rfl
  | _ => simp [courses] at h

theorem next_refused (hph : ph = .refused m ∨ ph = .failed m) (h : courses.allows ph q) :
    courses.next ph q r = .failed m := by
  rcases hph with rfl | rfl
  · cases refused_allows h
    rfl
  · cases q <;> rfl

theorem next_sent (h : courses.allows ph q) (hnext : courses.next ph q r = .sent m) (i : ℕ) (c : Choice) :
    (.act i c q r : ClientEvent) = .act i c (.writeMessage m) (.ok ()) ∧ m.type ≠ .TWritePack := by
  cases q with
  | writeMessage m' =>
    obtain ⟨rfl, -⟩ := h
    cases r with
    | ok u =>
      simp only [courses] at hnext
      split at hnext
      · cases hnext
      · next hm =>
        cases hnext
        exact ⟨rfl, hm⟩
    | error e =>
      simp only [courses] at hnext
      split at hnext <;> cases hnext
  | park ch =>
    obtain ⟨m', rfl⟩ := h
    cases hnext
  | receive ch =>
    obtain ⟨m', rfl⟩ := h
    cases hnext
  | deleteCall mid =>
    obtain ⟨m', hph, -⟩ := h
    rcases hph with rfl | rfl <;> cases hnext
  | _ => rcases h with rfl | ⟨m', rfl⟩ <;> cases hnext

theorem next_failed (h : courses.allows ph q) (hnext : courses.next ph q r = .failed m) (i : ℕ) (c : Choice) :
    ph = .failed m ∨ (.act i c q r : ClientEvent) = .act i c (.deleteCall (getMessageId m)) () := by
  cases q with
  | writeMessage m' =>
    obtain ⟨rfl, -⟩ := h
    cases r with
    | ok u =>
      simp only [courses] at hnext
      split at hnext <;> cases hnext
    | error e =>
      simp only [courses] at hnext
      split at hnext <;> cases hnext
  | park ch =>
    obtain ⟨m', rfl⟩ := h
    cases hnext
  | receive ch =>
    obtain ⟨m', rfl⟩ := h
    cases hnext
  | deleteCall mid =>
    obtain ⟨m', hph, rfl⟩ := h
    rcases hph with rfl | rfl
    · cases hnext
    · cases hnext
      exact .inr rfl
  | _ =>
    rcases h with rfl | ⟨m', rfl⟩
    · cases hnext
    · exact .inl hnext

theorem Kept.quiet (h : Kept maxsz phases past) (hev : threadOf ev = none)
    (hphases : ∀ j, phases' j = phases j ∨ phases j = none ∧ part some phases' j = some .outside) :
    Kept maxsz phases' (ev :: past) := by
  have hlatest (j : ℕ) : latest j (ev :: past) = latest j past := latest_other (by simp [hev])
  have hmem {j : ℕ} {c : Choice} {q : Request} {r : Response q} (hj : .act j c q r ∈ ev :: past) : .act j c q r ∈ past := by
    rcases mem_cons.mp hj with rfl | hj
    · simp [threadOf] at hev
    · exact hj
  have hsuffix {j : ℕ} {c : Choice} {q : Request} {r : Response q} {before : List ClientEvent}
      (hj : (.act j c q r :: before) <:+ ev :: past) : (.act j c q r :: before) <:+ past := by
    rcases suffix_cons_iff.mp hj with heq | hj
    · cases heq
      simp [threadOf] at hev
    · exact hj
  have hkeep {j : ℕ} {ph : Course} (hph : part some phases j = some ph) : part some phases' j = some ph := by
    rcases hphases j with heq | ⟨hnone, -⟩
    · rw [part, heq]
      exact hph
    · rw [part, hnone] at hph
      cases hph
  have hback {j : ℕ} {ph : Course} (hne : ph ≠ .outside) (hph : part some phases' j = some ph) :
      part some phases j = some ph := by
    rcases hphases j with heq | ⟨-, hout⟩
    · rw [part, heq] at hph
      exact hph
    · rw [hout] at hph
      cases hph
      exact absurd rfl hne
  refine ⟨fun hj => h.answered (hmem hj), fun hj => h.parked (hsuffix hj), fun hj => h.freed (hsuffix hj), ?_, ?_, ?_, ?_, ?_⟩
  · intro j ev' hj hev'
    rcases mem_cons.mp hev' with rfl | hev'
    · simp [hev]
    · rcases hphases j with heq | ⟨hnone, -⟩
      · exact h.unused (heq ▸ hj) hev'
      · exact h.unused hnone hev'
  · intro j m hj
    rw [hlatest]
    exact h.sent (hback (by simp) hj)
  · intro j c m e hj hm
    rw [hlatest] at hj
    exact hkeep (h.refused hj hm)
  · intro j c m e hj hm
    rcases h.ever (hmem hj) hm with hj | hj
    · exact .inl (hkeep hj)
    · exact .inr (hkeep hj)
  · intro j m hj
    obtain ⟨c, hc⟩ := h.failed (hback (by simp) hj)
    exact ⟨c, mem_cons_of_mem _ hc⟩

theorem Kept.act (h : Kept maxsz phases past) (hi : phases i = some (op, ph)) (hallows : courses.allows ph q)
    (hact : RemoteClient.act maxsz c i q w = some (r, w')) :
    Kept maxsz (update phases i (some (op, courses.next ph q r))) (.act i c q r :: past) := by
  have hpart : part some phases i = some ph := part_of_phase hi
  have hself : part some (update phases i (some (op, courses.next ph q r))) i = some (courses.next ph q r) := by
    rw [part_update, update_self]
  have hother {j : ℕ} (hj : j ≠ i) :
      part some (update phases i (some (op, courses.next ph q r))) j = part some phases j := by
    rw [part_update, update_of_ne hj]
  have hthread {j : ℕ} (hj : j ≠ i) : threadOf (.act i c q r) ≠ some j := fun heq => hj (Option.some.inj heq).symm
  have hrefused {c' : Choice} {m : Message} {e : GoError}
      (heq : (.act i c q r : ClientEvent) = .act i c' (.writeMessage m) (.error e)) (hm : m.type ≠ .TWritePack) :
      courses.next ph q r = .refused m := by
    cases heq
    obtain ⟨rfl, -⟩ := hallows
    exact if_neg hm
  refine ⟨?_, ?_, ?_, ?_, ?_, ?_, ?_, ?_⟩
  · intro j c' m r' hj
    rcases mem_cons.mp hj with heq | hj
    · cases heq
      exact ⟨hallows.2, w, w', hact⟩
    · exact h.answered hj
  · intro j c' ch before hj
    rcases suffix_cons_iff.mp hj with heq | hj
    · cases heq
      obtain ⟨m, rfl⟩ := hallows
      obtain ⟨c', hlatest, hm⟩ := h.sent hpart
      exact ⟨c', m, hlatest, hm⟩
    · exact h.parked hj
  · intro j c' q' r' c'' m e before hj hlatest hm
    rcases suffix_cons_iff.mp hj with heq | hj
    · cases heq
      have hph := h.refused hlatest hm
      rw [hpart] at hph
      cases hph
      exact refused_allows hallows
    · exact h.freed hj hlatest hm
  · intro j ev hj hev
    have hji : j ≠ i := by
      rintro rfl
      rw [update_self] at hj
      cases hj
    rw [update_of_ne hji] at hj
    rcases mem_cons.mp hev with rfl | hev
    · exact hthread hji
    · exact h.unused hj hev
  · intro j m hj
    by_cases hji : j = i
    · subst hji
      rw [hself] at hj
      obtain ⟨heq, hm⟩ := next_sent hallows (Option.some.inj hj) j c
      exact ⟨c, by rw [latest_self, heq], hm⟩
    · rw [hother hji] at hj
      rw [latest_other (hthread hji)]
      exact h.sent hj
  · intro j c' m e hj hm
    by_cases hji : j = i
    · subst hji
      rw [latest_self] at hj
      rw [hself, hrefused (Option.some.inj hj) hm]
    · rw [latest_other (hthread hji)] at hj
      rw [hother hji]
      exact h.refused hj hm
  · intro j c' m e hj hm
    by_cases hji : j = i
    · subst hji
      rw [hself]
      rcases mem_cons.mp hj with heq | hj
      · exact .inl (by rw [hrefused heq.symm hm])
      · have hph := h.ever hj hm
        rw [hpart, Option.some.injEq, Option.some.injEq] at hph
        exact .inr (by rw [next_refused hph hallows])
    · rw [hother hji]
      rcases mem_cons.mp hj with heq | hj
      · cases heq
        exact absurd rfl hji
      · exact h.ever hj hm
  · intro j m hj
    by_cases hji : j = i
    · subst hji
      rw [hself] at hj
      rcases next_failed hallows (Option.some.inj hj) j c with rfl | heq
      · obtain ⟨c', hc⟩ := h.failed hpart
        exact ⟨c', mem_cons_of_mem _ hc⟩
      · exact ⟨c, by rw [← heq]; exact mem_cons_self⟩
    · rw [hother hji] at hj
      obtain ⟨c', hc⟩ := h.failed hj
      exact ⟨c', mem_cons_of_mem _ hc⟩

def attachedCourses (rounds : ℕ) (i : ℕ) : Option (Op × Course) :=
  if i = 0 then some (.readMessages rounds, .outside) else none

theorem attached_courses (maxsz : UInt32) (rounds : ℕ) : courses.Views (fun _ a => Ends a.1 a.2)
    ⟨attachedCourses rounds, World.init maxsz, []⟩ (attached maxsz rounds) where
  fits i := by
    dsimp only [attached, attachedCourses]
    split
    · exact .used (method_courses (.readMessages rounds))
    · exact .unused
  shared := rfl
  past := rfl

theorem Kept.init (maxsz : UInt32) (rounds : ℕ) : Kept maxsz (attachedCourses rounds) [] := by
  have hphase {i : ℕ} {ph : Course} (h : part some (attachedCourses rounds) i = some ph) : ph = .outside := by
    obtain ⟨op, hop⟩ := phase_of_part h
    rw [attachedCourses] at hop
    split at hop <;> cases hop
    rfl
  refine ⟨nofun, fun h => ?_, fun h => ?_, nofun, fun h => ?_, nofun, nofun, fun h => ?_⟩
  · cases suffix_nil.mp h
  · cases suffix_nil.mp h
  · cases hphase h
  · cases hphase h

variable {rule : Message → Bool → Message → Bool} {rounds : ℕ} {ls : List ClientLabel}
  {p : Pool Op Request Response Choice ServerStep Outcome World}

theorem kept_of_run (hrun : run (system maxsz rule) ls (attached maxsz rounds) = some p) :
    ∃ v, courses.Views (fun _ a => Ends a.1 a.2) v p ∧ Kept maxsz v.phases v.past := by
  have hI : Discipline.Invariant (system maxsz rule) courses (fun _ => .outside) (fun _ a => Ends a.1 a.2)
      (fun _ _ _ => True) (fun v => Kept maxsz v.phases v.past) := by
    refine ⟨?_, fun h hi hallows hact _ => h.act hi hallows hact, fun h _ _ => h.quiet rfl (fun _ => .inl rfl)⟩
    intro v i op results h hi _ _ _
    refine h.quiet rfl (fun j => ?_)
    by_cases hji : j = i
    · subst hji
      exact .inr ⟨hi, by rw [part_update, update_self]⟩
    · exact .inl (update_of_ne hji _ _)
  exact hI.of_run (fun op => method_courses op) ⟨_, attached_courses maxsz rounds, Kept.init maxsz rounds⟩
    (careful_true _ _) hrun

/-- `WriteMessage` does as it should with a message, and every call of a run has its request on
the wire or fails, exactly if the messages can be encoded. -/
theorem requests_sent_iff (maxsz : UInt32) :
    (∀ m, Reports maxsz m ↔ Encodable maxsz m) ∧
    ∀ rule rounds ls p, run (system maxsz rule) ls (attached maxsz rounds) = some p →
      (Requested maxsz p ↔ ∀ i c m r, .act i c (.writeMessage m) r ∈ p.past → Encodable maxsz m) := by
  refine ⟨fun m => reports_iff, fun rule rounds ls p hrun => ?_⟩
  obtain ⟨v, hviews, hkept⟩ := kept_of_run hrun
  rw [hviews.past] at hkept
  constructor
  · intro h i c m r hmem
    by_contra hm
    obtain ⟨hsmall, w, w', hwrite⟩ := hkept.answered hmem
    obtain ⟨e, rfl, he⟩ := h.refused hmem hm
    rcases writeMessage_error hwrite with ⟨msg, hmsg⟩ | ⟨bytes, hpack⟩
    · exact he msg hmsg
    · exact hm (encodable_of_packs hpack ((length_packMessage hpack).2.2 hsmall))
  · intro h
    have hwritten {i : ℕ} {c : Choice} {m : Message} (hmem : .act i c (.writeMessage m) (.ok ()) ∈ p.past) :
        Complete maxsz c m := by
      obtain ⟨-, w, w', hwrite⟩ := hkept.answered hmem
      exact complete_of_encodable (h i c m _ hmem) hwrite
    refine ⟨hwritten, ?_, ?_, hkept.freed, ?_⟩
    · intro i c ch before hsuffix
      obtain ⟨c', m, hlatest, hm⟩ := hkept.parked hsuffix
      have hmem := hsuffix.subset (List.mem_cons_of_mem _ (mem_of_latest hlatest))
      exact ⟨c', m, hlatest, hm, hwritten hmem⟩
    · intro i c m r hmem hm
      exact absurd (h i c m r hmem) hm
    · intro i c m e a hmem hm ha
      obtain ⟨op, ph, hphase, hends⟩ := Discipline.final_of_result (hviews.fits i) ha
      have hever := hkept.ever hmem hm
      rw [part_of_phase hphase, Option.some.injEq, Option.some.injEq] at hever
      rcases hends with rfl | ⟨m', e', rfl, he'⟩
      · rcases hever with hever | hever <;> cases hever
      · rcases hever with hever | hever
        · cases hever
        · cases hever
          exact ⟨⟨e', he'⟩, hkept.failed (part_of_phase hphase)⟩

/-- The request to remove a path of so many bytes. -/
def remove (n : ℕ) : Message := ⟨.TRemove, (1, List.replicate n 97, [], ())⟩

def removeRun (n : ℕ) : List ClientLabel :=
  [.start 1 (.tRemove (List.replicate n 97) []), .act 1 .go, .act 1 .lost, .act 1 .go]

def removed (n : ℕ) : List ClientEvent :=
  [.act 1 .go (.park 0) (), .act 1 .lost (.writeMessage (remove n)) (.ok ()), .act 1 .go .newCall (.ok (0, 1)),
    .start 1 (.tRemove (List.replicate n 97) [])]

theorem requests_sent_remove : ∃ p, run (system 20 fun _ _ _ => true) (removeRun 3) (attached 20 1) = some p ∧
    p.past = removed 3 ∧ Requested 20 p := by
  have hrun : (run (system 20 fun _ _ _ => true) (removeRun 3) (attached 20 1)).map Pool.past = some (removed 3) := rfl
  obtain ⟨p, hp, hpast⟩ := Option.map_eq_some_iff.mp hrun
  refine ⟨p, hp, hpast, ((requests_sent_iff 20).2 _ _ _ p hp).mpr (fun i c m r hmem => ?_)⟩
  have hm : m = remove 3 := by
    rw [hpast] at hmem
    simp [removed] at hmem
    exact hmem.2.2.1
  subst hm
  exact ⟨⟨trivial, by simp [ShortString], by simp [ShortString], trivial⟩, by decide⟩

/-- The path is too long for a message of 20 bytes, so no request is on the wire, and the call waits. -/
theorem remove_waits : ∃ p, run (system 20 fun _ _ _ => true) (removeRun 30) (attached 20 1) = some p ∧
    p.past = removed 30 ∧ ¬ Requested 20 p := by
  have hrun : (run (system 20 fun _ _ _ => true) (removeRun 30) (attached 20 1)).map Pool.past = some (removed 30) := rfl
  obtain ⟨p, hp, hpast⟩ := Option.map_eq_some_iff.mp hrun
  refine ⟨p, hp, hpast, fun h => ?_⟩
  have hwritten : Complete 20 .lost (remove 30) := h.written (i := 1) (by simp [hpast, removed])
  exact absurd (encodable_of_complete hwritten).2 (by decide)

end Runs

end Bpy.SentRequests
