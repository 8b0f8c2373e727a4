import Bpy.RemoteClient

/-!
# The protocol of the client's operations

What every operation does, as an automaton: an id, one message with that id, one receive,
and the id is given back; the reader reads the head and the rest of a message and delivers
it. Every operation keeps to the protocol, whatever it is answered.
-/
namespace Bpy.RemoteProtocol
open ByteWords InteractionPrograms ContentStore RemoteMessages RemoteMessageRoundTrip Interleaving Function Discipline
  RemoteClient
open ProgramLogic.Method (onOk)

section Protocol

inductive Stage where
  | made
  | written
  | parked
  | over (resp : Option Held)

/-- Where the reader is: what it has read of the next message. -/
inductive Reading where
  | between
  | headed (head : Bytes)
  | holding (frame : Bytes)
  | ended

inductive Phase where
  | idle
  | calling (ch : ℕ) (mid : UInt16) (st : Stage)
  | returned (resp : Option Held)
  | copied (resp : Held) (s : Slice) (data : Bytes)
  | reading (st : Reading)

/-- The phases in which a request may be issued. What is not listed does not concern calls. -/
def allows (maxsz : UInt32) (ph : Phase) : Request → Prop
  | .newCall => ph = .idle
  | .writeMessage m => (ph = .idle ∧ m.type = .TWritePack) ∨
      ∃ ch, ph = .calling ch (getMessageId m) .made ∧ m.type ≠ .TWritePack
  | .park ch => ∃ mid, ph = .calling ch mid .written
  | .receive ch => ∃ mid, ph = .calling ch mid .parked
  | .deleteCall mid => ∃ ch resp, ph = .calling ch mid (.over resp)
  | .copyData s => ∃ resp, ph = .returned (some resp) ∧ resp.type = .RReadAt ∧
      (dataOf resp).len ≠ 0 ∧ s.off = (dataOf resp).off ∧ s.len ≤ (dataOf resp).len
  | .readHead => ph = .reading .between ∨ ∃ frame, ph = .reading (.holding frame)
  | .readBody sz => ∃ head, ph = .reading (.headed head) ∧ sz = beNat head ∧ 4 ≤ sz ∧ sz ≤ maxsz.toNat
  | .deliver mid m => ∃ frame msg, ph = .reading (.holding frame) ∧ unpackMessage frame = .ok msg ∧
      mid = getMessageId msg ∧ m = held msg
  | _ => True

def next (ph : Phase) : (q : Request) → Response q → Phase
  | .newCall, .ok (ch, mid) => .calling ch mid .made
  | .writeMessage _, r =>
    match ph, r with
    | .calling ch mid .made, .ok _ => .calling ch mid .written
    | .calling ch mid .made, .error _ => .calling ch mid (.over none)
    | _, _ => ph
  | .park _, _ =>
    match ph with
    | .calling ch mid _ => .calling ch mid .parked
    | _ => ph
  | .receive _, resp =>
    match ph with
    | .calling ch mid _ => .calling ch mid (.over resp)
    | _ => ph
  | .deleteCall _, _ =>
    match ph with
    | .calling _ _ (.over resp) => .returned resp
    | _ => ph
  | .copyData s, data =>
    match ph with
    | .returned (some resp) => .copied resp s data
    | _ => ph
  | .readHead, .ok head => .reading (.headed head)
  | .readHead, .error _ => .reading .ended
  | .readBody _, .ok frame => .reading (.holding frame)
  | .readBody _, .error _ => .reading .ended
  | .deliver _ _, _ => .reading .between
  | _, _ => ph

def protocol (maxsz : UInt32) : Discipline Request Response Phase := ⟨allows maxsz, next⟩

def initial : Op → Phase
  | .readMessages _ => .reading .between
  | _ => .idle

/-- What an operation returns comes from its call. -/
def final (op : Op) (r : Outcome) (ph : Phase) : Prop :=
  match op, r.1 with
  | _, .ok (.message m) => ph = .returned (some m)
  | .fileRead _ _ len, .ok (.read data) =>
    ∃ resp, ph = .copied resp ⟨(dataOf resp).off, min len (dataOf resp).len⟩ data
  | _, .ok (.read _) => False
  | _, _ => True

end Protocol

section Keeps

variable (maxsz : UInt32) {α : Type}

theorem wp_ask_bind {Ph : Type} {D : Discipline Request Response Ph} {q : Request} {f : Response q → ClientM α}
    {P : Except GoError α → Unit → Ph → Prop} {ph : Ph} (hallows : D.allows ph q)
    (hf : ∀ r, D.wp (f r) P () (D.next ph q r)) : D.wp (ask q >>= f) P () ph := by
  apply wp_send_bind hallows
  · intro r b hb
    cases hb
    exact hf r
  · nofun

theorem eq_of_notError {resp x : Held} (h : notError resp = .ok x) : resp = x := by
  unfold notError at h
  split at h <;> cases h
  rfl

theorem wp_exchange {m : Message} (hm : m.type ≠ .TWritePack) (ch : ℕ) :
    (protocol maxsz).wp (exchange m ch) (fun r _ ph => ∃ resp,
      ph = .calling ch (getMessageId m) (.over resp) ∧ ∀ x, r = .ok x → resp = some x)
      () (.calling ch (getMessageId m) .made) := by
  apply wp_send_bind (Or.inr ⟨ch, rfl, hm⟩)
  · intro r b hr
    cases r with
    | error e => cases hr
    | ok u =>
      refine wp_ask_bind ⟨_, rfl⟩ (fun _ => ?_)
      apply wp_send_bind
      · exact ⟨_, rfl⟩
      · intro r resp hr
        cases r with
        | none => cases hr
        | some resp =>
          cases hr
          apply wp_ofExcept
          exact ⟨some resp, rfl, fun x hx => congrArg some (eq_of_notError hx)⟩
      · intro r e hr
        exact ⟨r, rfl, nofun⟩
  · intro r e hr
    cases r with
    | ok u => cases hr
    | error e => exact ⟨none, rfl, nofun⟩

theorem wp_call {m : Message} (hm : m.type ≠ .TWritePack) (ch : ℕ) :
    (protocol maxsz).wp (call m ch (getMessageId m)) (fun r _ ph => ∃ resp,
      ph = .returned resp ∧ ∀ x, r = .ok x → resp = some x) () (.calling ch (getMessageId m) .made) := by
  apply wp_attempt_bind _ (wp_exchange maxsz hm ch)
  intro r _ ph hph
  obtain ⟨resp, rfl, hresp⟩ := hph
  refine wp_ask_bind ⟨_, _, rfl⟩ (fun _ => ?_)
  exact ⟨resp, rfl, hresp⟩

theorem wp_request {m : UInt16 → Message} (hmid : ∀ mid, getMessageId (m mid) = mid)
    (hm : ∀ mid, (m mid).type ≠ .TWritePack) (t : MessageType) :
    (protocol maxsz).wp (request m t) (onOk fun resp _ ph => ph = .returned (some resp) ∧ resp.type = t)
      () .idle := by
  apply wp_send_bind rfl
  · intro r b hr
    cases hr
    obtain ⟨ch, mid⟩ := b
    have hcall := wp_call maxsz (hm mid) ch
    rw [hmid] at hcall
    apply wp_bind _ hcall
    · intro resp _ ph hph
      obtain ⟨o, rfl, ho⟩ := hph
      cases ho resp rfl
      split
      · next ht => exact wp_pure ⟨rfl, ht⟩
      · exact wp_raise trivial
    · intros
      trivial
  · intros
    trivial

variable {maxsz}

theorem wp_message {x : ClientM Held} {t : MessageType}
    (hx : (protocol maxsz).wp x (onOk fun resp _ ph => ph = .returned (some resp) ∧ resp.type = t) () .idle) (op : Op) :
    (protocol maxsz).wp (x >>= fun m => pure (.message m)) (fun r w ph => final op (r, w) ph) () .idle := by
  apply wp_bind _ hx
  · intro resp _ ph hph
    exact wp_pure hph.1
  · intros
    trivial

theorem wp_newPack (name : Bytes) : (protocol maxsz).wp (newPack name) (fun _ _ _ => True) () .idle := by
  apply wp_send_bind
  · trivial
  · intro _ pid _
    apply wp_send_bind
    · rfl
    · intro r b hr
      cases hr
      obtain ⟨ch, mid⟩ := b
      apply wp_attempt_bind _ (wp_call maxsz (m := ⟨.TNewPack, (mid, pid, name, ())⟩) nofun ch)
      intro r _ ph _
      cases r with
      | error e => exact wp_ask_bind trivial (fun _ => trivial)
      | ok resp =>
        dsimp only
        split
        · trivial
        · exact wp_ask_bind trivial (fun _ => trivial)
    · intros
      trivial
  · intros
    trivial

theorem wp_openFile (name : Bytes) : (protocol maxsz).wp (openFile name) (fun _ _ _ => True) () .idle := by
  apply wp_send_bind
  · trivial
  · intro _ fid _
    apply wp_attempt_bind _ (wp_request maxsz (m := fun mid => ⟨.TOpen, (mid, fid, name, ())⟩)
      (fun _ => rfl) (fun _ => nofun) .ROpen)
    intro r _ ph _
    cases r with
    | error e => exact wp_ask_bind trivial (fun _ => trivial)
    | ok resp => trivial
  · intros
    trivial

theorem wp_free_request (tab : Table) (id : UInt32) {m : UInt16 → Message}
    (hmid : ∀ mid, getMessageId (m mid) = mid) (hm : ∀ mid, (m mid).type ≠ .TWritePack) (t : MessageType) :
    (protocol maxsz).wp (do let _ ← ask (.freeId tab id); let _ ← request m t; pure ())
      (fun _ _ _ => True) () .idle := by
  refine wp_ask_bind trivial (fun r => ?_)
  apply wp_bind _ (wp_request maxsz hmid hm t)
  · intros
    trivial
  · intros
    trivial

theorem wp_fileRead (f : ℕ) (fid : UInt32) (len : ℕ) : (protocol maxsz).wp (fileRead maxsz f fid len)
    (onOk fun data _ ph => ∃ resp, ph = .copied resp ⟨(dataOf resp).off, min len (dataOf resp).len⟩ data)
    () .idle := by
  refine wp_ask_bind trivial (fun offset => ?_)
  apply wp_bind _ (wp_request maxsz
    (m := fun mid => ⟨.TReadAt, (mid, fid, offset, readSize maxsz len, ())⟩) (fun _ => rfl) (fun _ => nofun) .RReadAt)
  · intro resp _ ph hph
    obtain ⟨rfl, htype⟩ := hph
    dsimp only
    split
    · exact wp_raise trivial
    · next hlen =>
      refine wp_ask_bind ⟨resp, rfl, htype, hlen, rfl, min_le_right _ _⟩ (fun data => ?_)
      refine wp_ask_bind trivial (fun offset => ?_)
      refine wp_ask_bind trivial (fun _ => ?_)
      exact wp_pure ⟨resp, rfl⟩
  · intros
    trivial

theorem wp_fileSeek (f : ℕ) (offset : UInt64) (whence : ℕ) :
    (protocol maxsz).wp (fileSeek f offset whence) (fun _ _ _ => True) () .idle := by
  rw [fileSeek]
  split
  · exact wp_ask_bind trivial (fun _ => wp_send trivial (fun _ => trivial))
  · exact wp_raise trivial

theorem wp_writeLoop (maxn pid : UInt32) (rounds : ℕ) (buf : Bytes) (nsent : ℕ) :
    (protocol maxsz).wp (writeLoop maxn pid rounds buf nsent) (fun _ _ _ => True) () .idle := by
  induction rounds generalizing buf nsent with
  | zero => exact wp_send trivial (fun r => nomatch r)
  | succ rounds ih =>
    rw [writeLoop]
    split
    · trivial
    · apply wp_attempt_bind (fun _ _ ph => ph = .idle)
      · exact wp_send (Or.inl ⟨rfl, rfl⟩) (fun _ => rfl)
      · intro r _ ph hph
        rw [hph]
        cases r with
        | error e => trivial
        | ok u => exact ih _ _

theorem wp_packWrite (pid : UInt32) (buf : Bytes) (rounds : ℕ) :
    (protocol maxsz).wp (packWrite maxsz pid buf rounds) (fun _ _ _ => True) () .idle := by
  refine wp_ask_bind trivial (fun err => ?_)
  cases err with
  | some e => trivial
  | none => exact wp_writeLoop _ pid rounds buf 0

theorem wp_readMessage {st : Reading} (hst : st = .between ∨ ∃ frame, st = .holding frame) :
    (protocol maxsz).wp (readMessage maxsz) (fun r _ ph => ∀ m, r = .ok m →
      ∃ frame, ph = .reading (.holding frame) ∧ unpackMessage frame = .ok m) () (.reading st) := by
  rw [RemoteClient.readMessage]
  split
  · exact wp_raise nofun
  · apply wp_send_bind
    · rcases hst with rfl | ⟨frame, rfl⟩
      · exact Or.inl rfl
      · exact Or.inr ⟨frame, rfl⟩
    · intro r head hr
      cases hr
      dsimp only
      split
      · exact wp_raise nofun
      · next hmax =>
        split
        · exact wp_raise nofun
        · next hmin =>
          apply wp_send_bind
          · exact ⟨head, rfl, rfl, by omega, by omega⟩
          · intro r frame hr
            cases hr
            exact wp_ofExcept (fun m hm => ⟨frame, rfl, hm⟩)
          · intro r e hr m hm
            cases hm
    · intro r e hr m hm
      cases hm

theorem wp_readMessages (rounds : ℕ) {st : Reading} (hst : st = .between ∨ ∃ frame, st = .holding frame) :
    (protocol maxsz).wp (readMessages maxsz rounds) (fun _ _ _ => True) () (.reading st) := by
  induction rounds generalizing st with
  | zero => exact wp_send trivial (fun r => nomatch r)
  | succ rounds ih =>
    apply wp_attempt_bind _ (wp_readMessage hst)
    intro r _ ph hr
    cases r with
    | error e =>
      cases e with
      | panic msg => trivial
      | _ => exact wp_send trivial (fun _ => trivial)
    | ok m =>
      obtain ⟨frame, rfl, hm⟩ := hr m rfl
      have hdeliver : (protocol maxsz).wp
          (do Method.send (.deliver (getMessageId m) (held m)) id; readMessages maxsz rounds)
          (fun _ _ _ => True) () (.reading (.holding frame)) := by
        apply wp_send_bind
        · exact ⟨frame, m, rfl, hm, rfl, rfl⟩
        · intro r b hr
          exact ih (Or.inl rfl)
        · intros
          trivial
      dsimp only
      split
      · split
        · exact wp_ask_bind trivial (fun _ => hdeliver)
        · exact ih (Or.inr ⟨frame, rfl⟩)
      · exact hdeliver

theorem wp_other {x : ClientM α} {f : α → Result} {ph : Phase} (hx : (protocol maxsz).wp x (fun _ _ _ => True) () ph)
    (op : Op) (hf : ∀ a ph, final op (.ok (f a), ()) ph) :
    (protocol maxsz).wp (x >>= fun a => pure (f a)) (fun r w ph => final op (r, w) ph) () ph := by
  apply wp_bind _ hx
  · intro a _ ph _
    exact wp_pure (hf a ph)
  · intros
    trivial

theorem method_keeps (op : Op) : (protocol maxsz).wp (op.method maxsz) (fun r w ph => final op (r, w) ph) ()
    (initial op) := by
  cases op with
  | readMessages rounds => exact wp_other (wp_readMessages rounds (Or.inl rfl)) _ (fun _ _ => trivial)
  | tCasRoot newValue newVersion signature epoch =>
    exact wp_message (wp_request maxsz (fun _ => rfl) (by intro mid; exact nofun) .RCasRoot) _
  | tGetRoot => exact wp_message (wp_request maxsz (fun _ => rfl) (by intro mid; exact nofun) .RGetRoot) _
  | tRemove path epoch => exact wp_message (wp_request maxsz (fun _ => rfl) (by intro mid; exact nofun) .RRemove) _
  | tGetEpoch => exact wp_message (wp_request maxsz (fun _ => rfl) (by intro mid; exact nofun) .RGetEpoch) _
  | tStartGC => exact wp_message (wp_request maxsz (fun _ => rfl) (by intro mid; exact nofun) .RStartGC) _
  | tStopGC => exact wp_message (wp_request maxsz (fun _ => rfl) (by intro mid; exact nofun) .RStopGC) _
  | newPack name => exact wp_other (wp_newPack name) _ (fun _ _ => trivial)
  | openFile name => exact wp_other (wp_openFile name) _ (fun _ _ => trivial)
  | fileRead f fid len =>
    apply wp_bind _ (wp_fileRead f fid len)
    · intro data _ ph hph
      exact wp_pure hph
    · intros
      trivial
  | fileSeek f fid offset whence => exact wp_other (wp_fileSeek f offset whence) _ (fun _ _ => trivial)
  | fileClose f fid =>
    exact wp_other (wp_free_request .file fid (fun _ => rfl) (by intro mid; exact nofun) .RClose) _
      (fun _ _ => trivial)
  | packWrite p pid buf rounds => exact wp_other (wp_packWrite pid buf rounds) _ (fun _ _ => trivial)
  | packClose p pid =>
    exact wp_other (wp_free_request .pack pid (fun _ => rfl) (by intro mid; exact nofun) .RClosePack) _
      (fun _ _ => trivial)
  | packCancel p pid =>
    exact wp_other (wp_free_request .pack pid (fun _ => rfl) (by intro mid; exact nofun) .RCancelPack) _
      (fun _ _ => trivial)
  | close =>
    apply wp_send_bind
    · trivial
    · intros
      trivial
    · intros
      trivial

end Keeps

section Phases

section Parts

variable {Ph β : Type}

/-- A part of the phases of all threads. -/
def part (f : Ph → Option β) (phases : ℕ → Option (Op × Ph)) (i : ℕ) : Option β :=
  (phases i).bind (fun t => f t.2)

variable {f : Ph → Option β} {phases : ℕ → Option (Op × Ph)} {i : ℕ} {op : Op} {ph ph' : Ph}

theorem part_of_phase (hi : phases i = some (op, ph)) : part f phases i = f ph := by rw [part, hi]; rfl

theorem phase_of_part (hi : part some phases i = some ph) : ∃ op, phases i = some (op, ph) := by
  rw [part, Option.bind_eq_some_iff] at hi
  obtain ⟨⟨op, ph'⟩, hphase, hph⟩ := hi
  cases hph
  exact ⟨op, hphase⟩

theorem part_update (f : Ph → Option β) (phases : ℕ → Option (Op × Ph)) (i : ℕ) (op : Op) (ph : Ph) :
    part f (update phases i (some (op, ph))) = update (part f phases) i (f ph) := by
  funext j
  by_cases hj : j = i
  · subst hj
    rw [update_self, part, update_self]
    rfl
  · rw [update_of_ne hj, part, update_of_ne hj]
    rfl

theorem part_update_same (hi : phases i = some (op, ph)) (hf : f ph' = f ph) :
    part f (update phases i (some (op, ph'))) = part f phases := by
  rw [part_update, hf, ← part_of_phase (f := f) hi, Function.update_eq_self]

theorem part_start (hi : phases i = none) (hf : f ph = none) :
    part f (update phases i (some (op, ph))) = part f phases := by
  have hnone : part f phases i = none := by rw [part, hi]; rfl
  rw [part_update, hf, ← hnone, Function.update_eq_self]

theorem of_update_none {g : ℕ → Option β} {i j : ℕ} {x : β} (h : update g i none j = some x) : g j = some x := by
  by_cases hji : j = i
  · subst hji
    rw [update_self] at h
    cases h
  · rwa [update_of_ne hji] at h

end Parts

variable {phases : ℕ → Option (Op × Phase)} {i : ℕ} {ph : Phase}

/-- The channel and the id of a call in progress. -/
def slot : Phase → Option (ℕ × UInt16)
  | .calling ch mid _ => some (ch, mid)
  | _ => none

/-- The same for a call whose message is not yet written. -/
def unsent : Phase → Option (ℕ × UInt16)
  | .calling ch mid .made => some (ch, mid)
  | _ => none

/-- The same for a call whose message is written and that has not yet received. -/
def waits : Phase → Option (ℕ × UInt16)
  | .calling ch mid .written => some (ch, mid)
  | .calling ch mid .parked => some (ch, mid)
  | _ => none

/-- The message that a call has received. -/
def answer : Phase → Option Held
  | .calling _ _ (.over resp) => resp
  | .returned resp => resp
  | .copied resp _ _ => some resp
  | _ => none

def reads : Phase → Option Reading
  | .reading st => some st
  | _ => none

/-- The requests that only the reader issues. -/
def OfReader : Request → Prop
  | .readHead | .readBody _ | .deliver _ _ => True
  | _ => False

theorem reads_next {maxsz : UInt32} {q : Request} (hallows : allows maxsz ph q) (hq : ¬ OfReader q)
    (r : Response q) : reads (next ph q r) = reads ph := by
  cases q with
  | newCall =>
    obtain rfl := hallows
    cases r <;> rfl
  | deleteCall mid =>
    obtain ⟨ch, resp, rfl⟩ := hallows
    rfl
  | writeMessage m =>
    rcases hallows with ⟨rfl, -⟩ | ⟨ch, rfl, -⟩
    · rfl
    · cases r <;> rfl
  | park ch =>
    obtain ⟨mid, rfl⟩ := hallows
    rfl
  | receive ch =>
    obtain ⟨mid, rfl⟩ := hallows
    rfl
  | copyData s =>
    obtain ⟨resp, rfl, -⟩ := hallows
    rfl
  | readHead => exact absurd trivial hq
  | readBody sz => exact absurd trivial hq
  | deliver mid m => exact absurd trivial hq
  | _ => rfl

theorem slot_of_waits {x : ℕ × UInt16} (h : part waits phases i = some x) : part slot phases i = some x := by
  rw [part, Option.bind_eq_some_iff] at h ⊢
  obtain ⟨⟨op, ph⟩, hphase, h⟩ := h
  refine ⟨(op, ph), hphase, ?_⟩
  cases ph with
  | calling ch mid st => cases st <;> first | exact h | cases h
  | _ => cases h

theorem slot_of_unsent {x : ℕ × UInt16} (h : part unsent phases i = some x) :
    part slot phases i = some x ∧ part waits phases i = none := by
  rw [part, Option.bind_eq_some_iff] at h
  obtain ⟨⟨op, ph⟩, hphase, h⟩ := h
  rw [part, part, hphase]
  cases ph with
  | calling ch mid st => cases st <;> first | exact ⟨h, rfl⟩ | cases h
  | _ => cases h

end Phases

end Bpy.RemoteProtocol
