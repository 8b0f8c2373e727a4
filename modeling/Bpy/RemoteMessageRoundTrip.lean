import Bpy.RemoteMessages

/-!
# Messages survive the wire

Both directions: what is written is read, and what is read can only have been written in
one way. The bound on a message is the one that `ReadMessage` checks, `uint32(len(buf))`.
-/
namespace Bpy.RemoteMessageRoundTrip
open ByteWords InteractionPrograms ContentStore ByteSources CryptFile RemoteMessages
open List

def fieldSize : (k : Kind) → k.Value → ℕ
  | .bool, _ => 1
  | .uint16, _ => 2
  | .uint32, _ => 4
  | .uint64, _ => 8
  | .string, str => 2 + str.length
  | .slice, data => 4 + data.length

def fieldsSize : (ks : List Kind) → Values ks → ℕ
  | [], _ => 0
  | k :: ks, (v, vs) => fieldSize k v + fieldsSize ks vs

/-- The length of the encoding of a message. -/
def size (m : Message) : ℕ := 5 + fieldsSize m.type.kinds m.vals

/-- A string has a length of at most 65535. -/
def ShortString : (k : Kind) → k.Value → Prop
  | .string, str => str.length ≤ 65535
  | _, _ => True

def ShortStrings : (ks : List Kind) → Values ks → Prop
  | [], _ => True
  | k :: ks, (v, vs) => ShortString k v ∧ ShortStrings ks vs

theorem unpackType_getMessageType (t : MessageType) : unpackType (getMessageType t) = some t := by
  cases t <;> rfl

theorem getMessageType_of_unpackType {b : UInt8} {t : MessageType} (h : unpackType b = some t) :
    getMessageType t = b := by
  apply UInt8.toNat_inj.mp
  rw [unpackType] at h
  split at h <;> simp_all <;> subst h <;> rfl

section Cut

theorem cut_append {n : ℕ} {a : Bytes} (h : a.length = n) (rest : Bytes) : cut n (a ++ rest) = .ok (a, rest) := by
  rw [cut, if_neg (by simp [h]), List.take_left' h, List.drop_left' h]

theorem cut_eq_ok {n : ℕ} {buf a rest : Bytes} (h : cut n buf = .ok (a, rest)) : a.length = n ∧ buf = a ++ rest := by
  rw [cut] at h
  split at h
  · simp at h
  · next hn =>
    simp only [Except.ok.injEq, Prod.mk.injEq] at h
    rw [← h.1, ← h.2, take_append_drop]
    exact ⟨by rw [length_take]; omega, rfl⟩

end Cut

section Field

theorem cut_bind {α : Type} {n : ℕ} {a : Bytes} (h : a.length = n) (rest : Bytes)
    (f : Bytes × Bytes → Except GoError α) : (cut n (a ++ rest) >>= f) = f (a, rest) := by
  rw [cut_append h]
  rfl

theorem bind_cut_eq_ok {α : Type} {n : ℕ} {buf : Bytes} {f : Bytes × Bytes → Except GoError α} {x : α}
    (h : (cut n buf >>= f) = .ok x) : ∃ a rest, a.length = n ∧ buf = a ++ rest ∧ f (a, rest) = .ok x := by
  cases hc : cut n buf with
  | error e =>
    rw [hc] at h
    exact absurd h (by simp [bind, Except.bind])
  | ok p =>
    obtain ⟨hlen, hbuf⟩ := cut_eq_ok (show cut n buf = .ok (p.1, p.2) from hc)
    rw [hc] at h
    exact ⟨p.1, p.2, hlen, hbuf, h⟩

theorem packField_spec {k : Kind} {v : k.Value} {room : ℕ} (hv : ShortString k v)
    (hroom : fieldSize k v ≤ room % 2 ^ 32) : ∃ bytes, packField k v room = .ok bytes ∧
      bytes.length = fieldSize k v ∧ ∀ rest, unpackField k (bytes ++ rest) = .ok (v, rest) := by
  have hle : room % 2 ^ 32 ≤ room := Nat.mod_le _ _
  cases k with
  | bool =>
    simp only [fieldSize] at hroom
    refine ⟨_, if_neg (by omega), rfl, ?_⟩
    intro rest
    rw [unpackField, cut_bind (n := 1) rfl]
    cases v <;> rfl
  | uint16 =>
    simp only [fieldSize] at hroom
    refine ⟨_, if_neg (by omega), length_beBytes _ _, ?_⟩
    intro rest
    rw [unpackField, cut_bind (length_beBytes _ _)]
    simp only [beNat_beBytes_of_lt (w := 2) v.toNat_lt, UInt16.ofNat_toNat]
    rfl
  | uint32 =>
    simp only [fieldSize] at hroom
    refine ⟨_, if_neg (by omega), length_beBytes _ _, ?_⟩
    intro rest
    rw [unpackField, cut_bind (length_beBytes _ _)]
    simp only [beNat_beBytes_of_lt (w := 4) v.toNat_lt, UInt32.ofNat_toNat]
    rfl
  | uint64 =>
    simp only [fieldSize] at hroom
    refine ⟨_, if_neg (by omega), length_beBytes _ _, ?_⟩
    intro rest
    rw [unpackField, cut_bind (length_beBytes _ _)]
    simp only [beNat_beBytes_of_lt (w := 8) v.toNat_lt, UInt64.ofNat_toNat]
    rfl
  | string =>
    have hv : v.length ≤ 65535 := hv
    simp only [fieldSize] at hroom
    refine ⟨beBytes 2 v.length ++ v, ?_, by simp [fieldSize], ?_⟩
    · rw [packField, if_neg (by omega), if_neg (by omega), if_neg (by omega)]
    · intro rest
      have hword : beNat (beBytes 2 v.length) = v.length := beNat_beBytes_of_lt (by omega)
      rw [unpackField, append_assoc, cut_bind (length_beBytes _ _)]
      dsimp only
      rw [hword, cut_append rfl]
  | slice =>
    simp only [fieldSize] at hroom
    have hlt : room % 2 ^ 32 < 2 ^ 32 := Nat.mod_lt _ (by decide)
    have hsz : v.length % 2 ^ 32 = v.length := Nat.mod_eq_of_lt (by omega)
    refine ⟨beBytes 4 v.length ++ v, ?_, by simp [fieldSize], ?_⟩
    · rw [packField, if_neg (by omega), if_neg (by omega), hsz]
      dsimp only
      rw [if_neg (by omega), take_length]
    · intro rest
      have hword : beNat (beBytes 4 v.length) = v.length := beNat_beBytes_of_lt (by omega)
      rw [unpackField, append_assoc, cut_bind (length_beBytes _ _)]
      dsimp only
      rw [hword, cut_append rfl]

theorem unpackField_spec {k : Kind} {v : k.Value} {buf rest : Bytes}
    (h : unpackField k buf = .ok (v, rest)) : ∃ bytes, buf = bytes ++ rest ∧
      bytes.length = fieldSize k v ∧ ((k = .bool → bytes = [0] ∨ bytes = [1]) →
        ∀ room, fieldSize k v ≤ room % 2 ^ 32 → packField k v room = .ok bytes) := by
  have hle (room : ℕ) : room % 2 ^ 32 ≤ room := Nat.mod_le _ _
  have hlt (room : ℕ) : room % 2 ^ 32 < 2 ^ 32 := Nat.mod_lt _ (by decide)
  cases k with
  | bool =>
    obtain ⟨a, tail, hlen, rfl, hv⟩ := bind_cut_eq_ok h
    cases hv
    refine ⟨a, rfl, hlen, ?_⟩
    intro hbool room hroom
    have := hle room
    simp only [fieldSize] at hroom
    rw [packField, if_neg (by omega)]
    rcases hbool rfl with rfl | rfl <;> rfl
  | uint16 =>
    obtain ⟨a, tail, hlen, rfl, hv⟩ := bind_cut_eq_ok h
    cases hv
    refine ⟨a, rfl, hlen, ?_⟩
    intro _ room hroom
    have := hle room
    have hword := beNat_lt a
    simp only [fieldSize, hlen] at hroom hword
    rw [packField, if_neg (by omega), UInt16.toNat_ofNat_of_lt' (by simpa using hword), beBytes_beNat hlen]
  | uint32 =>
    obtain ⟨a, tail, hlen, rfl, hv⟩ := bind_cut_eq_ok h
    cases hv
    refine ⟨a, rfl, hlen, ?_⟩
    intro _ room hroom
    have := hle room
    have hword := beNat_lt a
    simp only [fieldSize, hlen] at hroom hword
    rw [packField, if_neg (by omega), UInt32.toNat_ofNat_of_lt' (by simpa using hword), beBytes_beNat hlen]
  | uint64 =>
    obtain ⟨a, tail, hlen, rfl, hv⟩ := bind_cut_eq_ok h
    cases hv
    refine ⟨a, rfl, hlen, ?_⟩
    intro _ room hroom
    have := hle room
    have hword := beNat_lt a
    simp only [fieldSize, hlen] at hroom hword
    rw [packField, if_neg (by omega), UInt64.toNat_ofNat_of_lt' (by simpa using hword), beBytes_beNat hlen]
  | string =>
    obtain ⟨a, tail, hlen, rfl, hv⟩ := bind_cut_eq_ok h
    obtain ⟨hvlen, rfl⟩ := cut_eq_ok hv
    refine ⟨a ++ v, by simp, by simp [fieldSize, hlen], ?_⟩
    intro _ room hroom
    have := hle room
    have hword := beNat_lt a
    simp only [fieldSize, hlen] at hroom hword
    rw [packField, if_neg (by omega), if_neg (by omega), if_neg (by omega), hvlen, beBytes_beNat hlen]
  | slice =>
    obtain ⟨a, tail, hlen, rfl, hv⟩ := bind_cut_eq_ok h
    obtain ⟨hvlen, rfl⟩ := cut_eq_ok hv
    refine ⟨a ++ v, by simp, by simp [fieldSize, hlen], ?_⟩
    intro _ room hroom
    have := hle room
    have := hlt room
    simp only [fieldSize] at hroom
    have hsz : v.length % 2 ^ 32 = v.length := Nat.mod_eq_of_lt (by omega)
    rw [packField, if_neg (by omega), if_neg (by omega), hsz]
    dsimp only
    rw [if_neg (by omega), take_length, hvlen, beBytes_beNat hlen]

end Field

section Message

theorem sub_mod_of_le {room n : ℕ} (h : n ≤ room % 2 ^ 32) : (room - n) % 2 ^ 32 = room % 2 ^ 32 - n := by omega

theorem packFields_spec {ks : List Kind} {vs : Values ks} {room : ℕ} (hvs : ShortStrings ks vs)
    (hroom : fieldsSize ks vs ≤ room % 2 ^ 32) : ∃ bytes, packFields ks vs room = .ok bytes ∧
      bytes.length = fieldsSize ks vs ∧ unpackFields ks bytes = .ok vs := by
  induction ks generalizing room with
  | nil => exact ⟨[], rfl, rfl, rfl⟩
  | cons k ks ih =>
    obtain ⟨v, vs⟩ := vs
    simp only [fieldsSize] at hroom
    obtain ⟨bytes, hpack, hlen, hunpack⟩ := packField_spec hvs.1 (by omega : fieldSize k v ≤ room % 2 ^ 32)
    have hrest : fieldsSize ks vs ≤ (room - bytes.length) % 2 ^ 32 := by
      rw [hlen, sub_mod_of_le (by omega)]
      omega
    obtain ⟨rest, hpack', hlen', hunpack'⟩ := ih hvs.2 hrest
    refine ⟨bytes ++ rest, ?_, ?_, ?_⟩
    · simp only [packFields, hpack, hpack']
    · simp only [length_append, hlen, hlen', fieldsSize]
    · simp only [unpackFields, hunpack, hunpack']

/-- The bytes that are read as bools. -/
def boolBytes : List Kind → Bytes → List Bytes
  | [], _ => []
  | k :: ks, buf =>
    match unpackField k buf with
    | .error _ => []
    | .ok (_, rest) => (if k = .bool then [buf.take 1] else []) ++ boolBytes ks rest

def Canonical (bools : List Bytes) : Prop := ∀ b ∈ bools, b = [0] ∨ b = [1]

theorem unpackFields_spec {ks : List Kind} {vs : Values ks} {buf : Bytes}
    (h : unpackFields ks buf = .ok vs) : buf.length = fieldsSize ks vs ∧
      (Canonical (boolBytes ks buf) → ∀ room, fieldsSize ks vs ≤ room % 2 ^ 32 →
        packFields ks vs room = .ok buf) := by
  induction ks generalizing buf with
  | nil =>
    rw [unpackFields] at h
    split at h
    · simp at h
    · next hlen =>
      rw [not_not, length_eq_zero_iff] at hlen
      subst hlen
      exact ⟨rfl, fun _ _ _ => rfl⟩
  | cons k ks ih =>
    rw [unpackFields] at h
    split at h
    · simp at h
    · next v rest hfield =>
      split at h
      · simp at h
      · next vs' hfields =>
        cases h
        obtain ⟨bytes, rfl, hlen, hpack⟩ := unpackField_spec hfield
        obtain ⟨hlen', hpack'⟩ := ih hfields
        refine ⟨by simp only [length_append, hlen, hlen', fieldsSize], ?_⟩
        intro hcanonical room hroom
        simp only [fieldsSize] at hroom
        simp only [boolBytes, hfield] at hcanonical
        have hbool : k = .bool → bytes = [0] ∨ bytes = [1] := by
          intro hk
          subst hk
          have htake : (bytes ++ rest).take 1 = bytes := List.take_left' hlen
          rw [htake] at hcanonical
          exact hcanonical bytes (by simp)
        have hrest : Canonical (boolBytes ks rest) := fun b hb => hcanonical b (mem_append_right _ hb)
        have hroom' : fieldsSize ks vs' ≤ (room - bytes.length) % 2 ^ 32 := by
          rw [hlen, sub_mod_of_le (by omega)]
          omega
        simp only [packFields, hpack hbool room (by omega), hpack' hrest _ hroom']

/-- The bytes of the bools of a frame. -/
def frameBools (frame : Bytes) : List Bytes :=
  match frame[4]?.bind unpackType with
  | none => []
  | some t => boolBytes t.kinds (frame.drop 5)

variable {m : Message} {len : ℕ}

theorem packMessage_spec (hm : ShortStrings m.type.kinds m.vals) (hlen : size m ≤ len % 2 ^ 32) :
    ∃ head body, packMessage m len = .ok (head ++ body) ∧ head.length = 4 ∧
      beNat head = 4 + body.length ∧ 4 + body.length = size m ∧ unpackMessage (head ++ body) = .ok m := by
  have hle : len % 2 ^ 32 ≤ len := Nat.mod_le _ _
  have hlt : len % 2 ^ 32 < 2 ^ 32 := Nat.mod_lt _ (by decide)
  simp only [size] at hlen
  have hroom : fieldsSize m.type.kinds m.vals ≤ (len - 5) % 2 ^ 32 := by
    rw [sub_mod_of_le (by omega)]
    omega
  obtain ⟨fields, hpack, hfields, hunpack⟩ := packFields_spec hm hroom
  refine ⟨beBytes 4 (5 + fields.length), getMessageType m.type :: fields, ?_, length_beBytes _ _, ?_, ?_, ?_⟩
  · rw [packMessage, if_neg (by omega), hpack]
  · rw [beNat_beBytes_of_lt (by omega), length_cons]
    omega
  · rw [size, length_cons]
    omega
  · have htype : (beBytes 4 (5 + fields.length) ++ getMessageType m.type :: fields)[4]? =
        some (getMessageType m.type) := by
      rw [List.getElem?_append_right (by simp)]
      simp
    have hdrop : (beBytes 4 (5 + fields.length) ++ getMessageType m.type :: fields).drop 5 = fields := by
      rw [drop_append]
      simp [drop_eq_nil_of_le]
    simp only [unpackMessage, htype, unpackType_getMessageType, hdrop, hunpack]

theorem unpackMessage_spec {frame : Bytes} (len : ℕ) (h : unpackMessage frame = .ok m) :
    frame.length = size m ∧ (beNat (frame.take 4) = frame.length → Canonical (frameBools frame) →
      size m ≤ len % 2 ^ 32 → packMessage m len = .ok frame) := by
  rw [unpackMessage] at h
  split at h
  · simp at h
  · next b hb =>
    split at h
    · simp at h
    · next t ht =>
      split at h
      · simp at h
      · next vals hvals =>
        cases h
        obtain ⟨hlen, hpack⟩ := unpackFields_spec hvals
        obtain ⟨hlt, hb4⟩ := List.getElem?_eq_some_iff.mp hb
        have hframe : frame.take 4 ++ b :: frame.drop 5 = frame := by
          rw [← hb4, getElem_cons_drop, take_append_drop]
        have hsize : frame.length = 5 + fieldsSize t.kinds vals := by
          rw [length_drop] at hlen
          omega
        refine ⟨hsize, ?_⟩
        intro hhead hcanonical hroom
        have hle : len % 2 ^ 32 ≤ len := Nat.mod_le _ _
        simp only [size] at hroom
        have hbools : Canonical (boolBytes t.kinds (frame.drop 5)) := by
          simpa only [frameBools, hb, Option.bind_some, ht] using hcanonical
        have hfields : fieldsSize t.kinds vals ≤ (len - 5) % 2 ^ 32 := by
          rw [sub_mod_of_le (by omega)]
          omega
        have hword : beBytes 4 (5 + (frame.drop 5).length) = frame.take 4 := by
          have hfour : (frame.take 4).length = 4 := by
            rw [length_take]
            omega
          rw [hlen, ← hsize, ← hhead, beBytes_beNat hfour]
        rw [packMessage, if_neg (by omega)]
        simp only [hpack hbools _ hfields, hword, getMessageType_of_unpackType ht, hframe]

end Message

section Stream

variable {len : ℕ}

theorem readMessage_yields {ρ : Type} {read : ReadFn ρ} {stream : ρ → Bytes} {Inv : ρ → Prop}
    (h : Delivers read stream Inv) {m : Message} (hm : ShortStrings m.type.kinds m.vals)
    (hlen : size m ≤ len % 2 ^ 32) {frame rest : Bytes} (hframe : packMessage m len = .ok frame) {r : ρ}
    (hr : Inv r) (hs : stream r = frame ++ rest) : Yields stream Inv (readMessage read len) r m rest := by
  obtain ⟨head, body, hpack, hhead, hword, hsize, hunpack⟩ := packMessage_spec hm hlen
  rw [hframe, Except.ok.injEq] at hpack
  rw [hpack, append_assoc] at hs
  have hle : len % 2 ^ 32 ≤ len := Nat.mod_le _ _
  rw [readMessage, if_neg (by omega)]
  have hread := readFull_yields_append h hr hs
  rw [hhead] at hread
  apply hread.bind
  intro r₁ hr₁ hs₁
  rw [readBody, hword, if_neg (by omega), if_neg (by omega), Nat.add_sub_cancel_left]
  apply (readFull_yields_append h hr₁ hs₁).bind
  intro r₂ hr₂ hs₂
  rw [hunpack]
  exact ⟨r₂, rfl, hr₂, hs₂⟩

/-- A message that has been read fits `uint32(len(buf))`, and packing it gives the bytes that
have been read. -/
theorem readMessage_ok {m : Message} {r r' : Bytes} (h : readMessage fileRead len r = (.ok m, r')) :
    size m ≤ len % 2 ^ 32 ∧ ∃ frame, r = frame ++ r' ∧
      (Canonical (frameBools frame) → packMessage m len = .ok frame) := by
  rw [readMessage] at h
  split at h
  · cases h
  · obtain ⟨head, r₁, hhead, hrest⟩ := bind_eq_ok.mp h
    obtain ⟨hfour, rfl⟩ := readFull_fileRead_ok hhead
    rw [readBody] at hrest
    split at hrest
    · cases hrest
    · next hmax =>
      split at hrest
      · cases hrest
      · next hmin =>
        obtain ⟨body, r₂, hbody, hlift⟩ := bind_eq_ok.mp hrest
        obtain ⟨hlen, rfl⟩ := readFull_fileRead_ok hbody
        obtain ⟨hunpack, rfl⟩ := liftExcept_eq_ok.mp hlift
        obtain ⟨hsize, hpack⟩ := unpackMessage_spec len hunpack
        have htotal : (head ++ body).length = beNat head := by
          rw [length_append]
          omega
        refine ⟨by omega, head ++ body, by rw [append_assoc], ?_⟩
        intro hcanonical
        apply hpack _ hcanonical (by omega)
        rw [List.take_left' hfour, htotal]

variable {ms : List Message}

theorem readMessages_yields (hms : ∀ m ∈ ms, ShortStrings m.type.kinds m.vals)
    (hlen : ∀ m ∈ ms, size m ≤ len % 2 ^ 32) (file : Bytes) : ∃ frames,
      Method.exec fileSink (writeMessages len ms) () file = (.ok (), (), file ++ frames) ∧
      readMessages fileRead len ms.length frames = (.ok ms, []) := by
  induction ms generalizing file with
  | nil => exact ⟨[], by simp [writeMessages], rfl⟩
  | cons m ms ih =>
    have hm := hms m mem_cons_self
    have hmlen := hlen m mem_cons_self
    obtain ⟨head, body, hpack, -⟩ := packMessage_spec hm hmlen
    obtain ⟨frames, hwrite, hread⟩ := ih (fun x hx => hms x (mem_cons_of_mem m hx))
      (fun x hx => hlen x (mem_cons_of_mem m hx)) (file ++ (head ++ body))
    refine ⟨head ++ body ++ frames, ?_, ?_⟩
    · have hone : Method.exec fileSink (writeMessage m len) () file = (.ok (), (), file ++ (head ++ body)) := by
        rw [writeMessage, hpack]
        rfl
      rw [writeMessages, Method.exec_bind_ok fileSink hone, hwrite, append_assoc]
    · obtain ⟨r', hfirst, -, hs⟩ := readMessage_yields fileRead_delivers hm hmlen hpack (r := head ++ body ++ frames)
        trivial rfl
      cases hs
      apply bind_eq_ok.mpr
      refine ⟨m, r', hfirst, bind_eq_ok.mpr ⟨ms, [], hread, rfl⟩⟩

theorem readMessages_ok {n : ℕ} {r r' : Bytes} (h : readMessages fileRead len n r = (.ok ms, r')) :
    ∀ m ∈ ms, size m ≤ len % 2 ^ 32 := by
  induction n generalizing ms r with
  | zero =>
    cases h
    simp
  | succ n ih =>
    obtain ⟨m, r₁, hfirst, hrest⟩ := bind_eq_ok.mp h
    obtain ⟨ms', r₂, hmore, hpure⟩ := bind_eq_ok.mp hrest
    cases hpure
    intro x hx
    rcases mem_cons.mp hx with rfl | hx
    · exact (readMessage_ok hfirst).1
    · exact ih hmore x hx

end Stream

/-- What `WriteMessage` puts into an empty file. -/
def written (len : ℕ) (ms : List Message) : Bytes :=
  (Method.exec fileSink (writeMessages len ms) () []).2.2

/-- Messages that fit the buffer are read back, and nothing is left, exactly if they fit the
low 32 bits of the length of the buffer. A message that is read is the only one that packs
to the bytes that were read, whatever the length of the buffer. -/
theorem messages_roundTrip_iff (len : ℕ) (ms : List Message)
    (hms : ∀ m ∈ ms, ShortStrings m.type.kinds m.vals ∧ size m ≤ len) :
    (readMessages fileRead len ms.length (written len ms) = (.ok ms, []) ↔
      ∀ m ∈ ms, size m ≤ len % 2 ^ 32) ∧
    ∀ m r r', readMessage fileRead len r = (.ok m, r') → ∃ frame, r = frame ++ r' ∧
      (Canonical (frameBools frame) → packMessage m len = .ok frame) := by
  constructor
  · constructor
    · exact readMessages_ok
    · intro hlen
      obtain ⟨frames, hwrite, hread⟩ := readMessages_yields (fun m hm => (hms m hm).1) hlen []
      rw [written, hwrite]
      exact hread
  · intro m r r' h
    exact (readMessage_ok h).2

-- in a buffer of `2 ^ 32` bytes a message of seven bytes is written, but not read
example : (readMessages fileRead (2 ^ 32) 1 (written (2 ^ 32) [⟨.TGetRoot, (7, ())⟩])).1 = .error errMsgTooLarge := rfl

/-- The length of a buffer is a `uint32`, at most 1 MiB after `Attach`: messages that fit it are
read back. -/
theorem messages_roundTrip (len : ℕ) (hlen : len < 2 ^ 32) (ms : List Message)
    (hms : ∀ m ∈ ms, ShortStrings m.type.kinds m.vals ∧ size m ≤ len) :
    readMessages fileRead len ms.length (written len ms) = (.ok ms, []) ∧
    ∀ m r r', readMessage fileRead len r = (.ok m, r') → ∃ frame, r = frame ++ r' ∧
      (Canonical (frameBools frame) → packMessage m len = .ok frame) := by
  obtain ⟨hread, hpack⟩ := messages_roundTrip_iff len ms hms
  refine ⟨hread.mpr ?_, hpack⟩
  intro m hm
  rw [Nat.mod_eq_of_lt hlen]
  exact (hms m hm).2

/-- Two messages in a buffer of 1 MiB. -/
theorem messages_roundTrip_two : readMessages fileRead 1048576 2
    (written 1048576 [⟨.TGetRoot, (7, ())⟩, ⟨.TGetEpoch, (8, ())⟩]) =
      (.ok [⟨.TGetRoot, (7, ())⟩, ⟨.TGetEpoch, (8, ())⟩], []) := by
  apply (messages_roundTrip 1048576 (by decide) [⟨.TGetRoot, (7, ())⟩, ⟨.TGetEpoch, (8, ())⟩] _).1
  intro m hm
  rcases List.mem_pair.mp hm with rfl | rfl
  · exact ⟨⟨trivial, trivial⟩, by decide⟩
  · exact ⟨⟨trivial, trivial⟩, by decide⟩

end Bpy.RemoteMessageRoundTrip
