import Bpy.ByteSources
import Bpy.CryptFile

/-!
# `remote/proto`

A message is packed as its length, the byte of its type and its fields in order. Packing
and unpacking see a message through reflection: as a struct type with a list of fields,
each of one of six kinds. A buffer is given by its length, which is also its capacity;
`uint32(len(buf))` drops the high bits of that length.
-/
namespace Bpy.RemoteMessages
open ByteWords InteractionPrograms ContentStore ByteSources CryptFile

/-- `reflect.Kind` of a field. -/
inductive Kind where
  | bool
  | uint16
  | uint32
  | uint64
  | string
  | slice
  deriving DecidableEq

abbrev Kind.Value : Kind → Type
  | .bool => Bool
  | .uint16 => UInt16
  | .uint32 => UInt32
  | .uint64 => UInt64
  | .string => Bytes
  | .slice => Bytes

inductive MessageType where
  | RError
  | TGetRoot
  | RGetRoot
  | TCasRoot
  | RCasRoot
  | TAttach
  | RAttach
  | TOpen
  | ROpen
  | TReadAt
  | RReadAt
  | TClose
  | RClose
  | TNewPack
  | RNewPack
  | TWritePack
  | RPackError
  | TClosePack
  | RClosePack
  | TCancelPack
  | RCancelPack
  | TRemove
  | RRemove
  | TStartGC
  | RStartGC
  | TStopGC
  | RStopGC
  | TGetEpoch
  | RGetEpoch
  deriving DecidableEq

/-- The fields of the struct types, in order. -/
def MessageType.fields : MessageType → List (String × Kind)
  | .RError => [("Mid", .uint16), ("Message", .string)]
  | .TGetRoot => [("Mid", .uint16)]
  | .RGetRoot => [("Mid", .uint16), ("Value", .string), ("Version", .string), ("Signature", .string),
      ("Ok", .bool)]
  | .TCasRoot => [("Mid", .uint16), ("Version", .string), ("Value", .string), ("Signature", .string),
      ("Epoch", .string)]
  | .RCasRoot => [("Mid", .uint16), ("Ok", .bool)]
  | .TAttach => [("Mid", .uint16), ("MaxMessageSize", .uint32), ("Version", .string), ("KeyId", .string)]
  | .RAttach => [("Mid", .uint16), ("MaxMessageSize", .uint32)]
  | .TOpen => [("Mid", .uint16), ("Fid", .uint32), ("Name", .string)]
  | .ROpen => [("Mid", .uint16)]
  | .TReadAt => [("Mid", .uint16), ("Fid", .uint32), ("Offset", .uint64), ("Size", .uint32)]
  | .RReadAt => [("Mid", .uint16), ("Data", .slice)]
  | .TClose => [("Mid", .uint16), ("Fid", .uint32)]
  | .RClose => [("Mid", .uint16)]
  | .TNewPack => [("Mid", .uint16), ("Pid", .uint32), ("Name", .string)]
  | .RNewPack => [("Mid", .uint16)]
  | .TWritePack => [("Pid", .uint32), ("Data", .slice)]
  | .RPackError => [("Pid", .uint32), ("Message", .string)]
  | .TClosePack => [("Mid", .uint16), ("Pid", .uint32)]
  | .RClosePack => [("Mid", .uint16)]
  | .TCancelPack => [("Mid", .uint16), ("Pid", .uint32)]
  | .RCancelPack => [("Mid", .uint16)]
  | .TRemove => [("Mid", .uint16), ("Path", .string), ("Epoch", .string)]
  | .RRemove => [("Mid", .uint16)]
  | .TStartGC => [("Mid", .uint16)]
  | .RStartGC => [("Mid", .uint16), ("Epoch", .string)]
  | .TStopGC => [("Mid", .uint16)]
  | .RStopGC => [("Mid", .uint16)]
  | .TGetEpoch => [("Mid", .uint16)]
  | .RGetEpoch => [("Mid", .uint16), ("Epoch", .string)]

def MessageType.kinds (t : MessageType) : List Kind := t.fields.map Prod.snd

/-- The values of the fields of a struct. -/
def Values : List Kind → Type
  | [] => Unit
  | k :: ks => k.Value × Values ks

structure Message where
  type : MessageType
  vals : Values type.kinds

/-- `GetMessageType`, with the values of the `iota` constants. -/
def getMessageType : MessageType → UInt8
  | .RError => 0
  | .TAttach => 1
  | .RAttach => 2
  | .TOpen => 5
  | .ROpen => 6
  | .TReadAt => 7
  | .RReadAt => 8
  | .TClose => 9
  | .RClose => 10
  | .TNewPack => 11
  | .RNewPack => 12
  | .TWritePack => 13
  | .RPackError => 14
  | .TClosePack => 15
  | .RClosePack => 16
  | .TCancelPack => 17
  | .RCancelPack => 18
  | .TRemove => 19
  | .RRemove => 20
  | .TGetRoot => 21
  | .RGetRoot => 22
  | .TCasRoot => 23
  | .RCasRoot => 24
  | .TStartGC => 25
  | .RStartGC => 26
  | .TStopGC => 27
  | .RStopGC => 28
  | .TGetEpoch => 29
  | .RGetEpoch => 30

/-- The switch of `UnpackMessage`. The constants 3 and 4, `TSTAT` and `RSTAT`, have no case. -/
def unpackType (b : UInt8) : Option MessageType :=
  match b.toNat with
  | 0 => some .RError
  | 1 => some .TAttach
  | 2 => some .RAttach
  | 5 => some .TOpen
  | 6 => some .ROpen
  | 7 => some .TReadAt
  | 8 => some .RReadAt
  | 9 => some .TClose
  | 10 => some .RClose
  | 11 => some .TNewPack
  | 12 => some .RNewPack
  | 13 => some .TWritePack
  | 14 => some .RPackError
  | 15 => some .TClosePack
  | 16 => some .RClosePack
  | 17 => some .TCancelPack
  | 18 => some .RCancelPack
  | 21 => some .TGetRoot
  | 22 => some .RGetRoot
  | 23 => some .TCasRoot
  | 24 => some .RCasRoot
  | 19 => some .TRemove
  | 20 => some .RRemove
  | 25 => some .TStartGC
  | 26 => some .RStartGC
  | 27 => some .TStopGC
  | 28 => some .RStopGC
  | 29 => some .TGetEpoch
  | 30 => some .RGetEpoch
  | _ => none

def errMsgTooLarge : GoError := .text "message too large"

def errStrTooLarge : GoError := .text "string too large"

def errMsgCorrupt : GoError := .text "message corrupt"

/-- The bytes of a field, packed into a buffer with `room` bytes left. A slice of `2 ^ 32`
bytes or more is cut to the low bits of its length. -/
def packField : (k : Kind) → k.Value → ℕ → Except GoError Bytes
  | .bool, v, room => if room < 1 then .error errMsgTooLarge else .ok [if v then 1 else 0]
  | .uint16, v, room => if room < 2 then .error errMsgTooLarge else .ok (beBytes 2 v.toNat)
  | .uint32, v, room => if room < 4 then .error errMsgTooLarge else .ok (beBytes 4 v.toNat)
  | .uint64, v, room => if room < 8 then .error errMsgTooLarge else .ok (beBytes 8 v.toNat)
  | .string, str, room =>
    if room < 2 then .error errMsgTooLarge
    else if str.length > 65535 then .error errStrTooLarge
    else if room - 2 < str.length then .error errMsgTooLarge
    else .ok (beBytes 2 str.length ++ str)
  | .slice, data, room =>
    if room < 2 then .error errMsgTooLarge
    else if room < 4 then .error (.panic "slice bounds out of range")
    else
      let sz := data.length % 2 ^ 32
      if (room - 4) % 2 ^ 32 < sz then .error errMsgTooLarge
      else .ok (beBytes 4 sz ++ data.take sz)

def packFields : (ks : List Kind) → Values ks → ℕ → Except GoError Bytes
  | [], _, _ => .ok []
  | k :: ks, (v, vs), room =>
    match packField k v room with
    | .error e => .error e
    | .ok bytes =>
      match packFields ks vs (room - bytes.length) with
      | .error e => .error e
      | .ok rest => .ok (bytes ++ rest)

/-- `PackMessage` with a buffer of `len` bytes, and the part of the buffer that it fills. -/
def packMessage (m : Message) (len : ℕ) : Except GoError Bytes :=
  if len < 5 then .error errMsgTooLarge
  else
    match packFields m.type.kinds m.vals (len - 5) with
    | .error e => .error e
    | .ok fields => .ok (beBytes 4 (5 + fields.length) ++ getMessageType m.type :: fields)

/-- `WriteMessage`. It returns `nil` for a message that cannot be packed. -/
def writeMessage {ω : Type} (m : Message) (len : ℕ) : SinkM ω Unit :=
  match packMessage m len with
  | .error (.panic msg) => Method.raise (.panic msg)
  | .error _ => pure ()
  | .ok bytes => Method.send (.write bytes) id

def writeMessages {ω : Type} (len : ℕ) : List Message → SinkM ω Unit
  | [] => pure ()
  | m :: ms => do
    writeMessage m len
    writeMessages len ms

def cut (n : ℕ) (buf : Bytes) : Except GoError (Bytes × Bytes) :=
  if buf.length < n then .error errMsgCorrupt else .ok (buf.take n, buf.drop n)

def unpackField : (k : Kind) → Bytes → Except GoError (k.Value × Bytes)
  | .bool, buf => do let (b, buf) ← cut 1 buf; pure (b ≠ [0], buf)
  | .uint16, buf => do let (b, buf) ← cut 2 buf; pure (UInt16.ofNat (beNat b), buf)
  | .uint32, buf => do let (b, buf) ← cut 4 buf; pure (UInt32.ofNat (beNat b), buf)
  | .uint64, buf => do let (b, buf) ← cut 8 buf; pure (UInt64.ofNat (beNat b), buf)
  | .string, buf => do let (b, buf) ← cut 2 buf; cut (beNat b) buf
  | .slice, buf => do let (b, buf) ← cut 4 buf; cut (beNat b) buf

def unpackFields : (ks : List Kind) → Bytes → Except GoError (Values ks)
  | [], buf => if buf.length ≠ 0 then .error errMsgCorrupt else .ok ()
  | k :: ks, buf =>
    match unpackField k buf with
    | .error e => .error e
    | .ok (v, buf) =>
      match unpackFields ks buf with
      | .error e => .error e
      | .ok vs => .ok (v, vs)

def unpackMessage (buf : Bytes) : Except GoError Message :=
  match buf[4]? with
  | none => .error (.panic "index out of range")
  | some b =>
    match unpackType b with
    | none => .error errMsgCorrupt
    | some t =>
      match unpackFields t.kinds (buf.drop 5) with
      | .error e => .error e
      | .ok vals => .ok ⟨t, vals⟩

section Read

variable {ρ : Type} (read : ReadFn ρ) (len : ℕ)

/-- The part of `ReadMessage` behind the length `sz` with the bytes `head`. -/
def readBody (head : Bytes) : SourceM ρ Message := do
  let sz := beNat head
  if sz > len % 2 ^ 32 then throw errMsgTooLarge
  else if sz < 4 then throw (.panic "slice bounds out of range")
  else
    let body ← readFull read (sz - 4)
    liftExcept (unpackMessage (head ++ body))

/-- `ReadMessage` with a buffer of `len` bytes. -/
def readMessage : SourceM ρ Message :=
  if len < 4 then throw (.panic "slice bounds out of range")
  else do
    let head ← readFull read 4
    readBody read len head

def readMessages : ℕ → SourceM ρ (List Message)
  | 0 => pure []
  | n + 1 => do
    let m ← readMessage read len
    let ms ← readMessages n
    pure (m :: ms)

end Read

end Bpy.RemoteMessages
