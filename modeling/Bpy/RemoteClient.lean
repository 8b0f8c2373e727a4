import Bpy.Interleaving
import Bpy.RemoteMessageRoundTrip

/-!
# `remote/client`

A `Client` serves any number of goroutines over one connection. Every section under one of
its locks is one step, and so is every read from the connection and every copy out of the
receive buffer. The operations are threads, and the loop of `readMessages` is the thread 0.

An unpacked message refers to the receive buffer: a field of kind `Slice` is a range of
it. An unbuffered channel hands a message to a receiver that waits. A sender that finds no
receiver waits with `midLock` held, so for the other threads its section has not begun.

`maxsz` is `maxMessageSize`, which is fixed when `Attach` returns, and also the length of
the two buffers. The server keeps a list of the requests it has not answered, and for a
request to open something whether it has opened it; `rule` is what it may answer.
-/
namespace Bpy.RemoteClient
open ByteWords InteractionPrograms ContentStore RemoteMessages RemoteMessageRoundTrip Interleaving Method

section Held

/-- A range of the receive buffer. -/
structure Slice where
  off : ℕ
  len : ℕ
  deriving DecidableEq

def Slice.load (s : Slice) (buf : Bytes) : Bytes := (buf.drop s.off).take s.len

abbrev Ref : Kind → Type
  | .bool => Bool
  | .uint16 => UInt16
  | .uint32 => UInt32
  | .uint64 => UInt64
  | .string => Bytes
  | .slice => Slice

def Refs : List Kind → Type
  | [] => Unit
  | k :: ks => Ref k × Refs ks

/-- A field that is unpacked from the position `off` of the buffer. A string is copied. -/
def refer : (k : Kind) → ℕ → k.Value → Ref k
  | .bool, _, v => v
  | .uint16, _, v => v
  | .uint32, _, v => v
  | .uint64, _, v => v
  | .string, _, str => str
  | .slice, off, data => ⟨off + 4, data.length⟩

def referAll : (ks : List Kind) → ℕ → Values ks → Refs ks
  | [], _, _ => ()
  | k :: ks, off, (v, vs) => (refer k off v, referAll ks (off + fieldSize k v) vs)

/-- A message as the client holds it. -/
structure Held where
  type : MessageType
  vals : Refs type.kinds

/-- What `UnpackMessage` makes of the encoding of a message at the front of the buffer. -/
def held (m : Message) : Held := ⟨m.type, referAll m.type.kinds 5 m.vals⟩

def getMessageId : Message → UInt16
  | ⟨.RError, vals⟩ => vals.1
  | ⟨.TAttach, vals⟩ => vals.1
  | ⟨.RAttach, vals⟩ => vals.1
  | ⟨.TOpen, vals⟩ => vals.1
  | ⟨.ROpen, vals⟩ => vals.1
  | ⟨.TReadAt, vals⟩ => vals.1
  | ⟨.RReadAt, vals⟩ => vals.1
  | ⟨.TClose, vals⟩ => vals.1
  | ⟨.RClose, vals⟩ => vals.1
  | ⟨.TNewPack, vals⟩ => vals.1
  | ⟨.RNewPack, vals⟩ => vals.1
  | ⟨.TWritePack, _⟩ => 0
  | ⟨.RPackError, _⟩ => 0
  | ⟨.TClosePack, vals⟩ => vals.1
  | ⟨.RClosePack, vals⟩ => vals.1
  | ⟨.TCancelPack, vals⟩ => vals.1
  | ⟨.RCancelPack, vals⟩ => vals.1
  | ⟨.TGetRoot, vals⟩ => vals.1
  | ⟨.RGetRoot, vals⟩ => vals.1
  | ⟨.TCasRoot, vals⟩ => vals.1
  | ⟨.RCasRoot, vals⟩ => vals.1
  | ⟨.TRemove, vals⟩ => vals.1
  | ⟨.RRemove, vals⟩ => vals.1
  | ⟨.TStartGC, vals⟩ => vals.1
  | ⟨.RStartGC, vals⟩ => vals.1
  | ⟨.TStopGC, vals⟩ => vals.1
  | ⟨.RStopGC, vals⟩ => vals.1
  | ⟨.TGetEpoch, vals⟩ => vals.1
  | ⟨.RGetEpoch, vals⟩ => vals.1

end Held

section Client

def errTooManyCalls : GoError := .text "too many calls in progress"
def errTooManyFiles : GoError := .text "too many open files"
def errTooManyPacks : GoError := .text "too many open pack uploads"
def errBadResponse : GoError := .text "server sent bad response"
def errDisconnected : GoError := .text "connection disconnected"
def errNoSuchPid : GoError := .text "no such pack id"

def errOf (msg : Bytes) : GoError := .format "%s" msg

/-- `chan proto.Message`: a receiver may wait on it or have been handed a message. -/
structure Chan where
  closed : Bool
  waiting : Bool
  got : Option Held

/-- `make(chan proto.Message)`. -/
def Chan.new : Chan := ⟨false, false, none⟩

/-- `Client`, with the channels that have been made. -/
structure Client where
  rBuf : Bytes
  mIdCount : UInt16
  closed : Bool
  calls : List (UInt16 × ℕ)
  chans : ℕ → Chan
  made : ℕ
  fidCount : UInt32
  fids : List UInt32
  pidCount : UInt32
  pids : List (UInt32 × Option GoError)

/-- `m[k] = v`. -/
def assign {κ υ : Type} [DecidableEq κ] (m : List (κ × υ)) (k : κ) (v : υ) : List (κ × υ) :=
  (k, v) :: m.filter (fun kv => kv.1 ≠ k)

/-- `delete(m, k)`. -/
def delete {κ υ : Type} [DecidableEq κ] (m : List (κ × υ)) (k : κ) : List (κ × υ) :=
  m.filter (fun kv => kv.1 ≠ k)

/-- The id after a step of the search in `newCall`, which leaves out 0. -/
def skipZero (mid : UInt16) : UInt16 := if mid = 0 then mid + 1 else mid

/-- The loop of `newCall`, so many rounds of it. -/
def searchMid (count : UInt16) (calls : List (UInt16 × ℕ)) : ℕ → UInt16 → Option (Except GoError UInt16)
  | 0, _ => none
  | rounds + 1, mid =>
    if skipZero mid = count then some (.error errTooManyCalls)
    else
      match calls.lookup (skipZero mid) with
      | none => some (.ok (skipZero mid))
      | some _ => searchMid count calls rounds (skipZero mid + 1)

/-- The loop of `nextFid` and `nextPid`. -/
def searchId (errTooMany : GoError) (count : UInt32) (used : UInt32 → Bool) :
    ℕ → UInt32 → Option (Except GoError UInt32)
  | 0, _ => none
  | rounds + 1, id =>
    if id = count then some (.error errTooMany)
    else if used id then searchId errTooMany count used rounds (id + 1)
    else some (.ok id)

namespace Client

/-- `mIdCount` is never changed and 0 is not an id, so the search for an id does not end if
all ids are in use. -/
def newCall (c : Client) : Option (Except GoError (ℕ × UInt16) × Client) :=
  if c.closed then some (.error errDisconnected, c)
  else
    match searchMid c.mIdCount c.calls (2 ^ 16) (c.mIdCount + 1) with
    | none => none
    | some (.error e) => some (.error e, c)
    | some (.ok mid) => some (.ok (c.made, mid),
      { c with
        calls := assign c.calls mid c.made
        chans := Function.update c.chans c.made Chan.new
        made := c.made + 1 })

/-- The deferred part of `Call`. -/
def deleteCall (c : Client) (mid : UInt16) : Client := { c with calls := delete c.calls mid }

/-- The channels that `Close` closes. -/
def inCalls (c : Client) (ch : ℕ) : Bool := c.calls.any (fun kv => kv.2 == ch)

/-- `Close`, without the connection. -/
def close (c : Client) : Except GoError Unit × Client :=
  if c.closed then (.ok (), c)
  else if c.calls.any (fun kv => (c.chans kv.2).closed) || !decide (c.calls.map Prod.snd).Nodup then
    (.error (.panic "close of closed channel"), c)
  else (.ok (), { c with
    chans := fun ch => if c.inCalls ch then { c.chans ch with closed := true } else c.chans ch
    closed := true })

/-- The section of `readMessages` that sends on the channel of a call. -/
def deliver (c : Client) (mid : UInt16) (m : Held) : Option (Except GoError Unit × Client) :=
  match c.calls.lookup mid with
  | none => some (.ok (), c)
  | some ch =>
    if (c.chans ch).closed then some (.error (.panic "send on closed channel"), c)
    else if (c.chans ch).waiting then
      some (.ok (), { c with chans := Function.update c.chans ch ⟨false, false, some m⟩ })
    else none

/-- The first part of `<-ch`. -/
def park (c : Client) (ch : ℕ) : Client :=
  { c with chans := Function.update c.chans ch { c.chans ch with waiting := true } }

/-- The end of `<-ch`: a message, or that the channel is closed. -/
def receive (c : Client) (ch : ℕ) : Option (Option Held) :=
  match (c.chans ch).got with
  | some m => some (some m)
  | none => if (c.chans ch).closed then some none else none

def nextFid (c : Client) : Option (Except GoError UInt32 × Client) :=
  match searchId errTooManyFiles c.fidCount (fun fid => c.fids.contains fid) (2 ^ 32) (c.fidCount + 1) with
  | none => none
  | some (.error e) => some (.error e, c)
  | some (.ok fid) => some (.ok fid, { c with fids := fid :: c.fids })

def freeFid (c : Client) (fid : UInt32) : Client := { c with fids := c.fids.filter (· ≠ fid) }

def nextPid (c : Client) : Option (Except GoError UInt32 × Client) :=
  match searchId errTooManyPacks c.pidCount (fun pid => (c.pids.lookup pid).isSome) (2 ^ 32) (c.pidCount + 1) with
  | none => none
  | some (.error e) => some (.error e, c)
  | some (.ok pid) => some (.ok pid, { c with pids := assign c.pids pid none })

def freePid (c : Client) (pid : UInt32) : Client := { c with pids := delete c.pids pid }

def checkPidError (c : Client) (pid : UInt32) : Option GoError :=
  match c.pids.lookup pid with
  | none => some errNoSuchPid
  | some err => err

/-- The statement `err, ok := c.pids[pid]` assigns to the parameter `err`. -/
def setPidError (c : Client) (pid : UInt32) (_err : GoError) : Client :=
  match c.pids.lookup pid with
  | none => c
  | some err => { c with pids := assign c.pids pid err }

end Client

end Client

section Operations

/-- The tables of ids. -/
inductive Table where
  | file
  | pack
  deriving DecidableEq

inductive Request where
  | newCall
  | deleteCall (mid : UInt16)
  | writeMessage (m : Message)
  | park (ch : ℕ)
  | receive (ch : ℕ)
  | close
  | readHead
  | readBody (sz : ℕ)
  | deliver (mid : UInt16) (m : Held)
  | copyData (s : Slice)
  | nextId (t : Table)
  | freeId (t : Table) (id : UInt32)
  | checkPidError (pid : UInt32)
  | setPidError (pid : UInt32) (err : GoError)
  /-- the field `offset` of a `File`, which is named by the thread that opened it -/
  | offset (f : ℕ)
  | setOffset (f : ℕ) (offset : UInt64)
  /-- never answered -/
  | stall

abbrev Response : Request → Type
  | .newCall => Except GoError (ℕ × UInt16)
  | .deleteCall _ => Unit
  | .writeMessage _ => Except GoError Unit
  | .park _ => Unit
  | .receive _ => Option Held
  | .close => Except GoError Unit
  | .readHead => Except GoError Bytes
  | .readBody _ => Except GoError Bytes
  | .deliver _ _ => Except GoError Unit
  | .copyData _ => Bytes
  | .nextId _ => Except GoError UInt32
  | .freeId _ _ => Unit
  | .checkPidError _ => Option GoError
  | .setPidError _ _ => Unit
  | .offset _ => UInt64
  | .setOffset _ _ => Unit
  | .stall => Empty

abbrev ClientM (α : Type) := Method Request Response GoError Unit α

def ask (q : Request) : ClientM (Response q) := send q .ok

def stall {α : Type} : ClientM α := send .stall (fun r => nomatch r)

/-- The message that a call is answered by, if it is not an `RError`. -/
def notError (resp : Held) : Except GoError Held :=
  match resp with
  | ⟨.RError, (_, msg, _)⟩ => .error (errOf msg)
  | resp => .ok resp

/-- The body of `Call`. -/
def exchange (m : Message) (ch : ℕ) : ClientM Held := do
  send (.writeMessage m) id
  ask (.park ch)
  let resp ← send (.receive ch) (fun | none => .error errDisconnected | some resp => .ok resp)
  ofExcept (notError resp)

def call (m : Message) (ch : ℕ) (mid : UInt16) : ClientM Held := do
  let r ← attempt (exchange m ch)
  ask (.deleteCall mid)
  ofExcept r

/-- A call with a new id, and the check of the type of the answer. -/
def request (m : UInt16 → Message) (t : MessageType) : ClientM Held := do
  let (ch, mid) ← send .newCall id
  let resp ← call (m mid) ch mid
  if resp.type = t then pure resp else raise errBadResponse

def tCasRoot (newValue newVersion signature epoch : Bytes) : ClientM Held :=
  request (fun mid => ⟨.TCasRoot, (mid, newVersion, newValue, signature, epoch, ())⟩) .RCasRoot

def tGetRoot : ClientM Held := request (fun mid => ⟨.TGetRoot, (mid, ())⟩) .RGetRoot

def tRemove (path epoch : Bytes) : ClientM Held :=
  request (fun mid => ⟨.TRemove, (mid, path, epoch, ())⟩) .RRemove

def tOpen (fid : UInt32) (name : Bytes) : ClientM Held :=
  request (fun mid => ⟨.TOpen, (mid, fid, name, ())⟩) .ROpen

def tReadAt (fid : UInt32) (offset : UInt64) (size : UInt32) : ClientM Held :=
  request (fun mid => ⟨.TReadAt, (mid, fid, offset, size, ())⟩) .RReadAt

def tClose (fid : UInt32) : ClientM Held := request (fun mid => ⟨.TClose, (mid, fid, ())⟩) .RClose

def tWritePack (pid : UInt32) (data : Bytes) : ClientM Unit :=
  send (.writeMessage ⟨.TWritePack, (pid, data, ())⟩) id

def tClosePack (pid : UInt32) : ClientM Held :=
  request (fun mid => ⟨.TClosePack, (mid, pid, ())⟩) .RClosePack

def tCancelPack (pid : UInt32) : ClientM Held :=
  request (fun mid => ⟨.TCancelPack, (mid, pid, ())⟩) .RCancelPack

def tGetEpoch : ClientM Held := request (fun mid => ⟨.TGetEpoch, (mid, ())⟩) .RGetEpoch

def tStartGC : ClientM Held := request (fun mid => ⟨.TStartGC, (mid, ())⟩) .RStartGC

def tStopGC : ClientM Held := request (fun mid => ⟨.TStopGC, (mid, ())⟩) .RStopGC

/-- `NewPack`. If there is no id for the call, the pack id stays in use. -/
def newPack (name : Bytes) : ClientM UInt32 := do
  let pid ← send (.nextId .pack) id
  let (ch, mid) ← send .newCall id
  let r ← attempt (call ⟨.TNewPack, (mid, pid, name, ())⟩ ch mid)
  match r with
  | .error e => do
    ask (.freeId .pack pid)
    raise e
  | .ok resp =>
    if resp.type = .RNewPack then pure pid
    else do
      ask (.freeId .pack pid)
      raise errBadResponse

/-- `Open`. -/
def openFile (name : Bytes) : ClientM UInt32 := do
  let fid ← send (.nextId .file) id
  let r ← attempt (tOpen fid name)
  match r with
  | .error e => do
    ask (.freeId .file fid)
    raise e
  | .ok _ => pure fid

def fileClose (fid : UInt32) : ClientM Unit := do
  ask (.freeId .file fid)
  let _ ← tClose fid
  pure ()

def packClose (pid : UInt32) : ClientM Unit := do
  ask (.freeId .pack pid)
  let _ ← tClosePack pid
  pure ()

def packCancel (pid : UInt32) : ClientM Unit := do
  ask (.freeId .pack pid)
  let _ ← tCancelPack pid
  pure ()

/-- `resp.Data` of an `RReadAt`. -/
def dataOf (resp : Held) : Slice :=
  match resp with
  | ⟨.RReadAt, (_, data, _)⟩ => data
  | _ => ⟨0, 0⟩

def readOverhead : UInt32 := 4 + 1 + 2 + 4

def writeOverhead : UInt32 := 4 + 1 + 4 + 4

/-- The number of bytes that `File.Read` asks for. -/
def readSize (maxsz : UInt32) (len : ℕ) : UInt32 :=
  let maxn := maxsz - readOverhead
  let n := UInt32.ofNat len
  if n > maxn then maxn else n

/-- `File.Read` with a buffer of `len` bytes, and the bytes that it puts there. -/
def fileRead (maxsz : UInt32) (f : ℕ) (fid : UInt32) (len : ℕ) : ClientM Bytes := do
  let offset ← ask (.offset f)
  let resp ← tReadAt fid offset (readSize maxsz len)
  let data := dataOf resp
  if data.len = 0 then raise .eof
  else
    let copied ← ask (.copyData ⟨data.off, min len data.len⟩)
    let offset ← ask (.offset f)
    ask (.setOffset f (offset + UInt64.ofNat copied.length))
    pure copied

/-- `File.Seek`. Only `io.SeekStart`, which is 0, is supported. -/
def fileSeek (f : ℕ) (offset : UInt64) (whence : ℕ) : ClientM UInt64 :=
  if whence = 0 then do
    ask (.setOffset f offset)
    ask (.offset f)
  else raise (.text "seek unsupported")

/-- The loop of `Pack.Write`, so many rounds of it, with the number of bytes sent. A round may
send no bytes, and then the loop does not end. -/
def writeLoop (maxn : UInt32) (pid : UInt32) : ℕ → Bytes → ℕ → ClientM (ℕ × Option GoError)
  | 0, _, _ => stall
  | rounds + 1, buf, nsent =>
    if buf.length = 0 then pure (nsent, none)
    else do
      let n := if UInt32.ofNat buf.length < maxn then UInt32.ofNat buf.length else maxn
      let r ← attempt (tWritePack pid (buf.take n.toNat))
      match r with
      | .error e => pure (nsent, some e)
      | .ok _ => writeLoop maxn pid rounds (buf.drop n.toNat) (nsent + n.toNat)

/-- `Pack.Write`, with the error that it returns. -/
def packWrite (maxsz : UInt32) (pid : UInt32) (buf : Bytes) (rounds : ℕ) : ClientM (ℕ × Option GoError) := do
  let err ← ask (.checkPidError pid)
  match err with
  | some e => pure (0, some e)
  | none => writeLoop (maxsz - writeOverhead) pid rounds buf 0

/-- `proto.ReadMessage` into the receive buffer. -/
def readMessage (maxsz : UInt32) : ClientM Message :=
  if maxsz < 4 then raise (.panic "slice bounds out of range")
  else do
    let head ← send .readHead id
    let sz := beNat head
    if sz > maxsz.toNat then raise errMsgTooLarge
    else if sz < 4 then raise (.panic "slice bounds out of range")
    else
      let frame ← send (.readBody sz) id
      ofExcept (unpackMessage frame)

def noMid : UInt16 := 0

/-- `readMessages`, so many rounds of its loop. -/
def readMessages (maxsz : UInt32) : ℕ → ClientM Unit
  | 0 => stall
  | rounds + 1 => do
    let r ← attempt (readMessage maxsz)
    match r with
    | .error (.panic msg) => raise (.panic msg)
    | .error _ => send .close id
    | .ok m =>
      let mid := getMessageId m
      if mid = noMid then
        match m with
        | ⟨.RPackError, (pid, msg, _)⟩ => do
          ask (.setPidError pid (errOf msg))
          send (.deliver mid (held m)) id
          readMessages maxsz rounds
        | _ => readMessages maxsz rounds
      else do
        send (.deliver mid (held m)) id
        readMessages maxsz rounds

/-- What a goroutine may do. A `File` or a `Pack` is named by the thread that opened it. -/
inductive Op where
  | readMessages (rounds : ℕ)
  | tCasRoot (newValue newVersion signature epoch : Bytes)
  | tGetRoot
  | tRemove (path epoch : Bytes)
  | tGetEpoch
  | tStartGC
  | tStopGC
  | newPack (name : Bytes)
  | openFile (name : Bytes)
  | fileRead (f : ℕ) (fid : UInt32) (len : ℕ)
  | fileSeek (f : ℕ) (fid : UInt32) (offset : UInt64) (whence : ℕ)
  | fileClose (f : ℕ) (fid : UInt32)
  | packWrite (p : ℕ) (pid : UInt32) (buf : Bytes) (rounds : ℕ)
  | packClose (p : ℕ) (pid : UInt32)
  | packCancel (p : ℕ) (pid : UInt32)
  | close

inductive Result where
  | unit
  | message (m : Held)
  | file (fid : UInt32)
  | pack (pid : UInt32)
  | read (data : Bytes)
  | offset (offset : UInt64)
  | wrote (n : ℕ) (err : Option GoError)

abbrev Outcome := Except GoError Result × Unit

def Op.method (maxsz : UInt32) : Op → ClientM Result
  | .readMessages rounds => do let _ ← RemoteClient.readMessages maxsz rounds; pure .unit
  | .tCasRoot newValue newVersion signature epoch => do
    let m ← RemoteClient.tCasRoot newValue newVersion signature epoch
    pure (.message m)
  | .tGetRoot => do let m ← RemoteClient.tGetRoot; pure (.message m)
  | .tRemove path epoch => do let m ← RemoteClient.tRemove path epoch; pure (.message m)
  | .tGetEpoch => do let m ← RemoteClient.tGetEpoch; pure (.message m)
  | .tStartGC => do let m ← RemoteClient.tStartGC; pure (.message m)
  | .tStopGC => do let m ← RemoteClient.tStopGC; pure (.message m)
  | .newPack name => do let pid ← RemoteClient.newPack name; pure (.pack pid)
  | .openFile name => do let fid ← RemoteClient.openFile name; pure (.file fid)
  | .fileRead f fid len => do let data ← RemoteClient.fileRead maxsz f fid len; pure (.read data)
  | .fileSeek f _ offset whence => do
    let offset ← RemoteClient.fileSeek f offset whence
    pure (.offset offset)
  | .fileClose _ fid => do let _ ← RemoteClient.fileClose fid; pure .unit
  | .packWrite _ pid buf rounds => do
    let r ← RemoteClient.packWrite maxsz pid buf rounds
    pure (.wrote r.1 r.2)
  | .packClose _ pid => do let _ ← RemoteClient.packClose pid; pure .unit
  | .packCancel _ pid => do let _ ← RemoteClient.packCancel pid; pure .unit
  | .close => do let _ ← send .close id; pure .unit

/-- A method of a `File` or a `Pack` needs one that has been returned. -/
def mayStart (results : ℕ → Option Outcome) : Op → Bool
  | .readMessages _ => false
  | .fileRead f fid _ | .fileSeek f fid _ _ | .fileClose f fid =>
    match results f with
    | some (.ok (.file fid'), _) => fid' == fid
    | _ => false
  | .packWrite p pid _ _ | .packClose p pid | .packCancel p pid =>
    match results p with
    | some (.ok (.pack pid'), _) => pid' == pid
    | _ => false
  | _ => true

end Operations

section World

/-- What is left open when a request is answered. -/
inductive Choice where
  | go
  /-- the connection fails after so many bytes -/
  | fail (e : GoError) (n : ℕ)
  /-- the connection takes the bytes of a message, but they do not reach the server -/
  | lost
  /-- the server receives a message, and opens what it asks for or not -/
  | received (opened : Bool)
  deriving DecidableEq

inductive ServerStep where
  /-- the answer to the request of a thread -/
  | answer (i : ℕ) (m : Message)
  /-- a message that answers no request -/
  | notify (m : Message)

structure Unanswered where
  thread : ℕ
  request : Message
  opened : Bool

structure World where
  client : Client
  offsets : ℕ → UInt64
  inbox : Bytes
  unanswered : List Unanswered

variable (maxsz : UInt32)

/-- `WriteMessage`, which returns `nil` for a message that does not fit. -/
def World.writeMessage (w : World) (c : Choice) (i : ℕ) (m : Message) : Option (Except GoError Unit × World) :=
  match packMessage m maxsz.toNat, c with
  | .error (.panic msg), _ => some (.error (.panic msg), w)
  | .error _, _ => some (.ok (), w)
  | .ok _, .fail e _ => some (.error e, w)
  | .ok _, .lost => some (.ok (), w)
  | .ok _, .received opened =>
    if m.type = .TWritePack then some (.ok (), w)
    else some (.ok (), { w with unanswered := ⟨i, m, opened⟩ :: w.unanswered })
  | .ok _, .go => none

/-- The next bytes from the connection, put at the position `off` of the receive buffer. -/
def World.take (w : World) (off n : ℕ) : World :=
  { w with
    client := { w.client with
      rBuf := w.client.rBuf.take off ++ w.inbox.take n ++ w.client.rBuf.drop (off + (w.inbox.take n).length) }
    inbox := w.inbox.drop n }

/-- `io.ReadFull` for `n` bytes. It answers by the front of the receive buffer. -/
def World.readFull (w : World) (c : Choice) (off n : ℕ) : Option (Except GoError Bytes × World) :=
  match c with
  | .go =>
    if n ≤ w.inbox.length then some (.ok ((w.take off n).client.rBuf.take (off + n)), w.take off n) else none
  | .fail e k => some (.error e, w.take off (min k (n - 1)))
  | _ => none

/-- Change the client. -/
def World.on {α : Type} (w : World) (r : α × Client) : α × World := (r.1, { w with client := r.2 })

def act (c : Choice) (i : ℕ) : (q : Request) → World → Option (Response q × World)
  | .newCall, w => w.client.newCall.map w.on
  | .deleteCall mid, w => some (w.on ((), w.client.deleteCall mid))
  | .writeMessage m, w => w.writeMessage maxsz c i m
  | .park ch, w => some (w.on ((), w.client.park ch))
  | .receive ch, w => (w.client.receive ch).map fun r => (r, w)
  | .close, w => some (w.on w.client.close)
  | .readHead, w => w.readFull c 0 4
  | .readBody sz, w => w.readFull c 4 (sz - 4)
  | .deliver mid m, w => (w.client.deliver mid m).map w.on
  | .copyData s, w => some (s.load w.client.rBuf, w)
  | .nextId .file, w => w.client.nextFid.map w.on
  | .nextId .pack, w => w.client.nextPid.map w.on
  | .freeId .file fid, w => some (w.on ((), w.client.freeFid fid))
  | .freeId .pack pid, w => some (w.on ((), w.client.freePid pid))
  | .checkPidError pid, w => some (w.client.checkPidError pid, w)
  | .setPidError pid err, w => some (w.on ((), w.client.setPidError pid err))
  | .offset f, w => some (w.offsets f, w)
  | .setOffset f offset, w => some ((), { w with offsets := Function.update w.offsets f offset })
  | .stall, _ => none

section Inversion

variable {maxsz} {c : Choice} {i : ℕ} {w w' : World}

theorem on_eq_some {α : Type} {o : Option (α × Client)} {r : α} (h : o.map w.on = some (r, w')) :
    ∃ client, o = some (r, client) ∧ w' = { w with client := client } := by
  obtain ⟨⟨r', client⟩, ho, hw⟩ := Option.map_eq_some_iff.mp h
  cases hw
  exact ⟨client, ho, rfl⟩

theorem act_newCall {r : Except GoError (ℕ × UInt16)} (h : act maxsz c i .newCall w = some (r, w')) :
    ∃ client, w.client.newCall = some (r, client) ∧ w' = { w with client := client } := on_eq_some h

theorem act_deliver {mid : UInt16} {m : Held} {r : Except GoError Unit}
    (h : act maxsz c i (.deliver mid m) w = some (r, w')) :
    ∃ client, w.client.deliver mid m = some (r, client) ∧ w' = { w with client := client } := on_eq_some h

theorem act_receive {ch : ℕ} {r : Option Held} (h : act maxsz c i (.receive ch) w = some (r, w')) :
    w.client.receive ch = some r ∧ w' = w := by
  obtain ⟨r', hrec, hw⟩ := Option.map_eq_some_iff.mp h
  cases hw
  exact ⟨hrec, rfl⟩

theorem act_nextFid {r : Except GoError UInt32} (h : act maxsz c i (.nextId .file) w = some (r, w')) :
    ∃ fids, w' = { w with client := { w.client with fids := fids } } := by
  obtain ⟨client, hnext, rfl⟩ := on_eq_some h
  rw [Client.nextFid] at hnext
  split at hnext <;> cases hnext <;> exact ⟨_, rfl⟩

theorem act_nextPid {r : Except GoError UInt32} (h : act maxsz c i (.nextId .pack) w = some (r, w')) :
    (∃ e, r = .error e ∧ w' = w) ∨ ∃ pid, r = .ok pid ∧
      w' = { w with client := { w.client with pids := assign w.client.pids pid none } } := by
  obtain ⟨client, hnext, rfl⟩ := on_eq_some h
  rw [Client.nextPid] at hnext
  split at hnext <;> cases hnext
  · exact .inl ⟨_, rfl, rfl⟩
  · exact .inr ⟨_, rfl, rfl⟩

theorem readFull_take {off n : ℕ} {r : Except GoError Bytes} (h : w.readFull c off n = some (r, w')) :
    ∃ k, w' = w.take off k := by
  unfold World.readFull at h
  split at h
  · split at h <;> cases h
    exact ⟨n, rfl⟩
  · cases h
    exact ⟨_, rfl⟩
  · cases h

end Inversion

/-- The encoding of a message that is shorter than `2 ^ 32` bytes. -/
def frame (m : Message) : Option Bytes :=
  if size m < 2 ^ 32 then (packMessage m (size m)).toOption else none

/-- What the server does by itself. `rule` says for a request, and for whether it has been
carried out, which messages may be the answer. -/
def serve (rule : Message → Bool → Message → Bool) : ServerStep → World → Option World
  | .answer i m, w => do
    let req ← w.unanswered.find? (fun u => u.thread == i)
    let bytes ← frame m
    if getMessageId m = getMessageId req.request ∧ rule req.request req.opened m = true then
      some { w with
        inbox := w.inbox ++ bytes
        unanswered := w.unanswered.eraseP (fun u => u.thread == i) }
    else none
  | .notify m, w => do
    let bytes ← frame m
    if getMessageId m = noMid then some { w with inbox := w.inbox ++ bytes } else none

def system (rule : Message → Bool → Message → Bool) :
    System Op Request Response Choice ServerStep Outcome World where
  prog op := op.method maxsz ()
  mayStart := mayStart
  act := act maxsz
  env := serve rule

/-- The state after `Attach`. -/
def World.init : World where
  client := ⟨List.replicate maxsz.toNat 0, 0, false, [], fun _ => Chan.new, 0, 0, [], 0, []⟩
  offsets _ := 0
  inbox := []
  unanswered := []

/-- The client after `Attach`: only `readMessages` runs. -/
def attached (rounds : ℕ) : Pool Op Request Response Choice ServerStep Outcome World where
  threads i := if i = 0 then some (.readMessages rounds, (Op.readMessages rounds).method maxsz ()) else none
  shared := World.init maxsz
  past := []

abbrev ClientEvent := Event Op Request Response Choice ServerStep

abbrev ClientLabel := Label Op Choice ServerStep

end World

end Bpy.RemoteClient
