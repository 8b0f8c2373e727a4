import Bpy.ByteSlices

/-!
# `proto9`

The messages of 9P. `PackBody` and `UnpackBody` put the fields of a message at offsets of a
slice, and `PackMsg` writes the length and the type of the message in front of them. Some of
the offsets are `uint16` or `uint32` values, and wrap around. `int` has 64 bits.
-/
namespace Bpy.NineMessages
open ByteWords ContentStore ByteSlices

def headerSize : ℕ := 4 + 1

def qidSize : ℕ := 13

def errBuffTooSmall : GoError := .text "buffer too small for message"

def errMsgCorrupt : GoError := .text "message corrupt"

/-- Conversion to `uint16`. -/
def u16 (n : ℕ) : ℕ := n % 2 ^ 16

/-- Conversion to `uint32`. -/
def u32 (n : ℕ) : ℕ := n % 2 ^ 32

@[ext] structure Qid where
  type : UInt8
  version : UInt32
  path : UInt64
  deriving DecidableEq

@[ext] structure Stat where
  type : UInt16
  dev : UInt32
  qid : Qid
  mode : UInt32
  atime : UInt32
  mtime : UInt32
  length : UInt64
  name : Bytes
  uid : Bytes
  gid : Bytes
  muid : Bytes
  deriving DecidableEq

inductive MessageType where
  | Tversion
  | Rversion
  | Tauth
  | Rauth
  | Tattach
  | Rattach
  | Rerror
  | Tflush
  | Rflush
  | Twalk
  | Rwalk
  | Topen
  | Ropen
  | Tcreate
  | Rcreate
  | Tread
  | Rread
  | Twrite
  | Rwrite
  | Tclunk
  | Rclunk
  | Tremove
  | Rremove
  | Tstat
  | Rstat
  | Twstat
  | Rwstat
  deriving DecidableEq

/-- The values of the `iota` constants. -/
def MessageType.toByte : MessageType → UInt8
  | .Tversion => 100
  | .Rversion => 101
  | .Tauth => 102
  | .Rauth => 103
  | .Tattach => 104
  | .Rattach => 105
  | .Rerror => 107
  | .Tflush => 108
  | .Rflush => 109
  | .Twalk => 110
  | .Rwalk => 111
  | .Topen => 112
  | .Ropen => 113
  | .Tcreate => 114
  | .Rcreate => 115
  | .Tread => 116
  | .Rread => 117
  | .Twrite => 118
  | .Rwrite => 119
  | .Tclunk => 120
  | .Rclunk => 121
  | .Tremove => 122
  | .Rremove => 123
  | .Tstat => 124
  | .Rstat => 125
  | .Twstat => 126
  | .Rwstat => 127

/-- The switch of `NewMsg`. -/
def newMsg (mt : UInt8) : Except GoError MessageType :=
  match mt.toNat with
  | 100 => .ok .Tversion
  | 101 => .ok .Rversion
  | 104 => .ok .Tattach
  | 105 => .ok .Rattach
  | 102 => .ok .Tauth
  | 103 => .ok .Rauth
  | 107 => .ok .Rerror
  | 108 => .ok .Tflush
  | 109 => .ok .Rflush
  | 116 => .ok .Tread
  | 117 => .ok .Rread
  | 118 => .ok .Twrite
  | 119 => .ok .Rwrite
  | 120 => .ok .Tclunk
  | 121 => .ok .Rclunk
  | 122 => .ok .Tremove
  | 123 => .ok .Rremove
  | 112 => .ok .Topen
  | 113 => .ok .Ropen
  | 114 => .ok .Tcreate
  | 115 => .ok .Rcreate
  | 124 => .ok .Tstat
  | 125 => .ok .Rstat
  | 126 => .ok .Twstat
  | 127 => .ok .Rwstat
  | 110 => .ok .Twalk
  | 111 => .ok .Rwalk
  | _ => .error errMsgCorrupt

inductive Msg where
  | Tversion (tag : UInt16) (messageSize : UInt32) (version : Bytes)
  | Rversion (tag : UInt16) (messageSize : UInt32) (version : Bytes)
  | Tauth (tag : UInt16) (afid : UInt32) (uname aname : Bytes)
  | Rauth (tag : UInt16) (aqid : Qid)
  | Tattach (tag : UInt16) (fid afid : UInt32) (uname aname : Bytes)
  | Rattach (tag : UInt16) (qid : Qid)
  | Rerror (tag : UInt16) (err : Bytes)
  | Tflush (tag oldTag : UInt16)
  | Rflush (tag : UInt16)
  | Tread (tag : UInt16) (fid : UInt32) (offset : UInt64) (count : UInt32)
  | Rread (tag : UInt16) (data : Bytes)
  | Twrite (tag : UInt16) (fid : UInt32) (offset : UInt64) (data : Bytes)
  | Rwrite (tag : UInt16) (count : UInt32)
  | Tclunk (tag : UInt16) (fid : UInt32)
  | Rclunk (tag : UInt16)
  | Tremove (tag : UInt16) (fid : UInt32)
  | Rremove (tag : UInt16)
  | Topen (tag : UInt16) (fid : UInt32) (mode : UInt8)
  | Ropen (tag : UInt16) (qid : Qid) (iounit : UInt32)
  | Tcreate (tag : UInt16) (fid : UInt32) (name : Bytes) (perm : UInt32) (mode : UInt8)
  | Rcreate (tag : UInt16) (qid : Qid) (iounit : UInt32)
  | Tstat (tag : UInt16) (fid : UInt32)
  | Rstat (tag : UInt16) (stat : Stat)
  | Twstat (tag : UInt16) (fid : UInt32) (stat : Stat)
  | Rwstat (tag : UInt16)
  | Twalk (tag : UInt16) (fid newFid : UInt32) (names : List Bytes)
  | Rwalk (tag : UInt16) (qids : List Qid)
  deriving DecidableEq

def msgType : Msg → MessageType
  | .Tversion .. => .Tversion
  | .Rversion .. => .Rversion
  | .Tauth .. => .Tauth
  | .Rauth .. => .Rauth
  | .Tattach .. => .Tattach
  | .Rattach .. => .Rattach
  | .Rerror .. => .Rerror
  | .Tflush .. => .Tflush
  | .Rflush .. => .Rflush
  | .Tread .. => .Tread
  | .Rread .. => .Rread
  | .Twrite .. => .Twrite
  | .Rwrite .. => .Rwrite
  | .Tclunk .. => .Tclunk
  | .Rclunk .. => .Rclunk
  | .Tremove .. => .Tremove
  | .Rremove .. => .Rremove
  | .Topen .. => .Topen
  | .Ropen .. => .Ropen
  | .Tcreate .. => .Tcreate
  | .Rcreate .. => .Rcreate
  | .Tstat .. => .Tstat
  | .Rstat .. => .Rstat
  | .Twstat .. => .Twstat
  | .Rwstat .. => .Rwstat
  | .Twalk .. => .Twalk
  | .Rwalk .. => .Rwalk

def truncstrlen (s : Bytes) : ℕ := u16 s.length

def statLen (st : Stat) : ℕ :=
  2 + 2 + 4 + qidSize + 4 + 4 + 4 + 8 + 2 + truncstrlen st.name + 2 + truncstrlen st.uid +
    2 + truncstrlen st.gid + 2 + truncstrlen st.muid

def wireLen : Msg → ℕ
  | .Tversion _ _ version => headerSize + 2 + 4 + 2 + truncstrlen version
  | .Rversion _ _ version => headerSize + 2 + 4 + 2 + truncstrlen version
  | .Tauth _ _ uname aname => headerSize + 2 + 4 + 2 + truncstrlen uname + 2 + truncstrlen aname
  | .Rauth _ _ => headerSize + 2 + qidSize
  | .Tattach _ _ _ uname aname => headerSize + 2 + 4 + 4 + 2 + truncstrlen uname + 2 + truncstrlen aname
  | .Rattach _ _ => headerSize + 2 + qidSize
  | .Rerror _ err => headerSize + 2 + 2 + truncstrlen err
  | .Tflush _ _ => headerSize + 2 + 2
  | .Rflush _ => headerSize + 2
  | .Tread _ _ _ _ => headerSize + 2 + 4 + 8 + 4
  | .Rread _ data => headerSize + 2 + 4 + data.length
  | .Twrite _ _ _ data => headerSize + 2 + 4 + 8 + 4 + data.length
  | .Rwrite _ _ => headerSize + 2 + 4
  | .Tclunk _ _ => headerSize + 2 + 4
  | .Rclunk _ => headerSize + 2
  | .Tremove _ _ => headerSize + 2 + 4
  | .Rremove _ => headerSize + 2
  | .Topen _ _ _ => headerSize + 2 + 4 + 1
  | .Ropen _ _ _ => headerSize + 2 + qidSize + 4
  | .Tcreate _ _ name _ _ => headerSize + 2 + 4 + 2 + truncstrlen name + 4 + 1
  | .Rcreate _ _ _ => headerSize + 2 + qidSize + 4
  | .Tstat _ _ => headerSize + 2 + 4
  | .Rstat _ stat => headerSize + 2 + 2 + statLen stat
  | .Twstat _ _ stat => headerSize + 2 + 4 + 2 + statLen stat
  | .Rwstat _ => headerSize + 2
  | .Twalk _ _ _ names => names.foldl (fun sz s => sz + (2 + truncstrlen s)) (headerSize + 2 + 4 + 4 + 2)
  | .Rwalk _ qids => headerSize + 2 + 2 + qids.length * qidSize

section Pack

def packQid (buf : Slice) (qid : Qid) : MemM Unit := do
  setByte buf 0 qid.type
  putUint 4 buf 1 5 qid.version.toNat
  putUint 8 buf 5 13 qid.path.toNat

/-- The end of `PackStat`: the lengths of the strings are written before the strings. -/
def packStatStrings (buf : Slice) (st : Stat) : MemM Unit := do
  let namelen := truncstrlen st.name
  let uidlen := truncstrlen st.uid
  let gidlen := truncstrlen st.gid
  let muidlen := truncstrlen st.muid
  putUint 2 buf 41 buf.len namelen
  putUint 2 buf (43 + namelen) buf.len uidlen
  putUint 2 buf (45 + namelen + uidlen) buf.len gidlen
  putUint 2 buf (47 + namelen + uidlen + gidlen) buf.len muidlen
  copyTo buf 43 (43 + namelen) st.name
  copyTo buf (45 + namelen) (45 + namelen + uidlen) st.uid
  copyTo buf (47 + namelen + uidlen) (47 + namelen + uidlen + gidlen) st.gid
  copyTo buf (49 + namelen + uidlen + gidlen) (49 + namelen + uidlen + gidlen + muidlen) st.muid

def packStat (buf : Slice) (st : Stat) : MemM Unit := do
  putUint 2 buf 0 2 (statLen st - 2)
  putUint 2 buf 2 4 st.type.toNat
  putUint 4 buf 4 8 st.dev.toNat
  packQid (← slice buf 8 21) st.qid
  putUint 4 buf 21 25 st.mode.toNat
  putUint 4 buf 25 29 st.atime.toNat
  putUint 4 buf 29 33 st.mtime.toNat
  putUint 8 buf 33 41 st.length.toNat
  packStatStrings buf st

variable (b : Slice)

/-- A string at offset `k`, behind its length. -/
def packString (k : ℕ) (s : Bytes) : MemM Unit := do
  let strlen := u16 s.length
  putUint 2 b k (k + 2) strlen
  copyTo b (k + 2) b.len (s.take strlen)

/-- `Tversion` and `Rversion`. -/
def packVersion (tag : UInt16) (messageSize : UInt32) (version : Bytes) : MemM Unit := do
  putUint 2 b 0 2 tag.toNat
  putUint 4 b 2 6 messageSize.toNat
  packString b 6 version

/-- The two names of `Tauth` and `Tattach` from offset `k` on. The offsets behind the first
name are `uint16` values. -/
def packNames (k : ℕ) (uname aname : Bytes) : MemM Unit := do
  packString b k uname
  let unamelen := u16 uname.length
  let anamelen := u16 aname.length
  putUint 2 b (u16 (k + 2 + unamelen)) (u16 (k + 4 + unamelen)) anamelen
  copyTo b (u16 (k + 4 + unamelen)) b.len (aname.take anamelen)

/-- `Rauth` and `Rattach`. -/
def packTagQid (tag : UInt16) (qid : Qid) : MemM Unit := do
  putUint 2 b 0 2 tag.toNat
  packQid (← slice b 2 b.len) qid

def packTag (tag : UInt16) : MemM Unit := putUint 2 b 0 2 tag.toNat

/-- A tag and a `uint32`, as the messages with a fid have them. -/
def packTagUint32 (tag : UInt16) (v : UInt32) : MemM Unit := do
  putUint 2 b 0 2 tag.toNat
  putUint 4 b 2 6 v.toNat

/-- Data at offset `k`, behind its length. -/
def packData (k : ℕ) (data : Bytes) : MemM Unit := do
  putUint 4 b k (k + 4) (u32 data.length)
  copyTo b (k + 4) b.len data

/-- `Ropen` and `Rcreate`. -/
def packOpened (tag : UInt16) (qid : Qid) (iounit : UInt32) : MemM Unit := do
  putUint 2 b 0 2 tag.toNat
  packQid (← slice b 2 15) qid
  putUint 4 b 15 19 iounit.toNat

def packCreate (tag : UInt16) (fid : UInt32) (name : Bytes) (perm : UInt32) (mode : UInt8) : MemM Unit := do
  putUint 2 b 0 2 tag.toNat
  putUint 4 b 2 6 fid.toNat
  let namelen := u16 name.length
  putUint 2 b 6 8 namelen
  copyTo b 8 (u16 (8 + namelen)) name
  putUint 4 b (u16 (8 + namelen)) (u16 (12 + namelen)) perm.toNat
  setByte b (u16 (12 + namelen)) mode

/-- The loop of `Twalk`. -/
def packWalkNames : List Bytes → ℕ → MemM Unit
  | [], _ => pure ()
  | n :: ns, offset => do
    let l := truncstrlen n
    putUint 2 b (12 + offset) (14 + offset) l
    copyTo b (14 + offset) (14 + offset + l) (n.take l)
    packWalkNames ns (offset + (2 + l))

/-- The loop of `Rwalk`. -/
def packWalkQids : List Qid → ℕ → MemM Unit
  | [], _ => pure ()
  | qid :: qids, offset => do
    packQid (← slice b (4 + offset) (4 + offset + qidSize)) qid
    packWalkQids qids (offset + qidSize)

def packBody : Msg → MemM Unit
  | .Tversion tag messageSize version => packVersion b tag messageSize version
  | .Rversion tag messageSize version => packVersion b tag messageSize version
  | .Tauth tag afid uname aname => do
    putUint 2 b 0 2 tag.toNat
    putUint 4 b 2 6 afid.toNat
    packNames b 6 uname aname
  | .Rauth tag aqid => packTagQid b tag aqid
  | .Tattach tag fid afid uname aname => do
    putUint 2 b 0 2 tag.toNat
    putUint 4 b 2 6 fid.toNat
    putUint 4 b 6 10 afid.toNat
    packNames b 10 uname aname
  | .Rattach tag qid => packTagQid b tag qid
  | .Rerror tag err => do
    putUint 2 b 0 2 tag.toNat
    packString b 2 err
  | .Tflush tag oldTag => do
    putUint 2 b 0 2 tag.toNat
    putUint 2 b 2 4 oldTag.toNat
  | .Rflush tag => packTag b tag
  | .Tread tag fid offset count => do
    putUint 2 b 0 2 tag.toNat
    putUint 4 b 2 6 fid.toNat
    putUint 8 b 6 14 offset.toNat
    putUint 4 b 14 18 count.toNat
  | .Rread tag data => do
    putUint 2 b 0 2 tag.toNat
    packData b 2 data
  | .Twrite tag fid offset data => do
    putUint 2 b 0 2 tag.toNat
    putUint 4 b 2 6 fid.toNat
    putUint 8 b 6 14 offset.toNat
    packData b 14 data
  | .Rwrite tag count => packTagUint32 b tag count
  | .Tclunk tag fid => packTagUint32 b tag fid
  | .Rclunk tag => packTag b tag
  | .Tremove tag fid => packTagUint32 b tag fid
  | .Rremove tag => packTag b tag
  | .Topen tag fid mode => do
    putUint 2 b 0 2 tag.toNat
    putUint 4 b 2 6 fid.toNat
    setByte b 6 mode
  | .Ropen tag qid iounit => packOpened b tag qid iounit
  | .Tcreate tag fid name perm mode => packCreate b tag fid name perm mode
  | .Rcreate tag qid iounit => packOpened b tag qid iounit
  | .Tstat tag fid => packTagUint32 b tag fid
  | .Rstat tag stat => do
    putUint 2 b 0 2 tag.toNat
    putUint 2 b 2 4 (statLen stat)
    packStat (← slice b 4 b.len) stat
  | .Twstat tag fid stat => do
    putUint 2 b 0 2 tag.toNat
    putUint 4 b 2 6 fid.toNat
    putUint 2 b 6 8 (statLen stat)
    packStat (← slice b 8 b.len) stat
  | .Rwstat tag => packTag b tag
  | .Twalk tag fid newFid names => do
    putUint 2 b 0 2 tag.toNat
    putUint 4 b 2 6 fid.toNat
    putUint 4 b 6 10 newFid.toNat
    putUint 2 b 10 12 names.length
    packWalkNames b names 0
  | .Rwalk tag qids => do
    putUint 2 b 0 2 tag.toNat
    putUint 2 b 2 4 qids.length
    packWalkQids b qids 0

end Pack

def packMsg (buf : Slice) (msg : Msg) : MemM Slice := do
  let nreq := wireLen msg
  if buf.len < nreq then throw errBuffTooSmall
  else
    putUint 4 buf 0 4 nreq
    setByte buf 4 (msgType msg).toByte
    packBody (← slice buf headerSize nreq) msg
    slice buf 0 nreq

section Unpack

def unpackQid (buf : Slice) : MemM Qid := do
  let type ← byteAt buf 0
  let version ← uint 4 buf 1 5
  let path ← uint 8 buf 5 13
  pure ⟨type, .ofNat version, .ofNat path⟩

/-- The check of the length of a body. -/
def need (b : Slice) (sz : ℕ) : MemM Unit := if b.len < sz then throw errMsgCorrupt else pure ()

/-- The end of `UnpackStat`, where `sz` bytes are needed besides those of the strings. -/
def unpackStatStrings (buf : Slice) (sz : ℕ) : MemM (Bytes × Bytes × Bytes × Bytes) := do
  let namelen ← uint 2 buf 41 43
  let sz := sz + namelen
  need buf sz
  let uidlen ← uint 2 buf (43 + namelen) (45 + namelen)
  let sz := sz + uidlen
  need buf sz
  let gidlen ← uint 2 buf (45 + namelen + uidlen) (47 + namelen + uidlen)
  let sz := sz + gidlen
  need buf sz
  let muidlen ← uint 2 buf (47 + namelen + uidlen + gidlen) (49 + namelen + uidlen + gidlen)
  let sz := sz + muidlen
  need buf sz
  let name ← bytesOf buf 43 (43 + namelen)
  let uid ← bytesOf buf (45 + namelen) (45 + namelen + uidlen)
  let gid ← bytesOf buf (47 + namelen + uidlen) (47 + namelen + uidlen + gidlen)
  let muid ← bytesOf buf (49 + namelen + uidlen + gidlen) (49 + namelen + uidlen + gidlen + muidlen)
  pure (name, uid, gid, muid)

/-- `UnpackStat`. Nobody uses the size that it returns. -/
def unpackStat (buf : Slice) : MemM Stat := do
  let sz := 2 + 2 + 4 + qidSize + 4 + 4 + 4 + 8 + 2 + 2 + 2 + 2
  need buf sz
  let type ← uint 2 buf 2 4
  let dev ← uint 4 buf 4 8
  let qid ← unpackQid (← slice buf 8 21)
  let mode ← uint 4 buf 21 25
  let atime ← uint 4 buf 25 29
  let mtime ← uint 4 buf 29 33
  let length ← uint 8 buf 33 41
  let (name, uid, gid, muid) ← unpackStatStrings buf sz
  pure ⟨.ofNat type, .ofNat dev, qid, .ofNat mode, .ofNat atime, .ofNat mtime, .ofNat length,
    name, uid, gid, muid⟩

variable (b : Slice)

/-- A string at offset `k`, where `sz` bytes are needed besides those of the string. -/
def unpackString (k sz : ℕ) : MemM Bytes := do
  let strlen ← uint 2 b k (k + 2)
  need b (sz + strlen)
  bytesOf b (k + 2) (k + 2 + strlen)

/-- `Tversion` and `Rversion`. -/
def unpackVersion (msg : UInt16 → UInt32 → Bytes → Msg) : MemM Msg := do
  need b (2 + 4 + 2)
  let tag ← uint 2 b 0 2
  let messageSize ← uint 4 b 2 6
  let version ← unpackString b 6 (2 + 4 + 2)
  pure (msg (.ofNat tag) (.ofNat messageSize) version)

/-- The two names of `Tauth` and `Tattach` from offset `k` on. -/
def unpackNames (k : ℕ) : MemM (Bytes × Bytes) := do
  let uname ← unpackString b k (k + 2 + 2)
  let aname ← unpackString b (k + 2 + uname.length) (k + 2 + 2 + uname.length)
  pure (uname, aname)

/-- `Rauth` and `Rattach`. The slice of the qid ends two bytes early. -/
def unpackTagQid (msg : UInt16 → Qid → Msg) : MemM Msg := do
  need b (2 + qidSize)
  let tag ← uint 2 b 0 2
  let qid ← unpackQid (← slice b 2 qidSize)
  pure (msg (.ofNat tag) qid)

def unpackTag (msg : UInt16 → Msg) : MemM Msg := do
  need b 2
  let tag ← uint 2 b 0 2
  pure (msg (.ofNat tag))

def unpackTagUint32 (msg : UInt16 → UInt32 → Msg) : MemM Msg := do
  need b (2 + 4)
  let tag ← uint 2 b 0 2
  let v ← uint 4 b 2 6
  pure (msg (.ofNat tag) (.ofNat v))

/-- Data at offset `k`. The end of the data is a `uint32`. -/
def unpackData (k : ℕ) : MemM Bytes := do
  let datalen ← uint 4 b k (k + 4)
  need b (k + 4 + datalen)
  let src ← bytesOf b (k + 4) (u32 (k + 4 + datalen))
  pure (overwrite (List.replicate datalen 0) (src.take datalen))

/-- `Ropen` and `Rcreate`. -/
def unpackOpened (msg : UInt16 → Qid → UInt32 → Msg) : MemM Msg := do
  need b (2 + qidSize + 4)
  let tag ← uint 2 b 0 2
  let qid ← unpackQid (← slice b 2 15)
  let iounit ← uint 4 b 15 19
  pure (msg (.ofNat tag) qid (.ofNat iounit))

def unpackCreate : MemM Msg := do
  let sz := 2 + 4 + 2 + 4 + 1
  need b sz
  let tag ← uint 2 b 0 2
  let fid ← uint 4 b 2 6
  let namelen ← uint 2 b 6 8
  need b (sz + namelen)
  let name ← bytesOf b 8 (u16 (8 + namelen))
  let perm ← uint 4 b (u16 (8 + namelen)) (u16 (12 + namelen))
  let mode ← byteAt b (u16 (12 + namelen))
  pure (.Tcreate (.ofNat tag) (.ofNat fid) name (.ofNat perm) mode)

/-- The loop of `Twalk` with so many rounds left. -/
def unpackWalkNames : ℕ → ℕ → ℕ → MemM (List Bytes)
  | 0, _, _ => pure []
  | i + 1, sz, offset => do
    need b (sz + 2)
    let nlen ← uint 2 b (12 + offset) (14 + offset)
    let name ← bytesOf b (14 + offset) (14 + offset + nlen)
    let names ← unpackWalkNames i (sz + 2) (offset + (nlen + 2))
    pure (name :: names)

/-- The loop of `Rwalk` with so many rounds left. -/
def unpackWalkQids : ℕ → ℕ → MemM (List Qid)
  | 0, _ => pure []
  | i + 1, offset => do
    let qid ← unpackQid (← slice b (4 + offset) (4 + offset + qidSize))
    let qids ← unpackWalkQids i (offset + qidSize)
    pure (qid :: qids)

def unpackBody : MessageType → MemM Msg
  | .Tversion => unpackVersion b .Tversion
  | .Rversion => unpackVersion b .Rversion
  | .Tauth => do
    need b (2 + 4 + 2 + 2)
    let tag ← uint 2 b 0 2
    let afid ← uint 4 b 2 6
    let names ← unpackNames b 6
    pure (.Tauth (.ofNat tag) (.ofNat afid) names.1 names.2)
  | .Rauth => unpackTagQid b .Rauth
  | .Tattach => do
    need b (2 + 4 + 4 + 2 + 2)
    let tag ← uint 2 b 0 2
    let fid ← uint 4 b 2 6
    let afid ← uint 4 b 6 10
    let names ← unpackNames b 10
    pure (.Tattach (.ofNat tag) (.ofNat fid) (.ofNat afid) names.1 names.2)
  | .Rattach => unpackTagQid b .Rattach
  | .Rerror => do
    need b (2 + 2)
    let tag ← uint 2 b 0 2
    let err ← unpackString b 2 (2 + 2)
    pure (.Rerror (.ofNat tag) err)
  | .Tflush => do
    need b (2 + 2)
    let tag ← uint 2 b 0 2
    let oldTag ← uint 2 b 2 4
    pure (.Tflush (.ofNat tag) (.ofNat oldTag))
  | .Rflush => unpackTag b .Rflush
  | .Tread => do
    need b (2 + 4 + 8 + 4)
    let tag ← uint 2 b 0 2
    let fid ← uint 4 b 2 6
    let offset ← uint 8 b 6 14
    let count ← uint 4 b 14 18
    pure (.Tread (.ofNat tag) (.ofNat fid) (.ofNat offset) (.ofNat count))
  | .Rread => do
    need b (2 + 4)
    let tag ← uint 2 b 0 2
    let data ← unpackData b 2
    pure (.Rread (.ofNat tag) data)
  | .Twrite => do
    need b (2 + 4 + 8 + 4)
    let tag ← uint 2 b 0 2
    let fid ← uint 4 b 2 6
    let offset ← uint 8 b 6 14
    let data ← unpackData b 14
    pure (.Twrite (.ofNat tag) (.ofNat fid) (.ofNat offset) data)
  | .Rwrite => unpackTagUint32 b .Rwrite
  | .Tclunk => unpackTagUint32 b .Tclunk
  | .Rclunk => unpackTag b .Rclunk
  | .Tremove => unpackTagUint32 b .Tremove
  | .Rremove => unpackTag b .Rremove
  | .Topen => do
    need b (2 + 4 + 1)
    let tag ← uint 2 b 0 2
    let fid ← uint 4 b 2 6
    let mode ← byteAt b 6
    pure (.Topen (.ofNat tag) (.ofNat fid) mode)
  | .Ropen => unpackOpened b .Ropen
  | .Tcreate => unpackCreate b
  | .Rcreate => unpackOpened b .Rcreate
  | .Tstat => unpackTagUint32 b .Tstat
  | .Rstat => do
    need b 4
    let tag ← uint 2 b 0 2
    let stat ← unpackStat (← slice b 4 b.len)
    pure (.Rstat (.ofNat tag) stat)
  | .Twstat => do
    need b 8
    let tag ← uint 2 b 0 2
    let fid ← uint 4 b 2 6
    let stat ← unpackStat (← slice b 8 b.len)
    pure (.Twstat (.ofNat tag) (.ofNat fid) stat)
  | .Rwstat => unpackTag b .Rwstat
  | .Twalk => do
    let sz := 2 + 4 + 4 + 2
    need b sz
    let tag ← uint 2 b 0 2
    let fid ← uint 4 b 2 6
    let newFid ← uint 4 b 6 10
    let n ← uint 2 b 10 12
    let names ← unpackWalkNames b n sz 0
    pure (.Twalk (.ofNat tag) (.ofNat fid) (.ofNat newFid) names)
  | .Rwalk => do
    need b (2 + 2)
    let tag ← uint 2 b 0 2
    let n ← uint 2 b 2 4
    need b (n * qidSize)
    let qids ← unpackWalkQids b n 0
    pure (.Rwalk (.ofNat tag) qids)

end Unpack

def unpackMsg (buf : Slice) : MemM Msg := do
  if buf.len < 5 then throw errBuffTooSmall
  else
    let mt ← byteAt buf 4
    let type ← liftExcept (newMsg mt)
    unpackBody (← slice buf 5 buf.len) type

end Bpy.NineMessages
