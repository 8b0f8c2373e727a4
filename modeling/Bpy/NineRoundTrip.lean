import Bpy.NineMessages

/-!
# 9P messages survive packing

A body is the sequence of the encoded fields. `PackBody` writes it, field by field at the
offsets of the source, and `UnpackBody` reads it.
-/
namespace Bpy.NineRoundTrip
open ByteWords ByteSources ByteSlices NineMessages Memory
open List

/-- A string behind its length. -/
def str (s : Bytes) : Bytes := leBytes 2 s.length ++ s

def qidBytes (qid : Qid) : Bytes := [qid.type] ++ (leBytes 4 qid.version.toNat ++ leBytes 8 qid.path.toNat)

def statBytes (st : Stat) : Bytes :=
  leBytes 2 (statLen st - 2) ++ (leBytes 2 st.type.toNat ++ (leBytes 4 st.dev.toNat ++ (qidBytes st.qid ++
    (leBytes 4 st.mode.toNat ++ (leBytes 4 st.atime.toNat ++ (leBytes 4 st.mtime.toNat ++
      (leBytes 8 st.length.toNat ++ (str st.name ++ (str st.uid ++ (str st.gid ++ str st.muid))))))))))

/-- The encoded fields of a message. -/
def body : Msg → Bytes
  | .Tversion tag messageSize version => leBytes 2 tag.toNat ++ (leBytes 4 messageSize.toNat ++ str version)
  | .Rversion tag messageSize version => leBytes 2 tag.toNat ++ (leBytes 4 messageSize.toNat ++ str version)
  | .Tauth tag afid uname aname =>
    leBytes 2 tag.toNat ++ (leBytes 4 afid.toNat ++ (str uname ++ str aname))
  | .Rauth tag aqid => leBytes 2 tag.toNat ++ qidBytes aqid
  | .Tattach tag fid afid uname aname =>
    leBytes 2 tag.toNat ++ (leBytes 4 fid.toNat ++ (leBytes 4 afid.toNat ++ (str uname ++ str aname)))
  | .Rattach tag qid => leBytes 2 tag.toNat ++ qidBytes qid
  | .Rerror tag err => leBytes 2 tag.toNat ++ str err
  | .Tflush tag oldTag => leBytes 2 tag.toNat ++ leBytes 2 oldTag.toNat
  | .Rflush tag => leBytes 2 tag.toNat
  | .Tread tag fid offset count =>
    leBytes 2 tag.toNat ++ (leBytes 4 fid.toNat ++ (leBytes 8 offset.toNat ++ leBytes 4 count.toNat))
  | .Rread tag data => leBytes 2 tag.toNat ++ (leBytes 4 data.length ++ data)
  | .Twrite tag fid offset data =>
    leBytes 2 tag.toNat ++ (leBytes 4 fid.toNat ++ (leBytes 8 offset.toNat ++ (leBytes 4 data.length ++ data)))
  | .Rwrite tag count => leBytes 2 tag.toNat ++ leBytes 4 count.toNat
  | .Tclunk tag fid => leBytes 2 tag.toNat ++ leBytes 4 fid.toNat
  | .Rclunk tag => leBytes 2 tag.toNat
  | .Tremove tag fid => leBytes 2 tag.toNat ++ leBytes 4 fid.toNat
  | .Rremove tag => leBytes 2 tag.toNat
  | .Topen tag fid mode => leBytes 2 tag.toNat ++ (leBytes 4 fid.toNat ++ [mode])
  | .Ropen tag qid iounit => leBytes 2 tag.toNat ++ (qidBytes qid ++ leBytes 4 iounit.toNat)
  | .Tcreate tag fid name perm mode =>
    leBytes 2 tag.toNat ++ (leBytes 4 fid.toNat ++ (str name ++ (leBytes 4 perm.toNat ++ [mode])))
  | .Rcreate tag qid iounit => leBytes 2 tag.toNat ++ (qidBytes qid ++ leBytes 4 iounit.toNat)
  | .Tstat tag fid => leBytes 2 tag.toNat ++ leBytes 4 fid.toNat
  | .Rstat tag stat => leBytes 2 tag.toNat ++ (leBytes 2 (statLen stat) ++ statBytes stat)
  | .Twstat tag fid stat =>
    leBytes 2 tag.toNat ++ (leBytes 4 fid.toNat ++ (leBytes 2 (statLen stat) ++ statBytes stat))
  | .Rwstat tag => leBytes 2 tag.toNat
  | .Twalk tag fid newFid names => leBytes 2 tag.toNat ++ (leBytes 4 fid.toNat ++ (leBytes 4 newFid.toNat ++
      (leBytes 2 names.length ++ names.flatMap str)))
  | .Rwalk tag qids => leBytes 2 tag.toNat ++ (leBytes 2 qids.length ++ qids.flatMap qidBytes)

/-- The length, the type and the body of a message. -/
def wire (m : Msg) : Bytes := leBytes 4 (wireLen m) ++ ([(msgType m).toByte] ++ body m)

/-- A string of a stat is at most 65535 bytes long. -/
structure ShortStat (st : Stat) : Prop where
  name : st.name.length ≤ 65535
  uid : st.uid.length ≤ 65535
  gid : st.gid.length ≤ 65535
  muid : st.muid.length ≤ 65535

/-- Strings have at most 65535 bytes and lists at most 65535 elements, and data has less than
`2 ^ 32` bytes. -/
def Bounded : Msg → Prop
  | .Tversion _ _ version => version.length ≤ 65535
  | .Rversion _ _ version => version.length ≤ 65535
  | .Tauth _ _ uname aname => uname.length ≤ 65535 ∧ aname.length ≤ 65535
  | .Tattach _ _ _ uname aname => uname.length ≤ 65535 ∧ aname.length ≤ 65535
  | .Rerror _ err => err.length ≤ 65535
  | .Rread _ data => data.length < 2 ^ 32
  | .Twrite _ _ _ data => data.length < 2 ^ 32
  | .Tcreate _ _ name _ _ => name.length ≤ 65535
  | .Rstat _ stat => ShortStat stat
  | .Twstat _ _ stat => ShortStat stat
  | .Twalk _ _ _ names => names.length ≤ 65535 ∧ ∀ n ∈ names, n.length ≤ 65535
  | .Rwalk _ qids => qids.length ≤ 65535
  | _ => True

/-- The offsets of the fields do not wrap around, and the length of the message is a `uint32`. -/
def Fits : Msg → Prop
  | .Tauth _ _ uname _ => uname.length ≤ 65525
  | .Tattach _ _ _ uname _ => uname.length ≤ 65521
  | .Tcreate _ _ name _ _ => name.length ≤ 65523
  | .Rread _ data => data.length + 11 < 2 ^ 32
  | .Twrite _ _ _ data => data.length + 23 < 2 ^ 32
  | .Twalk _ _ _ names => (names.map (fun n => 2 + n.length)).sum + 17 < 2 ^ 32
  | _ => True

section Lengths

@[simp] theorem length_str (s : Bytes) : (str s).length = 2 + s.length := by simp [str]

@[simp] theorem length_qidBytes (qid : Qid) : (qidBytes qid).length = 13 := by simp [qidBytes]

theorem u16_of_le {n : ℕ} (h : n ≤ 65535) : u16 n = n := Nat.mod_eq_of_lt (by omega)

theorem u32_of_lt {n : ℕ} (h : n < 2 ^ 32) : u32 n = n := Nat.mod_eq_of_lt h

theorem truncstrlen_of_le {s : Bytes} (h : s.length ≤ 65535) : truncstrlen s = s.length := u16_of_le h

theorem statLen_of_short {st : Stat} (h : ShortStat st) :
    statLen st = 49 + (st.name.length + st.uid.length + st.gid.length + st.muid.length) := by
  rw [statLen, truncstrlen_of_le h.name, truncstrlen_of_le h.uid, truncstrlen_of_le h.gid,
    truncstrlen_of_le h.muid, qidSize]
  omega

theorem length_statBytes {st : Stat} (h : ShortStat st) : (statBytes st).length = statLen st := by
  simp only [statBytes, length_append, length_leBytes, length_qidBytes, length_str, statLen_of_short h]
  omega

theorem foldl_wireLen (names : List Bytes) (hnames : ∀ n ∈ names, n.length ≤ 65535) (sz : ℕ) :
    names.foldl (fun sz s => sz + (2 + truncstrlen s)) sz = sz + (names.map (fun n => 2 + n.length)).sum := by
  induction names generalizing sz with
  | nil => simp
  | cons n ns ih =>
    rw [foldl_cons, ih (fun x hx => hnames x (mem_cons_of_mem n hx)),
      truncstrlen_of_le (hnames n mem_cons_self), map_cons, sum_cons, Nat.add_assoc]

theorem length_walked (tag : UInt16) (qids : List Qid) :
    wireLen (.Rwalk tag qids) = 5 + (body (.Rwalk tag qids)).length := by
  simp [wireLen, body, headerSize, qidSize, length_flatMap]
  omega

theorem length_body {m : Msg} (hm : Bounded m) : wireLen m = 5 + (body m).length := by
  cases m with
  | Tauth _ _ uname aname =>
    simp [wireLen, body, headerSize, truncstrlen_of_le hm.1, truncstrlen_of_le hm.2]
    omega
  | Tattach _ _ _ uname aname =>
    simp [wireLen, body, headerSize, truncstrlen_of_le hm.1, truncstrlen_of_le hm.2]
    omega
  | Rstat _ stat =>
    simp [wireLen, body, headerSize, length_statBytes hm]
    omega
  | Twstat _ _ stat =>
    simp [wireLen, body, headerSize, length_statBytes hm]
    omega
  | Twalk _ _ _ names =>
    rw [wireLen, foldl_wireLen names hm.2]
    simp [body, headerSize, length_flatMap]
    omega
  | Rwalk tag qids => exact length_walked tag qids
  | Tversion _ _ s | Rversion _ _ s | Rerror _ s | Tcreate _ _ s _ _ =>
    simp [wireLen, body, headerSize, truncstrlen_of_le hm]
    omega
  | _ =>
    simp [wireLen, body, headerSize, qidSize]
    try omega

end Lengths

variable {b : Slice} {k : ℕ} {buf : Slice} {qid : Qid} {tag : UInt16} {m : Msg}

section Pack

variable {qids : List Qid}

theorem fills_qid (hlen : 0 < buf.len) (hcap : 13 ≤ buf.cap) : Fills (packQid buf qid) buf.off (qidBytes qid) :=
  (fills_setByte hlen).seq ((fills_putUint (by omega)).seq (fills_putUint (by omega)) (by simp)) (by simp)

theorem fills_string {s : Bytes} (hs : s.length ≤ 65535) (hlen : k + 2 + s.length ≤ b.len) :
    Fills (packString b k s) (b.off + k) (str s) := by
  have hcap := b.len_le
  rw [packString, u16_of_le hs, take_length]
  exact (fills_putUint (by omega)).seq (fills_copyTo (by omega)) (by simp; omega)

theorem fills_names {uname aname : Bytes} (ha : aname.length ≤ 65535) (hu : k + 4 + uname.length ≤ 65535)
    (hlen : k + 4 + uname.length + aname.length ≤ b.len) :
    Fills (packNames b k uname aname) (b.off + k) (str uname ++ str aname) := by
  have hcap := b.len_le
  rw [packNames, u16_of_le (by omega : uname.length ≤ 65535), u16_of_le ha]
  dsimp only
  rw [u16_of_le (by omega), u16_of_le hu, take_length]
  exact (fills_string (by omega) (by omega)).seq ((fills_putUint (by omega)).seq
    (fills_copyTo (by omega)) (by simp; omega)) (by simp; omega)

theorem fills_data {data : Bytes} (hdata : data.length < 2 ^ 32) (hlen : k + 4 + data.length ≤ b.len) :
    Fills (packData b k data) (b.off + k) (leBytes 4 data.length ++ data) := by
  have hcap := b.len_le
  rw [packData, u32_of_lt hdata]
  exact (fills_putUint (by omega)).seq (fills_copyTo (by omega)) (by simp; omega)

theorem fills_create {fid perm : UInt32} {name : Bytes} {mode : UInt8}
    (hname : 12 + name.length ≤ 65535) (hlen : 13 + name.length ≤ b.len) :
    Fills (packCreate b tag fid name perm mode) b.off
      (leBytes 2 tag.toNat ++ (leBytes 4 fid.toNat ++ (str name ++ (leBytes 4 perm.toNat ++ [mode])))) := by
  have hcap := b.len_le
  rw [packCreate, u16_of_le (by omega : name.length ≤ 65535)]
  dsimp only
  rw [u16_of_le (by omega), u16_of_le hname, str]
  simp only [append_assoc]
  exact (fills_putUint (by omega)).seq ((fills_putUint (by omega)).seq
    ((fills_putUint (by omega)).seq ((fills_copyTo (by omega)).seq
      ((fills_putUint (by omega)).seq (fills_setByte (by omega)) (by simp; omega))
      (by omega)) (by simp)) (by simp)) (by simp)

theorem write_str {mem : Memory} {p q : ℕ} {s : Bytes} (hq : q = p + 2) :
    (mem.write p (leBytes 2 s.length)).write q s = mem.write p (str s) :=
  write_append (by simpa using hq)

theorem write_strings (mem : Memory) (off : ℕ) (name uid gid muid : Bytes) :
    (((((((mem.write (off + 41) (leBytes 2 name.length)).write
      (off + (43 + name.length)) (leBytes 2 uid.length)).write
      (off + (45 + name.length + uid.length)) (leBytes 2 gid.length)).write
      (off + (47 + name.length + uid.length + gid.length)) (leBytes 2 muid.length)).write
      (off + 43) name).write (off + (45 + name.length)) uid).write
      (off + (47 + name.length + uid.length)) gid).write
      (off + (49 + name.length + uid.length + gid.length)) muid =
      mem.write (off + 41) (str name ++ (str uid ++ (str gid ++ str muid))) := by
  have huid : off + 43 + name.length ≤ off + (43 + name.length) := by omega
  have hgid : off + 43 + name.length ≤ off + (45 + name.length + uid.length) := by omega
  have hmuid : off + 43 + name.length ≤ off + (47 + name.length + uid.length + gid.length) := by omega
  have hgid' : off + (45 + name.length) + uid.length ≤ off + (45 + name.length + uid.length) := by omega
  have hmuid' : off + (45 + name.length) + uid.length ≤ off + (47 + name.length + uid.length + gid.length) := by omega
  have hmuid'' : off + (47 + name.length + uid.length) + gid.length ≤
      off + (47 + name.length + uid.length + gid.length) := by omega
  -- each string is moved in front of the lengths behind it
  rw [write_comm hmuid, write_comm hgid, write_comm huid, write_comm hmuid',
    write_comm hgid', write_comm hmuid'', write_str rfl, write_str (by omega),
    write_str (by omega), write_str (by omega), write_append (by simp; omega),
    write_append (by simp; omega), write_append (by simp; omega)]

theorem fills_statStrings {st : Stat} (hst : ShortStat st) (hlen : statLen st ≤ buf.len) :
    Fills (packStatStrings buf st) (buf.off + 41) (str st.name ++ (str st.uid ++ (str st.gid ++ str st.muid))) := by
  have hcap := buf.len_le
  rw [statLen_of_short hst] at hlen
  intro mem
  rw [packStatStrings, truncstrlen_of_le hst.name, truncstrlen_of_le hst.uid, truncstrlen_of_le hst.gid,
    truncstrlen_of_le hst.muid]
  rw [bind_of_ok (putUint_ok (by omega) hcap), bind_of_ok (putUint_ok (by omega) hcap),
    bind_of_ok (putUint_ok (by omega) hcap), bind_of_ok (putUint_ok (by omega) hcap),
    bind_of_ok (fills_copyTo (by omega) _), bind_of_ok (fills_copyTo (by omega) _),
    bind_of_ok (fills_copyTo (by omega) _), fills_copyTo (by omega), write_strings]

theorem fills_stat {st : Stat} (hst : ShortStat st) (hlen : statLen st ≤ buf.len) :
    Fills (packStat buf st) buf.off (statBytes st) := by
  have hcap := buf.len_le
  have hmin : 49 ≤ statLen st := by
    rw [statLen_of_short hst]
    omega
  have hqid : 8 ≤ 21 ∧ 21 ≤ buf.cap := by omega
  exact (fills_putUint (by omega)).seq ((fills_putUint (by omega)).seq
    ((fills_putUint (by omega)).seq (fills_slice hqid ((fills_qid (by simp)
      (by simp; omega)).seq ((fills_putUint (by omega)).seq
      ((fills_putUint (by omega)).seq ((fills_putUint (by omega)).seq
      ((fills_putUint (by omega)).seq (fills_statStrings hst hlen) (by simp)) (by simp)) (by simp))
      (by simp)) (by simp))) (by simp)) (by simp)) (by simp)

theorem fills_walkNames {names : List Bytes} (offset : ℕ) (hnames : ∀ n ∈ names, n.length ≤ 65535)
    (hlen : 12 + offset + (names.flatMap str).length ≤ b.len) :
    Fills (packWalkNames b names offset) (b.off + (12 + offset)) (names.flatMap str) := by
  have hcap := b.len_le
  induction names generalizing offset with
  | nil => exact fills_pure
  | cons n ns ih =>
    rw [flatMap_cons, length_append, length_str] at hlen
    rw [packWalkNames, truncstrlen_of_le (hnames n mem_cons_self), take_length,
      flatMap_cons, str, append_assoc]
    have hrest := ih (offset + (2 + n.length)) (fun x hx => hnames x (mem_cons_of_mem n hx)) (by omega)
    exact (fills_putUint (by omega)).seq ((fills_copyTo (by omega)).seq hrest (by omega)) (by simp; omega)

theorem fills_walkQids (offset : ℕ) (hlen : 4 + offset + (qids.flatMap qidBytes).length ≤ b.len) :
    Fills (packWalkQids b qids offset) (b.off + (4 + offset)) (qids.flatMap qidBytes) := by
  have hcap := b.len_le
  induction qids generalizing offset with
  | nil => exact fills_pure
  | cons qid qids ih =>
    rw [flatMap_cons, length_append, length_qidBytes] at hlen
    have hslice : 4 + offset ≤ 4 + offset + qidSize ∧ 4 + offset + qidSize ≤ b.cap := by
      simp only [qidSize]
      omega
    have hrest := ih (offset + qidSize) (by simp only [qidSize]; omega)
    exact fills_slice hslice ((fills_qid (by simp [qidSize]) (by simp; omega)).seq hrest (by simp [qidSize]; omega))

theorem fills_version {messageSize : UInt32} {version : Bytes} (hv : version.length ≤ 65535)
    (hlen : 8 + version.length ≤ b.len) : Fills (packVersion b tag messageSize version) b.off
      (leBytes 2 tag.toNat ++ (leBytes 4 messageSize.toNat ++ str version)) := by
  have hcap := b.len_le
  exact (fills_putUint (by omega)).seq ((fills_putUint (by omega)).seq (fills_string hv hlen) (by simp)) (by simp)

theorem fills_tagQid (hlen : 15 ≤ b.len) :
    Fills (packTagQid b tag qid) b.off (leBytes 2 tag.toNat ++ qidBytes qid) := by
  have hcap := b.len_le
  exact (fills_putUint (by omega)).seq (fills_slice ⟨by omega, hcap⟩
    (fills_qid (by simp; omega) (by simp; omega))) (by simp)

theorem fills_tag (hlen : 2 ≤ b.len) : Fills (packTag b tag) b.off (leBytes 2 tag.toNat) :=
  fills_putUint ⟨by omega, hlen.trans b.len_le⟩

theorem fills_tagUint32 {v : UInt32} (hlen : 6 ≤ b.len) :
    Fills (packTagUint32 b tag v) b.off (leBytes 2 tag.toNat ++ leBytes 4 v.toNat) := by
  have hcap := b.len_le
  exact (fills_putUint (by omega)).seq (fills_putUint (by omega)) (by simp)

theorem fills_opened {iounit : UInt32} (hlen : 19 ≤ b.len) :
    Fills (packOpened b tag qid iounit) b.off (leBytes 2 tag.toNat ++ (qidBytes qid ++ leBytes 4 iounit.toNat)) := by
  have hcap := b.len_le
  exact (fills_putUint (by omega)).seq (fills_slice ⟨by omega, by omega⟩
    ((fills_qid (by simp) (by simp; omega)).seq (fills_putUint (by omega)) (by simp))) (by simp)

theorem fills_walked (hlen : b.len = (body (.Rwalk tag qids)).length) :
    Fills (packBody b (.Rwalk tag qids)) b.off (body (.Rwalk tag qids)) := by
  have hcap := b.len_le
  simp only [body, length_append, length_leBytes] at hlen
  exact (fills_putUint (by omega)).seq ((fills_putUint (by omega)).seq
    (fills_walkQids 0 (by omega)) (by simp)) (by simp)

theorem fills_body {m : Msg} (hm : Bounded m) (hfits : Fits m) (hlen : b.len = (body m).length) :
    Fills (packBody b m) b.off (body m) := by
  have hcap := b.len_le
  cases m <;> simp only [body, length_append, length_leBytes, length_str, length_qidBytes, length_singleton] at hlen
  case Tversion tag messageSize version | Rversion tag messageSize version =>
    exact fills_version hm (by omega)
  case Tauth tag afid uname aname =>
    simp only [Fits] at hfits
    exact (fills_putUint (by omega)).seq ((fills_putUint (by omega)).seq
      (fills_names hm.2 (by omega) (by omega)) (by simp)) (by simp)
  case Tattach tag fid afid uname aname =>
    simp only [Fits] at hfits
    exact (fills_putUint (by omega)).seq ((fills_putUint (by omega)).seq ((fills_putUint (by omega)).seq
        (fills_names hm.2 (by omega) (by omega)) (by simp)) (by simp)) (by simp)
  case Rauth tag qid | Rattach tag qid => exact fills_tagQid (by omega)
  case Rerror tag err =>
    exact (fills_putUint (by omega)).seq (fills_string hm (by omega)) (by simp)
  case Tflush tag oldTag =>
    exact (fills_putUint (by omega)).seq (fills_putUint (by omega)) (by simp)
  case Rflush tag | Rclunk tag | Rremove tag | Rwstat tag => exact fills_tag (by omega)
  case Tread tag fid offset count =>
    exact (fills_putUint (by omega)).seq ((fills_putUint (by omega)).seq
      ((fills_putUint (by omega)).seq (fills_putUint (by omega)) (by simp)) (by simp))
      (by simp)
  case Rread tag data =>
    exact (fills_putUint (by omega)).seq (fills_data hm (by omega)) (by simp)
  case Twrite tag fid offset data =>
    exact (fills_putUint (by omega)).seq ((fills_putUint (by omega)).seq
      ((fills_putUint (by omega)).seq (fills_data hm (by omega)) (by simp)) (by simp)) (by simp)
  case Rwrite tag v | Tclunk tag v | Tremove tag v | Tstat tag v => exact fills_tagUint32 (by omega)
  case Topen tag fid mode =>
    exact (fills_putUint (by omega)).seq ((fills_putUint (by omega)).seq
      (fills_setByte (by omega)) (by simp)) (by simp)
  case Ropen tag qid iounit | Rcreate tag qid iounit => exact fills_opened (by omega)
  case Tcreate tag fid name perm mode =>
    simp only [Fits] at hfits
    exact fills_create (by omega) (by omega)
  case Rstat tag stat =>
    rw [length_statBytes hm] at hlen
    exact (fills_putUint (by omega)).seq ((fills_putUint (by omega)).seq
      (fills_slice ⟨by omega, hcap⟩ (fills_stat hm (by simp; omega))) (by simp)) (by simp)
  case Twstat tag fid stat =>
    rw [length_statBytes hm] at hlen
    exact (fills_putUint (by omega)).seq ((fills_putUint (by omega)).seq ((fills_putUint (by omega)).seq
        (fills_slice ⟨by omega, hcap⟩ (fills_stat hm (by simp; omega))) (by simp)) (by simp)) (by simp)
  case Twalk tag fid newFid names =>
    exact (fills_putUint (by omega)).seq ((fills_putUint (by omega)).seq
      ((fills_putUint (by omega)).seq ((fills_putUint (by omega)).seq
        (fills_walkNames 0 hm.2 (by omega)) (by simp)) (by simp)) (by simp)) (by simp)
  case Rwalk tag qids => exact fills_walked (by simpa [body] using hlen)

end Pack

section Unpack

variable {sz : ℕ}

theorem parses_need {p : ℕ} (h : sz ≤ b.len) : Parses (need b sz) p [] () := by
  intro mem _
  rw [need, if_neg (by omega)]
  rfl

theorem parses_tagged {f : ℕ → MemM Msg} {bs : Bytes} {m : Msg} (h : sz ≤ b.len ∧ 2 ≤ b.cap)
    (hf : Parses (f tag.toNat) (b.off + 2) bs m) :
    Parses (need b sz >>= fun _ => uint 2 b 0 2 >>= f) b.off (leBytes 2 tag.toNat ++ bs) m :=
  (parses_need h.1).after ((parses_uint (by omega) tag.toNat_lt).bind hf (by simp))

theorem parses_qid (hlen : 0 < buf.len) (hcap : 13 ≤ buf.cap) : Parses (unpackQid buf) buf.off (qidBytes qid) qid :=
  (parses_byteAt hlen).bind ((parses_uint (by omega) qid.version.toNat_lt).bind
    ((parses_uint (by omega) qid.path.toNat_lt).map (by simp)) (by simp)) (by simp)

theorem parses_string {s : Bytes} (hs : s.length ≤ 65535) (hsz : sz + s.length ≤ b.len)
    (hlen : k + 2 + s.length ≤ b.len) : Parses (unpackString b k sz) (b.off + k) (str s) s := by
  have hcap := b.len_le
  exact (parses_uint (by omega) (by omega)).bind ((parses_need hsz).after
    (parses_bytesOf rfl (by omega))) (by simp; omega)

theorem parses_names {uname aname : Bytes} (hu : uname.length ≤ 65535) (ha : aname.length ≤ 65535)
    (hlen : k + 4 + uname.length + aname.length ≤ b.len) :
    Parses (unpackNames b k) (b.off + k) (str uname ++ str aname) (uname, aname) :=
  (parses_string hu (by omega) (by omega)).bind ((parses_string ha (by omega) (by omega)).map rfl) (by simp; omega)

theorem parses_data {data : Bytes} (hdata : k + 4 + data.length < 2 ^ 32) (hlen : k + 4 + data.length ≤ b.len) :
    Parses (unpackData b k) (b.off + k) (leBytes 4 data.length ++ data) data := by
  have hcap := b.len_le
  have hend := u32_of_lt hdata
  exact (parses_uint (by omega) (by omega)).bind ((parses_need hlen).after
    ((parses_bytesOf hend (by omega)).map (by simp [overwrite]))) (by simp; omega)

theorem parses_create {fid perm : UInt32} {name : Bytes} {mode : UInt8}
    (hname : 12 + name.length ≤ 65535) (hlen : 13 + name.length ≤ b.len) :
    Parses (unpackCreate b) b.off
      (leBytes 2 tag.toNat ++ (leBytes 4 fid.toNat ++ (str name ++ (leBytes 4 perm.toNat ++ [mode]))))
      (.Tcreate tag fid name perm mode) := by
  have hcap := b.len_le
  rw [str, append_assoc]
  have hend : u16 (8 + name.length) = 8 + name.length := u16_of_le (by omega)
  have hmode := u16_of_le hname
  exact parses_tagged (by omega) ((parses_uint (by omega) fid.toNat_lt).bind
      ((parses_uint (by omega) (by omega)).bind ((parses_need (by omega)).after
        ((parses_bytesOf hend (by omega)).bind ((parses_uint (by omega) perm.toNat_lt).bind
          ((parses_byteAt (by omega)).map (by simp)) (by simp; omega)) (by omega)))
        (by simp)) (by simp))

theorem parses_walkNames {names : List Bytes} (sz offset : ℕ) (hnames : ∀ n ∈ names, n.length ≤ 65535)
    (hsz : sz ≤ 12 + offset) (hlen : 12 + offset + (names.flatMap str).length ≤ b.len) :
    Parses (unpackWalkNames b names.length sz offset) (b.off + (12 + offset)) (names.flatMap str) names := by
  have hcap := b.len_le
  induction names generalizing sz offset with
  | nil => exact parses_pure []
  | cons n ns ih =>
    have hn := hnames n mem_cons_self
    rw [flatMap_cons, length_append, length_str] at hlen
    rw [flatMap_cons, str, append_assoc]
    have hrest := ih (sz + 2) (offset + (n.length + 2)) (fun x hx => hnames x (mem_cons_of_mem n hx))
      (by omega) (by omega)
    exact (parses_need (by omega)).after ((parses_uint (by omega) (by omega)).bind
      ((parses_bytesOf rfl (by omega)).bind (hrest.map rfl) (by omega)) (by simp; omega))

theorem parses_walkQids {qids : List Qid} (offset : ℕ) (hlen : 4 + offset + (qids.flatMap qidBytes).length ≤ b.len) :
    Parses (unpackWalkQids b qids.length offset) (b.off + (4 + offset)) (qids.flatMap qidBytes) qids := by
  have hcap := b.len_le
  induction qids generalizing offset with
  | nil => exact parses_pure []
  | cons qid qids ih =>
    rw [flatMap_cons, length_append, length_qidBytes] at hlen
    have hslice : 4 + offset ≤ 4 + offset + qidSize ∧ 4 + offset + qidSize ≤ b.cap := by
      simp only [qidSize]
      omega
    have hrest := ih (offset + qidSize) (by simp only [qidSize]; omega)
    rw [length_cons, unpackWalkQids, flatMap_cons]
    exact parses_slice hslice ((parses_qid (by simp [qidSize]) (by simp; omega)).bind (hrest.map rfl)
      (by simp [qidSize]; omega))

theorem parses_version {messageSize : UInt32} {version : Bytes}
    {msg : UInt16 → UInt32 → Bytes → Msg} (hv : version.length ≤ 65535) (hlen : 8 + version.length ≤ b.len) :
    Parses (unpackVersion b msg) b.off (leBytes 2 tag.toNat ++ (leBytes 4 messageSize.toNat ++ str version))
      (msg tag messageSize version) := by
  have hcap := b.len_le
  exact parses_tagged (by omega) ((parses_uint (by omega) messageSize.toNat_lt).bind
      ((parses_string hv (by omega) (by omega)).map (by simp)) (by simp))

theorem parses_tagQid {msg : UInt16 → Qid → Msg} (hlen : 15 ≤ b.len) :
    Parses (unpackTagQid b msg) b.off (leBytes 2 tag.toNat ++ qidBytes qid) (msg tag qid) := by
  have hcap := b.len_le
  have hslice : 2 ≤ qidSize ∧ qidSize ≤ b.cap := by
    simp only [qidSize]
    omega
  exact (parses_need (by simp only [qidSize]; omega)).after
    ((parses_uint (by omega) tag.toNat_lt).bind (parses_slice hslice
      ((parses_qid (by simp [qidSize]) (by simp; omega)).map (by simp))) (by simp))

theorem parses_tag {msg : UInt16 → Msg} (hlen : 2 ≤ b.len) :
    Parses (unpackTag b msg) b.off (leBytes 2 tag.toNat) (msg tag) := by
  have hcap := b.len_le
  exact (parses_need hlen).after ((parses_uint (by omega) tag.toNat_lt).map (by simp))

theorem parses_tagUint32 {v : UInt32} {msg : UInt16 → UInt32 → Msg} (hlen : 6 ≤ b.len) :
    Parses (unpackTagUint32 b msg) b.off (leBytes 2 tag.toNat ++ leBytes 4 v.toNat) (msg tag v) := by
  have hcap := b.len_le
  exact (parses_need hlen).after ((parses_uint (by omega) tag.toNat_lt).bind
    ((parses_uint (by omega) v.toNat_lt).map (by simp)) (by simp))

theorem parses_opened {iounit : UInt32} {msg : UInt16 → Qid → UInt32 → Msg}
    (hlen : 19 ≤ b.len) : Parses (unpackOpened b msg) b.off
      (leBytes 2 tag.toNat ++ (qidBytes qid ++ leBytes 4 iounit.toNat)) (msg tag qid iounit) := by
  have hcap := b.len_le
  exact (parses_need (by simp only [qidSize]; omega)).after
    ((parses_uint (by omega) tag.toNat_lt).bind (parses_slice ⟨by omega, by omega⟩
      ((parses_qid (by simp) (by simp; omega)).bind
        ((parses_uint (by omega) iounit.toNat_lt).map (by simp)) (by simp))) (by simp))

theorem parses_statStrings {name uid gid muid : Bytes} (hname : name.length ≤ 65535)
    (huid : uid.length ≤ 65535) (hgid : gid.length ≤ 65535) (hmuid : muid.length ≤ 65535)
    (hlen : 49 + (name.length + uid.length + gid.length + muid.length) ≤ buf.len) :
    Parses (unpackStatStrings buf 49) (buf.off + 41) (str name ++ (str uid ++ (str gid ++ str muid)))
      (name, uid, gid, muid) := by
  have hcap := buf.len_le
  intro mem hmem
  obtain ⟨hmem₁, hmem⟩ := read_append.mp hmem
  obtain ⟨hmem₂, hmem⟩ := read_append.mp hmem
  obtain ⟨hmem₃, hmem₄⟩ := read_append.mp hmem
  obtain ⟨hlen₁, hbytes₁⟩ := read_append.mp hmem₁
  obtain ⟨hlen₂, hbytes₂⟩ := read_append.mp hmem₂
  obtain ⟨hlen₃, hbytes₃⟩ := read_append.mp hmem₃
  obtain ⟨hlen₄, hbytes₄⟩ := read_append.mp hmem₄
  rw [unpackStatStrings, bind_of_ok ((parses_uint (by omega) (by omega)).eval hlen₁ rfl),
    bind_of_ok (parses_need (p := 0) (by omega) mem rfl),
    bind_of_ok ((parses_uint (by omega) (by omega)).eval hlen₂ (by simp; omega)),
    bind_of_ok (parses_need (p := 0) (by omega) mem rfl),
    bind_of_ok ((parses_uint (by omega) (by omega)).eval hlen₃ (by simp; omega)),
    bind_of_ok (parses_need (p := 0) (by omega) mem rfl),
    bind_of_ok ((parses_uint (by omega) (by omega)).eval hlen₄ (by simp; omega)),
    bind_of_ok (parses_need (p := 0) (by omega) mem rfl),
    bind_of_ok ((parses_bytesOf rfl (by omega)).eval hbytes₁ (by simp)),
    bind_of_ok ((parses_bytesOf rfl (by omega)).eval hbytes₂ (by simp; omega)),
    bind_of_ok ((parses_bytesOf rfl (by omega)).eval hbytes₃ (by simp; omega)),
    bind_of_ok ((parses_bytesOf rfl (by omega)).eval hbytes₄ (by simp; omega))]
  rfl

theorem parses_stat {st : Stat} (hst : ShortStat st) (hlen : statLen st ≤ buf.len) :
    Parses (unpackStat buf) buf.off (statBytes st) st := by
  have hcap := buf.len_le
  rw [statLen_of_short hst] at hlen
  have hstrings := parses_statStrings hst.name hst.uid hst.gid hst.muid hlen
  have hqid : 8 ≤ 21 ∧ 21 ≤ buf.cap := by omega
  exact (parses_need (by simp only [qidSize]; omega)).after
    (Parses.skip ((parses_uint (by omega) st.type.toNat_lt).bind
    ((parses_uint (by omega) st.dev.toNat_lt).bind (parses_slice hqid ((parses_qid (by simp) (by simp; omega)).bind
      ((parses_uint (by omega) st.mode.toNat_lt).bind
      ((parses_uint (by omega) st.atime.toNat_lt).bind
      ((parses_uint (by omega) st.mtime.toNat_lt).bind
      ((parses_uint (by omega) st.length.toNat_lt).bind
      (hstrings.map (by simp)) (by simp)) (by simp)) (by simp)) (by simp)) (by simp))) (by simp)) (by simp))
    (by simp))

theorem parses_body {m : Msg} (hm : Bounded m) (hfits : Fits m) (hlen : b.len = (body m).length) :
    Parses (unpackBody b (msgType m)) b.off (body m) m := by
  have hcap := b.len_le
  cases m <;> simp only [body, length_append, length_leBytes, length_str, length_qidBytes, length_singleton] at hlen
  case Tversion tag messageSize version | Rversion tag messageSize version =>
    exact parses_version hm (by omega)
  case Tauth tag afid uname aname =>
    exact parses_tagged (by omega) ((parses_uint (by omega) afid.toNat_lt).bind
        ((parses_names hm.1 hm.2 (by omega)).map (by simp)) (by simp))
  case Tattach tag fid afid uname aname =>
    exact parses_tagged (by omega) ((parses_uint (by omega) fid.toNat_lt).bind
        ((parses_uint (by omega) afid.toNat_lt).bind
          ((parses_names hm.1 hm.2 (by omega)).map (by simp)) (by simp)) (by simp))
  case Rauth tag qid | Rattach tag qid => exact parses_tagQid (by omega)
  case Rerror tag err =>
    exact parses_tagged (by omega) ((parses_string hm (by omega) (by omega)).map (by simp))
  case Tflush tag oldTag =>
    exact parses_tagged (by omega) ((parses_uint (by omega) oldTag.toNat_lt).map (by simp))
  case Rflush tag | Rclunk tag | Rremove tag | Rwstat tag => exact parses_tag (by omega)
  case Tread tag fid offset count =>
    exact parses_tagged (by omega) ((parses_uint (by omega) fid.toNat_lt).bind
        ((parses_uint (by omega) offset.toNat_lt).bind
          ((parses_uint (by omega) count.toNat_lt).map (by simp)) (by simp)) (by simp))
  case Rread tag data =>
    simp only [Fits] at hfits
    exact parses_tagged (by omega) ((parses_data (by omega) (by omega)).map (by simp))
  case Twrite tag fid offset data =>
    simp only [Fits] at hfits
    exact parses_tagged (by omega) ((parses_uint (by omega) fid.toNat_lt).bind
        ((parses_uint (by omega) offset.toNat_lt).bind
          ((parses_data (by omega) (by omega)).map (by simp)) (by simp)) (by simp))
  case Rwrite tag v | Tclunk tag v | Tremove tag v | Tstat tag v => exact parses_tagUint32 (by omega)
  case Topen tag fid mode =>
    exact parses_tagged (by omega) ((parses_uint (by omega) fid.toNat_lt).bind
        ((parses_byteAt (by omega)).map (by simp)) (by simp))
  case Ropen tag qid iounit | Rcreate tag qid iounit => exact parses_opened (by omega)
  case Tcreate tag fid name perm mode =>
    simp only [Fits] at hfits
    exact parses_create (by omega) (by omega)
  case Rstat tag stat =>
    rw [length_statBytes hm] at hlen
    -- the size of the stat is not read
    exact parses_tagged (by omega)
      (Parses.skip (p := b.off + 2) (parses_slice ⟨by omega, hcap⟩ ((parses_stat hm (by simp; omega)).map
        (by simp))) (by simp))
  case Twstat tag fid stat =>
    rw [length_statBytes hm] at hlen
    exact parses_tagged (by omega) ((parses_uint (by omega) fid.toNat_lt).bind
        (Parses.skip (p := b.off + 6) (parses_slice ⟨by omega, hcap⟩ ((parses_stat hm (by simp; omega)).map
          (by simp))) (by simp)) (by simp))
  case Twalk tag fid newFid names =>
    exact parses_tagged (by omega) ((parses_uint (by omega) fid.toNat_lt).bind
        ((parses_uint (by omega) newFid.toNat_lt).bind ((parses_uint (by omega) (Nat.lt_succ_of_le hm.1)).bind
            ((parses_walkNames _ 0 hm.2 (by omega) (by omega)).map (by simp)) (by simp)) (by simp)) (by simp))
  case Rwalk tag qids =>
    have hqids : qids.length * qidSize ≤ b.len := by
      rw [hlen]
      simp [length_flatMap, qidSize]
      omega
    exact parses_tagged (by omega) ((parses_uint (by omega) (Nat.lt_succ_of_le hm)).bind ((parses_need hqids).after
        ((parses_walkQids 0 (by omega)).map (by simp))) (by simp))

end Unpack

/-- The message `m` and the bytes `w` are packed and unpacked into each other. `PackMsg`
writes `w` into any buffer that is long enough, and writes nothing else. -/
structure RoundTrips (m : Msg) (w : Bytes) : Prop where
  length : w.length = wireLen m
  sizeField : leNat (w.take 4) = wireLen m
  pack : ∀ (buf : Slice) (mem : Memory) (h : wireLen m ≤ buf.len),
    packMsg buf m mem = (.ok (buf.part 0 (wireLen m) ⟨Nat.zero_le _, h.trans buf.len_le⟩), mem.write buf.off w)
  unpack : ∀ (buf : Slice) (mem : Memory), mem.read buf.off buf.len = w → unpackMsg buf mem = (.ok m, mem)

section RoundTrip

theorem newMsg_toByte (t : MessageType) : newMsg t.toByte = .ok t := by
  cases t <;> rfl

theorem length_wire (hm : Bounded m) : (wire m).length = wireLen m := by
  simp only [wire, length_append, length_leBytes, length_singleton, length_body hm]
  omega

theorem fills_msg_of_body {buf : Slice} (hlen : wireLen m = 5 + (body m).length)
    (hfills : ∀ b : Slice, b.len = (body m).length → Fills (packBody b m) b.off (body m))
    (h : wireLen m ≤ buf.len) (mem : Memory) : packMsg buf m mem =
      (.ok (buf.part 0 (wireLen m) ⟨Nat.zero_le _, h.trans buf.len_le⟩), mem.write buf.off (wire m)) := by
  have hcap := buf.len_le
  have hslice : headerSize ≤ wireLen m ∧ wireLen m ≤ buf.cap := by
    simp only [headerSize]
    omega
  have hbody : (buf.part headerSize (wireLen m) hslice).len = (body m).length := by
    simp only [part_len, headerSize]
    omega
  rw [packMsg, if_neg (by omega), bind_of_ok (putUint_ok (by omega) (by omega)),
    bind_of_ok (setByte_ok _ (by omega)), bind_of_ok (slice_ok hslice),
    bind_of_ok (hfills _ hbody _), slice_ok ⟨Nat.zero_le _, h.trans hcap⟩,
    write_append (by rfl), write_append (by simp)]
  rfl

variable (hm : Bounded m) (hfits : Fits m)
include hm hfits

theorem fills_msg {buf : Slice} (h : wireLen m ≤ buf.len) (mem : Memory) :
    packMsg buf m mem =
      (.ok (buf.part 0 (wireLen m) ⟨Nat.zero_le _, h.trans buf.len_le⟩), mem.write buf.off (wire m)) :=
  fills_msg_of_body (length_body hm) (fun _ hlen => fills_body hm hfits hlen) h mem

theorem parses_msg {buf : Slice} {mem : Memory} (hmem : mem.read buf.off buf.len = wire m) :
    unpackMsg buf mem = (.ok m, mem) := by
  have hcap := buf.len_le
  have hbuf : buf.len = wireLen m := by rw [← length_wire hm, ← hmem, length_read]
  have hlen := length_body hm
  rw [hbuf, ← length_wire hm] at hmem
  obtain ⟨-, hmem⟩ := read_append.mp hmem
  obtain ⟨htype, hmem⟩ := read_append.mp hmem
  have hslice : 5 ≤ buf.len ∧ buf.len ≤ buf.cap := by omega
  have hbody : (buf.part 5 buf.len hslice).len = (body m).length := by
    rw [part_len]
    omega
  rw [unpackMsg, if_neg (by omega), bind_of_ok ((parses_byteAt (by omega)).eval htype (by simp)),
    newMsg_toByte, bind_of_ok (liftExcept_eq_ok.mpr ⟨rfl, rfl⟩), bind_of_ok (slice_ok hslice)]
  exact (parses_body hm hfits hbody).eval hmem (by simp)

theorem wireLen_lt : wireLen m < 2 ^ 32 := by
  rw [length_body hm]
  cases m with
  | Tauth _ _ uname aname | Tattach _ _ _ uname aname =>
    have := hm.1
    have := hm.2
    simp only [body, length_append, length_leBytes, length_str]
    omega
  | Rstat _ stat | Twstat _ _ stat =>
    have := ShortStat.name hm
    have := ShortStat.uid hm
    have := ShortStat.gid hm
    have := ShortStat.muid hm
    simp only [body, length_append, length_leBytes, length_statBytes hm, statLen_of_short hm]
    omega
  | Twalk _ _ _ names =>
    simp only [Fits] at hfits
    simp only [body, length_append, length_leBytes, length_flatMap, length_str]
    omega
  | Rwalk _ qids =>
    simp only [Bounded] at hm
    simp [body, length_flatMap]
    omega
  | Rread _ data | Twrite _ _ _ data =>
    simp only [Fits] at hfits
    simp only [body, length_append, length_leBytes]
    omega
  | Tversion _ _ s | Rversion _ _ s | Rerror _ s | Tcreate _ _ s _ _ =>
    simp only [Bounded] at hm
    simp only [body, length_append, length_leBytes, length_str, length_singleton]
    omega
  | _ => simp [body]

theorem roundTrips_wire : RoundTrips m (wire m) where
  length := length_wire hm
  sizeField := by
    rw [wire, List.take_left' (length_leBytes _ _), leNat_leBytes_of_lt (wireLen_lt hm hfits)]
  pack _ mem h := fills_msg hm hfits h mem
  unpack _ _ hmem := parses_msg hm hfits hmem

end RoundTrip

section WrapAround

variable {w : Bytes} {i : ℕ} {uname aname : Bytes} {afid : UInt32}

/-- Only the end of the length of the second name wraps around, and the slice expression is
out of range. -/
theorem packNames_fails (hk : k ≤ 10) (hstart : k + 2 + uname.length ≤ 65535)
    (hlong : 65535 < k + 4 + uname.length) : Fails (packNames b k uname aname) := by
  have hulen : u16 uname.length = uname.length := u16_of_le (by omega)
  refine fails_of_rest fun _ => (fails_putUint ?_).bind
  rw [hulen, u16_of_le hstart, u16]
  omega

theorem packNames_spares (hu : uname.length ≤ 65535) (ha : aname.length ≤ 65535) (hk : k ≤ 10)
    (hlong : 65535 < k + 2 + uname.length) : Spares (b.off + (k + 3 + uname.length)) (packNames b k uname aname) := by
  have hstart : u16 (k + 2 + uname.length) = k + 2 + uname.length - 65536 := by
    rw [u16]
    omega
  have hend : u16 (k + 4 + uname.length) = k + 4 + uname.length - 65536 := by
    rw [u16]
    omega
  rw [packNames, packString, u16_of_le hu, u16_of_le ha]
  refine Spares.bind (Spares.bind (spares_putUint (by omega)) fun _ => spares_copyTo ?_) fun _ =>
    Spares.bind (spares_putUint ?_) fun _ => spares_copyTo ?_
  · rw [take_length]
    omega
  · rw [hstart]
    omega
  · rw [hend, take_length]
    omega

theorem packCreate_of_long {fid perm : UInt32} {name : Bytes} {mode : UInt8} (hname : name.length ≤ 65535)
    (hlong : 65535 < 12 + name.length) : Fails (packCreate b tag fid name perm mode) := by
  have hend : u16 (12 + name.length) = 12 + name.length - 65536 := by
    rw [u16]
    omega
  rw [packCreate, u16_of_le hname]
  refine fails_of_rest fun _ => fails_of_rest fun _ => fails_of_rest fun _ => ?_
  by_cases hstart : 8 + name.length ≤ 65535
  · refine fails_of_rest fun _ => (fails_putUint ?_).bind
    rw [hend, u16_of_le hstart]
    omega
  · refine (fails_copyTo ?_).bind
    rw [u16]
    omega

theorem fails_msg {buf : Slice} (hpack : ∀ b, Fails (packBody b m)) : Fails (packMsg buf m) := by
  rw [packMsg]
  by_cases hlen : buf.len < wireLen m
  · rw [if_pos hlen]
    intro mem a mem' h
    cases h
  · rw [if_neg hlen]
    exact fails_of_rest fun _ => fails_of_rest fun _ => fails_of_rest fun s => (hpack s).bind

theorem not_roundTrips_of_fails (hpack : ∀ b, Fails (packBody b m)) : ¬ RoundTrips m w := by
  intro h
  exact fails_msg hpack _ _ _ (h.pack ⟨0, wireLen m, wireLen m, le_rfl⟩ ⟨fun _ => 0⟩ le_rfl)

theorem not_roundTrips_of_spares (hi : headerSize + i < wireLen m)
    (hpack : ∀ b : Slice, Spares (b.off + i) (packBody b m)) : ¬ RoundTrips m w := by
  intro h
  have hspares : Spares (0 + (headerSize + i)) (packMsg ⟨0, wireLen m, wireLen m, le_rfl⟩ m) := by
    rw [packMsg, if_neg (Nat.lt_irrefl _)]
    refine Spares.bind (spares_putUint (by simp only [headerSize]; omega)) fun _ =>
      Spares.bind (spares_setByte (by simp only [headerSize]; omega)) fun _ =>
      spares_slice_bind ⟨by omega, le_rfl⟩ (Spares.bind ?_ fun _ => spares_slice)
    rw [← Nat.add_assoc]
    exact hpack _
  rw [← h.length] at hi
  have hbyte (v : UInt8) : v = w[headerSize + i] := by
    have hok := h.pack ⟨0, wireLen m, wireLen m, le_rfl⟩ ⟨fun _ => v⟩ le_rfl
    have hkept := hspares ⟨fun _ => v⟩
    rw [hok] at hkept
    exact hkept.symm.trans (write_byte hi)
  have hsame : (0 : UInt8) = 1 := (hbyte 0).trans (hbyte 1).symm
  exact absurd hsame (by decide)

theorem wireLen_lt_of_roundTrips (h : RoundTrips m w) : wireLen m < 2 ^ 32 := by
  have hlt := leNat_lt (w.take 4)
  have hle : (w.take 4).length ≤ 4 := by
    rw [length_take]
    omega
  rw [← h.sizeField]
  exact hlt.trans_le (Nat.pow_le_pow_right (by omega) hle)

theorem packAuth_fails (hstart : 8 + uname.length ≤ 65535)
    (hlong : 65525 < uname.length) : Fails (packBody b (.Tauth tag afid uname aname)) :=
  fails_of_rest fun _ => fails_of_rest fun _ => packNames_fails (by omega) (by omega) (by omega)

theorem auth_fits (hm : Bounded (.Tauth tag afid uname aname))
    (h : RoundTrips (.Tauth tag afid uname aname) w) : uname.length ≤ 65525 := by
  by_contra hlong
  by_cases hstart : 8 + uname.length ≤ 65535
  · exact not_roundTrips_of_fails (fun b => packAuth_fails hstart (by omega)) h
  · have hspares (b : Slice) : Spares (b.off + (6 + 3 + uname.length)) (packBody b (.Tauth tag afid uname aname)) :=
      Spares.bind (spares_putUint (by omega)) fun _ => Spares.bind (spares_putUint (by omega)) fun _ =>
        packNames_spares hm.1 hm.2 (by omega) (by omega)
    refine not_roundTrips_of_spares ?_ hspares h
    simp only [wireLen, headerSize, truncstrlen_of_le hm.1]
    omega

theorem attach_fits {fid : UInt32} (hm : Bounded (.Tattach tag fid afid uname aname))
    (h : RoundTrips (.Tattach tag fid afid uname aname) w) : uname.length ≤ 65521 := by
  by_contra hlong
  by_cases hstart : 12 + uname.length ≤ 65535
  · have hfails (b : Slice) : Fails (packBody b (.Tattach tag fid afid uname aname)) :=
      fails_of_rest fun _ => fails_of_rest fun _ => fails_of_rest fun _ =>
        packNames_fails (by omega) (by omega) (by omega)
    exact not_roundTrips_of_fails hfails h
  · have hspares (b : Slice) :
        Spares (b.off + (10 + 3 + uname.length)) (packBody b (.Tattach tag fid afid uname aname)) :=
      Spares.bind (spares_putUint (by omega)) fun _ => Spares.bind (spares_putUint (by omega)) fun _ =>
        Spares.bind (spares_putUint (by omega)) fun _ =>
          packNames_spares hm.1 hm.2 (by omega) (by omega)
    refine not_roundTrips_of_spares ?_ hspares h
    simp only [wireLen, headerSize, truncstrlen_of_le hm.1]
    omega

theorem fits_of_roundTrips (hm : Bounded m) (h : RoundTrips m w) : Fits m := by
  have hlt := wireLen_lt_of_roundTrips h
  cases m with
  | Tauth tag afid uname aname => exact auth_fits hm h
  | Tattach tag fid afid uname aname => exact attach_fits hm h
  | Tcreate tag fid name perm mode =>
    by_contra hlong
    simp only [Fits] at hlong
    exact not_roundTrips_of_fails (m := .Tcreate tag fid name perm mode) (fun b => packCreate_of_long hm (by omega)) h
  | Rread _ data | Twrite _ _ _ data =>
    simp only [wireLen, headerSize] at hlt
    simp only [Fits]
    omega
  | Twalk _ _ _ names =>
    rw [wireLen, foldl_wireLen names hm.2] at hlt
    simp only [headerSize] at hlt
    simp only [Fits]
    omega
  | _ => trivial

end WrapAround

/-- A message within the limits of 9P is packed into exactly `WireLen` bytes, which begin
with that number and are unpacked to the message, if and only if its offsets and its length
do not wrap around. -/
theorem msg_roundTrips_iff (m : Msg) (hm : Bounded m) : (∃ w, RoundTrips m w) ↔ Fits m := by
  constructor
  · rintro ⟨w, h⟩
    exact fits_of_roundTrips hm h
  · intro hfits
    exact ⟨wire m, roundTrips_wire hm hfits⟩

/-- The message of a client that walks to a file. -/
theorem msg_roundTrips_walk : Bounded (.Twalk 1 2 3 [[97], [98, 99]]) ∧
    ∃ w, RoundTrips (.Twalk 1 2 3 [[97], [98, 99]]) w := by
  have hm : Bounded (.Twalk 1 2 3 [[97], [98, 99]]) := by simp [Bounded]
  exact ⟨hm, (msg_roundTrips_iff _ hm).mpr (by simp [Fits])⟩

/-- With a user name of 65526 bytes `PackMsg` panics, although the buffer is long enough. -/
theorem auth_of_long_uname : Bounded (.Tauth 0 0 (List.replicate 65526 97) []) ∧
    ∀ buf mem, wireLen (.Tauth 0 0 (List.replicate 65526 97) []) ≤ buf.len →
      ∀ out mem', packMsg buf (.Tauth 0 0 (List.replicate 65526 97) []) mem ≠ (.ok out, mem') := by
  have hlen : (List.replicate 65526 (97 : UInt8)).length = 65526 := List.length_replicate
  refine ⟨⟨?_, Nat.zero_le _⟩, ?_⟩
  · rw [hlen]
    omega
  · intro buf mem _
    exact fails_msg (fun b => packAuth_fails (by omega) (by omega)) mem

end Bpy.NineRoundTrip
