import Bpy.NineMessages
import Bpy.SliceReads

/-!
# What `UnpackMsg` reads

The server decodes a message in place, in a buffer that still holds the messages before it.
Twenty-two of the decoders check the length of the body before every read. `Twalk` checks only
the lengths of the names, not the names; `Rwalk` leaves out the four bytes in front of the qids;
and in `Tcreate`, `Rread` and `Twrite` the end of a field wraps around.
-/
namespace Bpy.NineDecoding
open ByteWords ContentStore ByteSources ByteSlices SliceReads NineMessages

section Condition

variable (body : Bytes)

/-- Each name that the loop of `Twalk` comes to lies in the body. Arguments as in the loop. -/
def NamesInside : ℕ → ℕ → ℕ → Prop
  | 0, _, _ => True
  | i + 1, sz, offset => sz + 2 ≤ body.length →
    14 + offset + word 2 (12 + offset) body ≤ body.length ∧
      NamesInside i (sz + 2) (offset + (word 2 (12 + offset) body + 2))

/-- The end of the data is a `uint32`, if the data are in the body. -/
def DataInside (k : ℕ) : Prop := k + 4 + word 4 k body ≤ body.length → k + 4 + word 4 k body < 2 ^ 32

/-- What the checks of the decoders leave open. -/
def BodyInside : MessageType → Prop
  | .Twalk => NamesInside body (word 2 10 body) 12 0
  | .Rwalk => word 2 2 body * qidSize ≤ body.length → word 2 2 body = 0 ∨ 4 + word 2 2 body * qidSize ≤ body.length
  | .Tcreate => 13 + word 2 6 body ≤ body.length → 12 + word 2 6 body < 2 ^ 16
  | .Rread => DataInside body 2
  | .Twrite => DataInside body 14
  | _ => True

end Condition

/-- The body is as its type requires. -/
def MessageInside (b : Bytes) : Prop :=
  ∀ mt type, b[4]? = some mt → newMsg mt = .ok type → BodyInside (b.drop 5) type

/-- `UnpackMsg` returns a message or an error, the same one whatever follows the bytes in the buffer. -/
def Contained (b : Bytes) : Prop :=
  ∃ r : Except GoError Msg, (∀ msg, r ≠ .error (.panic msg)) ∧
    ∀ (s : Slice) (mem : Memory), mem.read s.off s.len = b → unpackMsg s mem = (r, mem)

section Parts

variable {bs : Bytes} {k sz : ℕ}

theorem inside_need (sz : ℕ) : Inside bs (fun s => need s sz) (fun _ => sz ≤ bs.length) := by
  rcases Nat.lt_or_ge bs.length sz with h | h
  · refine ⟨.error errMsgCorrupt, nofun, nofun, fun s mem hs => ?_⟩
    simp only [need, hs.len_eq, if_pos h]
    rfl
  · refine ⟨.ok (), nofun, fun _ _ => h, fun s mem hs => ?_⟩
    simp only [need, hs.len_eq, if_neg (Nat.not_lt.mpr h)]
    rfl

theorem gives_need (h : sz ≤ bs.length) : Gives bs (fun s => need s sz) () := by
  intro s mem hs
  simp only [need, hs.len_eq, if_neg (Nat.not_lt.mpr h)]
  rfl

theorem gives_unpackQid (h : qidSize ≤ bs.length) : ∃ qid, Gives bs unpackQid qid := by
  have h : 13 ≤ bs.length := h
  exact ⟨_, (gives_byteAt (by omega)).bind ((gives_uint (by omega) (by omega)).bind
    ((gives_uint (by omega) (by omega)).bind (gives_pure _)))⟩

theorem gives_slice_unpackQid {lo hi : ℕ} (hlo : lo + qidSize ≤ hi) (hle : hi ≤ bs.length) :
    ∃ qid, Gives bs (fun s => slice s lo hi >>= unpackQid) qid := by
  have hlen : qidSize ≤ ((bs.drop lo).take (hi - lo)).length := by
    rw [List.length_take, List.length_drop]
    omega
  obtain ⟨qid, hqid⟩ := gives_unpackQid hlen
  exact ⟨qid, gives_slice (by omega) hle hqid⟩

theorem inside_slice_unpackQid {lo hi : ℕ} (hlo : lo + qidSize ≤ hi) (hle : hi ≤ bs.length) :
    Inside bs (fun s => slice s lo hi >>= unpackQid) (fun _ => True) := by
  obtain ⟨qid, hqid⟩ := gives_slice_unpackQid hlo hle
  exact hqid.inside trivial

theorem inside_short_unpackQid (h : 2 + qidSize ≤ bs.length) :
    Inside bs (fun s => slice s 2 qidSize >>= unpackQid) (fun _ => True) := by
  have hlen : 15 ≤ bs.length := h
  refine Gives.inside (a := ⟨bs[2], .ofNat (word 4 3 bs), .ofNat (word 8 7 bs)⟩) (fun s mem hs => ?_) trivial
  have hcap := hs.le_cap hlen
  have hslice : (2 : ℕ) ≤ qidSize ∧ qidSize ≤ s.cap := ⟨by decide, (by decide : qidSize ≤ 15).trans hcap⟩
  have hrun : unpackQid (s.part 2 qidSize hslice) mem =
      (.ok ⟨bs[2], .ofNat (word 4 3 bs), .ofNat (word 8 7 bs)⟩, mem) := by
    rw [unpackQid, bind_of_ok (byteAt_ok (by rw [part_len]; decide)),
      bind_of_ok (uint_ok (by decide) (by rw [part_cap]; omega)),
      bind_of_ok (uint_ok (by decide) (by rw [part_cap]; omega)), word, word, ← hs.read_eq (by omega),
      ← hs.read_eq (by omega), ← hs.byte_eq]
    rfl
  exact (bind_of_ok (slice_ok hslice)).trans hrun

theorem inside_unpackString (hk : k + 2 ≤ sz) (hsz : sz ≤ bs.length) :
    Inside bs (fun s => unpackString s k sz) (fun str => sz + str.length ≤ bs.length) := by
  unfold unpackString
  refine (inside_uint le_rfl (by omega)).bind (fun strlen _ => (inside_need _).bind (fun _ hneed => ?_))
  refine (gives_bytesOf (by omega) (by omega)).inside ?_
  rw [List.length_take, List.length_drop]
  omega

theorem inside_unpackNames (h : k + 2 + 2 ≤ bs.length) : Inside bs (fun s => unpackNames s k) (fun _ => True) := by
  unfold unpackNames
  refine (inside_unpackString (by omega) h).bind (fun uname huname => ?_)
  refine (inside_unpackString (by omega) huname).bind (fun aname _ => inside_pure trivial)

theorem inside_unpackData (h : k + 4 ≤ bs.length) (hdata : DataInside bs k) :
    Inside bs (fun s => unpackData s k) (fun _ => True) := by
  unfold unpackData
  refine (gives_uint le_rfl (by omega)).next ((inside_need _).bind (fun _ hneed => ?_))
  have hend := hdata hneed
  rw [u32, Nat.mod_eq_of_lt hend]
  exact (gives_bytesOf (by omega) hneed).next (inside_pure trivial)

theorem outside_unpackData (h : k + 4 ≤ bs.length) (hdata : ¬ DataInside bs k) :
    Outside bs (fun s => unpackData s k) := by
  rw [DataInside] at hdata
  push Not at hdata
  have hlt := word_lt 4 k bs
  unfold unpackData
  refine (gives_uint le_rfl (by omega)).outside ((gives_need hdata.1).outside (outside_bytesOf (.inl ?_)).bind)
  rw [u32]
  omega

theorem inside_unpackStatStrings (h : 49 ≤ bs.length) :
    Inside bs (fun s => unpackStatStrings s 49) (fun _ => True) := by
  unfold unpackStatStrings
  refine inside_field (by omega) (fun namelen => (inside_need _).bind (fun _ h₁ => ?_))
  refine inside_field (by omega) (fun uidlen => (inside_need _).bind (fun _ h₂ => ?_))
  refine inside_field (by omega) (fun gidlen => (inside_need _).bind (fun _ h₃ => ?_))
  refine inside_field (by omega) (fun muidlen => (inside_need _).bind (fun _ h₄ => ?_))
  refine (gives_bytesOf (by omega) (by omega)).next ((gives_bytesOf (by omega) (by omega)).next ?_)
  refine (gives_bytesOf (by omega) (by omega)).next ((gives_bytesOf (by omega) (by omega)).next ?_)
  exact inside_pure trivial

theorem inside_unpackStat : Inside bs unpackStat (fun _ => True) := by
  unfold unpackStat
  refine (inside_need _).bind (fun _ h => ?_)
  have h : 49 ≤ bs.length := h
  refine inside_field (by omega) (fun _ => inside_field (by omega) (fun _ => ?_))
  refine (inside_slice_unpackQid (by decide) (by omega)).part_bind (fun _ _ => ?_)
  refine inside_field (by omega) (fun _ => inside_field (by omega) (fun _ => ?_))
  refine inside_field (by omega) (fun _ => inside_field (by omega) (fun _ => ?_))
  exact (inside_unpackStatStrings h).bind (fun _ _ => inside_pure trivial)

end Parts

section Loops

variable {body : Bytes} {i sz offset : ℕ}

theorem inside_unpackWalkNames (h : NamesInside body i sz offset) :
    Inside body (fun s => unpackWalkNames s i sz offset) (fun _ => True) := by
  induction i generalizing sz offset with
  | zero => exact inside_pure trivial
  | succ i ih =>
    unfold unpackWalkNames
    refine (inside_need _).bind (fun _ hneed => ?_)
    obtain ⟨hname, hrest⟩ := h hneed
    refine (gives_uint (by omega) (by omega)).next ((gives_bytesOf (by omega) hname).next ?_)
    exact (ih hrest).bind (fun _ _ => inside_pure trivial)

theorem namesInside_of_short (h : body.length < sz + 2) : NamesInside body i sz offset := by
  cases i with
  | zero => trivial
  | succ i => exact fun hneed => absurd hneed (by omega)

theorem outside_unpackWalkNames (h : ¬ NamesInside body i sz offset) :
    Outside body (fun s => unpackWalkNames s i sz offset) := by
  induction i generalizing sz offset with
  | zero => exact absurd trivial h
  | succ i ih =>
    rw [NamesInside] at h
    push Not at h
    obtain ⟨hneed, hrest⟩ := h
    unfold unpackWalkNames
    refine (gives_need hneed).outside ?_
    rcases Nat.lt_or_ge body.length (14 + offset) with hlen | hlen
    · exact (outside_uint (.inr hlen)).bind
    · refine (gives_uint (by omega) hlen).outside ?_
      rcases Nat.lt_or_ge body.length (14 + offset + word 2 (12 + offset) body) with hname | hname
      · exact (outside_bytesOf (.inr hname)).bind
      · exact (gives_bytesOf (by omega) hname).outside (ih (hrest hname)).bind

theorem inside_unpackWalkQids (h : i = 0 ∨ 4 + offset + i * qidSize ≤ body.length) :
    Inside body (fun s => unpackWalkQids s i offset) (fun _ => True) := by
  induction i generalizing offset with
  | zero => exact inside_pure trivial
  | succ i ih =>
    have h : 4 + offset + (i + 1) * qidSize ≤ body.length := by omega
    rw [Nat.succ_mul] at h
    unfold unpackWalkQids
    refine (inside_slice_unpackQid le_rfl (by omega)).part_bind (fun _ _ => ?_)
    exact (ih (.inr (by omega))).bind (fun _ _ => inside_pure trivial)

theorem outside_unpackWalkQids (hi : i ≠ 0) (h : body.length < 4 + offset + i * qidSize) :
    Outside body (fun s => unpackWalkQids s i offset) := by
  induction i generalizing offset with
  | zero => exact absurd rfl hi
  | succ i ih =>
    rw [Nat.succ_mul] at h
    unfold unpackWalkQids
    rcases Nat.lt_or_ge body.length (4 + offset + qidSize) with hlen | hlen
    · exact (outside_slice (.inr hlen)).bind
    · obtain ⟨qid, hqid⟩ := gives_slice_unpackQid le_rfl hlen
      have hi : i ≠ 0 := by
        rintro rfl
        omega
      exact hqid.part_outside (ih hi (by omega)).bind

end Loops

section Bodies

variable {body : Bytes} {type : MessageType}

theorem inside_unpackTag (msg : UInt16 → Msg) : Inside body (fun s => unpackTag s msg) (fun _ => True) := by
  unfold unpackTag
  exact (inside_need _).bind (fun _ h => (inside_uint le_rfl h).bind (fun _ _ => inside_pure trivial))

theorem inside_unpackTagUint32 (msg : UInt16 → UInt32 → Msg) :
    Inside body (fun s => unpackTagUint32 s msg) (fun _ => True) := by
  unfold unpackTagUint32
  refine (inside_need _).bind (fun _ h => inside_field (by omega) (fun _ => ?_))
  exact (inside_uint le_rfl h).bind (fun _ _ => inside_pure trivial)

theorem inside_unpackVersion (msg : UInt16 → UInt32 → Bytes → Msg) :
    Inside body (fun s => unpackVersion s msg) (fun _ => True) := by
  unfold unpackVersion
  refine (inside_need _).bind (fun _ h => inside_field (by omega) (fun _ => ?_))
  refine inside_field (by omega) (fun _ => ?_)
  exact (inside_unpackString le_rfl h).bind (fun _ _ => inside_pure trivial)

theorem inside_unpackTagQid (msg : UInt16 → Qid → Msg) : Inside body (fun s => unpackTagQid s msg) (fun _ => True) := by
  unfold unpackTagQid
  refine (inside_need _).bind (fun _ h => inside_field (by omega) (fun _ => ?_))
  exact (inside_short_unpackQid h).part_bind (fun _ _ => inside_pure trivial)

theorem inside_unpackOpened (msg : UInt16 → Qid → UInt32 → Msg) :
    Inside body (fun s => unpackOpened s msg) (fun _ => True) := by
  unfold unpackOpened
  refine (inside_need _).bind (fun _ h => ?_)
  have h : 19 ≤ body.length := h
  refine inside_field (by omega) (fun _ => ?_)
  refine (inside_slice_unpackQid (by decide) (by omega)).part_bind (fun _ _ => ?_)
  exact inside_field (by omega) (fun _ => inside_pure trivial)

theorem inside_unpackCreate (h : BodyInside body .Tcreate) : Inside body unpackCreate (fun _ => True) := by
  unfold unpackCreate
  refine (inside_need _).bind (fun _ hneed => inside_field (by omega) (fun _ => ?_))
  refine inside_field (by omega) (fun _ => (gives_uint le_rfl (by omega)).next ?_)
  refine (inside_need _).bind (fun _ hname => ?_)
  have hend := h hname
  rw [u16, u16, Nat.mod_eq_of_lt (by omega), Nat.mod_eq_of_lt hend]
  refine (gives_bytesOf (by omega) (by omega)).next (inside_field (by omega) (fun _ => ?_))
  exact (gives_byteAt (by omega)).next (inside_pure trivial)

theorem outside_unpackCreate (h : ¬ BodyInside body .Tcreate) : Outside body unpackCreate := by
  simp only [BodyInside, not_forall, Nat.not_lt] at h
  obtain ⟨hneed, hend⟩ := h
  have hlt := word_lt 2 6 body
  unfold unpackCreate
  refine (gives_need (by omega)).outside ((gives_uint le_rfl (by omega)).outside ?_)
  refine (gives_uint le_rfl (by omega)).outside ((gives_uint le_rfl (by omega)).outside ?_)
  refine (gives_need (by omega)).outside ?_
  -- the end of the name has wrapped around, or that of the permissions behind it
  rcases Nat.lt_or_ge (8 + word 2 6 body) (2 ^ 16) with hname | hname
  · rw [u16, u16, Nat.mod_eq_of_lt hname]
    refine (gives_bytesOf (by omega) (by omega)).outside (outside_uint (.inl ?_)).bind
    omega
  · refine (outside_bytesOf (.inl ?_)).bind
    rw [u16]
    omega

theorem inside_unpackBody (h : BodyInside body type) : Inside body (fun s => unpackBody s type) (fun _ => True) := by
  cases type with
  | Tversion => exact inside_unpackVersion _
  | Rversion => exact inside_unpackVersion _
  | Tauth =>
    unfold unpackBody
    refine (inside_need _).bind (fun _ h => inside_field (by omega) (fun _ => ?_))
    refine inside_field (by omega) (fun _ => ?_)
    exact (inside_unpackNames h).bind (fun _ _ => inside_pure trivial)
  | Rauth => exact inside_unpackTagQid _
  | Tattach =>
    unfold unpackBody
    refine (inside_need _).bind (fun _ h => inside_field (by omega) (fun _ => ?_))
    refine inside_field (by omega) (fun _ => inside_field (by omega) (fun _ => ?_))
    exact (inside_unpackNames h).bind (fun _ _ => inside_pure trivial)
  | Rattach => exact inside_unpackTagQid _
  | Rerror =>
    unfold unpackBody
    refine (inside_need _).bind (fun _ h => inside_field (by omega) (fun _ => ?_))
    exact (inside_unpackString le_rfl h).bind (fun _ _ => inside_pure trivial)
  | Tflush =>
    unfold unpackBody
    refine (inside_need _).bind (fun _ h => inside_field (by omega) (fun _ => ?_))
    exact inside_field (by omega) (fun _ => inside_pure trivial)
  | Rflush => exact inside_unpackTag _
  | Twalk =>
    unfold unpackBody
    refine (inside_need _).bind (fun _ hneed => inside_field (by omega) (fun _ => ?_))
    refine inside_field (by omega) (fun _ => inside_field (by omega) (fun _ => ?_))
    refine (gives_uint le_rfl (by omega)).next ?_
    exact (inside_unpackWalkNames h).bind (fun _ _ => inside_pure trivial)
  | Rwalk =>
    unfold unpackBody
    refine (inside_need _).bind (fun _ hneed => inside_field (by omega) (fun _ => ?_))
    refine (gives_uint le_rfl (by omega)).next ((inside_need _).bind (fun _ hqids => ?_))
    exact (inside_unpackWalkQids (h hqids)).bind (fun _ _ => inside_pure trivial)
  | Topen =>
    unfold unpackBody
    refine (inside_need _).bind (fun _ h => inside_field (by omega) (fun _ => ?_))
    refine inside_field (by omega) (fun _ => ?_)
    exact (gives_byteAt (by omega)).next (inside_pure trivial)
  | Ropen => exact inside_unpackOpened _
  | Tcreate => exact inside_unpackCreate h
  | Rcreate => exact inside_unpackOpened _
  | Tread =>
    unfold unpackBody
    refine (inside_need _).bind (fun _ h => inside_field (by omega) (fun _ => ?_))
    refine inside_field (by omega) (fun _ => inside_field (by omega) (fun _ => ?_))
    exact inside_field (by omega) (fun _ => inside_pure trivial)
  | Rread =>
    unfold unpackBody
    refine (inside_need _).bind (fun _ hneed => inside_field (by omega) (fun _ => ?_))
    exact (inside_unpackData hneed h).bind (fun _ _ => inside_pure trivial)
  | Twrite =>
    unfold unpackBody
    refine (inside_need _).bind (fun _ hneed => inside_field (by omega) (fun _ => ?_))
    refine inside_field (by omega) (fun _ => inside_field (by omega) (fun _ => ?_))
    exact (inside_unpackData hneed h).bind (fun _ _ => inside_pure trivial)
  | Rwrite => exact inside_unpackTagUint32 _
  | Tclunk => exact inside_unpackTagUint32 _
  | Rclunk => exact inside_unpackTag _
  | Tremove => exact inside_unpackTagUint32 _
  | Rremove => exact inside_unpackTag _
  | Tstat => exact inside_unpackTagUint32 _
  | Rstat =>
    unfold unpackBody
    refine (inside_need _).bind (fun _ h => inside_field (by omega) (fun _ => ?_))
    exact (inside_rest h inside_unpackStat).part_bind (fun _ _ => inside_pure trivial)
  | Twstat =>
    unfold unpackBody
    refine (inside_need _).bind (fun _ h => inside_field (by omega) (fun _ => ?_))
    refine inside_field (by omega) (fun _ => ?_)
    exact (inside_rest h inside_unpackStat).part_bind (fun _ _ => inside_pure trivial)
  | Rwstat => exact inside_unpackTag _

theorem outside_unpackBody (h : ¬ BodyInside body type) : Outside body (fun s => unpackBody s type) := by
  cases type with
  | Twalk =>
    have hlen : 12 ≤ body.length := by
      by_contra hshort
      exact h (namesInside_of_short (by omega))
    unfold unpackBody
    refine (gives_need hlen).outside ((gives_uint le_rfl (by omega)).outside ?_)
    refine (gives_uint le_rfl (by omega)).outside ((gives_uint le_rfl (by omega)).outside ?_)
    exact (gives_uint le_rfl hlen).outside (outside_unpackWalkNames h).bind
  | Rwalk =>
    simp only [BodyInside, qidSize, not_forall, not_or, Nat.not_le] at h
    obtain ⟨hneed, hzero, hlong⟩ := h
    have hlen : 4 ≤ body.length := by omega
    unfold unpackBody
    refine (gives_need hlen).outside ((gives_uint le_rfl (by omega)).outside ?_)
    refine (gives_uint le_rfl (by omega)).outside ((gives_need hneed).outside ?_)
    exact (outside_unpackWalkQids hzero hlong).bind
  | Tcreate => exact outside_unpackCreate h
  | Rread =>
    have hlen : 6 ≤ body.length := by
      by_contra hshort
      exact h (fun hneed => by omega)
    unfold unpackBody
    refine (gives_need hlen).outside ((gives_uint le_rfl (by omega)).outside ?_)
    exact (outside_unpackData hlen h).bind
  | Twrite =>
    have hlen : 18 ≤ body.length := by
      by_contra hshort
      exact h (fun hneed => by omega)
    unfold unpackBody
    refine (gives_need hlen).outside ((gives_uint le_rfl (by omega)).outside ?_)
    refine (gives_uint le_rfl (by omega)).outside ((gives_uint le_rfl (by omega)).outside ?_)
    exact (outside_unpackData hlen h).bind
  | _ => exact absurd trivial h

end Bodies

section Message

variable {b : Bytes}

theorem newMsg_ne_panic (mt : UInt8) (msg : String) : newMsg mt ≠ .error (.panic msg) := by
  rw [newMsg]
  split <;> exact nofun

theorem unpackMsg_eq {s : Slice} {mem : Memory} (hlen : 5 ≤ b.length) (hs : Holds s mem b) :
    unpackMsg s mem = (byteAt s 4 >>= fun mt => liftExcept (newMsg mt) >>= fun type =>
      slice s 5 s.len >>= fun body => unpackBody body type) mem := by
  rw [unpackMsg, if_neg (by rw [hs.len_eq]; omega)]

theorem gives_newMsg {mt : UInt8} {type : MessageType} (h : newMsg mt = .ok type) :
    Gives b (fun _ => liftExcept (newMsg mt)) type := by
  intro s mem _
  rw [h]
  rfl

theorem inside_unpackMsg (h : MessageInside b) : Inside b unpackMsg (fun _ => True) := by
  rcases Nat.lt_or_ge b.length 5 with hlen | hlen
  · refine ⟨.error errBuffTooSmall, nofun, nofun, fun s mem hs => ?_⟩
    rw [unpackMsg, if_pos (hs.len_eq ▸ hlen)]
    rfl
  · refine Inside.congr ?_ (fun s mem hs => unpackMsg_eq hlen hs)
    refine (gives_byteAt (by omega)).next ?_
    cases htype : newMsg b[4] with
    | error e =>
      refine Inside.bind (P := fun _ => False) (inside_throw (fun msg he => ?_)) (fun _ hfalse => hfalse.elim)
      exact newMsg_ne_panic b[4] msg (by rw [htype, he])
    | ok type =>
      have hbody := h b[4] type (List.getElem?_eq_getElem (by omega)) htype
      exact (htype ▸ gives_newMsg htype).next (inside_rest hlen (inside_unpackBody hbody))

theorem outside_unpackMsg (h : ¬ MessageInside b) : Outside b unpackMsg := by
  simp only [MessageInside, not_forall] at h
  obtain ⟨mt, type, hmt, htype, hbody⟩ := h
  obtain ⟨hlen, rfl⟩ := List.getElem?_eq_some_iff.mp hmt
  refine Outside.congr ?_ (fun s mem hs => unpackMsg_eq (by omega) hs)
  refine (gives_byteAt hlen).outside ((gives_newMsg htype).outside ?_)
  exact outside_rest (by omega) (outside_unpackBody hbody)

theorem contained_iff_inside : Contained b ↔ Inside b unpackMsg (fun _ => True) := by
  constructor
  · intro h
    obtain ⟨r, hr, hrun⟩ := h
    exact ⟨r, hr, fun _ _ => trivial, hrun⟩
  · intro h
    obtain ⟨r, hr, -, hrun⟩ := h
    exact ⟨r, hr, hrun⟩

theorem unpackMsg_contained_iff (b : Bytes) : Contained b ↔ MessageInside b := by
  rw [contained_iff_inside]
  constructor
  · intro h
    by_contra hbody
    exact (outside_unpackMsg hbody).not_inside h
  · exact inside_unpackMsg

end Message

section Leak

/-- A `Twalk` with one name, of one byte, that is not there. -/
def cutTwalk : Bytes := [19, 0, 0, 0, 110, 7, 0, 1, 0, 0, 0, 2, 0, 0, 0, 1, 0, 1, 0]

/-- The buffer of the server with this byte behind the message. -/
def buffer (behind : UInt8) : Memory := ⟨fun i => (cutTwalk ++ [behind]).getD i 0⟩

/-- The name is taken from the bytes behind the message, and the message is accepted. -/
theorem unpackMsg_cutTwalk :
    (∀ behind, (buffer behind).read 0 19 = cutTwalk) ∧
    (unpackMsg ⟨0, 19, 64, by decide⟩ (buffer 97)).1 = .ok (.Twalk 7 1 2 [[97]]) ∧
    (unpackMsg ⟨0, 19, 64, by decide⟩ (buffer 98)).1 = .ok (.Twalk 7 1 2 [[98]]) := by
  refine ⟨fun behind => rfl, rfl, rfl⟩

end Leak

end Bpy.NineDecoding
