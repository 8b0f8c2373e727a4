import Bpy.Commands
import Bpy.NineMessages

/-!
# `server9`

The 9P server is generic: it serves any implementation of `File` and `Handle`. An
implementation is given by its methods, which act on a state of its own. A value of type
`File` or `Handle` can be `nil`, and a call of a method of `nil` is a panic, as it is in the
program. Errors are compared by their texts.
-/
namespace Bpy.NineServer
open ByteWords ContentStore ByteSources ByteSlices NineMessages Commands Function

def errNoSuchFid : GoError := .text "no such fid"
def errFidInUse : GoError := .text "fid in use"
def errBadFid : GoError := .text "bad fid"
def errBadTag : GoError := .text "bad tag"
def errBadPath : GoError := .text "bad path"
def errNotDir : GoError := .text "not a directory path"
def errNotExist : GoError := .text "no such file"
def errBadRead : GoError := .text "bad read"
def errAuthNotSupported : GoError := .text "auth not supported"

def readOverhead : UInt32 := 4 + 1 + 2 + 4

def writeOverhead : UInt32 := 4 + 1 + 2 + 4 + 8 + 4

def noTag : UInt16 := 0xFFFF

def noFid : UInt32 := 0xFFFFFFFF

def qtFile : UInt8 := 0x00

def qtDir : UInt8 := 0x80

def dmDir : UInt32 := 0x80000000

/-- `Qid.IsDir`. -/
def isDir (qid : Qid) : Bool := qid.type == qtDir

section Calls

variable {ρ τ α β : Type}

def nilDereference : GoError := .panic "invalid memory address or nil pointer dereference"

def deref : Option α → SourceM ρ α
  | none => throw nilDereference
  | some a => pure a

/-- The outcome of a call as a value. A panic cannot be caught. -/
def caught (x : SourceM ρ α) : SourceM ρ (Except GoError α) := fun s =>
  match x s with
  | (.error (.panic msg), s') => (.error (.panic msg), s')
  | (r, s') => (.ok r, s')

/-- A call that acts on the first part of the state. -/
def onFirst (x : SourceM ρ α) : SourceM (ρ × τ) α := fun s => ((x s.1).1, ((x s.1).2, s.2))

/-- A call that acts on the second part of the state. -/
def onSecond (x : SourceM τ α) : SourceM (ρ × τ) α := fun s => ((x s.2).1, (s.1, (x s.2).2))

end Calls

section CallLemmas

variable {ρ τ α β : Type} {x : SourceM ρ α} {a : α} {s s' : ρ}

theorem onFirst_eq {t : τ} (h : x s = (.ok a, s')) : onFirst x (s, t) = (.ok a, (s', t)) := by
  rw [onFirst, h]

theorem onSecond_eq {t : τ} (h : x s = (.ok a, s')) : onSecond x (t, s) = (.ok a, (t, s')) := by
  rw [onSecond, h]

theorem deref_eq_ok {f : Option α} (h : deref f s = (.ok a, s')) : f = some a ∧ s' = s := by
  cases f with
  | none => cases h
  | some b =>
    cases h
    exact ⟨rfl, rfl⟩

theorem deref_some (a : α) : (deref (some a) : SourceM ρ α) s = (.ok a, s) := rfl

theorem caught_of_ok (h : x s = (.ok a, s')) : caught x s = (.ok (.ok a), s') := by
  rw [caught, h]

theorem caught_of_error {e : GoError} (h : x s = (.error e, s')) (he : ∀ msg, e ≠ .panic msg) :
    caught x s = (.ok (.error e), s') := by
  rw [caught, h]
  cases e with
  | panic msg => exact absurd rfl (he msg)
  | _ => rfl

theorem caught_eq_ok {r : Except GoError α} (h : caught x s = (.ok r, s')) :
    x s = (r, s') ∧ ∀ msg, r ≠ .error (.panic msg) := by
  rw [caught] at h
  split at h
  · cases h
  · next hpanic hrun =>
    cases h
    exact ⟨hrun, fun msg hmsg => hpanic msg hmsg⟩

theorem caught_snd (x : SourceM ρ α) (s : ρ) : (caught x s).2 = (x s).2 := by
  rw [caught]
  split
  · next hrun => rw [hrun]
  · next hrun => rw [hrun]

theorem map_apply (m : α → β) (x : SourceM ρ α) (s : ρ) : (m <$> x) s = ((x s).1.map m, (x s).2) := by
  rw [map_eq_pure_bind]
  cases hrun : x s with
  | mk r s' =>
    cases r with
    | error e => rw [bind_of_error hrun]; rfl
    | ok a => rw [bind_of_ok hrun]; rfl

theorem deref_map (m : α → β) (f : Option α) : (deref (f.map m) : SourceM ρ β) = m <$> deref f := by
  cases f with
  | none => rfl
  | some f => rfl

theorem caught_map (m : α → β) (x : SourceM ρ α) : caught (m <$> x) = Except.map m <$> caught x := by
  funext s
  rw [map_apply, caught, caught, map_apply]
  cases x s with
  | mk r s' =>
    cases r with
    | ok a => rfl
    | error e => cases e <;> rfl

end CallLemmas

/-- The methods of `File` (`φ`) that `Walk` calls. -/
structure FileOps (σ φ : Type) where
  parent : φ → SourceM σ (Option φ)
  child : φ → Bytes → SourceM σ (Option φ)
  qid : φ → SourceM σ Qid

/-- An implementation of `File` and `Handle` (`η`), and the function of `attachFunc`. A method of
`Handle` is given the message. `tread` is given a buffer of `nbytes` bytes and leaves some bytes
in it. -/
structure Files (σ φ η : Type) extends FileOps σ φ where
  attach : Bytes → SourceM σ (Option φ)
  newHandle : φ → SourceM σ (Option η)
  getFile : η → SourceM σ (Option φ)
  getIounit : η → UInt32 → SourceM σ UInt32
  twalk : η → Msg → SourceM σ (Option φ × List Qid)
  topen : η → Msg → SourceM σ Qid
  tread : η → Msg → (nbytes : ℕ) → SourceM σ ({buf : Bytes // buf.length = nbytes} × UInt32)
  twrite : η → Msg → SourceM σ UInt32
  tcreate : η → Msg → SourceM σ (Option η)
  twstat : η → Msg → SourceM σ Unit
  tremove : η → Msg → SourceM σ Unit
  tstat : η → Msg → SourceM σ Stat
  clunk : η → SourceM σ Unit

variable {σ φ η : Type}

section Walk

def dotDot : Bytes := ascii ".."

/-- The names that `Walk` refuses. -/
def badName (name : Bytes) : Bool := name = ascii "." || name = [] || name.contains 47

/-- The end of `Walk` behind the label `walkerr`, at the name with the number `i`. -/
def walkErr (i : ℕ) (wqids : List Qid) (werr : GoError) : SourceM σ (Option φ × List Qid) :=
  if i = 0 then throw werr else pure (none, wqids)

variable (F : FileOps σ φ)

/-- The loop of `Walk` from the name with the number `i` on. -/
def walkLoop : ℕ → Option φ → List Bytes → List Qid → SourceM σ (Option φ × List Qid)
  | _, f, [], wqids => pure (f, wqids)
  | i, f, name :: names, wqids => do
    if badName name then throw errBadPath
    else if name = dotDot then
      let parent ← F.parent (← deref f)
      let qid ← F.qid (← deref parent)
      walkLoop (i + 1) parent names (wqids ++ [qid])
    else
      let qid ← F.qid (← deref f)
      if isDir qid then
        match ← caught (F.child (← deref f) name) with
        | .error e => if e = errNotExist then walkErr i wqids errNotExist else throw e
        | .ok child => walkLoop (i + 1) child names (wqids ++ [qid])
      else walkErr i wqids errNotDir

def walk (f : Option φ) (names : List Bytes) : SourceM σ (Option φ × List Qid) := walkLoop F 0 f names []

end Walk

variable (I : Files σ φ η)

/-- Every handle walks from a file of its own with `Walk`, as those of the program do. -/
def WalksFrom (start : η → SourceM σ (Option φ)) : Prop :=
  ∀ h tag fid newFid names, I.twalk h (.Twalk tag fid newFid names) = (do walk I.toFileOps (← start h) names)

/-- `make([]byte, len, len)`, and what has been written to it. -/
structure Buffer where
  len : ℕ
  mem : Memory

namespace Buffer

def new (len : ℕ) : Buffer := ⟨len, ⟨fun _ => 0⟩⟩

def whole (b : Buffer) : Slice := ⟨0, b.len, b.len, le_rfl⟩

end Buffer

structure Server (η : Type) where
  maxMessageSize : UInt32
  negMessageSize : UInt32
  inbuf : Buffer
  outbuf : Buffer
  fids : UInt32 → Option (Option η)

abbrev ServerM (σ η α : Type) := SourceM (Server η × σ) α

section Handlers

def newServer (maxMessageSize : UInt32) : Server η where
  maxMessageSize := maxMessageSize
  negMessageSize := maxMessageSize
  inbuf := Buffer.new 0
  outbuf := Buffer.new 0
  fids := fun _ => none

def makeError (tag : UInt16) (e : GoError) : Msg := .Rerror tag (errorText e)

/-- `if err != nil { return proto9.MakeError(tag, err) }`. -/
def orReply {ρ α : Type} (tag : UInt16) (x : SourceM ρ α) (k : α → SourceM ρ Msg) : SourceM ρ Msg := do
  match ← caught x with
  | .error e => pure (makeError tag e)
  | .ok a => k a

theorem orReply_of_ok {ρ α : Type} {tag : UInt16} {x : SourceM ρ α} {k : α → SourceM ρ Msg} {a : α} {s s' : ρ}
    (h : x s = (.ok a, s')) : orReply tag x k s = k a s' := by
  rw [orReply, bind_of_ok (caught_of_ok h)]

variable {e : GoError} {st : Server η × σ} {k : Option η → ServerM σ η Msg}

theorem orReply_of_error {ρ α : Type} {tag : UInt16} {x : SourceM ρ α} {k : α → SourceM ρ Msg} {s s' : ρ}
    (h : x s = (.error e, s')) (he : ∀ msg, e ≠ .panic msg) : orReply tag x k s = (.ok (makeError tag e), s') := by
  rw [orReply, bind_of_ok (caught_of_error h he)]
  rfl

theorem orReply_eq_ok {ρ α : Type} {tag : UInt16} {x : SourceM ρ α} {k : α → SourceM ρ Msg} {resp : Msg} {s s' : ρ}
    (h : orReply tag x k s = (.ok resp, s')) :
    (∃ e, x s = (.error e, s') ∧ (∀ msg, e ≠ .panic msg) ∧ resp = makeError tag e) ∨
      ∃ a s₁, x s = (.ok a, s₁) ∧ k a s₁ = (.ok resp, s') := by
  obtain ⟨r, s₁, hcaught, hk⟩ := bind_eq_ok.mp h
  obtain ⟨hrun, hpanic⟩ := caught_eq_ok hcaught
  cases r with
  | error e =>
    cases hk
    exact .inl ⟨e, hrun, fun msg he => hpanic msg (by rw [he]), rfl⟩
  | ok a => exact .inr ⟨a, s₁, hrun, hk⟩

def call {α : Type} (x : SourceM σ α) : ServerM σ η α := onSecond x

theorem call_eq {α : Type} {x : SourceM σ α} {r : Except GoError α} {srv : Server η} {s s' : σ}
    (h : x s = (r, s')) : call x (srv, s) = (r, (srv, s')) := by
  rw [call, onSecond, h]

theorem call_eq_ok {α : Type} {x : SourceM σ α} {r : Except GoError α} {st' : Server η × σ}
    (h : call x st = (r, st')) : x st.2 = (r, st'.2) ∧ st'.1 = st.1 := by
  rw [call, onSecond] at h
  cases h
  exact ⟨rfl, rfl⟩

/-- `srv.fids[fid]`. -/
def lookupFid (fid : UInt32) : ServerM σ η (Option (Option η)) := do return (← get).1.fids fid

def setFid (fid : UInt32) (fh : Option (Option η)) : ServerM σ η Unit :=
  modify (fun s => ({ s.1 with fids := Function.update s.1.fids fid fh }, s.2))

/-- `fh, ok := srv.fids[fid]` with the error reply. -/
def withFid (tag : UInt16) (fid : UInt32) (k : Option η → ServerM σ η Msg) : ServerM σ η Msg := do
  match ← lookupFid fid with
  | none => pure (makeError tag errNoSuchFid)
  | some fh => k fh

def addFid (fid : UInt32) (fh : Option η) : ServerM σ η Unit := do
  if fid = noFid then throw errBadFid
  else
    match ← lookupFid fid with
    | some _ => throw errFidInUse
    | none => setFid fid (some fh)

theorem addFid_of_free {fid : UInt32} (fh : Option η) (st : Server η × σ) (hfid : fid ≠ noFid)
    (hfree : st.1.fids fid = none) :
    addFid fid fh st = (.ok (), ({ st.1 with fids := update st.1.fids fid (some fh) }, st.2)) := by
  have hlookup : lookupFid fid st = (.ok (st.1.fids fid), st) := rfl
  rw [addFid, if_neg hfid, bind_of_ok hlookup, hfree]
  rfl

theorem addFid_eq_ok {fid : UInt32} {fh : Option η} {st' : Server η × σ} {u : Unit}
    (h : addFid fid fh st = (.ok u, st')) : fid ≠ noFid ∧ st.1.fids fid = none ∧
      st' = ({ st.1 with fids := update st.1.fids fid (some fh) }, st.2) := by
  by_cases hfid : fid = noFid
  · rw [addFid, if_pos hfid] at h
    cases h
  · cases hentry : st.1.fids fid with
    | none =>
      rw [addFid_of_free fh st hfid hentry] at h
      cases h
      exact ⟨hfid, rfl, rfl⟩
    | some fh' =>
      have hlookup : lookupFid fid st = (.ok (st.1.fids fid), st) := rfl
      rw [addFid, if_neg hfid, bind_of_ok hlookup, hentry] at h
      cases h

theorem addFid_of_error {fid : UInt32} {fh : Option η} {st' : Server η × σ}
    (h : addFid fid fh st = (.error e, st')) : st' = st := by
  have hlookup : lookupFid fid st = (.ok (st.1.fids fid), st) := rfl
  rw [addFid] at h
  split at h
  · cases h
    rfl
  · rw [bind_of_ok hlookup] at h
    cases hfid : st.1.fids fid with
    | none =>
      rw [hfid] at h
      cases h
    | some fh' =>
      rw [hfid] at h
      cases h
      rfl

theorem withFid_of_none {tag : UInt16} {fid : UInt32}
    (h : st.1.fids fid = none) : withFid tag fid k st = (.ok (makeError tag errNoSuchFid), st) := by
  have hlookup : lookupFid fid st = (.ok (st.1.fids fid), st) := rfl
  rw [withFid, bind_of_ok hlookup, h]
  rfl

theorem withFid_of_some {tag : UInt16} {fid : UInt32}
    {fh : Option η} (h : st.1.fids fid = some fh) : withFid tag fid k st = k fh st := by
  have hlookup : lookupFid fid st = (.ok (st.1.fids fid), st) := rfl
  rw [withFid, bind_of_ok hlookup, h]

def handleVersion (tag : UInt16) (messageSize : UInt32) : ServerM σ η Msg := do
  if tag ≠ noTag then pure (makeError tag errBadTag)
  else
    let srv := (← get).1
    let neg := if messageSize > srv.maxMessageSize then srv.maxMessageSize else messageSize
    modify (fun s => ({ s.1 with
      negMessageSize := neg
      inbuf := Buffer.new neg.toNat
      outbuf := Buffer.new neg.toNat }, s.2))
    pure (.Rversion tag neg (ascii "9P2000"))

def handleAttach (tag : UInt16) (fid afid : UInt32) (aname : Bytes) : ServerM σ η Msg := do
  if afid ≠ noFid then pure (makeError tag errAuthNotSupported)
  else
    orReply tag (call (I.attach aname)) fun root =>
    orReply tag (call (do I.newHandle (← deref root))) fun fh =>
    orReply tag (addFid fid fh) fun _ =>
    orReply tag (call (do I.qid (← deref root))) fun qid =>
    pure (.Rattach tag qid)

def handleWalk (tag : UInt16) (fid newFid : UInt32) (names : List Bytes) : ServerM σ η Msg :=
  withFid tag fid fun fh =>
  orReply tag (call (do I.twalk (← deref fh) (.Twalk tag fid newFid names))) fun (f, wqids) => do
    match f with
    | none => pure (.Rwalk tag wqids)
    | some f =>
      orReply tag (call (I.newHandle f)) fun newfh => do
        if newFid = fid then
          let _ ← caught (call (do I.clunk (← deref fh)))
          setFid fid none
        orReply tag (addFid newFid newfh) fun _ => pure (.Rwalk tag wqids)

def handleOpen (tag : UInt16) (fid : UInt32) (mode : UInt8) : ServerM σ η Msg :=
  withFid tag fid fun fh =>
  orReply tag (call (do I.topen (← deref fh) (.Topen tag fid mode))) fun qid => do
    let neg := (← get).1.negMessageSize
    let iounit ← call (do I.getIounit (← deref fh) neg)
    pure (.Ropen tag qid iounit)

def validFileName (name : Bytes) : Bool :=
  !(name.contains 47 || name.contains 92) && !(name = dotDot || name = ascii "." || name = [])

def handleCreate (tag : UInt16) (fid : UInt32) (name : Bytes) (perm : UInt32) (mode : UInt8) :
    ServerM σ η Msg :=
  withFid tag fid fun fh => do
    if validFileName name then
      orReply tag (call (do I.tcreate (← deref fh) (.Tcreate tag fid name perm mode))) fun newhandle =>
      orReply tag (call (do I.getFile (← deref newhandle))) fun f =>
      orReply tag (call (do I.qid (← deref f))) fun qid => do
        let _ ← caught (call (do I.clunk (← deref fh)))
        setFid fid (some newhandle)
        let neg := (← get).1.negMessageSize
        let iounit ← call (do I.getIounit (← deref newhandle) neg)
        pure (.Rcreate tag qid iounit)
    else pure (makeError tag errBadPath)

/-- The size of the buffer of `handleRead`. The difference is a `uint32`. -/
def clamp (neg count : UInt32) : ℕ := min count.toNat (neg - readOverhead).toNat

def handleRead (tag : UInt16) (fid : UInt32) (offset : UInt64) (count : UInt32) : ServerM σ η Msg :=
  withFid tag fid fun fh => do
    let nbytes := clamp (← get).1.negMessageSize count
    orReply tag (call (do I.tread (← deref fh) (.Tread tag fid offset count) nbytes)) fun (buf, n) => do
      if n.toNat ≤ nbytes then pure (.Rread tag (buf.1.take n.toNat))
      else throw (.panic "slice bounds out of range")

def handleWrite (tag : UInt16) (fid : UInt32) (offset : UInt64) (data : Bytes) : ServerM σ η Msg :=
  withFid tag fid fun fh =>
  orReply tag (call (do I.twrite (← deref fh) (.Twrite tag fid offset data))) fun n =>
  pure (.Rwrite tag n)

def handleRemove (tag : UInt16) (fid : UInt32) : ServerM σ η Msg :=
  withFid tag fid fun fh => do
    setFid fid none
    orReply tag (call (do I.tremove (← deref fh) (.Tremove tag fid))) fun _ => pure (.Rremove tag)

def handleClunk (tag : UInt16) (fid : UInt32) : ServerM σ η Msg :=
  withFid tag fid fun fh => do
    setFid fid none
    orReply tag (call (do I.clunk (← deref fh))) fun _ => pure (.Rclunk tag)

def handleStat (tag : UInt16) (fid : UInt32) : ServerM σ η Msg :=
  withFid tag fid fun fh =>
  orReply tag (call (do I.tstat (← deref fh) (.Tstat tag fid))) fun stat => pure (.Rstat tag stat)

def handleWStat (tag : UInt16) (fid : UInt32) (stat : Stat) : ServerM σ η Msg :=
  withFid tag fid fun fh => do
    if validFileName stat.name then
      orReply tag (call (do I.twstat (← deref fh) (.Twstat tag fid stat))) fun _ => pure (.Rwstat tag)
    else pure (makeError tag errBadPath)

/-- The switch of `Serve`. -/
def dispatch : Msg → ServerM σ η Msg
  | .Tversion tag messageSize _ => handleVersion tag messageSize
  | .Tattach tag fid afid _ aname => handleAttach I tag fid afid aname
  | .Twalk tag fid newFid names => handleWalk I tag fid newFid names
  | .Topen tag fid mode => handleOpen I tag fid mode
  | .Tread tag fid offset count => handleRead I tag fid offset count
  | .Tclunk tag fid => handleClunk I tag fid
  | .Tstat tag fid => handleStat I tag fid
  | .Twstat tag fid stat => handleWStat I tag fid stat
  | .Twrite tag fid offset data => handleWrite I tag fid offset data
  | .Tremove tag fid => handleRemove I tag fid
  | .Tauth tag _ _ _ => pure (makeError tag errAuthNotSupported)
  | .Tcreate tag fid name perm mode => handleCreate I tag fid name perm mode
  | _ => throw (.text "bad message")

def replies : List Msg → ServerM σ η (List Msg)
  | [] => pure []
  | msg :: msgs => do
    let resp ← dispatch I msg
    let rest ← replies msgs
    pure (resp :: rest)

variable {I} in
theorem replies_cons {msg resp : Msg} {msgs rest : List Msg} {st₁ st₂ : Server η × σ}
    (h : dispatch I msg st = (.ok resp, st₁)) (hrest : replies I msgs st₁ = (.ok rest, st₂)) :
    replies I (msg :: msgs) st = (.ok (resp :: rest), st₂) := by
  rw [replies, bind_of_ok h, bind_of_ok hrest]
  rfl

end Handlers

section Returns

/-- Every reply has `P`. -/
def Returns (P : Msg → Prop) (x : ServerM σ η Msg) : Prop := ∀ st resp st', x st = (.ok resp, st') → P resp

variable {α : Type} {P : Msg → Prop} {x : ServerM σ η α} {tag : UInt16}

theorem returns_pure {msg : Msg} (h : P msg) : Returns P (pure msg : ServerM σ η Msg) := by
  intro st resp st' hrun
  cases hrun
  exact h

theorem Returns.bind {f : α → ServerM σ η Msg} (h : ∀ a, Returns P (f a)) : Returns P (x >>= f) := by
  intro st resp st' hrun
  obtain ⟨a, st₁, -, hrun⟩ := bind_eq_ok.mp hrun
  exact h a st₁ resp st' hrun

theorem Returns.orReply {k : α → ServerM σ η Msg} (herror : ∀ e, P (makeError tag e))
    (hk : ∀ a, (∃ st st', x st = (.ok a, st')) → Returns P (k a)) : Returns P (orReply tag x k) := by
  intro st resp st' hrun
  rcases orReply_eq_ok hrun with ⟨e, -, -, rfl⟩ | ⟨a, st₁, hx, hrest⟩
  · exact herror e
  · exact hk a ⟨st, st₁, hx⟩ st₁ resp st' hrest

theorem Returns.withFid {fid : UInt32} {k : Option η → ServerM σ η Msg} (herror : ∀ e, P (makeError tag e))
    (hk : ∀ fh, Returns P (k fh)) : Returns P (withFid tag fid k) := by
  apply Returns.bind
  intro found
  cases found with
  | none => exact returns_pure (herror _)
  | some fh => exact hk fh

section Handlers

variable (I : Files σ φ η) (herror : ∀ e, P (makeError tag e))
include herror

theorem handleAttach_returns (fid afid : UInt32) (aname : Bytes) (hok : ∀ qid, P (.Rattach tag qid)) :
    Returns P (handleAttach I tag fid afid aname) := by
  rw [handleAttach]
  split
  · exact returns_pure (herror _)
  · refine Returns.orReply herror (fun _ _ => Returns.orReply herror (fun _ _ => Returns.orReply herror ?_))
    exact fun _ _ => Returns.orReply herror (fun qid _ => returns_pure (hok qid))

theorem handleOpen_returns (fid : UInt32) (mode : UInt8) (hok : ∀ qid iounit, P (.Ropen tag qid iounit)) :
    Returns P (handleOpen I tag fid mode) := by
  refine Returns.withFid herror (fun fh => Returns.orReply herror (fun qid _ => ?_))
  exact Returns.bind (fun srv => Returns.bind (fun iounit => returns_pure (hok qid iounit)))

theorem handleCreate_returns (fid : UInt32) (name : Bytes) (perm : UInt32) (mode : UInt8)
    (hok : ∀ qid iounit, P (.Rcreate tag qid iounit)) : Returns P (handleCreate I tag fid name perm mode) := by
  apply Returns.withFid herror
  intro fh
  split
  · refine Returns.orReply herror (fun _ _ => Returns.orReply herror (fun _ _ => Returns.orReply herror ?_))
    intro qid _
    refine Returns.bind (fun _ => Returns.bind (fun _ => Returns.bind (fun _ => Returns.bind (fun iounit => ?_))))
    exact returns_pure (hok qid iounit)
  · exact returns_pure (herror _)

end Handlers

end Returns

section Keeps

/-- The code keeps `P` of the server. -/
def Keeps {α : Type} (P : Server η → Prop) (x : ServerM σ η α) : Prop := ∀ st, P st.1 → P (x st).2.1

variable {P : Server η → Prop} {α β : Type} {x : ServerM σ η α} {f : α → ServerM σ η β}

theorem keeps_pure (a : α) : Keeps P (pure a : ServerM σ η α) := fun _ h => h

theorem keeps_throw (e : GoError) : Keeps P (throw e : ServerM σ η α) := fun _ h => h

theorem keeps_get : Keeps P (get : ServerM σ η (Server η × σ)) := fun _ h => h

theorem keeps_call (y : SourceM σ α) : Keeps P (call y : ServerM σ η α) := fun _ h => h

theorem Keeps.bind (hx : Keeps P x) (hf : ∀ a, Keeps P (f a)) : Keeps P (x >>= f) := by
  intro st hst
  have hx := hx st hst
  cases hrun : x st with
  | mk r st₁ =>
    rw [hrun] at hx
    cases r with
    | ok a =>
      rw [bind_of_ok hrun]
      exact hf a st₁ hx
    | error e =>
      rw [bind_of_error hrun]
      exact hx

theorem Keeps.caught (hx : Keeps P x) : Keeps P (caught x) := by
  intro st hst
  rw [caught_snd]
  exact hx st hst

theorem Keeps.orReply {tag : UInt16} {k : α → ServerM σ η Msg} (hx : Keeps P x) (hk : ∀ a, Keeps P (k a)) :
    Keeps P (orReply tag x k) := by
  refine hx.caught.bind (fun r => ?_)
  cases r with
  | error e => exact keeps_pure _
  | ok a => exact hk a

theorem keeps_lookupFid (fid : UInt32) : Keeps P (lookupFid fid : ServerM σ η (Option (Option η))) :=
  fun _ h => h

theorem Keeps.withFid {tag : UInt16} {fid : UInt32} {k : Option η → ServerM σ η Msg}
    (hk : ∀ fh, (∃ srv, P srv ∧ srv.fids fid = some fh) → Keeps P (k fh)) : Keeps P (withFid tag fid k) := by
  intro st hst
  cases hfid : st.1.fids fid with
  | none =>
    rw [withFid_of_none hfid]
    exact hst
  | some fh =>
    rw [withFid_of_some hfid]
    exact hk fh ⟨_, hst, hfid⟩ st hst

theorem keeps_setFid {fid : UInt32} {fh : Option (Option η)}
    (h : ∀ srv : Server η, P srv → P { srv with fids := update srv.fids fid fh }) :
    Keeps P (setFid fid fh : ServerM σ η Unit) :=
  fun st hst => h st.1 hst

variable (I : Files σ φ η)

theorem keeps_withCall {tag : UInt16} {fid : UInt32} {y : Option η → SourceM σ α} {k : Option η → α → ServerM σ η Msg}
    (hk : ∀ fh a, Keeps P (k fh a)) : Keeps P (withFid tag fid fun fh => orReply tag (call (y fh)) (k fh)) :=
  Keeps.withFid (fun fh _ => (keeps_call _).orReply (hk fh))

theorem keeps_handleOpen (tag : UInt16) (fid : UInt32) (mode : UInt8) : Keeps P (handleOpen I tag fid mode) :=
  keeps_withCall (fun _ _ => keeps_get.bind (fun _ => (keeps_call _).bind (fun _ => keeps_pure _)))

theorem keeps_handleRead (tag : UInt16) (fid : UInt32) (offset : UInt64) (count : UInt32) :
    Keeps P (handleRead I tag fid offset count) := by
  refine Keeps.withFid (fun fh _ => keeps_get.bind (fun srv => (keeps_call _).orReply (fun r => ?_)))
  split
  split
  · exact keeps_pure _
  · exact keeps_throw _

theorem keeps_handleWStat (tag : UInt16) (fid : UInt32) (stat : Stat) : Keeps P (handleWStat I tag fid stat) := by
  refine Keeps.withFid (fun fh _ => ?_)
  split
  · exact (keeps_call _).orReply (fun _ => keeps_pure _)
  · exact keeps_pure _

variable {msg : Msg}
  (hversion : ∀ tag size version, msg = .Tversion tag size version →
    Keeps P (handleVersion tag size : ServerM σ η Msg))
  (hadd : ∀ fid fh, Keeps P (addFid fid fh : ServerM σ η Unit))
  (hremove : ∀ fid, Keeps P (setFid fid none : ServerM σ η Unit))
  (hreplace : ∀ fid fh newhandle, (∃ srv, P srv ∧ srv.fids fid = some fh) →
    Keeps P (setFid fid (some newhandle) : ServerM σ η Unit))
include hadd hremove in
theorem keeps_handleWalk (tag : UInt16) (fid newFid : UInt32) (names : List Bytes) :
    Keeps P (handleWalk I tag fid newFid names) := by
  refine keeps_withCall (fun fh r => ?_)
  split
  split
  · exact keeps_pure _
  · refine (keeps_call _).orReply (fun newfh => ?_)
    split
    · exact (keeps_call _).caught.bind (fun _ => (hremove fid).bind (fun _ =>
        (hadd newFid newfh).orReply (fun _ => keeps_pure _)))
    · exact (hadd newFid newfh).orReply (fun _ => keeps_pure _)

include hreplace in
theorem keeps_handleCreate (tag : UInt16) (fid : UInt32) (name : Bytes) (perm : UInt32) (mode : UInt8) :
    Keeps P (handleCreate I tag fid name perm mode) := by
  refine Keeps.withFid (fun fh hfound => ?_)
  split
  · refine (keeps_call _).orReply (fun newhandle => (keeps_call _).orReply (fun f => (keeps_call _).orReply ?_))
    intro qid
    exact (keeps_call _).caught.bind (fun _ => (hreplace fid fh newhandle hfound).bind (fun _ =>
      keeps_get.bind (fun _ => (keeps_call _).bind (fun _ => keeps_pure _))))
  · exact keeps_pure _

include hversion hadd hremove hreplace in
theorem keeps_dispatch : Keeps P (dispatch I msg) := by
  cases msg with
  | Tversion tag size version => exact hversion tag size version rfl
  | Tattach tag fid afid uname aname =>
    simp only [dispatch, handleAttach]
    split
    · exact keeps_pure _
    · exact (keeps_call _).orReply fun _ => (keeps_call _).orReply fun _ =>
        (hadd _ _).orReply fun _ => (keeps_call _).orReply fun _ => keeps_pure _
  | Twalk tag fid newFid names => exact keeps_handleWalk I hadd hremove tag fid newFid names
  | Topen tag fid mode => exact keeps_handleOpen I tag fid mode
  | Tread tag fid offset count => exact keeps_handleRead I tag fid offset count
  | Tstat tag fid => exact keeps_withCall (fun _ _ => keeps_pure _)
  | Twstat tag fid stat => exact keeps_handleWStat I tag fid stat
  | Twrite tag fid offset data => exact keeps_withCall (fun _ _ => keeps_pure _)
  | Tclunk tag fid | Tremove tag fid =>
    exact Keeps.withFid (fun _ _ => (hremove fid).bind (fun _ =>
      (keeps_call _).orReply (fun _ => keeps_pure _)))
  | Tauth tag afid uname aname => exact keeps_pure _
  | Tcreate tag fid name perm mode => exact keeps_handleCreate I hreplace tag fid name perm mode
  | _ => exact keeps_throw _

end Keeps

section Serve

variable {ρ : Type} (read : ReadFn ρ)

def readMsg (buf : Slice) : SourceM (ρ × Memory) Msg := do
  if buf.len < 5 then throw errBuffTooSmall
  else
    let head ← onFirst (readFull read 5)
    onSecond (copyTo buf 0 5 head)
    let sz ← onSecond (uint 4 buf 0 4)
    if sz < 5 then throw errMsgCorrupt
    else if u32 buf.len < sz then throw errBuffTooSmall
    else
      let body ← onFirst (readFull read (sz - 5))
      onSecond (copyTo buf 5 sz body)
      onSecond (do unpackMsg (← slice buf 0 sz))

/-- The bytes that `WriteMsg` writes. -/
def writeMsg (buf : Slice) (msg : Msg) : MemM Bytes := do
  let packed ← packMsg buf msg
  return (← get).read packed.off packed.len

/-- A connection: the bytes of the client that are left, the server, the implementation and
what has been sent. -/
structure Conn (ρ σ η : Type) where
  src : ρ
  srv : Server η
  impl : σ
  sent : List Bytes

/-- What `Serve` does before its loop. -/
def startServe (srv : Server η) : Server η := { srv with
  fids := fun _ => none
  inbuf := Buffer.new srv.maxMessageSize.toNat
  outbuf := Buffer.new srv.maxMessageSize.toNat }

/-- The first part of a round. -/
def receive : SourceM (Conn ρ σ η) Msg := fun c =>
  let x := readMsg read c.srv.inbuf.whole (c.src, c.srv.inbuf.mem)
  (x.1, { c with
    src := x.2.1
    srv := { c.srv with inbuf := ⟨c.srv.inbuf.len, x.2.2⟩ } })

def handle (msg : Msg) : SourceM (Conn ρ σ η) Msg := fun c =>
  let x := dispatch I msg (c.srv, c.impl)
  (x.1, { c with srv := x.2.1, impl := x.2.2 })

def reply (resp : Msg) : SourceM (Conn ρ σ η) Unit := fun c =>
  let x := writeMsg c.srv.outbuf.whole resp c.srv.outbuf.mem
  match x.1 with
  | .error e => (.error e, c)
  | .ok bytes => (.ok (), { c with
      srv := { c.srv with outbuf := ⟨c.srv.outbuf.len, x.2⟩ }
      sent := c.sent ++ [bytes] })

/-- A round of the loop of `Serve`: the message and the reply. -/
def serveRound : SourceM (Conn ρ σ η) (Msg × Msg) := do
  let msg ← receive read
  let resp ← handle I msg
  reply resp
  pure (msg, resp)

/-- So many rounds. -/
def serve : ℕ → SourceM (Conn ρ σ η) (List (Msg × Msg))
  | 0 => pure []
  | rounds + 1 => do
    let first ← serveRound I read
    let rest ← serve rounds
    pure (first :: rest)

/-- The server and the implementation between two rounds, after `Serve` has been called on a new
server. What the buffers hold is open. -/
inductive Serving (max : UInt32) (s₀ : σ) : Server η → σ → Prop
  | start : Serving max s₀ (startServe (newServer max)) s₀
  | round {srv srv' : Server η} {s s' : σ} {msg resp : Msg} {received packed : Memory}
      (h : Serving max s₀ srv s)
      (hdispatch : dispatch I msg ({ srv with inbuf := ⟨srv.inbuf.len, received⟩ }, s) = (.ok resp, (srv', s'))) :
      Serving max s₀ { srv' with outbuf := ⟨srv'.outbuf.len, packed⟩ } s'

theorem Serving.serveRound {max : UInt32} {s₀ : σ} {c c' : Conn ρ σ η} {round : Msg × Msg}
    (h : Serving I max s₀ c.srv c.impl) (hround : serveRound I read c = (.ok round, c')) :
    Serving I max s₀ c'.srv c'.impl := by
  obtain ⟨msg, c₁, hreceive, hround⟩ := bind_eq_ok.mp hround
  obtain ⟨resp, c₂, hhandle, hround⟩ := bind_eq_ok.mp hround
  obtain ⟨_, c₃, hreply, hround⟩ := bind_eq_ok.mp hround
  cases hround
  obtain rfl : c₁ = (receive read c).2 := (congrArg Prod.snd hreceive).symm
  cases hrun : dispatch I msg ((receive read c).2.srv, (receive read c).2.impl) with
  | mk r st =>
    rw [handle, hrun] at hhandle
    obtain rfl : r = .ok resp := congrArg Prod.fst hhandle
    obtain rfl : { (receive read c).2 with srv := st.1, impl := st.2 } = c₂ := congrArg Prod.snd hhandle
    simp only [reply] at hreply
    split at hreply
    · cases hreply
    · cases hreply
      exact h.round hrun

theorem Serving.serve {max : UInt32} {s₀ : σ} {c c' : Conn ρ σ η} {rounds : ℕ} {log : List (Msg × Msg)}
    (h : Serving I max s₀ c.srv c.impl) (hserve : serve I read rounds c = (.ok log, c')) :
    Serving I max s₀ c'.srv c'.impl := by
  induction rounds generalizing c log with
  | zero =>
    cases hserve
    exact h
  | succ rounds ih =>
    obtain ⟨first, c₁, hround, hserve⟩ := bind_eq_ok.mp hserve
    obtain ⟨rest, c₂, hrest, hserve⟩ := bind_eq_ok.mp hserve
    cases hserve
    exact ih (h.serveRound I read hround) hrest

end Serve

end Bpy.NineServer
