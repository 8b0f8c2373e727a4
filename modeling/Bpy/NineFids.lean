import Bpy.NineWalks

/-!
# Error replies and the table of fids

For every implementation of `File` and `Handle`. The handlers change the table as the last thing
that can fail, with one exception: `handleAttach` has entered the fid when it asks the root for
its qid. `handleWalk` with `newfid` equal to `fid` removes the old handle first, but then the new
one cannot be refused, since `NOFID` is never in the table.
-/
namespace Bpy.NineFids
open ByteWords ByteSources NineMessages NineServer NineWalks Function

variable {σ φ η α : Type}

abbrev Table (η : Type) := UInt32 → Option (Option η)

/-- The code keeps `P` of the table. -/
abbrev KeepsTable (P : Table η → Prop) (x : ServerM σ η α) : Prop := Keeps (fun srv => P srv.fids) x

section NoFid

/-- `NOFID` is not in the table. -/
def Bars (fids : Table η) : Prop := fids noFid = none

theorem bars_update {fids : Table η} {fid : UInt32} {fh : Option (Option η)} (h : Bars fids) (hfid : fid ≠ noFid) :
    Bars (update fids fid fh) := by
  rw [Bars, update_of_ne hfid.symm]
  exact h

theorem ne_noFid {fids : Table η} {fid : UInt32} {fh : Option η} (h : Bars fids) (hfid : fids fid = some fh) :
    fid ≠ noFid := by
  rintro rfl
  rw [h] at hfid
  cases hfid

theorem bars_remove {fids : Table η} (fid : UInt32) (h : Bars fids) : Bars (update fids fid none) := by
  by_cases hfid : fid = noFid
  · rw [Bars, hfid, update_self]
  · exact bars_update h hfid

theorem keeps_addFid (fid : UInt32) (fh : Option η) : KeepsTable Bars (addFid fid fh : ServerM σ η Unit) := by
  rw [addFid]
  split
  · exact keeps_throw _
  · next hfid =>
    refine (keeps_lookupFid fid).bind (fun found => ?_)
    cases found with
    | some _ => exact keeps_throw _
    | none => exact keeps_setFid (fun _ h => bars_update h hfid)

variable (I : Files σ φ η)

theorem keeps_handleVersion {P : Table η → Prop} (tag : UInt16) (messageSize : UInt32) :
    KeepsTable P (handleVersion tag messageSize : ServerM σ η Msg) := by
  rw [handleVersion]
  split
  · exact keeps_pure _
  · exact keeps_get.bind (fun srv => Keeps.bind (fun _ h => h) (fun _ => keeps_pure _))

theorem bars_dispatch (msg : Msg) : KeepsTable Bars (dispatch I msg) := by
  refine keeps_dispatch I (fun tag size _ _ => keeps_handleVersion tag size) keeps_addFid
    (fun fid => keeps_setFid (fun _ => bars_remove fid)) ?_
  intro fid fh newhandle hfound
  obtain ⟨srv, hbars, hfid⟩ := hfound
  exact keeps_setFid (fun _ h => bars_update h (ne_noFid hbars hfid))

theorem Serving.bars {max : UInt32} {s₀ s : σ} {srv : Server η} (h : Serving I max s₀ srv s) : Bars srv.fids := by
  induction h with
  | start => rfl
  | @round srv srv' s s' msg resp received packed _ hdispatch ih =>
    have hbars := bars_dispatch I msg ({ srv with inbuf := ⟨srv.inbuf.len, received⟩ }, s) ih
    rw [hdispatch] at hbars
    exact hbars

end NoFid

section Errors

def IsError : Msg → Prop
  | .Rerror _ _ => True
  | _ => False

/-- An error reply leaves the table `fids` as it is. -/
def Spares (fids : Table η) (x : ServerM σ η Msg) : Prop :=
  ∀ st resp st', st.1.fids = fids → x st = (.ok resp, st') → IsError resp → st'.1.fids = fids

/-- The code replies without an error, or not at all. -/
def Fine (x : ServerM σ η Msg) : Prop := ∀ st resp st', x st = (.ok resp, st') → ¬ IsError resp

variable {fids : Table η} {x : ServerM σ η α} {y : ServerM σ η Msg}

theorem spares_of_keeps (h : KeepsTable (· = fids) y) : Spares fids y := by
  intro st resp st' hst hrun _
  have hkept := h st hst
  rwa [hrun] at hkept

theorem Fine.spares (h : Fine y) : Spares fids y := fun st resp st' _ hrun herror => absurd herror (h st resp st' hrun)

theorem fine_pure {msg : Msg} (h : ¬ IsError msg) : Fine (pure msg : ServerM σ η Msg) := returns_pure h

theorem Fine.bind {f : α → ServerM σ η Msg} (h : ∀ a, Fine (f a)) : Fine (x >>= f) := Returns.bind h

variable {tag : UInt16} {fid : UInt32} {st : Server η × σ} {aname : Bytes}

theorem Spares.orReply {k : α → ServerM σ η Msg} (hx : KeepsTable (· = fids) x)
    (hk : ∀ a, Spares fids (k a)) : Spares fids (orReply tag x k) := by
  intro st resp st' hst hrun herror
  have hkept := hx st hst
  rcases orReply_eq_ok hrun with ⟨e, hx, -, -⟩ | ⟨a, st₁, hx, hrest⟩
  · rwa [hx] at hkept
  · rw [hx] at hkept
    exact hk a st₁ resp st' hkept hrest herror

theorem Spares.withFid {k : Option η → ServerM σ η Msg}
    (hk : ∀ fh, fids fid = some fh → Spares fids (k fh)) : Spares fids (withFid tag fid k) := by
  intro st resp st' hst hrun herror
  cases hfid : st.1.fids fid with
  | none =>
    rw [withFid_of_none hfid] at hrun
    cases hrun
    exact hst
  | some fh =>
    rw [withFid_of_some hfid] at hrun
    exact hk fh (hst ▸ hfid) st resp st' hst hrun herror

theorem spares_addFid {fh : Option η} {k : Unit → ServerM σ η Msg}
    (hk : ∀ u, Fine (k u)) : Spares fids (orReply tag (addFid fid fh) k) := by
  intro st resp st' hst hrun herror
  rcases orReply_eq_ok hrun with ⟨e, hadd, -, -⟩ | ⟨u, st₁, -, hrest⟩
  · rw [addFid_of_error hadd]
    exact hst
  · exact absurd herror (hk u st₁ resp st' hrest)

variable (I : Files σ φ η)

theorem spares_handleWalk (hbars : Bars fids) (tag : UInt16) (fid newFid : UInt32) (names : List Bytes) :
    Spares fids (handleWalk I tag fid newFid names) := by
  refine Spares.withFid (fun fh hfid => Spares.orReply (keeps_call _) (fun r => ?_))
  split
  split
  · exact spares_of_keeps (keeps_pure _)
  · refine Spares.orReply (keeps_call _) (fun newfh => ?_)
    split
    · next hsame =>
      subst hsame
      -- the old handle is removed, and its fid is then free for the new one
      intro st resp st' hst hrun herror
      obtain ⟨r, st₁, hclunk, hrun⟩ := bind_eq_ok.mp hrun
      obtain ⟨u, st₂, hset, hrun⟩ := bind_eq_ok.mp hrun
      cases hset
      have hadd := addFid_of_free newfh ({ st₁.1 with fids := update st₁.1.fids newFid none }, st₁.2)
        (ne_noFid hbars hfid) (update_self _ _ _)
      cases (orReply_of_ok hadd).symm.trans hrun
      exact herror.elim
    · exact spares_addFid (fun _ => fine_pure id)

theorem spares_handleCreate (tag : UInt16) (fid : UInt32) (name : Bytes) (perm : UInt32) (mode : UInt8) :
    Spares fids (handleCreate I tag fid name perm mode) := by
  refine Spares.withFid (fun fh _ => ?_)
  split
  · refine Spares.orReply (keeps_call _) (fun newhandle => Spares.orReply (keeps_call _) (fun f => ?_))
    refine Spares.orReply (keeps_call _) (fun qid => Fine.spares ?_)
    exact Fine.bind (fun _ => Fine.bind (fun _ => Fine.bind (fun _ => Fine.bind (fun _ => fine_pure id))))
  · exact spares_of_keeps (keeps_pure _)

/-- The attached root is entered in the table and then refuses to tell its qid. -/
def QidFails (st : Server η × σ) (fid afid : UInt32) (aname : Bytes) : Prop :=
  afid = noFid ∧ fid ≠ noFid ∧ st.1.fids fid = none ∧
    ∃ root s₁ fh s₂ e s₃, I.attach aname st.2 = (.ok (some root), s₁) ∧ I.newHandle root s₁ = (.ok fh, s₂) ∧
      I.qid root s₂ = (.error e, s₃) ∧ ∀ msg, e ≠ .panic msg

theorem handleAttach_of_qidFails (tag : UInt16) {afid : UInt32}
    (h : QidFails I st fid afid aname) : ∃ resp st', handleAttach I tag fid afid aname st = (.ok resp, st') ∧
      IsError resp ∧ st'.1.fids ≠ st.1.fids := by
  obtain ⟨rfl, hfid, hfree, root, s₁, fh, s₂, e, s₃, hattach, hhandle, hqid, he⟩ := h
  have hnew : (do I.newHandle (← deref (some root))) s₁ = (.ok fh, s₂) := (bind_of_ok (deref_some root)).trans hhandle
  have hroot : (do I.qid (← deref (some root))) s₂ = (.error e, s₃) := (bind_of_ok (deref_some root)).trans hqid
  have hadd := addFid_of_free fh (st.1, s₂) hfid hfree
  refine ⟨makeError tag e, ({ st.1 with fids := update st.1.fids fid (some fh) }, s₃), ?_, trivial, ?_⟩
  · rw [handleAttach, if_neg (not_not.mpr rfl), orReply_of_ok (call_eq hattach), orReply_of_ok (call_eq hnew),
      orReply_of_ok hadd, orReply_of_error (call_eq hroot) he]
  · intro heq
    have hentry : some fh = st.1.fids fid := (update_self fid _ _).symm.trans (congrFun heq fid)
    rw [hfree] at hentry
    cases hentry

theorem spares_handleAttach {afid : UInt32} (h : ¬ QidFails I st fid afid aname) {resp : Msg}
    {st' : Server η × σ} (hrun : handleAttach I tag fid afid aname st = (.ok resp, st'))
    (herror : IsError resp) : st'.1.fids = st.1.fids := by
  rw [handleAttach] at hrun
  split at hrun
  · cases hrun
    rfl
  · next hafid =>
    rcases orReply_eq_ok hrun with ⟨e, hattach, -, -⟩ | ⟨root, st₁, hattach, hrun⟩
    · rw [(call_eq_ok hattach).2]
    · obtain ⟨hattach, hst₁⟩ := call_eq_ok hattach
      rcases orReply_eq_ok hrun with ⟨e, hnew, -, -⟩ | ⟨fh, st₂, hnew, hrun⟩
      · rw [(call_eq_ok hnew).2, hst₁]
      · obtain ⟨hnew, hst₂⟩ := call_eq_ok hnew
        rcases orReply_eq_ok hrun with ⟨e, hadd, -, -⟩ | ⟨u, st₃, hadd, hrun⟩
        · rw [addFid_of_error hadd, hst₂, hst₁]
        · rcases orReply_eq_ok hrun with ⟨e, hqid, he, -⟩ | ⟨qid, st₄, -, hrun⟩
          · refine absurd ⟨not_not.mp hafid, ?_⟩ h
            obtain ⟨hfid, hfree, rfl⟩ := addFid_eq_ok hadd
            cases root with
            | none => cases (congrArg Prod.fst hnew : Except.error _ = _)
            | some root =>
              rw [hst₂, hst₁] at hfree
              exact ⟨hfid, hfree, root, _, fh, _, e, _, hattach, hnew, (call_eq_ok hqid).1, he⟩
          · cases hrun
            exact herror.elim

/-- The requests that remove a fid whatever the reply. -/
def Removes : Msg → Prop
  | .Tclunk _ _ => True
  | .Tremove _ _ => True
  | _ => False

/-- An attach of which only the last call fails. -/
def AttachFails (st : Server η × σ) : Msg → Prop
  | .Tattach _ fid afid _ aname => QidFails I st fid afid aname
  | _ => False

theorem spares_dispatch (hbars : Bars fids) {msg : Msg} (hmsg : ¬ Removes msg)
    (hattach : ∀ tag fid afid uname aname, msg ≠ .Tattach tag fid afid uname aname) : Spares fids (dispatch I msg) := by
  cases msg with
  | Tattach tag fid afid uname aname => exact absurd rfl (hattach tag fid afid uname aname)
  | Tclunk tag fid => exact absurd trivial hmsg
  | Tremove tag fid => exact absurd trivial hmsg
  | Twalk tag fid newFid names => exact spares_handleWalk I hbars tag fid newFid names
  | Tcreate tag fid name perm mode => exact spares_handleCreate I tag fid name perm mode
  | Tversion tag messageSize version => exact spares_of_keeps (keeps_handleVersion tag messageSize)
  | Topen tag fid mode => exact spares_of_keeps (keeps_handleOpen I tag fid mode)
  | Tread tag fid offset count => exact spares_of_keeps (keeps_handleRead I tag fid offset count)
  | Twrite tag fid offset data => exact spares_of_keeps (keeps_withCall (fun _ _ => keeps_pure _))
  | Tstat tag fid => exact spares_of_keeps (keeps_withCall (fun _ _ => keeps_pure _))
  | Twstat tag fid stat => exact spares_of_keeps (keeps_handleWStat I tag fid stat)
  | Tauth tag afid uname aname => exact spares_of_keeps (keeps_pure _)
  | _ => exact spares_of_keeps (keeps_throw _)

variable {I}

/-- In every state that `Serve` reaches, and for every request but the two that remove a fid. -/
theorem error_keeps_fids_iff {max : UInt32} {s₀ s : σ} {srv : Server η} (hserving : Serving I max s₀ srv s)
    {msg : Msg} (hmsg : ¬ Removes msg) : srv.fids noFid = none ∧
      ((∀ resp st', dispatch I msg (srv, s) = (.ok resp, st') → IsError resp → st'.1.fids = srv.fids) ↔
        ¬ AttachFails I (srv, s) msg) := by
  refine ⟨Serving.bars I hserving, ?_⟩
  by_cases hattach : ∃ tag fid afid uname aname, msg = .Tattach tag fid afid uname aname
  · obtain ⟨tag, fid, afid, uname, aname, rfl⟩ := hattach
    constructor
    · intro hspares hfails
      obtain ⟨resp, st', hrun, herror, hne⟩ := handleAttach_of_qidFails I tag hfails
      exact hne (hspares resp st' hrun herror)
    · intro hfails resp st' hrun herror
      exact spares_handleAttach I hfails hrun herror
  · have hother : ∀ tag fid afid uname aname, msg ≠ .Tattach tag fid afid uname aname :=
      fun tag fid afid uname aname h => hattach ⟨tag, fid, afid, uname, aname, h⟩
    constructor
    · intro _ hfails
      cases msg with
      | Tattach tag fid afid uname aname => exact hother tag fid afid uname aname rfl
      | _ => exact hfails
    · intro _ resp st' hrun herror
      exact spares_dispatch I (Serving.bars I hserving) hmsg hother (srv, s) resp st' rfl hrun herror

end Errors

section Instances

def attached : Server Bool :=
  (dispatch folderTree (.Tattach 1 0 noFid [] []) (startServe (newServer 64), ())).2.1

/-- After an attach, the walk of its fid to a file that does not exist. -/
theorem error_keeps_fids_walk : attached.fids 0 = some (some false) ∧
    (∃ e, dispatch folderTree (.Twalk 2 0 0 [ascii "b"]) (attached, ()) = (.ok (.Rerror 2 e), (attached, ()))) ∧
    ∀ resp st', dispatch folderTree (.Twalk 2 0 0 [ascii "b"]) (attached, ()) = (.ok resp, st') →
      IsError resp → st'.1.fids = attached.fids := by
  have hattached : Serving folderTree 64 () attached () := .round .start
    (rfl : dispatch folderTree (.Tattach 1 0 noFid [] []) (startServe (newServer 64), ()) = _)
  have h := error_keeps_fids_iff hattached (id : ¬ Removes (.Twalk 2 0 0 [ascii "b"]))
  exact ⟨rfl, ⟨_, rfl⟩, h.2.mpr id⟩

/-- The tree with a root that cannot tell its qid. -/
def nameless : Files Unit Bool Bool := { folderTree with
  qid := fun _ => throw (.text "i/o error") }

/-- The reply to the attach is an error, and the fid is taken. -/
theorem attach_error_takes_fid :
    ∃ st', dispatch nameless (.Tattach 1 0 noFid [] []) (startServe (newServer 64), ()) =
        (.ok (.Rerror 1 (ascii "i/o error")), st') ∧
      (startServe (newServer 64) : Server Bool).fids 0 = none ∧ st'.1.fids 0 = some (some false) :=
  ⟨_, rfl, rfl, rfl⟩

end Instances

end Bpy.NineFids
