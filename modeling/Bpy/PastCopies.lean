import Bpy.CommandRuns
import Bpy.DriveNames

/-!
# `bpy cp -when` and `bpy revert`

With `-when` the command copies within a tree of the past: both the source and the
folder of the destination are looked up there, and the result is published with the
current ref as its predecessor. What has changed since then is lost, unless it is at the
destination. A revert publishes the whole tree of the past in the same way.
-/
namespace Bpy.PastCopies
open ByteWords InteractionPrograms ContentStore HashTreeWriter HashTreeStreams Directories References
open FileTrees PathElements LinkedFolders ObjectGraph DirTrees TreeEdits TreeInsert TreeMove DriveNames Commands CommandRuns
open Method
open List hiding after get

section Copy

/-- The destination has what the source had in the past, and all else is as it is now. -/
structure PastCopied (cur past new : Bytes → Except GoError DirEnt) (src dst : Bytes) : Prop where
  arrived : ∃ e e', past src = .ok e ∧ new (destination src dst) = .ok e' ∧
    e' = { e with entName := e'.entName }
  others : ∀ q, ¬ elems (destination src dst) <+: elems q → ¬ elems q <+: elems (destination src dst) →
    new q = cur q

/-- Away from the destination nothing has changed since. -/
def Agree (cur past : Bytes → Except GoError DirEnt) (src dst : Bytes) : Prop :=
  ∀ q, ¬ elems (destination src dst) <+: elems q → ¬ elems q <+: elems (destination src dst) →
    past q = cur q

/-- The new name is a name, and a file does not get the name of a folder. -/
structure Lands (past : Bytes → Except GoError DirEnt) (src dst : Bytes) : Prop where
  ne_dot : ∀ e, past src = .ok e → (renamed dst e).entName ≠ ascii "."
  ne_dotdot : ∀ e, past src = .ok e → (renamed dst e).entName ≠ ascii ".."
  free : ∀ e f, past src = .ok e → past (destination src dst) = .ok f → e.isDir = false → f.isDir = false

variable {stored : Hash → Bytes → Prop} {hfun : Functional stored} {mode : UInt32} {t : HTree} {e : DirEnt}
  {src dst : Bytes}

section

variable (he : (links hfun).Resolves (rootEnt mode t) (elems src) (.ok e))
include he

theorem found_named :
    (elems src = [] ∧ e = rootEnt mode t) ∨ ∃ path, elems src = path ++ [e.entName] ∧ Proper e.entName := by
  rcases List.eq_nil_or_concat' (elems src) with hnil | ⟨path, name, hpath⟩
  · rw [hnil] at he
    cases he
    exact .inl ⟨hnil, rfl⟩
  · rw [hpath] at he
    obtain ⟨b, r, d, c, -, -, -, hc, hrest⟩ := he.of_append
    cases hrest
    have hname := (mem_of_findEnt hc).2
    refine .inr ⟨path, by rw [hpath, hname], ?_⟩
    rw [hname]
    exact proper_elems src name (by simp [hpath])

theorem proper_renamed (hdot : (renamed dst e).entName ≠ ascii ".") (hdotdot : (renamed dst e).entName ≠ ascii "..") :
    Proper (renamed dst e).entName := by
  by_cases hbase : base (rooted dst) = []
  · rw [renamed, if_pos hbase] at hdot ⊢
    rcases found_named he with ⟨-, rfl⟩ | ⟨path, -, hproper⟩
    · exact absurd rfl hdot
    · exact hproper
  · rw [renamed, if_neg hbase] at hdot hdotdot ⊢
    exact ⟨hbase, hdot, hdotdot, noSlash_base dst⟩

theorem elems_of_proper (hproper : Proper (renamed dst e).entName) :
    elems (destination src dst) = dirElems dst ++ [(renamed dst e).entName] := by
  by_cases hbase : base (rooted dst) = []
  · rcases found_named he with ⟨-, rfl⟩ | ⟨path, hpath, -⟩
    · rw [renamed, if_pos hbase] at hproper
      exact absurd rfl hproper.ne_dot
    · have hdot : base (rooted dst) ≠ ascii "." := by simp [hbase, ascii]
      have hdotdot : base (rooted dst) ≠ ascii ".." := by simp [hbase, ascii]
      exact (elems_destination hpath rfl hdot hdotdot).2
  · have hslash : ¬ (rooted dst).getLast? = some slash := fun h => hbase ((base_eq_nil_iff dst).mpr h)
    rw [renamed, if_neg hbase] at hproper ⊢
    rw [destination, if_neg hslash]
    exact elems_eq_append hproper

theorem elems_of_improper (hbad : ¬ Proper (renamed dst e).entName) : elems (destination src dst) <+: dirElems dst := by
  by_cases hbase : base (rooted dst) = []
  · rw [renamed, if_pos hbase] at hbad
    rcases found_named he with ⟨hnil, -⟩ | ⟨path, -, hproper⟩
    · have hslash := (base_eq_nil_iff dst).mp hbase
      have hsrc : base (clean (rooted src)) = [] := by
        rw [clean_rooted, hnil]
        rfl
      rw [destination, if_pos hslash, hsrc, append_nil, elems_rooted, elems_eq_cleanStep, hbase]
      exact prefix_rfl
    · exact absurd hproper hbad
  · rw [renamed, if_neg hbase] at hbad
    apply elems_destination_prefix
    by_contra hdots
    rw [not_or] at hdots
    exact hbad ⟨hbase, hdots.1, hdots.2, noSlash_base dst⟩

end

variable {t₁ : HTree} {cur past new : Bytes → Except GoError DirEnt}

theorem renamed_eq (dst : Bytes) (e : DirEnt) : renamed dst e = { e with entName := (renamed dst e).entName } := by
  rw [renamed]
  split <;> rfl

section

variable (h : Copies hfun dst e t t₁) (hpast : Moves.Walks hfun mode t past) (hnew : Moves.Walks hfun mode t₁ new)
include h hpast hnew

variable (he : (links hfun).Resolves (rootEnt mode t) (elems src) (.ok e))
include he

theorem lands_of_copied (hcopied : PastCopied cur past new src dst) : Lands past src dst := by
  have hsrc : past src = .ok e := hpast src _ he
  obtain ⟨e₁, e', he₁, he', hsame⟩ := hcopied.arrived
  rw [hsrc, Except.ok.injEq] at he₁
  subst he₁
  have hproper : Proper (renamed dst e).entName := by
    by_contra hbad
    have hbound := h.bound (fun f hf => absurd
      (proper_of_resolves (folder_rootEnt hfun mode t) h.tree hf _ (by simp)) hbad)
    have hdot := hbound.at_bound (folder_rootEnt hfun mode t) (.here _)
    obtain ⟨rest, hrest⟩ := elems_of_improper he hbad
    rw [← hrest, append_assoc] at hdot
    obtain ⟨m, ms, hms⟩ := exists_cons_of_ne_nil (show rest ++ [(renamed dst e).entName] ≠ [] by simp)
    rw [hms] at hdot
    obtain ⟨g, r, d, c, hg, hr, hd, hc, hlast⟩ := hdot.of_append
    have hwalk := hnew _ _ hg
    rw [he'] at hwalk
    simp only [walkResult, Except.ok.injEq] at hwalk
    subst hwalk
    have htree : e.isDir = true → (links hfun).Tree (fun d => Named d.ents) e.htree := fun hdir =>
      h.tree.of_resolves (folder_rootEnt hfun mode t) he (folder_eq_some hdir)
    apply not_same_entry htree hbad (by simp [← hms]) (.step hr hd hc hlast)
    rw [hsame]
    exact ⟨rfl, rfl⟩
  constructor
  · intro e₁ he₁
    rw [hsrc, Except.ok.injEq] at he₁
    exact he₁ ▸ hproper.ne_dot
  · intro e₁ he₁
    rw [hsrc, Except.ok.injEq] at he₁
    exact he₁ ▸ hproper.ne_dotdot
  · intro e₁ f he₁ hf hfile
    rw [hsrc, Except.ok.injEq] at he₁
    subst he₁
    by_contra hdir
    rw [Bool.not_eq_false] at hdir
    have hf' := hpast.resolves h.tree hf
    rw [elems_of_proper he hproper] at hf'
    have hfolder := (h.hidden hf' hfile hdir).at_bound (folder_rootEnt hfun mode t) (.here f)
    rw [← elems_of_proper he hproper] at hfolder
    have hwalk := hnew _ _ hfolder
    rw [he'] at hwalk
    simp only [walkResult, Except.ok.injEq] at hwalk
    subst hwalk
    have hkind : e'.isDir = e.isDir := by
      rw [hsame]
      rfl
    rw [hkind, hfile] at hdir
    cases hdir

theorem copied_of_lands (hlands : Lands past src dst) : PastCopied past past new src dst := by
  have hsrc : past src = .ok e := hpast src _ he
  have hproper := proper_renamed he (hlands.ne_dot e hsrc) (hlands.ne_dotdot e hsrc)
  have hdest := elems_of_proper he hproper
  have hfree : ∀ f, (links hfun).Resolves (rootEnt mode t) (dirElems dst ++ [(renamed dst e).entName])
      (.ok f) → e.isDir = false → f.isDir = false := by
    intro f hf
    rw [← hdest] at hf
    exact hlands.free e f hsrc (hpast _ _ hf)
  have hbound := h.bound hfree
  constructor
  · have hcopy := hbound.at_bound (folder_rootEnt hfun mode t) (.here _)
    rw [← hdest] at hcopy
    exact ⟨e, renamed dst e, hsrc, hnew _ _ hcopy, renamed_eq dst e⟩
  · intro q hq hq'
    rw [hdest] at hq hq'
    obtain ⟨x, hx⟩ := h.tree.resolves (folder_rootEnt hfun mode t) (elems q)
    have hcopy := hbound.aside (folder_rootEnt hfun mode t) hq hq' hx
    rw [hpast q x hx]
    exact hnew q x hcopy

theorem pastCopied_iff : PastCopied cur past new src dst ↔ Lands past src dst ∧ Agree cur past src dst := by
  constructor
  · intro hcopied
    have hlands := lands_of_copied h hpast hnew he hcopied
    have hpure := copied_of_lands h hpast hnew he hlands
    refine ⟨hlands, fun q hq hq' => ?_⟩
    rw [← hcopied.others q hq hq', hpure.others q hq hq']
  · intro hboth
    have hpure := copied_of_lands h hpast hnew he hboth.1
    refine ⟨hpure.arrived, fun q hq hq' => ?_⟩
    rw [hpure.others q hq hq', hboth.2 q hq hq']

end

variable {room : ℕ → ℕ} {sha256 : Bytes → Hash} {s s' : List Bytes} {root : Hash} {r : DirEnt}

/-- What `Copy` makes of a tree is another tree with the copy just if the copy lands, and the two
trees agree elsewhere. The result may be looked at later. -/
theorem copy_past_iff {s'' : List Bytes} (hinj : Set.InjOn sha256 {c | c ∈ s''})
    (hgrow : ∃ ws, s'' = ws ++ s') (htree : DirTree (Stored sha256 s) Named root)
    (hrun : exec (memStore sha256) (copy room root dst src) () s = (.ok r, (), s')) :
    PastCopied cur (fun q => (exec (memStore sha256) (walk room root q) () s).1)
        (fun q => (exec (memStore sha256) (walk room r.htree.data q) () s'').1) src dst ↔
      Lands (fun q => (exec (memStore sha256) (walk room root q) () s).1) src dst ∧
        Agree cur (fun q => (exec (memStore sha256) (walk room root q) () s).1) src dst := by
  obtain ⟨e, w, s₁, hwalk, hinsert⟩ := exec_bind_eq_ok hrun
  have hinj₁ : Set.InjOn sha256 {c | c ∈ s'} := by
    obtain ⟨ws, rfl⟩ := hgrow
    exact hinj.mono (fun c hc => mem_append_right ws hc)
  have hinj₀ := injOn_of_exec hrun hinj₁
  obtain ⟨rfl, husable⟩ := walk_usable hinj₀ htree hwalk
  have hroot := htree
  cases hroot with
  | @intro t mode ents hf _ _ =>
    obtain ⟨hfound, -, -⟩ := resolves_of_walk room hinj₀ hf htree hwalk
    have hwritten := insert_edits room dst husable.depth t () () s₁ s' r hinj₀ hinj₁
      ((htree.tree _).mono (.refl _) (fun _ _ => trivial)) hinsert
    obtain ⟨-, ents', hf'⟩ := hwritten.newRoot hinj₀ hf rfl
    have hst := stored_grows sha256 hgrow
    have hext₁ := links_extends (functional_stored hinj₁) (functional_stored hinj) hst
    have hgrow₀ : ∃ ws, s'' = ws ++ s₁ := by
      obtain ⟨ws, hws⟩ := hwritten.grows
      obtain ⟨ws', hws'⟩ := hgrow
      exact ⟨ws' ++ ws, by rw [hws', hws, append_assoc]⟩
    have hext := links_extends (functional_stored hinj₀) (functional_stored hinj) (stored_grows sha256 hgrow₀)
    have hcopies : Copies (functional_stored hinj) dst e t r.htree :=
      ⟨(htree.tree (functional_stored hinj₀)).mono hext (fun _ h => h),
        hwritten.edited.mono hext₁ (Inserted.mono hst)⟩
    apply pastCopied_iff hcopies (e := e) _ _ (hfound.mono hext)
    · intro q x hx
      exact congrArg Prod.fst (exec_walk_before room () hinj hgrow₀ hf htree hx)
    · intro q x hx
      exact congrArg Prod.fst (exec_walk room () hinj (hf'.mono hst) hx)

end Copy

section History

/-- A ref with its tree, and all refs before it. -/
inductive History (stored : Hash → Bytes → Prop) : Hash → Prop
  | intro {k : ℕ} {h : Hash} {r : Ref} (hr : Tree stored ⟨k, h⟩ r.encode)
      (hroot : DirTree stored Named r.root) (hprev : r.hasPrev = true → History stored r.prev) :
      History stored h

variable {sha256 : Bytes → Hash} {s s' : List Bytes} {room : ℕ → ℕ}

variable (room) in
theorem exec_getRef {k : ℕ} {h : Hash} {r : Ref} (hinj : Set.InjOn sha256 {c | c ∈ s})
    (hr : Tree (Stored sha256 s) ⟨k, h⟩ r.encode) :
    exec (memStore sha256) (getRef room h) () s = (.ok r.norm, (), s) := by
  obtain ⟨rdr, hread, -⟩ := readTree_spec room () (serves_self hinj) hr
  rw [getRef, exec_bind_ok _ (exec_catchError_ok hread)]
  simp [Ref.decode_encode]

variable (room) in
/-- `GetAtTime` finds the same ref in every store that has the history, and its tree is in the
store. -/
theorem exec_getAtTime (t : Int64) (n : ℕ) {r : Ref} (hroot : DirTree (Stored sha256 s) Named r.root)
    (hprev : r.hasPrev = true → History (Stored sha256 s) r.prev) :
    ∃ x, (∀ past, x = .ok (some past) → DirTree (Stored sha256 s) Named past.root) ∧
      ∀ s', (∃ ws, s' = ws ++ s) → Set.InjOn sha256 {c | c ∈ s'} →
        exec (memStore sha256) (getAtTime room t n r.norm) () s' = (x, (), s') := by
  induction n generalizing r with
  | zero => exact ⟨.error (.panic "out of rounds"), nofun, fun _ _ _ => rfl⟩
  | succ n ih =>
    simp only [getAtTime]
    by_cases htime : r.norm.createdAt ≤ t
    · refine ⟨.ok (some r.norm), ?_, fun _ _ _ => ?_⟩
      · intro past hpast
        simp only [Except.ok.injEq, Option.some.injEq] at hpast
        exact hpast ▸ hroot
      · rw [if_pos htime]
        rfl
    · cases hp : r.norm.hasPrev with
      | false =>
        refine ⟨.ok none, nofun, fun _ _ _ => ?_⟩
        rw [if_neg htime, if_neg nofun]
        rfl
      | true =>
        have hthere := hprev hp
        have hname : r.norm.prev = r.prev := if_pos hp
        cases hthere with
        | @intro k _ r' hr' hroot' hprev' =>
          obtain ⟨x, hx, hrun⟩ := ih hroot' hprev'
          refine ⟨x, hx, fun s' hgrow hinj' => ?_⟩
          have hget := exec_getRef room hinj' (hr'.mono (stored_grows sha256 hgrow))
          rw [if_neg htime, if_pos rfl, hname, exec_bind_ok _ hget]
          exact hrun s' hgrow hinj'

theorem walk_later {Q : List DirEnt → Prop} {root : Hash} (hinj' : Set.InjOn sha256 {c | c ∈ s'})
    (hgrow : ∃ ws, s' = ws ++ s) (htree : DirTree (Stored sha256 s) Q root) (q : Bytes) :
    (exec (memStore sha256) (walk room root q) () s).1 = (exec (memStore sha256) (walk room root q) () s').1 := by
  have hthere := htree
  cases hthere with
  | @intro t mode ents hf _ _ =>
    have hst := stored_grows sha256 hgrow
    have htree' := (htree.mono hst (fun _ h => h)).tree (functional_stored hinj')
    obtain ⟨x, hx⟩ := htree'.resolves (folder_rootEnt _ mode t) (elems q)
    rw [exec_walk_before room () hinj' hgrow hf htree hx, exec_walk room () hinj' (hf.mono hst) hx]

end History

section Command

variable (sha256 : Bytes → Hash) (room : ℕ → ℕ)

/-- `GetRef`, in a store that keeps what is put into it. -/
def refAt (s : List Bytes) (hash : Hash) : Except GoError Ref :=
  (exec (memStore sha256) (getRef room hash) () s).1

def pastRef (s : List Bytes) (refTime : Int64) (history : ℕ) (ref : Ref) : Except GoError (Option Ref) :=
  (exec (memStore sha256) (getAtTime room refTime history ref) () s).1

/-- `Walk` from a root. -/
def entAt (s : List Bytes) (root : Hash) (fpath : Bytes) : Except GoError DirEnt :=
  (exec (memStore sha256) (walk room root fpath) () s).1

variable {σ : Type}

/-- The calls of a round that published, with the chunks that were stored when they were made. -/
structure Round (history : ℕ) (src dst : Bytes) (W' : World σ) (rootHash newHash : Hash)
    (cur past : Ref) (refTime createdAt : Int64) (newRoot : DirEnt) (sRef sPast sCopy sPut : List Bytes) :
    Prop where
  current : W'.current = some (rootHash, sRef)
  time : W'.refTime = some refTime
  published : W'.published = some newHash
  get : ∃ s, exec (memStore sha256) (getRef room rootHash) () sRef = (.ok cur, (), s) ∧
    ∃ ws, sPast = ws ++ s
  look : exec (memStore sha256) (getAtTime room refTime history cur) () sPast =
    (.ok (some past), (), sCopy)
  copy : ∃ s, exec (memStore sha256) (copy room past.root dst src) () sCopy = (.ok newRoot, (), s) ∧
    ∃ ws, sPut = ws ++ s
  put : ∃ s, exec (memStore sha256)
    (putRef ⟨createdAt, newRoot.htree.data, true, rootHash⟩) () sPut = (.ok newHash, (), s) ∧
    ∃ ws, W'.chunks = ws ++ s

variable {sha256 room} {srv : Server σ} {W W' : World σ} {whenArg src dst epoch : Bytes} {history : ℕ}

theorem cpOnce_true (hwhen : whenArg ≠ [])
    (hrun : exec (serve sha256 srv) (cpOnce sha256 room whenArg history src dst epoch) () W = (.ok true, (), W')) :
    ∃ rootHash newHash cur past refTime createdAt newRoot sRef sPast sCopy sPut,
      Round sha256 room history src dst W' rootHash newHash cur past refTime createdAt newRoot
        sRef sPast sCopy sPut := by
  obtain ⟨_, _, W₁, -, hrun⟩ := exec_bind_eq_ok _ hrun
  obtain ⟨⟨rootHash, version⟩, _, W₂, hroot, hrun⟩ := exec_bind_eq_ok _ hrun
  obtain ⟨-, rfl⟩ := getRoot_ok hroot
  obtain ⟨cur, _, W₃, hget, hrun⟩ := exec_bind_eq_ok _ hrun
  obtain ⟨s₃, hget₁, rfl⟩ := inStore_ok (orDie_ok hget)
  obtain ⟨past, _, W₄, hpast, hrun⟩ := exec_bind_eq_ok _ hrun
  rw [refAtWhen, if_neg hwhen] at hpast
  obtain ⟨⟨refTime, text⟩, _, W₅, hparse, hpast⟩ := exec_bind_eq_ok _ hpast
  obtain ⟨-, rfl⟩ := parseWhen_ok hparse
  obtain ⟨found, _, W₆, hlook, hpast⟩ := exec_bind_eq_ok _ hpast
  obtain ⟨s₆, hlook₁, rfl⟩ := inStore_ok (orDie_ok hlook)
  cases found with
  | none => simp at hpast
  | some found =>
    simp only [exec_pure, Prod.mk.injEq, Except.ok.injEq, true_and] at hpast
    obtain ⟨rfl, rfl⟩ := hpast
    obtain ⟨newRoot, _, W₇, hcopy, hrun⟩ := exec_bind_eq_ok _ hrun
    obtain ⟨s₇, hcopy₁, rfl⟩ := inStore_ok (orDie_ok hcopy)
    obtain ⟨createdAt, _, W₈, hnow, hrun⟩ := exec_bind_eq_ok _ hrun
    rw [now, exec_send, Prod.mk.injEq, Prod.mk.injEq] at hnow
    obtain ⟨-, -, rfl⟩ := hnow
    obtain ⟨newHash, _, W₉, hput, hrun⟩ := exec_bind_eq_ok _ hrun
    obtain ⟨s₉, hput₁, rfl⟩ := storeRef_ok (orDie_ok hput)
    obtain ⟨_, _, W₁₀, hclose, hcas⟩ := exec_bind_eq_ok _ hrun
    have hclose₁ := orDie_ok hclose
    rw [exec_send, Prod.mk.injEq, Prod.mk.injEq] at hclose₁
    obtain ⟨-, -, rfl⟩ := hclose₁
    obtain ⟨-, hcurrent, htime, hpublished⟩ := casRoot_true hcas
    obtain ⟨ws, hws⟩ := exec_serve_grows hcas
    exact ⟨rootHash, newHash, cur, found, refTime, createdAt, newRoot, _, _, _, _, hcurrent, htime, hpublished,
      ⟨s₃, hget₁, _, rfl⟩, hlook₁, ⟨s₇, hcopy₁, _, rfl⟩, ⟨s₉, hput₁, ws ++ _, by rw [hws, append_assoc]; rfl⟩⟩

theorem Round.copied_iff {rootHash newHash : Hash} {cur past : Ref} {refTime createdAt : Int64} {newRoot : DirEnt}
    {sRef sPast sCopy sPut : List Bytes}
    (h : Round sha256 room history src dst W' rootHash newHash cur past refTime createdAt newRoot sRef sPast sCopy sPut)
    (hinj : Set.InjOn sha256 {c | c ∈ W'.chunks}) (hhist : History (Stored sha256 sRef) rootHash) :
    refAt sha256 room sRef rootHash = .ok cur ∧ pastRef sha256 room sRef refTime history cur = .ok (some past) ∧
      refAt sha256 room W'.chunks newHash = .ok ⟨createdAt, newRoot.htree.data, true, rootHash⟩ ∧
      (PastCopied (entAt sha256 room sRef cur.root) (entAt sha256 room sRef past.root)
          (entAt sha256 room W'.chunks newRoot.htree.data) src dst ↔
        Lands (entAt sha256 room sRef past.root) src dst ∧
          Agree (entAt sha256 room sRef cur.root) (entAt sha256 room sRef past.root) src dst) := by
  obtain ⟨s₁, hget, hgrow₁⟩ := h.get
  obtain ⟨s₂, hcopy, hgrow₂⟩ := h.copy
  obtain ⟨s₃, hput, hgrow₃⟩ := h.put
  have hinj₃ := injOn_of_grows hgrow₃ hinj
  have hinjPut := injOn_of_exec hput hinj₃
  have hinj₂ := injOn_of_grows hgrow₂ hinjPut
  have hinjCopy := injOn_of_exec hcopy hinj₂
  have hinjPast := injOn_of_exec h.look hinjCopy
  have hinj₁ := injOn_of_grows hgrow₁ hinjPast
  have hinjRef := injOn_of_exec hget hinj₁
  cases hhist with
  | @intro k _ r hr hroot hprev =>
    have hgot := exec_getRef room hinjRef hr
    rw [hget, Prod.mk.injEq, Prod.mk.injEq, Except.ok.injEq] at hgot
    obtain ⟨rfl, -, rfl⟩ := hgot
    obtain ⟨x, hx, hlook⟩ := exec_getAtTime room refTime history hroot hprev
    have hlooked := hlook sPast hgrow₁ hinjPast
    rw [h.look, Prod.mk.injEq, Prod.mk.injEq] at hlooked
    obtain ⟨rfl, -, rfl⟩ := hlooked
    have hpast := hx past rfl
    have hlater : entAt sha256 room s₁ past.root = entAt sha256 room sCopy past.root :=
      funext (walk_later hinjPast hgrow₁ hpast)
    obtain ⟨ws, k', hws, hnew⟩ := putRef_ok hput
    have hgrow : ∃ ws, W'.chunks = ws ++ s₂ := grows_trans (grows_trans hgrow₂ ⟨ws, hws⟩) hgrow₃
    refine ⟨congrArg Prod.fst hget, congrArg Prod.fst (hlook s₁ ⟨[], rfl⟩ hinjRef), ?_, ?_⟩
    · exact congrArg Prod.fst (exec_getRef room hinj (hnew.mono (stored_grows sha256 hgrow₃)))
    · rw [hlater]
      exact copy_past_iff hinj hgrow (hpast.mono (stored_grows sha256 hgrow₁) (fun _ h => h)) hcopy

/-- What `bpy cp -when` publishes is the current tree with the copy just if the copy lands, and
nothing else has changed since. -/
theorem cp_when_iff {rounds : ℕ} (hwhen : whenArg ≠ []) (hinj : Set.InjOn sha256 {c | c ∈ W'.chunks})
    (hrun : exec (serve sha256 srv) (cp sha256 room whenArg history src dst rounds) () W =
      (.ok (), (), W')) :
    ∃ rootHash s refTime newHash, W'.current = some (rootHash, s) ∧ W'.refTime = some refTime ∧
      W'.published = some newHash ∧ (History (Stored sha256 s) rootHash →
        ∃ cur past new, refAt sha256 room s rootHash = .ok cur ∧
          pastRef sha256 room s refTime history cur = .ok (some past) ∧
          refAt sha256 room W'.chunks newHash = .ok new ∧
          (PastCopied (entAt sha256 room s cur.root) (entAt sha256 room s past.root)
              (entAt sha256 room W'.chunks new.root) src dst ↔
            Lands (entAt sha256 room s past.root) src dst ∧
              Agree (entAt sha256 room s cur.root) (entAt sha256 room s past.root) src dst)) := by
  obtain ⟨epoch, _, W₀, -, hloop⟩ := exec_bind_eq_ok _ hrun
  obtain ⟨_, W₁, honce⟩ := retry_ok hloop
  obtain ⟨rootHash, newHash, cur, past, refTime, createdAt, newRoot, sRef, sPast, sCopy, sPut, h⟩ :=
    cpOnce_true hwhen honce
  refine ⟨rootHash, sRef, refTime, newHash, h.current, h.time, h.published, fun hhist => ?_⟩
  obtain ⟨hcur, hpast, hnew, hiff⟩ := h.copied_iff hinj hhist
  exact ⟨cur, past, _, hcur, hpast, hnew, hiff⟩

end Command

section Small

def filesA : List DirEnt := [file (ascii "a")]

def filesAB : List DirEnt := [file (ascii "a"), file (ascii "b")]

def filesAC : List DirEnt := [file (ascii "a"), file (ascii "c")]

/-- The chunk of a ref. -/
def refChunk (r : Ref) : Bytes := 0 :: r.encode

theorem tree_refChunk {sha256 : Bytes → Hash} {s : List Bytes} {r : Ref} (hmem : refChunk r ∈ s) :
    Tree (Stored sha256 s) ⟨0, sha256 (refChunk r)⟩ r.encode := by
  have hlen : r.encode.length < maxlen := by
    rw [Ref.length_encode, maxlen]
    split <;> omega
  refine ⟨⟨⟨hmem, rfl⟩, hlen⟩, show 0 + 1 < nlevels by decide, ?_⟩
  rw [maxlen] at hlen
  omega

def first : Ref := ⟨1, sumHash (dirChunk 0 filesA), false, Hash.zero⟩

def second (ents : List DirEnt) : Ref := ⟨2, sumHash (dirChunk 0 ents), true, sumHash (refChunk first)⟩

def stored (ents : List DirEnt) : List Bytes :=
  [refChunk (second ents), dirChunk 0 ents, refChunk first, dirChunk 0 filesA]

/-- A server for one client, to whom `-when` is the first ref. -/
def server (ents : List DirEnt) : Server Unit where
  answer
    | .getEpoch, _ => .ok []
    | .getRoot, _ => .ok (some (sumHash (refChunk (second ents))), [])
    | .casRoot _ _ _, _ => .ok true
    | .openStore, _ => .ok ()
    | .closeStore, _ => .ok ()
    | .now, _ => 3
    | .parseWhen _, _ => .ok (1, [])
    | .store _ q, _ => (memStore sumHash q []).1
    | .sweep q, _ => by cases q <;> exact .error .eof
    | .startGC, _ => .error .eof
    | .stopGC, _ => .error .eof
    | .flushStore, _ => .error .eof
    | .openCache, _ => .error .eof
    | .readHost _, _ => .error .eof
  next _ _ := ()
  others _ _ := []

def before (ents : List DirEnt) : World Unit := ⟨stored ents, (), none, none, none⟩

/-- The ref that is published with the files `new`. -/
def third (ents new : List DirEnt) : Ref := ⟨3, sumHash (dirChunk 0 new), true, sumHash (refChunk (second ents))⟩

/-- What the deferred `Close` of `PutRef` writes. -/
def closed (r : Ref) : List Bytes :=
  [1 :: leBytes 8 0 ++ (sumHash (refChunk r)).bytes ++ leBytes 8 72 ++ (sumHash [0]).bytes, [0]]

def after (ents new : List DirEnt) : World Unit :=
  ⟨closed (third ents new) ++ [refChunk (third ents new), dirChunk 0 new] ++ stored ents, (),
    some (sumHash (refChunk (second ents)), stored ents), some 1, some (sumHash (refChunk (third ents new)))⟩

theorem dirTree_files {s : List Bytes} {ents : List DirEnt} (hmem : dirChunk 0 ents ∈ s) (hsmall : Small 0 ents)
    (hnamed : Named ents) (hfiles : ∀ e ∈ ents, e.isDir = false) :
    DirTree (Stored sumHash s) Named (sumHash (dirChunk 0 ents)) := by
  refine .intro (t := ⟨0, _⟩) (folder_dirChunk hmem hsmall) hnamed ?_
  intro e he hdir
  rw [hfiles e he] at hdir
  cases hdir

theorem dirTree_filesA {s : List Bytes} (hmem : dirChunk 0 filesA ∈ s) :
    DirTree (Stored sumHash s) Named (sumHash (dirChunk 0 filesA)) :=
  dirTree_files hmem (by decide +kernel) ⟨by decide, by decide⟩ (by decide)

theorem dirTree_filesAB {s : List Bytes} (hmem : dirChunk 0 filesAB ∈ s) :
    DirTree (Stored sumHash s) Named (sumHash (dirChunk 0 filesAB)) :=
  dirTree_files hmem (by decide +kernel) ⟨by decide, by decide⟩ (by decide)

theorem history_second {ents : List DirEnt}
    (htree : DirTree (Stored sumHash (stored ents)) Named (sumHash (dirChunk 0 ents))) :
    History (Stored sumHash (stored ents)) (sumHash (refChunk (second ents))) := by
  refine .intro (r := second ents) (tree_refChunk (by simp [stored])) htree fun _ => ?_
  exact .intro (r := first) (tree_refChunk (by simp [stored])) (dirTree_filesA (by simp [stored])) nofun

/-- Nothing has changed since, and the copy is all that is new. -/
theorem cp_when_unchanged : ∃ W' rootHash s newHash cur past new,
    exec (serve sumHash (server filesA)) (cp sumHash id (ascii "1") 2 (ascii "/a") (ascii "/c") 1) ()
      (before filesA) = (.ok (), (), W') ∧
    W'.current = some (rootHash, s) ∧ W'.published = some newHash ∧
    refAt sumHash id s rootHash = .ok cur ∧ pastRef sumHash id s 1 2 cur = .ok (some past) ∧
    refAt sumHash id W'.chunks newHash = .ok new ∧
    PastCopied (entAt sumHash id s cur.root) (entAt sumHash id s past.root)
      (entAt sumHash id W'.chunks new.root) (ascii "/a") (ascii "/c") := by
  have hrun : exec (serve sumHash (server filesA))
      (cp sumHash id (ascii "1") 2 (ascii "/a") (ascii "/c") 1) () (before filesA) =
        (.ok (), (), after filesA filesAC) := by
    decide +kernel
  have hcur : refAt sumHash id (stored filesA) (sumHash (refChunk (second filesA))) =
      .ok (second filesA) := by
    decide +kernel
  have hpast : pastRef sumHash id (stored filesA) 1 2 (second filesA) = .ok (some first) := by
    decide +kernel
  have hsrc : entAt sumHash id (stored filesA) first.root (ascii "/a") = .ok (file (ascii "a")) := by
    decide +kernel
  have hdst : entAt sumHash id (stored filesA) first.root (destination (ascii "/a") (ascii "/c")) =
      .error (.format "no such directory: %s" (ascii "c")) := by
    decide +kernel
  obtain ⟨rootHash, s, refTime, newHash, hcurrent, htime, hpublished, hiff⟩ :=
    cp_when_iff (by decide) (injOn_of_list (by decide +kernel)) hrun
  obtain ⟨rfl, rfl⟩ := Prod.mk.inj (Option.some.inj hcurrent)
  obtain rfl := Option.some.inj htime
  obtain ⟨cur, past, new, hcur', hpast', hnew, hiff⟩ := hiff (history_second (dirTree_filesA (by simp [stored])))
  obtain rfl := Except.ok.inj (hcur.symm.trans hcur')
  obtain rfl := Option.some.inj (Except.ok.inj (hpast.symm.trans hpast'))
  refine ⟨_, _, _, newHash, _, _, new, hrun, hcurrent, hpublished, hcur', hpast', hnew, hiff.mpr ⟨?_, ?_⟩⟩
  · constructor
    · intro e he
      rw [hsrc, Except.ok.injEq] at he
      subst he
      decide
    · intro e he
      rw [hsrc, Except.ok.injEq] at he
      subst he
      decide
    · intro e f _ hf
      rw [hdst] at hf
      cases hf
  · exact fun _ _ _ => rfl

/-- `/b` was added after the first ref, and is not in the tree that is published. -/
theorem cp_when_rewinds :
    exec (serve sumHash (server filesAB)) (cp sumHash id (ascii "1") 2 (ascii "/a") (ascii "/c") 1) ()
      (before filesAB) = (.ok (), (), after filesAB filesAC) ∧
    History (Stored sumHash (stored filesAB)) (sumHash (refChunk (second filesAB))) ∧
    Set.InjOn sumHash {c | c ∈ (after filesAB filesAC).chunks} ∧
    refAt sumHash id (stored filesAB) (sumHash (refChunk (second filesAB))) = .ok (second filesAB) ∧
    pastRef sumHash id (stored filesAB) 1 2 (second filesAB) = .ok (some first) ∧
    entAt sumHash id (stored filesAB) (second filesAB).root (ascii "/b") = .ok (file (ascii "b")) ∧
    entAt sumHash id (after filesAB filesAC).chunks (third filesAB filesAC).root (ascii "/b") =
      .error (.format "no such directory: %s" (ascii "b")) ∧
    ¬ PastCopied (entAt sumHash id (stored filesAB) (second filesAB).root)
      (entAt sumHash id (stored filesAB) first.root)
      (entAt sumHash id (after filesAB filesAC).chunks (third filesAB filesAC).root)
      (ascii "/a") (ascii "/c") := by
  have hcur : entAt sumHash id (stored filesAB) (second filesAB).root (ascii "/b") = .ok (file (ascii "b")) := by
    decide +kernel
  have hnew : entAt sumHash id (after filesAB filesAC).chunks (third filesAB filesAC).root (ascii "/b") =
      .error (.format "no such directory: %s" (ascii "b")) := by
    decide +kernel
  refine ⟨by decide +kernel, history_second (dirTree_filesAB (by simp [stored])),
    injOn_of_list (by decide +kernel), by decide +kernel, by decide +kernel, hcur, hnew, fun hcopied => ?_⟩
  have hsame := hcopied.others (ascii "/b") (by decide) (by decide)
  rw [hcur, hnew] at hsame
  cases hsame

end Small

section Revert

variable {sha256 : Bytes → Hash} {room : ℕ → ℕ} {σ : Type} {srv : Server σ} {W W' : World σ} {hash : Hash}

/-- What a revert publishes has the tree of the ref that it goes back to, and comes after the ref that
was current. -/
theorem revert_restores (hinj : Set.InjOn sha256 {c | c ∈ W'.chunks}) (hhist : History (Stored sha256 W.chunks) hash)
    (hrun : exec (serve sha256 srv) (revert sha256 room hash) () W = (.ok (), (), W')) :
    ∃ rootHash s newHash old new, W'.current = some (rootHash, s) ∧ W'.published = some newHash ∧
      refAt sha256 room W.chunks hash = .ok old ∧ refAt sha256 room W'.chunks newHash = .ok new ∧
      new.hasPrev = true ∧ new.prev = rootHash ∧
      ∀ path, entAt sha256 room W'.chunks new.root path = entAt sha256 room W.chunks old.root path := by
  obtain ⟨epoch, _, W₁, hepoch, hrun⟩ := exec_bind_eq_ok _ hrun
  obtain ⟨_, _, W₂, hopen, hrun⟩ := exec_bind_eq_ok _ hrun
  obtain ⟨⟨rootHash, version⟩, _, W₃, hroot, hrun⟩ := exec_bind_eq_ok _ hrun
  have hgrow := grows_trans (grows_trans (exec_serve_grows hepoch) (exec_serve_grows hopen)) (exec_serve_grows hroot)
  have hrest := exec_serve_grows hrun
  obtain ⟨-, rfl⟩ := getRoot_ok hroot
  obtain ⟨old, _, W₄, hget, hrun⟩ := exec_bind_eq_ok _ hrun
  obtain ⟨s₄, hget₁, rfl⟩ := inStore_ok (orDie_ok hget)
  obtain ⟨createdAt, _, W₅, hnow, hrun⟩ := exec_bind_eq_ok _ hrun
  rw [now, exec_send, Prod.mk.injEq, Prod.mk.injEq] at hnow
  obtain ⟨-, -, rfl⟩ := hnow
  obtain ⟨newHash, _, W₆, hput, hrun⟩ := exec_bind_eq_ok _ hrun
  obtain ⟨s₆, hput₁, rfl⟩ := storeRef_ok (orDie_ok hput)
  have hlast := exec_serve_grows hrun
  obtain ⟨_, _, W₇, hclose, hrun⟩ := exec_bind_eq_ok _ hrun
  have hclose₁ := orDie_ok hclose
  rw [exec_send, Prod.mk.injEq, Prod.mk.injEq] at hclose₁
  obtain ⟨-, -, rfl⟩ := hclose₁
  obtain ⟨ok, _, W₈, hcas, hrun⟩ := exec_bind_eq_ok _ hrun
  cases ok with
  | false => simp [orModified] at hrun
  | true =>
    rw [orModified, if_pos rfl, exec_pure, Prod.mk.injEq, Prod.mk.injEq] at hrun
    obtain ⟨-, -, rfl⟩ := hrun
    obtain ⟨-, hcurrent, -, hpublished⟩ := casRoot_true hcas
    have hinj₃ := injOn_of_grows hrest hinj
    cases hhist with
    | @intro k _ r hr htree hprev =>
      have hold := exec_getRef room (injOn_of_grows hgrow hinj₃) hr
      have hgot := exec_getRef room hinj₃ (hr.mono (stored_grows sha256 hgrow))
      rw [hget₁, Prod.mk.injEq, Prod.mk.injEq, Except.ok.injEq] at hgot
      obtain ⟨rfl, -, rfl⟩ := hgot
      obtain ⟨ws, k', -, hnew⟩ := putRef_ok hput₁
      have hread := exec_getRef room hinj (hnew.mono (stored_grows sha256 hlast))
      exact ⟨_, _, _, _, _, hcurrent, hpublished, congrArg Prod.fst hold, congrArg Prod.fst hread, rfl, rfl,
        fun path => (walk_later hinj (grows_trans hgrow hrest) htree path).symm⟩

/-- The drive goes back to its first ref. -/
def reverted : Except GoError Unit × Unit × World Unit :=
  exec (serve sumHash (server filesAB)) (revert sumHash id (sumHash (refChunk first))) () (before filesAB)

theorem revert_restores_first : ∃ newHash old new, reverted.1 = .ok () ∧ reverted.2.2.published = some newHash ∧
    refAt sumHash id (stored filesAB) (sumHash (refChunk first)) = .ok old ∧
    refAt sumHash id reverted.2.2.chunks newHash = .ok new ∧
    ∀ path, entAt sumHash id reverted.2.2.chunks new.root path = entAt sumHash id (stored filesAB) old.root path := by
  have hok : reverted.1 = .ok () := by decide +kernel
  have hrun : ∀ x : Except GoError Unit × Unit × World Unit, x.1 = .ok () → x = (.ok (), (), x.2.2) :=
    fun x hx => Prod.ext hx rfl
  have hhist : History (Stored sumHash (stored filesAB)) (sumHash (refChunk first)) :=
    .intro (r := first) (tree_refChunk (by simp [stored])) (dirTree_filesA (by simp [stored])) nofun
  obtain ⟨_, _, newHash, old, new, -, hpublished, hold, hnew, -, -, hsame⟩ :=
    revert_restores (injOn_of_list (by decide +kernel)) hhist (hrun reverted hok)
  exact ⟨newHash, old, new, hok, hpublished, hold, hnew, hsame⟩

end Revert

end Bpy.PastCopies
