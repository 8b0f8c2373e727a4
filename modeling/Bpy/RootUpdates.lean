import Bpy.Commands
import Bpy.RefWrites
import Bpy.Interleaving
import Bpy.TreeInsert

/-!
# No update of the root is lost

Any number of clients run `put`, `mv`, `cp`, `rm`, `mkdir` and `revert` on one drive. Each
reads the root and its version, puts a ref with that root as its `Prev`, and swaps. The
server takes a swap only for the version behind its own, and no version comes twice, so the
`Prev` of the new root is the root that was there. What the clients do to trees does not
matter, only what they are told about the root and what they put as the new ref.
-/
namespace Bpy.RootUpdates
open ByteWords InteractionPrograms ContentStore HashTreeWriter References Directories FileTrees
open ObjectGraph ProgramLogic RefWrites Commands Interleaving TreeInsert Method Function
open List hiding get lookup

section Rules

variable {ω α σ : Type} {T : σ → (q : CmdRequest) → q.Response → σ → Prop} {G : σ → CmdRequest → Prop} {w : ω} {s : σ}

theorem wp_inStore (site : Site) (x : StoreM ω α) (P : Except GoError α → ω → σ → Prop) :
    wp T G (inStore site x) P w s ↔
      wp (fun s q r s' => T s (.store site q) r s') (fun s q => G s (.store site q)) x P w s := by
  rw [wp, wp, inStore]
  generalize x w = p
  induction p generalizing s with
  | done a => rfl
  | call q k ih =>
    exact and_congr_right' (forall_congr' fun r => forall_congr' fun s' => imp_congr_right fun _ => ih r)

theorem wp_catchError {Q : Type} {R : Q → Type} {T : σ → (q : Q) → R q → σ → Prop} {G : σ → Q → Prop}
    {x : Method Q R GoError ω α} {P : Except GoError (Except GoError α) → ω → σ → Prop}
    {P₁ : Except GoError α → ω → σ → Prop} (hx : wp T G x P₁ w s)
    (hpanic : ∀ msg w s, P₁ (.error (.panic msg)) w s → P (.error (.panic msg)) w s)
    (hcaught : ∀ r w s, (∀ msg, r ≠ .error (.panic msg)) → P₁ r w s → P (.ok r) w s) : wp T G (catchError x) P w s := by
  refine wp_seq_attempt hx (fun r w s hr => ?_)
  split
  · exact hpanic _ w s hr
  · next hnot => exact hcaught _ w s hnot hr

theorem wp_orDie {msg : String} {x : CmdM ω α} {P : α → ω → σ → Prop} (hx : wp T G x (onOk P) w s) :
    wp T G (orDie msg x) (onOk P) w s := by
  have hcaught : wp T G (catchError x) (onOk fun r w s => onOk P r w s) w s :=
    wp_catchError hx (fun _ _ _ _ => trivial) (fun _ _ _ _ hr => hr)
  refine wp_seq_ok hcaught (fun r w s hr => ?_)
  cases r with
  | error e => trivial
  | ok a => exact hr

end Rules

/-- What a client has been told since it read the root. -/
inductive Turn where
  | away
  | read (root : Hash) (version : Bytes)
  | made (root : Hash) (version data : Bytes) (hash : Hash)
  /-- a call of `PutRef` has failed -/
  | lost

namespace Turn

def next : Turn → (q : CmdRequest) → q.Response → Turn
  | .lost, _, _ => .lost
  | _, .getRoot, .ok (some root, version) => .read root version
  | .read root version, .store .putRef (.put data), .ok hash => .made root version data hash
  | .read _ _, .store .putRef (.put _), .error _ => .lost
  | _, .casRoot _ _ _, _ => .away
  | t, _, _ => t

/-- A client swaps only to a ref that it has put, with the root that it has read as its `Prev`,
and for the version behind the one that it has read. -/
def allows (sha256 : Bytes → Hash) : Turn → CmdRequest → Prop
  | .lost, _ => True
  | .made root version data hash, .casRoot hash' version' _ => hash' = hash ∧
      version' = nextRootVersion sha256 version ∧
      ∃ ref : Ref, ref.hasPrev = true ∧ ref.prev = root ∧ data = 0 :: ref.encode
  | _, .casRoot _ _ _ => False
  | _, _ => True

end Turn

def turns (sha256 : Bytes → Hash) : Discipline CmdRequest CmdRequest.Response Turn := ⟨Turn.allows sha256, Turn.next⟩

/-- Requests that tell nothing about the root or the new ref. -/
def Quiet : CmdRequest → Prop
  | .getRoot | .casRoot _ _ _ | .store .putRef _ => False
  | _ => True

section Clients

variable {sha256 : Bytes → Hash} {ω α β : Type} {w : ω} {t : Turn} {root : Hash} {version : Bytes}

theorem next_of_quiet {q : CmdRequest} (hq : Quiet q) (t : Turn) (r : q.Response) : t.next q r = t := by
  cases q with
  | store site q =>
    cases site with
    | putRef => exact hq.elim
    | _ => cases q <;> cases t <;> rfl
  | getRoot => exact hq.elim
  | casRoot hash version epoch => exact hq.elim
  | _ => cases t <;> rfl

theorem allows_of_ne {q : CmdRequest} (hq : ∀ hash version epoch, q ≠ .casRoot hash version epoch) (t : Turn) :
    t.allows sha256 q := by
  cases q with
  | casRoot hash version epoch => exact absurd rfl (hq hash version epoch)
  | _ => cases t <;> trivial

variable (sha256) in
abbrev Behaves (x : CmdM ω α) (w : ω) (t : Turn) : Prop := (turns sha256).wp x (fun _ _ _ => True) w t

variable (sha256) in
/-- Nothing is told about the root or the new ref. -/
def Quietly (x : CmdM ω α) : Prop :=
  ∀ w t, (turns sha256).wp x (Method.onOk fun _ _ t' => t' = t) w t

variable {x : CmdM ω α} {f : α → CmdM ω β} {site : Site} {ref : Ref}

theorem Quietly.after (hx : Quietly sha256 x)
    (hf : ∀ a w, Behaves sha256 (f a) w t) : Behaves sha256 (x >>= f) w t := by
  refine wp_seq (hx w t) ?_ (fun _ _ _ _ => trivial)
  rintro a w t' rfl
  exact hf a w

theorem Quietly.bind (hx : Quietly sha256 x) (hf : ∀ a, Quietly sha256 (f a)) : Quietly sha256 (x >>= f) := by
  intro w t
  refine wp_seq_ok (hx w t) ?_
  rintro a w t' rfl
  exact hf a w t'

theorem quietly_send {q : CmdRequest} (hq : Quiet q) (f : q.Response → Except GoError α) :
    Quietly sha256 (Method.send q f : CmdM ω α) := by
  intro w t
  refine wp_send_ok (allows_of_ne ?_ t) (fun r a t' hT _ => hT.trans (next_of_quiet hq t r))
  rintro hash version epoch rfl
  exact hq

theorem Quietly.orDie (hx : Quietly sha256 x) (msg : String) : Quietly sha256 (orDie msg x) :=
  fun w t => wp_orDie (hx w t)

theorem quiet_store (hsite : site ≠ .putRef) (q : StoreRequest) : Quiet (.store site q) := by
  cases site with
  | putRef => exact absurd rfl hsite
  | _ => trivial

/-- Whatever a client does with the store, except for putting the new ref. -/
theorem wp_store (hsite : site ≠ .putRef) {ω' : Type} (x : StoreM ω' α) (w : ω') (t : Turn) :
    wp (fun t q r t' => t' = t.next (.store site q) r) (fun t q => t.allows sha256 (.store site q)) x
      (fun _ _ t' => t' = t) w t := by
  refine Method.wp_inv (I := fun t' => t' = t) (fun t q => allows_of_ne (by simp) t) ?_ x w rfl
  rintro s q r s' rfl hT
  exact hT.trans (next_of_quiet (quiet_store hsite q) s r)

theorem quietly_inStore (hsite : site ≠ .putRef) (x : StoreM ω α) : Quietly sha256 (inStore site x) := by
  intro w t
  rw [Discipline.wp, wp_inStore]
  refine wp_mono (fun r w t' ht => ?_) x w t (wp_store hsite x w t)
  cases r with
  | error e => trivial
  | ok a => exact ht

theorem stays_lost (x : CmdM ω α) (w : ω) : (turns sha256).wp x (fun _ _ t' => t' = .lost) w .lost := by
  have hallows (q : CmdRequest) : (turns sha256).allows .lost q := trivial
  exact Discipline.keeps_of_inert hallows (fun _ _ => rfl) (x w)

theorem behaves_lost (x : CmdM ω α) (w : ω) : Behaves sha256 x w .lost :=
  Discipline.wp_mono (stays_lost x w) (fun _ _ _ _ => trivial)

theorem behaves_getRoot {f : Hash × Bytes → CmdM ω α}
    (hf : ∀ root version w, Behaves sha256 (f (root, version)) w (.read root version)) :
    Behaves sha256 (getRoot >>= f) w t := by
  have hsend : (turns sha256).wp (orDie "error fetching root hash: %s\n" (Method.send .getRoot id) : CmdM ω _)
      (onOk fun a _ t' => t' = t.next .getRoot (.ok a)) w t := by
    refine wp_orDie (wp_send_ok (allows_of_ne (by simp) t) (fun r a t' hT hr => ?_))
    rw [id_eq] at hr
    subst hr
    exact hT
  have hroot : (turns sha256).wp (getRoot : CmdM ω _) (onOk fun x _ t' => t' = .lost ∨ t' = .read x.1 x.2) w t := by
    refine wp_seq_ok hsend ?_
    rintro ⟨r, v⟩ w t' rfl
    cases r with
    | none => trivial
    | some root =>
      cases t with
      | lost => exact .inl rfl
      | _ => exact .inr rfl
  refine wp_seq hroot ?_ (fun _ _ _ _ => trivial)
  rintro ⟨root, version⟩ w t' (rfl | rfl)
  · exact behaves_lost _ w
  · exact hf root version w

variable (root version) in
/-- The ref has been put and has the hash, or it was not put. -/
def Ready (ref : Ref) (hash : Hash) (t : Turn) : Prop := t = .lost ∨ t = .made root version (0 :: ref.encode) hash

theorem wp_deferredClose (wr : Writer) (w : ω) (t : Turn) : (turns sha256).wp (inStore .deferred (deferredClose wr))
      (fun r _ t' => t' = t ∧ ∀ e, r = .error e → ∃ msg, e = .panic msg) w t := by
  rw [Discipline.wp, wp_inStore, deferredClose]
  rw [wp_bind, wp_on]
  refine wp_catchError (wp_store (by decide) close wr t) ?_ ?_
  · intro msg _ t' ht
    exact ⟨ht, fun e he => ⟨msg, by cases he; rfl⟩⟩
  · intro r _ t' _ ht
    exact ⟨ht, by simp⟩

theorem wp_storeRef (ref : Ref) (w : ω) :
    (turns sha256).wp (storeRef ref) (fun r _ t' => t' = .lost ∨ ∃ hash, Ready root version ref hash t' ∧
      (r = .ok hash ∨ ∃ msg, r = .error (.panic msg))) w (.read root version) := by
  have hstart : (turns sha256).wp (inStore .putRef (startRef ref) : CmdM ω _)
      (fun r _ t' => t' = .lost ∨ ∃ hash wr, r = .ok (.ok hash, wr) ∧ Ready root version ref hash t') w
      (.read root version) := by
    rw [Discipline.wp, wp_inStore, startRef, wp_on, wp_attempt]
    refine wp_writeRef_leaf ref trivial (fun r t' hT => ⟨?_, ?_⟩)
    · rintro e rfl
      exact .inl hT
    · rintro hash rfl
      exact .inr ⟨hash, _, rfl, .inr hT⟩
  unfold storeRef
  generalize inStore .putRef (startRef ref) = x at hstart ⊢
  refine wp_seq hstart ?_ ?_
  · rintro ⟨r, wr⟩ w t' (rfl | ⟨hash, wr', hr, hready⟩)
    · exact Discipline.wp_mono (stays_lost _ w) (fun _ _ _ h => .inl h)
    · cases hr
      refine wp_seq (wp_deferredClose wr w t') ?_ ?_
      · rintro - w t'' ⟨rfl, -⟩
        exact .inr ⟨hash, hready, .inl rfl⟩
      · rintro e w t'' ⟨rfl, he⟩
        obtain ⟨msg, rfl⟩ := he e rfl
        exact .inr ⟨hash, hready, .inr ⟨msg, rfl⟩⟩
  · rintro e w t' (rfl | ⟨hash, wr, hr, -⟩)
    · exact .inl rfl
    · cases hr

variable (sha256 root version) in
/-- A way to put the new ref. -/
structure Puts (ref : Ref) (x : CmdM ω Hash) : Prop where
  ready : ∀ w, (turns sha256).wp x (Method.onOk fun hash _ t' => Ready root version ref hash t') w (.read root version)

theorem puts_storeRef (ref : Ref) : Puts (ω := ω) sha256 root version ref (storeRef ref) := by
  have hstore (w : ω) := @wp_storeRef sha256 ω root version ref w
  generalize storeRef ref = x at hstore ⊢
  refine ⟨fun w => Discipline.wp_mono (hstore w) (fun r w t' hr => ?_)⟩
  cases r with
  | error e => trivial
  | ok hash =>
    rcases hr with rfl | ⟨hash', hready, heq | ⟨msg, heq⟩⟩
    · exact .inl rfl
    · cases heq
      exact hready
    · cases heq

theorem Puts.orDie {x : CmdM ω Hash} (hx : Puts sha256 root version ref x) (msg : String) :
    Puts sha256 root version ref (orDie msg x) :=
  ⟨fun w => wp_orDie (hx.ready w)⟩

/-- The error is dropped, but there is none. -/
theorem puts_unchecked (ref : Ref) : Puts (ω := ω) sha256 root version ref (storeRefUnchecked ref) := by
  have hstore (w : ω) := @wp_storeRef sha256 ω root version ref w
  unfold storeRefUnchecked
  generalize storeRef ref = x at hstore ⊢
  refine ⟨fun w => ?_⟩
  have hcaught : (turns sha256).wp (catchError x)
      (onOk fun r _ t' => t' = .lost ∨ ∃ hash, r = .ok hash ∧ Ready root version ref hash t') w
      (.read root version) := by
    refine wp_catchError (hstore w) (fun _ _ _ _ => trivial) (fun r w t' hnot hr => ?_)
    rcases hr with hlost | ⟨hash, hready, hok | ⟨msg, herror⟩⟩
    · exact .inl hlost
    · exact .inr ⟨hash, hok, hready⟩
    · exact absurd herror (hnot msg)
  refine wp_seq_ok hcaught (fun r w t' hr => ?_)
  rcases hr with hlost | ⟨hash, hok, hready⟩
  · cases r with
    | error e => exact .inl hlost
    | ok hash => exact .inl hlost
  · rw [hok]
    exact hready

theorem Puts.after {x : CmdM ω Hash} {f : Hash → CmdM ω α} (hx : Puts sha256 root version ref x)
    (hf : ∀ hash w t, Ready root version ref hash t → Behaves sha256 (f hash) w t) :
    Behaves sha256 (x >>= f) w (.read root version) :=
  wp_seq (hx.ready w) hf (fun _ _ _ _ => trivial)

/-- How the commands end. -/
theorem behaves_casRoot {hash : Hash} (ht : Ready root version ref hash t)
    (hprev : ref.hasPrev = true ∧ ref.prev = root) (msg : String) (epoch : Bytes) (w : ω) :
    Behaves sha256 (casRoot sha256 msg hash version epoch) w t := by
  have hsend : (turns sha256).wp (casRoot sha256 msg hash version epoch : CmdM ω Bool)
      (onOk fun _ _ _ => True) w t := by
    refine wp_orDie (wp_send_ok ?_ (fun _ _ _ _ _ => trivial))
    rcases ht with rfl | rfl
    · trivial
    · exact ⟨rfl, rfl, ref, hprev.1, hprev.2, rfl⟩
  exact Discipline.wp_mono hsend (fun _ _ _ _ => trivial)

theorem Behaves.bind (hx : Behaves sha256 x w t)
    (hf : ∀ a w t, Behaves sha256 (f a) w t) : Behaves sha256 (x >>= f) w t :=
  wp_seq hx (fun a w t _ => hf a w t) (fun _ _ _ _ => trivial)

variable {room : ℕ → ℕ}

theorem quietly_now : Quietly (ω := ω) sha256 now := quietly_send (q := .now) trivial _

theorem quietly_getCStore : Quietly (ω := ω) sha256 getCStore := (quietly_send (q := .openStore) trivial _).orDie _

theorem quietly_getEpoch : Quietly (ω := ω) sha256 getEpoch := (quietly_send (q := .getEpoch) trivial _).orDie _

theorem quietly_closeStore (msg : String) : Quietly (ω := ω) sha256 (closeStore msg) :=
  (quietly_send (q := .closeStore) trivial _).orDie _

theorem quietly_fetchRef (hash : Hash) : Quietly (ω := ω) sha256 (fetchRef room hash) :=
  (quietly_inStore (by decide) _).orDie _

theorem quietly_tree (msg : String) (x : StoreM ω α) : Quietly sha256 (orDie msg (inStore .tree x)) :=
  (quietly_inStore (by decide) _).orDie _

theorem quietly_removePaths (paths : List Bytes) (root : Hash) :
    Quietly (ω := ω) sha256 (removePaths room paths root) := by
  induction paths generalizing root with
  | nil => exact fun _ _ => rfl
  | cons p paths ih => exact (quietly_tree _ _).bind (fun ent => ih ent.htree.data)

theorem quietly_refAtWhen (whenArg : Bytes) (history : ℕ) (ref : Ref) :
    Quietly (ω := ω) sha256 (refAtWhen room whenArg history ref) := by
  rw [refAtWhen]
  split
  · exact fun _ _ => rfl
  · refine ((quietly_send (q := .parseWhen whenArg) trivial _).orDie _).bind (fun a => ?_)
    refine Quietly.bind ((quietly_inStore (by decide) _).orDie _) (fun past => ?_)
    cases past with
    | none => exact fun _ _ => trivial
    | some ref => exact fun _ _ => rfl

theorem behaves_retry {once : CmdM ω Bool} (honce : ∀ w t, Behaves sha256 once w t) (rounds : ℕ) (w : ω) (t : Turn) :
    Behaves sha256 (retry once rounds) w t := by
  induction rounds generalizing w t with
  | zero => trivial
  | succ n ih =>
    refine Behaves.bind (honce w t) (fun ok w t => ?_)
    split
    · trivial
    · exact ih w t

theorem behaves_orModified (ok : Bool) (w : ω) (t : Turn) : Behaves sha256 (orModified ok) w t := by
  cases ok <;> trivial

-- the programs below are taken apart by the rules above, not computed
attribute [local irreducible] Discipline.wp

theorem behaves_putOnce (srcPath destPath epoch : Bytes) (w : ω) (t : Turn) :
    Behaves sha256 (putOnce sha256 room srcPath destPath epoch) w t := by
  refine quietly_getCStore.after (fun _ w => behaves_getRoot (fun root version w => ?_))
  refine (quietly_fetchRef root).after (fun ref w => ?_)
  refine ((quietly_send (q := .readHost srcPath) trivial _).orDie _).after (fun src w => ?_)
  refine (quietly_tree _ _).after (fun srcDirEnt w => ?_)
  refine (quietly_tree _ _).after (fun newRootEnt w => ?_)
  refine quietly_now.after (fun createdAt w => ?_)
  refine (puts_unchecked _).after (fun hash w t ht => ?_)
  exact (quietly_closeStore _).after (fun _ w => behaves_casRoot ht ⟨rfl, rfl⟩ _ _ w)

theorem behaves_mvOnce (srcPath destPath epoch : Bytes) (w : ω) (t : Turn) :
    Behaves sha256 (mvOnce sha256 room srcPath destPath epoch) w t := by
  refine quietly_getCStore.after (fun _ w => behaves_getRoot (fun root version w => ?_))
  refine (quietly_fetchRef root).after (fun ref w => ?_)
  refine (quietly_tree _ _).after (fun newRoot w => ?_)
  refine quietly_now.after (fun createdAt w => ?_)
  refine ((puts_storeRef _).orDie _).after (fun hash w t ht => ?_)
  exact (quietly_closeStore _).after (fun _ w => behaves_casRoot ht ⟨rfl, rfl⟩ _ _ w)

theorem behaves_cpOnce (whenArg : Bytes) (history : ℕ) (srcPath destPath epoch : Bytes) (w : ω) (t : Turn) :
    Behaves sha256 (cpOnce sha256 room whenArg history srcPath destPath epoch) w t := by
  refine quietly_getCStore.after (fun _ w => behaves_getRoot (fun root version w => ?_))
  refine (quietly_fetchRef root).after (fun ref w => ?_)
  refine (quietly_refAtWhen whenArg history ref).after (fun ref w => ?_)
  refine (quietly_tree _ _).after (fun newRoot w => ?_)
  refine quietly_now.after (fun createdAt w => ?_)
  refine ((puts_storeRef _).orDie _).after (fun hash w t ht => ?_)
  exact (quietly_closeStore _).after (fun _ w => behaves_casRoot ht ⟨rfl, rfl⟩ _ _ w)

theorem behaves_rmOnce (paths : List Bytes) (epoch : Bytes) (w : ω) (t : Turn) :
    Behaves sha256 (rmOnce sha256 room paths epoch) w t := by
  refine behaves_getRoot (fun root version w => ?_)
  refine (quietly_fetchRef root).after (fun ref w => ?_)
  refine (quietly_removePaths paths ref.root).after (fun newRoot w => ?_)
  refine quietly_now.after (fun createdAt w => ?_)
  refine (puts_unchecked _).after (fun hash w t ht => ?_)
  exact (quietly_closeStore _).after (fun _ w => behaves_casRoot ht ⟨rfl, rfl⟩ _ _ w)

theorem behaves_mkdir (destPath : Bytes) (w : ω) (t : Turn) : Behaves sha256 (mkdir sha256 room destPath) w t := by
  refine quietly_getEpoch.after (fun epoch w => quietly_getCStore.after (fun _ w => ?_))
  refine behaves_getRoot (fun root version w => (quietly_fetchRef root).after (fun ref w => ?_))
  refine (quietly_tree _ _).after (fun emptyDirEnt w => ?_)
  refine (quietly_tree _ _).after (fun newRootEnt w => ?_)
  refine quietly_now.after (fun createdAt w => ?_)
  refine (puts_unchecked _).after (fun hash w t ht => ?_)
  refine (quietly_closeStore _).after (fun _ w => ?_)
  exact (behaves_casRoot ht ⟨rfl, rfl⟩ _ _ w).bind behaves_orModified

theorem behaves_revert (revertToHash : Hash) (w : ω) (t : Turn) :
    Behaves sha256 (revert sha256 room revertToHash) w t := by
  refine quietly_getEpoch.after (fun epoch w => quietly_getCStore.after (fun _ w => ?_))
  refine behaves_getRoot (fun root version w => (quietly_fetchRef revertToHash).after (fun ref w => ?_))
  refine quietly_now.after (fun createdAt w => ?_)
  refine ((puts_storeRef _).orDie _).after (fun hash w t ht => ?_)
  refine (quietly_closeStore _).after (fun _ w => ?_)
  exact (behaves_casRoot ht ⟨rfl, rfl⟩ _ _ w).bind behaves_orModified

end Clients

inductive Command where
  | put (srcPath destPath : Bytes) (rounds : ℕ)
  | mv (srcPath destPath : Bytes) (rounds : ℕ)
  | cp (whenArg : Bytes) (history : ℕ) (srcPath destPath : Bytes) (rounds : ℕ)
  | rm (paths : List Bytes) (rounds : ℕ)
  | mkdir (destPath : Bytes)
  | revert (revertToHash : Hash)

/-- What the server has, and the chunks that have been put. `past` has the versions before
the current one. -/
structure Drive where
  root : Hash
  version : Bytes
  past : List Bytes
  chunks : List Bytes

/-- What is left open when a request is answered: whether the server wants the swap, whether
its reply is lost, and the answers to what is not about the server or the store. -/
structure Choice where
  accepts : Bool
  failure : Option GoError
  answer : (q : CmdRequest) → q.Response

section Server

variable (sha256 : Bytes → Hash) (room : ℕ → ℕ)

def Command.body : Command → CmdM Unit Unit
  | .put srcPath destPath rounds => Commands.put sha256 room srcPath destPath rounds
  | .mv srcPath destPath rounds => Commands.mv sha256 room srcPath destPath rounds
  | .cp whenArg history srcPath destPath rounds => Commands.cp sha256 room whenArg history srcPath destPath rounds
  | .rm paths rounds => Commands.rm sha256 room paths rounds
  | .mkdir destPath => Commands.mkdir sha256 room destPath
  | .revert revertToHash => Commands.revert sha256 room revertToHash

variable {sha256 room} in
attribute [local irreducible] Discipline.wp in
theorem Command.behaves (command : Command) (w : Unit) (t : Turn) : Behaves sha256 (command.body sha256 room) w t := by
  cases command with
  | put srcPath destPath rounds =>
    exact quietly_getEpoch.after (fun epoch w => behaves_retry (behaves_putOnce srcPath destPath epoch) rounds w t)
  | mv srcPath destPath rounds =>
    exact quietly_getEpoch.after (fun epoch w => behaves_retry (behaves_mvOnce srcPath destPath epoch) rounds w t)
  | cp whenArg history srcPath destPath rounds =>
    refine quietly_getEpoch.after (fun epoch w => ?_)
    exact behaves_retry (behaves_cpOnce whenArg history srcPath destPath epoch) rounds w t
  | rm paths rounds =>
    refine quietly_getEpoch.after (fun epoch w => quietly_getCStore.after (fun _ w => ?_))
    exact behaves_retry (behaves_rmOnce paths epoch) rounds w t
  | mkdir destPath => exact behaves_mkdir destPath w t
  | revert revertToHash => exact behaves_revert revertToHash w t

def Choice.reply (c : Choice) (a : α) : Except GoError α :=
  match c.failure with
  | some e => .error e
  | none => .ok a

/-- The server takes a swap only for the version behind its own. Calls of the store do not
fail: `get` waits for the chunk. -/
def serve (c : Choice) (_ : ℕ) : (q : CmdRequest) → Drive → Option (q.Response × Drive)
  | .getRoot, d => some (c.reply (some d.root, d.version), d)
  | .casRoot hash version _, d =>
    if version = nextRootVersion sha256 d.version ∧ c.accepts = true then
      some (c.reply true, ⟨hash, version, d.version :: d.past, d.chunks⟩)
    else some (c.reply false, d)
  | .store _ (.put data), d => some (.ok (sha256 data), { d with chunks := data :: d.chunks })
  | .store _ (.get hash), d => (lookup sha256 d.chunks hash).map fun data => (.ok data, d)
  | q, d => some (c.answer q, d)

def system : System Command CmdRequest CmdRequest.Response Choice Empty (Except GoError Unit × Unit) Drive where
  prog command := command.body sha256 room ()
  mayStart _ _ := true
  act := serve sha256
  env e := e.elim

end Server

abbrev RootEvent := Event Command CmdRequest CmdRequest.Response Choice Empty

/-- The hash of a swap that was acknowledged. -/
def acked : RootEvent → Option Hash
  | .act _ _ (.casRoot hash _ _) (.ok true) => some hash
  | _ => none

/-- The refs of the commands whose swap was acknowledged, the latest first. -/
def acks (past : List RootEvent) : List Hash := past.filterMap acked

/-- The list of refs from a root back to the first one. A ref is one chunk. -/
inductive PrevChain (stored : Hash → Bytes → Prop) : Hash → List Hash → Prop
  | first {hash : Hash} {ref : Ref} (hstored : stored hash (0 :: ref.encode)) (hprev : ref.hasPrev = false) :
    PrevChain stored hash [hash]
  | next {hash : Hash} {ref : Ref} {l : List Hash} (hstored : stored hash (0 :: ref.encode))
    (hprev : ref.hasPrev = true) (hl : PrevChain stored ref.prev l) : PrevChain stored hash (hash :: l)

namespace PrevChain

variable {stored stored' : Hash → Bytes → Prop} {hash : Hash} {l l' : List Hash}

theorem mono (h : PrevChain stored hash l) (hst : ∀ h c, stored h c → stored' h c) : PrevChain stored' hash l := by
  induction h with
  | first hstored hprev => exact .first (hst _ _ hstored) hprev
  | next hstored hprev _ ih => exact .next (hst _ _ hstored) hprev ih

theorem ref_unique (hf : Functional stored) {ref ref' : Ref} (h : stored hash (0 :: ref.encode))
    (h' : stored hash (0 :: ref'.encode)) : ref.norm = ref'.norm := by
  have hencode : ref.encode = ref'.encode := tail_eq_of_cons_eq (hf _ _ _ h h')
  have hdecode := Ref.decode_encode ref
  rw [hencode, Ref.decode_encode] at hdecode
  exact (Except.ok.inj hdecode).symm

theorem unique (hf : Functional stored) (h : PrevChain stored hash l) (h' : PrevChain stored hash l') : l = l' := by
  induction h generalizing l' with
  | first hstored hprev =>
    cases h' with
    | first => rfl
    | next hstored' hprev' _ =>
      have heq := congrArg Ref.hasPrev (ref_unique hf hstored hstored')
      exact absurd (hprev.symm.trans (heq.trans hprev')) (by decide)
  | next hstored hprev _ ih =>
    cases h' with
    | first hstored' hprev' =>
      have heq := congrArg Ref.hasPrev (ref_unique hf hstored hstored')
      exact absurd (hprev.symm.trans (heq.trans hprev')) (by decide)
    | next hstored' hprev' hl' =>
      have heq := congrArg Ref.prev (ref_unique hf hstored hstored')
      rw [Ref.norm, Ref.norm, if_pos hprev, if_pos hprev'] at heq
      rw [ih (heq ▸ hl')]

/-- Every ref of the list starts the rest of the list. -/
theorem suffix_of_mem (h : PrevChain stored hash l) {hash' : Hash} (hmem : hash' ∈ l) :
    ∃ l', PrevChain stored hash' l' ∧ l' <:+ l := by
  induction h with
  | first hstored hprev =>
    rw [mem_singleton] at hmem
    subst hmem
    exact ⟨_, .first hstored hprev, suffix_rfl⟩
  | next hstored hprev hl ih =>
    rcases mem_cons.mp hmem with rfl | hmem
    · exact ⟨_, .next hstored hprev hl, suffix_rfl⟩
    · obtain ⟨l', hl', hsuffix⟩ := ih hmem
      exact ⟨l', hl', hsuffix.trans (suffix_cons _ _)⟩

theorem nodup (hf : Functional stored) (h : PrevChain stored hash l) : l.Nodup := by
  induction h with
  | first => exact nodup_singleton _
  | next hstored hprev hl ih =>
    refine nodup_cons.mpr ⟨fun hmem => ?_, ih⟩
    -- a ref that is in its own past would have two lists of different lengths
    obtain ⟨l', hl', hsuffix⟩ := hl.suffix_of_mem hmem
    have hlength := congrArg length (unique hf (.next hstored hprev hl) hl')
    rw [length_cons] at hlength
    have hle := hsuffix.length_le
    omega

end PrevChain

section Runs

variable {sha256 : Bytes → Hash} {room : ℕ → ℕ}

variable (sha256) in
/-- The root is the current one, or the version behind it is taken. -/
def Current (d : Drive) (root : Hash) (version : Bytes) : Prop :=
  version = d.version ∧ root = d.root ∨ nextRootVersion sha256 version ∈ d.version :: d.past

variable (sha256) in
def Fine (d : Drive) : Turn → Prop
  | .away => True
  | .read root version => Current sha256 d root version
  | .made root version data hash => Current sha256 d root version ∧ Stored sha256 d.chunks hash data
  | .lost => False

variable (sha256) in
/-- `l₀` is the history of the drive at the start. -/
structure Kept (l₀ : List Hash)
    (v : View Command CmdRequest CmdRequest.Response Choice Empty Drive Turn) : Prop where
  fine : ∀ i op t, v.phases i = some (op, t) → Fine sha256 v.shared t
  chain : ∃ l, PrevChain (Stored sha256 v.shared.chunks) v.shared.root (l ++ l₀) ∧ (acks v.past).Sublist l

variable (sha256) in
/-- The invariant, as long as no version has come twice. -/
def Invar (l₀ : List Hash) (v : View Command CmdRequest CmdRequest.Response Choice Empty Drive Turn) : Prop :=
  (v.shared.version :: v.shared.past).Nodup → Kept sha256 l₀ v

variable {d : Drive} {l₀ : List Hash} {t : Turn}
  {v : View Command CmdRequest CmdRequest.Response Choice Empty Drive Turn}

theorem Current.swap {root : Hash} {version : Bytes} (h : Current sha256 d root version) (hash : Hash) :
    Current sha256 ⟨hash, nextRootVersion sha256 d.version, d.version :: d.past, d.chunks⟩ root version := by
  rcases h with ⟨rfl, -⟩ | hmem
  · exact .inr mem_cons_self
  · exact .inr (mem_cons_of_mem _ hmem)

theorem Fine.swap (h : Fine sha256 d t) (hash : Hash) :
    Fine sha256 ⟨hash, nextRootVersion sha256 d.version, d.version :: d.past, d.chunks⟩ t := by
  cases t with
  | away => trivial
  | read root version => exact Current.swap h hash
  | made root version data hash' => exact ⟨Current.swap h.1 hash, h.2⟩
  | lost => exact h

theorem Fine.put (h : Fine sha256 d t) (data : Bytes) : Fine sha256 { d with chunks := data :: d.chunks } t := by
  cases t with
  | made root version data' hash => exact ⟨h.1, h.2.append [data]⟩
  | _ => exact h

variable {i : ℕ} {op : Command} {c : Choice}

/-- A step of a client, by what it does to the client's turn, the drive and the refs that
were acknowledged. -/
theorem Kept.step {t' : Turn} {d' : Drive} {past : List RootEvent} (h : Kept sha256 l₀ v)
    (hfine : ∀ t, Fine sha256 v.shared t → Fine sha256 d' t) (ht : Fine sha256 d' t')
    (hchain : ∃ l, PrevChain (Stored sha256 d'.chunks) d'.root (l ++ l₀) ∧ (acks past).Sublist l) :
    Kept sha256 l₀ ⟨update v.phases i (some (op, t')), d', past⟩ := by
  refine ⟨fun j op' t'' (hj : update v.phases i (some (op, t')) j = some (op', t'')) => ?_, hchain⟩
  by_cases hij : j = i
  · rw [hij, update_self] at hj
    cases hj
    exact ht
  · rw [update_of_ne hij] at hj
    exact hfine _ (h.fine j op' t'' hj)

theorem acks_cons_of_none {ev : RootEvent} (h : acked ev = none) (past : List RootEvent) :
    acks (ev :: past) = acks past := filterMap_cons_none h

/-- A swap that the server took. -/
theorem Kept.swap {hash : Hash} {version epoch : Bytes} (h : Kept sha256 l₀ v)
    (hi : v.phases i = some (op, t)) (hallows : t.allows sha256 (.casRoot hash version epoch))
    (hversion : version = nextRootVersion sha256 v.shared.version)
    (hnew : version ∉ v.shared.version :: v.shared.past) :
    Kept sha256 l₀ ⟨update v.phases i (some (op, t.next (.casRoot hash version epoch) (c.reply true))),
      ⟨hash, version, v.shared.version :: v.shared.past, v.shared.chunks⟩,
      .act i c (.casRoot hash version epoch) (c.reply true) :: v.past⟩ := by
  have ht := h.fine i op t hi
  obtain ⟨l, hl, hacks⟩ := h.chain
  cases t with
  | away => exact hallows.elim
  | read root version' => exact hallows.elim
  | lost => exact ht.elim
  | made root version' data hash' =>
    obtain ⟨rfl, hversion', ref, hhas, hprev, rfl⟩ := hallows
    have hroot : ref.prev = v.shared.root := by
      rcases ht.1 with ⟨-, hroot⟩ | hmem
      · exact hprev.trans hroot
      · exact absurd (hversion' ▸ hmem) hnew
    have hchain : PrevChain (Stored sha256 v.shared.chunks) hash (hash :: l ++ l₀) := .next ht.2 hhas (hroot ▸ hl)
    subst hversion
    refine h.step (fun t ht => ht.swap hash) (show Fine sha256 _ .away from trivial) ⟨_, hchain, ?_⟩
    rw [Choice.reply]
    split
    · rw [acks_cons_of_none rfl]
      exact hacks.cons hash
    · exact hacks.cons_cons hash

/-- A request that leaves the root alone. -/
theorem Kept.other {q : CmdRequest} {r : q.Response} (h : Kept sha256 l₀ v)
    (ht : Fine sha256 v.shared (t.next q r)) (hacked : acked (.act i c q r) = none) :
    Kept sha256 l₀ ⟨update v.phases i (some (op, t.next q r)), v.shared, .act i c q r :: v.past⟩ := by
  refine h.step (fun _ ht => ht) ht ?_
  rw [acks_cons_of_none hacked]
  exact h.chain

theorem Fine.getRoot (h : Fine sha256 d t) (c : Choice) :
    Fine sha256 d (t.next .getRoot (c.reply (some d.root, d.version))) := by
  rw [Choice.reply]
  split
  · cases t <;> exact h
  · cases t with
    | lost => exact h.elim
    | _ => exact .inl ⟨rfl, rfl⟩

theorem Fine.casRoot (h : Fine sha256 d t) (hash : Hash) (version epoch : Bytes) (r : Except GoError Bool) :
    Fine sha256 d (t.next (.casRoot hash version epoch) r) := by
  cases t with
  | lost => exact h
  | _ => trivial

theorem Kept.put (h : Kept sha256 l₀ v) (hi : v.phases i = some (op, t))
    (site : Site) (data : Bytes) :
    Kept sha256 l₀ ⟨update v.phases i (some (op, t.next (.store site (.put data)) (.ok (sha256 data)))),
      { v.shared with chunks := data :: v.shared.chunks },
      .act i c (.store site (.put data)) (.ok (sha256 data)) :: v.past⟩ := by
  refine h.step (fun t ht => ht.put data) ?_ ?_
  · have ht := (h.fine i op t hi).put data
    cases t with
    | read root version =>
      cases site with
      | putRef => exact ⟨ht, Stored.head data⟩
      | _ => exact ht
    | _ => cases site <;> exact ht
  · obtain ⟨l, hl, hacks⟩ := h.chain
    exact ⟨l, hl.mono (stored_grows sha256 ⟨[data], rfl⟩), hacks⟩

theorem invar_act {q : CmdRequest} {r : q.Response} (hv : Invar sha256 l₀ v)
    (hi : v.phases i = some (op, t)) (hallows : t.allows sha256 q) (hact : serve sha256 c i q v.shared = some (r, d)) :
    Invar sha256 l₀ ⟨update v.phases i (some (op, t.next q r)), d, .act i c q r :: v.past⟩ := by
  intro hnodup
  cases q with
  | getRoot =>
    cases hact
    exact (hv hnodup).other (((hv hnodup).fine i op t hi).getRoot c) (by rw [acked]; nofun)
  | casRoot hash version epoch =>
    rw [serve] at hact
    split at hact
    · next htaken =>
      cases hact
      obtain ⟨hnew, hpast⟩ := nodup_cons.mp hnodup
      exact (hv hpast).swap hi hallows htaken.1 hnew
    · cases hact
      refine (hv hnodup).other (((hv hnodup).fine i op t hi).casRoot hash version epoch _) ?_
      rw [Choice.reply]
      cases c.failure <;> rfl
  | store site q =>
    cases q with
    | put data =>
      cases hact
      exact (hv hnodup).put hi site data
    | get hash =>
      rw [serve, Option.map_eq_some_iff] at hact
      obtain ⟨data, -, hact⟩ := hact
      cases hact
      refine (hv hnodup).other ?_ rfl
      have ht := (hv hnodup).fine i op t hi
      cases t <;> cases site <;> exact ht
  | _ =>
    cases hact
    refine (hv hnodup).other ?_ rfl
    rw [next_of_quiet]
    · exact (hv hnodup).fine i op t hi
    · trivial

variable (sha256 room l₀) in
theorem invariant : Discipline.Invariant (system sha256 room) (turns sha256) (fun _ => .away) (fun _ _ _ => True)
    (fun _ _ _ => True) (Invar sha256 l₀) where
  start hv _ _ _ _ := fun hnodup =>
    (hv hnodup).step (fun _ ht => ht) (show Fine sha256 _ .away from trivial) (hv hnodup).chain
  act hv hi hallows hact _ := invar_act hv hi hallows hact
  env {_ e _} := e.elim

/-- No update is lost: after any run of any number of commands, the chain from the root goes
back to the refs of the start through the ref of every command whose swap was acknowledged,
once each and in the order of the swaps. -/
theorem no_lost_update (hd : PrevChain (Stored sha256 d.chunks) d.root l₀) {ls : List (Label Command Choice Empty)}
    {p : Pool Command CmdRequest CmdRequest.Response Choice Empty (Except GoError Unit × Unit) Drive}
    (hrun : run (system sha256 room) ls ⟨fun _ => none, d, []⟩ = some p)
    (hversions : (p.shared.version :: p.shared.past).Nodup) (hinj : Set.InjOn sha256 {c | c ∈ p.shared.chunks}) :
    ∃ l, PrevChain (Stored sha256 p.shared.chunks) p.shared.root (l ++ l₀) ∧
      (∀ l', PrevChain (Stored sha256 p.shared.chunks) p.shared.root l' → l' = l ++ l₀) ∧
      (l ++ l₀).Nodup ∧ (acks p.past).Sublist l := by
  have hstart : Invar sha256 l₀ ⟨fun _ => none, d, []⟩ :=
    fun _ => ⟨fun _ _ _ h => (nomatch h), [], hd, List.Sublist.refl _⟩
  obtain ⟨v, hview, hv⟩ := (invariant sha256 room l₀).of_run (fun command => command.behaves () .away)
    ⟨_, ⟨fun _ => .unused, rfl, rfl⟩, hstart⟩ (careful_true ls _) hrun
  rw [← hview.shared] at hversions hinj ⊢
  rw [← hview.past]
  obtain ⟨l, hl, hacks⟩ := (hv hversions).chain
  have hf := functional_stored hinj
  exact ⟨l, hl, fun l' hl' => hl'.unique hf hl, hl.nodup hf, hacks⟩

end Runs

section Race

def calm : (q : CmdRequest) → q.Response
  | .getEpoch | .startGC => .ok []
  | .openStore | .flushStore | .closeStore | .openCache | .stopGC => .ok ()
  | .now => 0
  | .getRoot | .casRoot _ _ _ | .store _ (.put _) | .store _ (.get _) | .readHost _ | .parseWhen _ => .error .eof
  | .sweep .listPacks | .sweep (.readIndex _) | .sweep (.readAt _ _ _) | .sweep (.getRaw _)
  | .sweep (.putRaw _ _) | .sweep .randomFileName | .sweep (.newPack _) | .sweep (.initPack _)
  | .sweep (.writePack _ _) | .sweep (.closePack _ _) | .sweep (.remove _ _) => .error .eof

def firstRef : Bytes := 0 :: Ref.zero.encode

def firstDrive : Drive := ⟨sumHash firstRef, [], [], [firstRef]⟩

/-- Two clients read the same root. The first one swaps, and the second one has to try again. -/
def race : List (Label Command Choice Empty) :=
  .start 0 (.rm [] 1) :: .start 1 (.rm [] 2) ::
    (List.replicate 3 0 ++ List.replicate 3 1 ++ List.replicate 7 0 ++ List.replicate 15 1).map
      (fun i => .act i ⟨true, none, calm⟩)

theorem no_lost_update_race :
    ∃ p, run (system sumHash id) race ⟨fun _ => none, firstDrive, []⟩ = some p ∧ (acks p.past).length = 2 ∧
      ∃ l, PrevChain (Stored sumHash p.shared.chunks) p.shared.root (l ++ [firstDrive.root]) ∧
        (∀ l', PrevChain (Stored sumHash p.shared.chunks) p.shared.root l' → l' = l ++ [firstDrive.root]) ∧
        (l ++ [firstDrive.root]).Nodup ∧ (acks p.past).Sublist l := by
  have hchecked : (run (system sumHash id) race ⟨fun _ => none, firstDrive, []⟩).any (fun p =>
      decide ((acks p.past).length = 2 ∧ (p.shared.version :: p.shared.past).Nodup ∧
        ∀ a ∈ p.shared.chunks, ∀ b ∈ p.shared.chunks, sumHash a = sumHash b → a = b)) = true := by
    decide +kernel
  generalize hrun : run (system sumHash id) race ⟨fun _ => none, firstDrive, []⟩ = finished at hchecked
  cases finished with
  | none => cases hchecked
  | some p =>
    obtain ⟨hacks, hversions, hinj⟩ := of_decide_eq_true hchecked
    have hstored : Stored sumHash firstDrive.chunks firstDrive.root (0 :: Ref.zero.encode) := ⟨List.mem_cons_self, rfl⟩
    exact ⟨p, rfl, hacks, no_lost_update (.first hstored rfl) hrun hversions (injOn_of_list hinj)⟩

end Race

end Bpy.RootUpdates
