import Mathlib.Tactic.IntervalCases
import Bpy.References

/-!
# Histories of refs

A history is a sequence of refs, oldest first, in which every ref but the first has the hash
of the one before. `GetAtTime` and `GetNVersionsAgo` walk back from the last ref. `GetRef`
returns `Ref{}` and no error for a ref that it cannot read, and so the walks end there.
-/
namespace Bpy.RefHistories
open ByteWords InteractionPrograms ContentStore HashTreeWriter HashTreeReader
open HashTreeReading HashTreeStreams References Method

/-- The refs `r 0, …, r m`, where `h i` is the hash of `r i`. -/
structure Linked (r : ℕ → Ref) (h : ℕ → Hash) (m : ℕ) : Prop where
  first : (r 0).hasPrev = false ∧ (r 0).prev = Hash.zero
  next : ∀ i < m, (r (i + 1)).hasPrev = true ∧ (r (i + 1)).prev = h i

variable {r : ℕ → Ref} {h : ℕ → Hash} {m : ℕ} {room : ℕ → ℕ} {σ : Type} {hd : Handler σ}

section Walks

variable {I : σ → Prop} {s : σ}

theorem Linked.norm (hl : Linked r h m) {i : ℕ} (hi : i ≤ m) : (r i).norm = r i := by
  cases i with
  | zero =>
    obtain ⟨hp, hz⟩ := hl.first
    rw [Ref.norm, if_neg (by rw [hp]; exact Bool.false_ne_true), ← hz]
  | succ i =>
    obtain ⟨hp, -⟩ := hl.next i hi
    rw [Ref.norm, if_pos hp]

theorem Linked.shorter (hl : Linked r h (m + 1)) : Linked r h m :=
  ⟨hl.first, fun i hi => hl.next i (by omega)⟩

/-- The chunk cannot be read. -/
def Fails (hd : Handler σ) (x : Hash) (s : σ) : Prop := ∃ e, (hd (.get x) s).1 = .error e

/-- What `GetRef` returns for the refs of the history, in the states of `I`. -/
structure Answers (hd : Handler σ) (room : ℕ → ℕ) (I : σ → Prop) (r : ℕ → Ref) (h : ℕ → Hash) (m : ℕ) : Prop where
  keeps : ∀ {i s}, i ≤ m → I s → I (hd (.get (h i)) s).2
  reads : ∀ {i s}, i ≤ m → I s → ¬ Fails hd (h i) s →
    exec hd (getRef room (h i)) () s = (.ok (r i), (), (hd (.get (h i)) s).2)
  misses : ∀ {i s}, i ≤ m → I s → Fails hd (h i) s →
    exec hd (getRef room (h i)) () s = (.ok Ref.zero, (), (hd (.get (h i)) s).2)

theorem Answers.shorter (ha : Answers hd room I r h (m + 1)) : Answers hd room I r h m :=
  ⟨fun hi => ha.keeps (by omega), fun hi => ha.reads (by omega), fun hi => ha.misses (by omega)⟩

/-- The newest of the refs `r 0, …, r m` that is not younger than `t`. -/
def newestAt (r : ℕ → Ref) (t : Int64) : ℕ → Option Ref
  | 0 => if (r 0).createdAt ≤ t then some (r 0) else none
  | m + 1 => if (r (m + 1)).createdAt ≤ t then some (r (m + 1)) else newestAt r t m

theorem newestAt_eq_some {t : Int64} {ref : Ref} : newestAt r t m = some ref ↔
    ∃ i ≤ m, ref = r i ∧ (r i).createdAt ≤ t ∧ ∀ j, i < j → j ≤ m → ¬ (r j).createdAt ≤ t := by
  induction m with
  | zero =>
    rw [newestAt]
    split
    · next hle =>
      refine ⟨fun heq => ⟨0, le_rfl, (Option.some.inj heq).symm, hle, fun j h0 hj => by omega⟩, ?_⟩
      rintro ⟨i, hi, rfl, -⟩
      rw [Nat.le_zero.mp hi]
    · next hlt =>
      refine ⟨nofun, ?_⟩
      rintro ⟨i, hi, -, hle, -⟩
      rw [Nat.le_zero.mp hi] at hle
      exact absurd hle hlt
  | succ m ih =>
    rw [newestAt]
    split
    · next hle =>
      refine ⟨fun heq => ⟨m + 1, le_rfl, (Option.some.inj heq).symm, hle, fun j h0 hj => by omega⟩, ?_⟩
      rintro ⟨i, hi, rfl, -, hlater⟩
      by_cases him : i = m + 1
      · rw [him]
      · exact absurd hle (hlater (m + 1) (by omega) le_rfl)
    · next hlt =>
      rw [ih]
      constructor
      · rintro ⟨i, hi, rfl, hle, hlater⟩
        refine ⟨i, by omega, rfl, hle, fun j hij hj => ?_⟩
        by_cases hjm : j = m + 1
        · rw [hjm]
          exact hlt
        · exact hlater j hij (by omega)
      · rintro ⟨i, hi, rfl, hle, hlater⟩
        have him : i ≠ m + 1 := by
          rintro rfl
          exact hlt hle
        exact ⟨i, by omega, rfl, hle, fun j hij hj => hlater j hij (by omega)⟩

theorem newestAt_eq_none {t : Int64} : newestAt r t m = none ↔ ∀ i ≤ m, ¬ (r i).createdAt ≤ t := by
  induction m with
  | zero => simp [newestAt]
  | succ m ih =>
    rw [newestAt]
    split
    · next hle => exact ⟨nofun, fun hall => absurd hle (hall (m + 1) le_rfl)⟩
    · next hlt =>
      rw [ih]
      refine ⟨fun hall i hi => ?_, fun hall i hi => hall i (by omega)⟩
      by_cases him : i = m + 1
      · rw [him]
        exact hlt
      · exact hall i (by omega)

/-- The refs that `GetAtTime` has to read before it finds its answer. -/
def soughtAt (r : ℕ → Ref) (t : Int64) : ℕ → List ℕ
  | 0 => []
  | m + 1 => if (r (m + 1)).createdAt ≤ t then [] else m :: soughtAt r t m

/-- The refs that `GetNVersionsAgo` has to read. -/
def soughtAgo : ℕ → ℕ → List ℕ
  | n + 1, m + 1 => m :: soughtAgo n m
  | _, _ => []

/-- One of the refs cannot be read when its turn comes. -/
def Misses (hd : Handler σ) (h : ℕ → Hash) : List ℕ → σ → Prop
  | [], _ => False
  | i :: is, s => Fails hd (h i) s ∨ Misses hd h is (hd (.get (h i)) s).2

/-- `Ref{}` is taken for a ref of the year 1970. -/
def zeroAt (t : Int64) : Option Ref := if Ref.zero.createdAt ≤ t then some Ref.zero else none

theorem exec_getAtTime_zero (t : Int64) {rounds : ℕ} (hrounds : 0 < rounds) (s : σ) :
    exec hd (getAtTime room t rounds Ref.zero) () s = (.ok (zeroAt t), (), s) := by
  obtain ⟨rounds, rfl⟩ : ∃ k, rounds = k + 1 := ⟨rounds - 1, by omega⟩
  rw [getAtTime, zeroAt]
  split <;> rfl

theorem exec_getAtTime (ha : Answers hd room I r h m) (hl : Linked r h m) (hs : I s) (t : Int64) {rounds : ℕ}
    (hrounds : m < rounds) : ∃ s',
    (¬ Misses hd h (soughtAt r t m) s →
      exec hd (getAtTime room t rounds (r m)) () s = (.ok (newestAt r t m), (), s')) ∧
    (Misses hd h (soughtAt r t m) s → exec hd (getAtTime room t rounds (r m)) () s = (.ok (zeroAt t), (), s')) := by
  induction m generalizing rounds s with
  | zero =>
    obtain ⟨rounds, rfl⟩ : ∃ k, rounds = k + 1 := ⟨rounds - 1, by omega⟩
    refine ⟨s, fun _ => ?_, fun hmiss => hmiss.elim⟩
    have hp : ¬ (r 0).hasPrev = true := by rw [hl.first.1]; exact nofun
    rw [getAtTime, newestAt, if_neg hp]
    split <;> rfl
  | succ m ih =>
    obtain ⟨rounds, rfl⟩ : ∃ k, rounds = k + 1 := ⟨rounds - 1, by omega⟩
    obtain ⟨hp, hprev⟩ := hl.next m (Nat.lt_succ_self m)
    by_cases htime : (r (m + 1)).createdAt ≤ t
    · refine ⟨s, fun _ => ?_, fun hmiss => ?_⟩
      · rw [getAtTime, newestAt, if_pos htime, if_pos htime]
        rfl
      · rw [soughtAt, if_pos htime] at hmiss
        exact hmiss.elim
    · rw [getAtTime, newestAt, soughtAt, if_neg htime, if_neg htime, if_neg htime, if_pos hp, hprev]
      by_cases hfail : Fails hd (h m) s
      · refine ⟨(hd (.get (h m)) s).2, fun hno => absurd (.inl hfail) hno, fun _ => ?_⟩
        rw [exec_bind_ok _ (ha.misses (by omega) hs hfail)]
        exact exec_getAtTime_zero t (by omega) _
      · obtain ⟨s', hread, hmiss⟩ := ih ha.shorter hl.shorter (ha.keeps (Nat.le_succ m) hs) (show m < rounds by omega)
        rw [exec_bind_ok _ (ha.reads (by omega) hs hfail)]
        exact ⟨s', fun hno => hread (fun h => hno (.inr h)), fun h => hmiss (h.resolve_left hfail)⟩

theorem exec_getNVersionsAgo_zero (n : ℕ) (s : σ) :
    exec hd (getNVersionsAgo room n Ref.zero) () s = (.ok Ref.zero, (), s) := by
  cases n <;> rfl

theorem exec_getNVersionsAgo (ha : Answers hd room I r h m) (hl : Linked r h m) (hs : I s) (n : ℕ) : ∃ s',
    (¬ Misses hd h (soughtAgo n m) s → exec hd (getNVersionsAgo room n (r m)) () s = (.ok (r (m - n)), (), s')) ∧
    (Misses hd h (soughtAgo n m) s → exec hd (getNVersionsAgo room n (r m)) () s = (.ok Ref.zero, (), s')) := by
  induction n generalizing m s with
  | zero => exact ⟨s, fun _ => rfl, fun hmiss => by simp [soughtAgo, Misses] at hmiss⟩
  | succ n ih =>
    cases m with
    | zero =>
      refine ⟨s, fun _ => ?_, fun hmiss => hmiss.elim⟩
      rw [getNVersionsAgo, if_neg (by rw [hl.first.1]; exact nofun), Nat.zero_sub]
      rfl
    | succ m =>
      obtain ⟨hp, hprev⟩ := hl.next m (Nat.lt_succ_self m)
      rw [getNVersionsAgo, soughtAgo, if_pos hp, hprev, Nat.add_sub_add_right]
      by_cases hfail : Fails hd (h m) s
      · refine ⟨(hd (.get (h m)) s).2, fun hno => absurd (.inl hfail) hno, fun _ => ?_⟩
        rw [exec_bind_ok _ (ha.misses (by omega) hs hfail)]
        exact exec_getNVersionsAgo_zero n _
      · obtain ⟨s', hread, hmiss⟩ := ih ha.shorter hl.shorter (ha.keeps (Nat.le_succ m) hs)
        rw [exec_bind_ok _ (ha.reads (by omega) hs hfail)]
        exact ⟨s', fun hno => hread (fun h => hno (.inr h)), fun h => hmiss (h.resolve_left hfail)⟩

end Walks

section Lookups

/-- Some refs have been put, one after the other, and perhaps other chunks. -/
inductive Built (sha256 : Bytes → Hash) (r : ℕ → Ref) (h : ℕ → Hash) : ℕ → List Bytes → Prop
  | start (s : List Bytes) : Built sha256 r h 0 s
  | put {n : ℕ} {s s' : List Bytes} (hb : Built sha256 r h n s)
      (hput : exec (memStore sha256) (putRef (r n)) () s = (.ok (h n), (), s')) : Built sha256 r h (n + 1) s'
  | other {n : ℕ} {s : List Bytes} (hb : Built sha256 r h n s) (ws : List Bytes) : Built sha256 r h n (ws ++ s)

variable {sha256 : Bytes → Hash} {s : List Bytes}

theorem Built.stored {n : ℕ} (hb : Built sha256 r h n s) {i : ℕ} (hi : i < n) :
    ∃ k, Tree (Stored sha256 s) ⟨k, h i⟩ (r i).encode := by
  induction hb with
  | start s => omega
  | @put n s s' hb hput ih =>
    obtain ⟨ws, k, rfl, htree⟩ := putRef_ok hput
    by_cases hlast : i = n
    · subst hlast
      exact ⟨k, htree⟩
    · obtain ⟨k, htree⟩ := ih (by omega)
      exact ⟨k, htree.mono (stored_grows sha256 ⟨ws, rfl⟩)⟩
  | other hb ws ih =>
    obtain ⟨k, htree⟩ := ih hi
    exact ⟨k, htree.mono (stored_grows sha256 ⟨ws, rfl⟩)⟩

theorem not_fails_of_tree (hinj : Set.InjOn sha256 {c | c ∈ s}) {t : HTree} {d : Bytes}
    (ht : Tree (Stored sha256 s) t d) : ¬ Fails (memStore sha256) t.data s := by
  intro hfail
  obtain ⟨e, he⟩ := hfail
  obtain ⟨bs, hst, -⟩ := holds_load ht.holds
  rw [serves_self hinj _ _ hst] at he
  cases he

theorem Built.answers (room : ℕ → ℕ) (hb : Built sha256 r h (m + 1) s) (hl : Linked r h m)
    (hinj : Set.InjOn sha256 {c | c ∈ s}) : Answers (memStore sha256) room (· = s) r h m := by
  refine ⟨fun _ hs => hs, ?_, ?_⟩
  · rintro i _ hi rfl -
    obtain ⟨k, htree⟩ := hb.stored (Nat.lt_succ_of_le hi)
    obtain ⟨rdr, hread, -⟩ := readTree_spec room () (serves_self hinj) htree
    rw [getRef, exec_bind_ok _ (exec_catchError_ok hread)]
    simp [Ref.decode_encode, hl.norm hi, memStore]
  · rintro i _ hi rfl hfail
    obtain ⟨k, htree⟩ := hb.stored (Nat.lt_succ_of_le hi)
    exact absurd hfail (not_fails_of_tree hinj htree)

theorem Built.not_misses (hb : Built sha256 r h (m + 1) s) (hinj : Set.InjOn sha256 {c | c ∈ s}) {is : List ℕ}
    (his : ∀ i ∈ is, i ≤ m) : ¬ Misses (memStore sha256) h is s := by
  induction is with
  | nil => exact id
  | cons i is ih =>
    intro hmiss
    rcases hmiss with hfail | hmiss
    · obtain ⟨k, htree⟩ := hb.stored (Nat.lt_succ_of_le (his i List.mem_cons_self))
      exact not_fails_of_tree hinj htree hfail
    · exact ih (fun j hj => his j (List.mem_cons_of_mem _ hj)) hmiss

theorem le_of_mem_soughtAt {t : Int64} {i : ℕ} (hi : i ∈ soughtAt r t m) : i ≤ m := by
  induction m with
  | zero => cases hi
  | succ m ih =>
    rw [soughtAt] at hi
    split at hi
    · cases hi
    · rcases List.mem_cons.mp hi with rfl | hi
      · exact Nat.le_succ i
      · exact Nat.le_succ_of_le (ih hi)

theorem le_of_mem_soughtAgo {n i : ℕ} (hi : i ∈ soughtAgo n m) : i ≤ m := by
  induction m generalizing n with
  | zero => cases n <;> cases hi
  | succ m ih =>
    cases n with
    | zero => cases hi
    | succ n =>
      rcases List.mem_cons.mp hi with rfl | hi
      · exact Nat.le_succ i
      · exact Nat.le_succ_of_le (ih hi)

/-- For every history that `PutRef` has stored: each ref is read back, `GetAtTime` returns the newest
ref that is not younger than the time, and `GetNVersionsAgo` goes back so many refs or to the first. -/
theorem history_lookups (sha256 : Bytes → Hash) (room : ℕ → ℕ) (r : ℕ → Ref) (h : ℕ → Hash) (m : ℕ) (s : List Bytes)
    (hl : Linked r h m) (hb : Built sha256 r h (m + 1) s) (hinj : Set.InjOn sha256 {c | c ∈ s}) :
    (∀ i ≤ m, (exec (memStore sha256) (getRef room (h i)) () s).1 = .ok (r i)) ∧
    (∀ t rounds, m < rounds → ∃ res,
      (exec (memStore sha256) (getAtTime room t rounds (r m)) () s).1 = .ok res ∧
      (∀ ref, res = some ref ↔ ∃ i ≤ m, ref = r i ∧ (r i).createdAt ≤ t ∧
        ∀ j, i < j → j ≤ m → ¬ (r j).createdAt ≤ t) ∧
      (res = none ↔ ∀ i ≤ m, ¬ (r i).createdAt ≤ t)) ∧
    ∀ n, (exec (memStore sha256) (getNVersionsAgo room n (r m)) () s).1 = .ok (r (m - n)) := by
  have ha := hb.answers room hl hinj
  refine ⟨fun i hi => ?_, fun t rounds hrounds => ?_, fun n => ?_⟩
  · obtain ⟨k, htree⟩ := hb.stored (Nat.lt_succ_of_le hi)
    rw [ha.reads hi rfl (not_fails_of_tree hinj htree)]
  · obtain ⟨s', hread, -⟩ := exec_getAtTime ha hl rfl t hrounds
    refine ⟨newestAt r t m, ?_, fun ref => newestAt_eq_some, newestAt_eq_none⟩
    rw [hread (hb.not_misses hinj (fun i hi => le_of_mem_soughtAt hi))]
  · obtain ⟨s', hread, -⟩ := exec_getNVersionsAgo ha hl rfl n
    rw [hread (hb.not_misses hinj (fun i hi => le_of_mem_soughtAgo hi))]

/-- A ref of the year 1970 and one after it. -/
def two : ℕ → Ref
  | 0 => ⟨1, Hash.zero, false, Hash.zero⟩
  | _ + 1 => ⟨2, Hash.zero, true, Hash.copy (0 :: (⟨1, Hash.zero, false, Hash.zero⟩ : Ref).encode)⟩

def twoHashes (i : ℕ) : Hash := Hash.copy (0 :: (two i).encode)

def twoStored : List Bytes :=
  (exec (memStore Hash.copy) (putRef (two 1)) ()
    (exec (memStore Hash.copy) (putRef (two 0)) () []).2.2).2.2

theorem linked_two : Linked two twoHashes 1 := by
  refine ⟨⟨rfl, rfl⟩, fun i hi => ⟨rfl, ?_⟩⟩
  rw [Nat.lt_one_iff.mp hi]
  rfl

theorem history_lookups_two : ∃ s, Linked two twoHashes 1 ∧ Built Hash.copy two twoHashes 2 s ∧
    (exec (memStore Hash.copy) (getNVersionsAgo id 5 (two 1)) () s).1 = .ok (two 0) := by
  have hb : Built Hash.copy two twoHashes 2 twoStored := .put (.put (.start []) rfl) rfl
  have hinj : Set.InjOn Hash.copy {c | c ∈ twoStored} := injOn_of_list (by decide +kernel)
  exact ⟨twoStored, linked_two, hb, (history_lookups Hash.copy id two twoHashes 1 twoStored linked_two hb hinj).2.2 5⟩

end Lookups

section Missing

variable {ω : Type} {s s' : σ} {w : ω} {x : Hash} {ref : Ref} {e : GoError}

theorem exec_getRef_ok (hget : hd (.get x) s = (.ok (0 :: ref.encode), s')) :
    exec hd (getRef room x) w s = (.ok ref.norm, w, s') := by
  have hlen : ref.encode.length < maxlen := by
    rw [Ref.length_encode, maxlen]
    split <;> omega
  have hload : (Reader.ofRoot x).loadRoot (0 :: ref.encode) =
      .ok ((Reader.ofRoot x).load 0 (0 :: ref.encode)) := loadRoot_eq (Reader.ofRoot x) ref.encode (by decide)
  have hfresh : Fresh (fun _ _ => False) ((Reader.ofRoot x).load 0 (0 :: ref.encode)) 0 0 ref.encode :=
    leafLeft_load _ hlen
  have hreading : Reading (fun _ _ => False) ((Reader.ofRoot x).load 0 (0 :: ref.encode)) ref.encode := by
    refine reading_of_fresh ⟨(by decide : 0 + 1 < nlevels), ?_⟩ (fun i hi => ?_) hfresh
    · simp [Reader.load, Reader.ofRoot]
    · cases hi
  have hserves : Serves hd s' (fun _ _ => False) := fun _ _ hf => hf.elim
  obtain ⟨rdr, hall, -⟩ := readAll_spec room hserves hreading (lt_trans hlen (by decide))
  have hread : exec hd (readTree room x) w s = (.ok (ref.encode, rdr), w, s') := by
    simp [readTree, newReader, exec_bind, hget, hload, exec_on, hall, Except.map]
  rw [getRef, exec_bind_ok _ (exec_catchError_ok hread)]
  simp [Ref.decode_encode]

theorem exec_getRef_error (hget : hd (.get x) s = (.error e, s')) (he : ∀ msg, e ≠ .panic msg) :
    exec hd (getRef room x) w s = (.ok Ref.zero, w, s') := by
  have hread : exec hd (readTree room x : StoreM ω _) w s = (.error e, w, s') := by
    simp [readTree, newReader, exec_bind, hget]
  rw [getRef, exec_bind_ok _ (exec_catchError_error hread he)]
  rfl

/-- In every state the store has the chunk of each ref, or fails to get it. -/
def Holding (hd : Handler σ) (r : ℕ → Ref) (h : ℕ → Hash) (m : ℕ) : Prop :=
  ∀ i ≤ m, ∀ s, (hd (.get (h i)) s).1 = .ok (0 :: (r i).encode) ∨
    ∃ e, (hd (.get (h i)) s).1 = .error e ∧ ∀ msg, e ≠ .panic msg

theorem Holding.answers {r : ℕ → Ref} {h : ℕ → Hash} {m : ℕ} (hs : Holding hd r h m) (hl : Linked r h m)
    (room : ℕ → ℕ) : Answers hd room (fun _ => True) r h m := by
  refine ⟨fun _ _ => trivial, fun {i s} hi _ hno => ?_, fun {i s} hi _ hfail => ?_⟩
  · rcases hs i hi s with hok | ⟨e, he, -⟩
    · rw [exec_getRef_ok (Prod.ext hok rfl), hl.norm hi]
    · exact absurd ⟨e, he⟩ hno
  · obtain ⟨e, he⟩ := hfail
    rcases hs i hi s with hok | ⟨e', he', hnot⟩
    · rw [hok] at he
      cases he
    · exact exec_getRef_error (Prod.ext he' rfl) hnot

/-- A call that misses a ref returns an error, and every ref that it returns is one of `refs`. -/
def Reports (missed : Prop) (refs : Set Ref) (res : Except GoError (Option Ref)) : Prop :=
  (missed → ∃ e, res = .error e) ∧ ∀ ref, res = .ok (some ref) → ref ∈ refs

theorem reports_iff {missed : Prop} {refs : Set Ref} {res : Except GoError (Option Ref)}
    (hmiss : missed → ∃ x, res = .ok x) (hread : ¬ missed → ∀ ref, res = .ok (some ref) → ref ∈ refs) :
    Reports missed refs res ↔ ¬ missed := by
  refine ⟨fun hreports hm => ?_, fun hno => ⟨fun hm => absurd hm hno, hread hno⟩⟩
  obtain ⟨e, he⟩ := hreports.1 hm
  obtain ⟨x, hx⟩ := hmiss hm
  rw [hx] at he
  cases he

/-- For every store: `GetRef`, `GetAtTime` and `GetNVersionsAgo` report a ref that cannot be read, and
return no ref that is not in the history, exactly if they reach no ref that cannot be read. -/
theorem missing_history_reported_iff (hd : Handler σ) (room : ℕ → ℕ) (r : ℕ → Ref) (h : ℕ → Hash) (m : ℕ)
    (hl : Linked r h m) (hs : Holding hd r h m) (s : σ) :
    (∀ i ≤ m, Reports (Fails hd (h i) s) {r i} ((exec hd (getRef room (h i)) () s).1.map some) ↔
      ¬ Fails hd (h i) s) ∧
    (∀ t rounds, m < rounds → (Reports (Misses hd h (soughtAt r t m) s) {ref | ∃ i ≤ m, ref = r i}
      (exec hd (getAtTime room t rounds (r m)) () s).1 ↔ ¬ Misses hd h (soughtAt r t m) s)) ∧
    ∀ n, Reports (Misses hd h (soughtAgo n m) s) {ref | ∃ i ≤ m, ref = r i}
      ((exec hd (getNVersionsAgo room n (r m)) () s).1.map some) ↔ ¬ Misses hd h (soughtAgo n m) s := by
  have ha := hs.answers hl room
  refine ⟨fun i hi => reports_iff (fun hfail => ?_) (fun hno ref hres => ?_), fun t rounds hrounds => ?_, fun n => ?_⟩
  · exact ⟨some Ref.zero, by rw [ha.misses hi trivial hfail]; rfl⟩
  · rw [ha.reads hi trivial hno] at hres
    cases hres
    rfl
  · obtain ⟨s', hread, hmiss⟩ := exec_getAtTime ha hl trivial t hrounds
    refine reports_iff (fun hm => ⟨zeroAt t, by rw [hmiss hm]⟩) (fun hno ref hres => ?_)
    rw [hread hno, Except.ok.injEq] at hres
    obtain ⟨i, hi, heq, -⟩ := newestAt_eq_some.mp hres
    exact ⟨i, hi, heq⟩
  · obtain ⟨s', hread, hmiss⟩ := exec_getNVersionsAgo ha hl trivial n
    refine reports_iff (fun hm => ⟨some Ref.zero, by rw [hmiss hm]; rfl⟩) (fun hno ref hres => ?_)
    rw [hread hno] at hres
    cases hres
    exact ⟨m - n, Nat.sub_le m n, rfl⟩

/-- A store with the refs of `two`, some of which it has lost. -/
def keeper (lost : ℕ → Bool) : Handler Unit
  | .put c, u => (.ok (Hash.copy c), u)
  | .get x, u =>
    (if x = twoHashes 0 ∧ lost 0 = false then .ok (0 :: (two 0).encode)
      else if x = twoHashes 1 ∧ lost 1 = false then .ok (0 :: (two 1).encode)
      else .error (.text "no such chunk"), u)

theorem twoHashes_ne : twoHashes 1 ≠ twoHashes 0 := by decide +kernel

theorem holding_keeper (lost : ℕ → Bool) : Holding (keeper lost) two twoHashes 1 := by
  intro i hi u
  interval_cases i
  · cases hlost : lost 0 with
    | false => exact .inl (by simp [keeper, hlost])
    | true => exact .inr ⟨.text "no such chunk", by simp [keeper, hlost, twoHashes_ne.symm], nofun⟩
  · cases hlost : lost 1 with
    | false => exact .inl (by simp [keeper, hlost, twoHashes_ne])
    | true => exact .inr ⟨.text "no such chunk", by simp [keeper, hlost, twoHashes_ne], nofun⟩

theorem missing_history_reported_two :
    Reports (Misses (keeper fun _ => false) twoHashes (soughtAgo 1 1) ()) {ref | ∃ i ≤ 1, ref = two i}
      ((exec (keeper fun _ => false) (getNVersionsAgo id 1 (two 1)) () ()).1.map some) := by
  refine ((missing_history_reported_iff (keeper fun _ => false) id two twoHashes 1 linked_two (holding_keeper _) ()).2.2
    1).mpr ?_
  simp [soughtAgo, Misses, Fails, keeper]

/-- The first ref is lost, and `GetAtTime` returns `Ref{}` for it. -/
theorem getAtTime_returns_zero :
    (exec (keeper fun i => i == 0) (getAtTime id 1 2 (two 1)) () ()).1 = .ok (some Ref.zero) ∧
    ¬ Reports (Misses (keeper fun i => i == 0) twoHashes (soughtAt two 1 1) ()) {ref | ∃ i ≤ 1, ref = two i}
      (exec (keeper fun i => i == 0) (getAtTime id 1 2 (two 1)) () ()).1 := by
  have hzero : (exec (keeper fun i => i == 0) (getAtTime id 1 2 (two 1)) () ()).1 = .ok (some Ref.zero) := by
    decide +kernel
  refine ⟨hzero, fun hreports => ?_⟩
  rw [hzero] at hreports
  obtain ⟨i, hi, heq⟩ := hreports.2 Ref.zero rfl
  interval_cases i
  · exact absurd heq (by decide +kernel)
  · exact absurd heq (by decide +kernel)

end Missing

end Bpy.RefHistories
