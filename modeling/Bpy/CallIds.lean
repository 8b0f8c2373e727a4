import Bpy.RemoteCalls

/-!
# The search for an id

`newCall`, `nextFid` and `nextPid` try the numbers behind a count that is never advanced, and
give up when they come back to it. `newCall` leaves out 0 before it compares, so with the
count 0 of a new client it never comes back, and does not end when every id is in use.
-/
namespace Bpy.CallIds
open ContentStore RemoteClient RemoteCalls

section Distance

/-- How many steps a search at `mid` is away from `goal`. -/
def ahead (goal mid : UInt16) : ℕ := (goal - mid).toNat

variable {goal mid : UInt16}

theorem ahead_lt : ahead goal mid < 2 ^ 16 := (goal - mid).toNat_lt

theorem ahead_self : ahead goal goal = 0 := by simp [ahead]

theorem ahead_succ (h : mid ≠ goal) : ahead goal (mid + 1) + 1 = ahead goal mid := by
  have hne : mid.toNat ≠ goal.toNat := fun he => h (UInt16.toNat_inj.mp he)
  have hmid := mid.toNat_lt
  have hgoal := goal.toNat_lt
  simp only [ahead, UInt16.toNat_sub, UInt16.toNat_add, UInt16.reduceToNat]
  omega

theorem ahead_skipZero (h : goal ≠ 0) : ahead goal (skipZero mid) + (if mid = 0 then 1 else 0) = ahead goal mid := by
  rw [skipZero]
  split
  · next hzero =>
    subst hzero
    exact ahead_succ h.symm
  · rfl

theorem ahead_next {other : UInt16} (h : goal ≠ 0) (hother : other ≠ 0) (hgoal : skipZero mid ≠ goal)
    (hne : skipZero mid ≠ other) (hlt : ahead goal mid < ahead other mid) :
    ahead goal (skipZero mid + 1) < ahead other (skipZero mid + 1) := by
  have h₁ := @ahead_skipZero goal mid h
  have h₂ := @ahead_skipZero other mid hother
  have h₃ := ahead_succ hgoal
  have h₄ := ahead_succ hne
  omega

end Distance

section NewCall

variable {count mid free : UInt16} {calls : List (UInt16 × ℕ)} {rounds : ℕ}

theorem searchMid_of_free (hzero : free ≠ 0) (hfree : calls.lookup free = none)
    (hcount : count ≠ 0 → ahead free mid < ahead count mid) (hrounds : ahead free mid < rounds) :
    ∃ mid', searchMid count calls rounds mid = some (.ok mid') := by
  induction rounds generalizing mid with
  | zero => omega
  | succ rounds ih =>
    have hskip := @ahead_skipZero free mid hzero
    have hne : skipZero mid ≠ count := by
      intro heq
      have hcount₀ : count ≠ 0 := heq ▸ skipZero_ne mid
      have hskip' := @ahead_skipZero count mid hcount₀
      have hlt := hcount hcount₀
      rw [heq, ahead_self] at hskip'
      omega
    rw [searchMid, if_neg hne]
    cases hlook : calls.lookup (skipZero mid) with
    | none => exact ⟨_, rfl⟩
    | some ch =>
      have hgoal : skipZero mid ≠ free := by
        intro heq
        rw [heq, hfree] at hlook
        cases hlook
      have hstep := ahead_succ hgoal
      exact ih (fun hcount₀ => ahead_next hzero hcount₀ hgoal hne (hcount hcount₀)) (by omega)

theorem searchMid_of_full (hfull : ∀ mid, mid ≠ 0 → mid ≠ count → calls.lookup mid ≠ none) (hcount : count ≠ 0)
    (hrounds : ahead count mid < rounds) : searchMid count calls rounds mid = some (.error errTooManyCalls) := by
  induction rounds generalizing mid with
  | zero => omega
  | succ rounds ih =>
    have hskip := @ahead_skipZero count mid hcount
    rw [searchMid]
    by_cases hne : skipZero mid = count
    · rw [if_pos hne]
    · rw [if_neg hne]
      have hstep := ahead_succ hne
      cases hlook : calls.lookup (skipZero mid) with
      | none => exact absurd hlook (hfull _ (skipZero_ne mid) hne)
      | some ch => exact ih (by omega)

theorem searchMid_forever (hfull : ∀ mid, mid ≠ 0 → calls.lookup mid ≠ none) : searchMid 0 calls rounds mid = none := by
  induction rounds generalizing mid with
  | zero => rfl
  | succ rounds ih =>
    rw [searchMid, if_neg (skipZero_ne mid)]
    cases hlook : calls.lookup (skipZero mid) with
    | none => exact absurd hlook (hfull _ (skipZero_ne mid))
    | some ch => exact ih

end NewCall

section NextId

theorem ahead_succ32 {goal id : UInt32} (h : id ≠ goal) : (goal - (id + 1)).toNat + 1 = (goal - id).toNat := by
  have hne : id.toNat ≠ goal.toNat := fun he => h (UInt32.toNat_inj.mp he)
  have hid := id.toNat_lt
  have hgoal := goal.toNat_lt
  simp only [UInt32.toNat_sub, UInt32.toNat_add, UInt32.reduceToNat]
  omega

variable {errTooMany : GoError} {count id : UInt32} {used : UInt32 → Bool} {rounds : ℕ}

theorem searchId_ends (hrounds : (count - id).toNat < rounds) :
    ∃ r, searchId errTooMany count used rounds id = some r ∧
      (r = .error errTooMany ∨ ∃ id', r = .ok id' ∧ used id' = false) := by
  induction rounds generalizing id with
  | zero => omega
  | succ rounds ih =>
    rw [searchId]
    by_cases hcount : id = count
    · rw [if_pos hcount]
      exact ⟨_, rfl, .inl rfl⟩
    · have hstep := ahead_succ32 hcount
      rw [if_neg hcount]
      cases hused : used id with
      | true =>
        rw [if_pos rfl]
        exact ih (by omega)
      | false =>
        rw [if_neg (by simp)]
        exact ⟨_, rfl, .inr ⟨id, rfl, hused⟩⟩

end NextId

section Allocates

def Free (c : Client) (mid : UInt16) : Prop := mid ≠ 0 ∧ c.calls.lookup mid = none

/-- `newCall` ends with a free id if there is one, and with `ErrTooManyCalls` if there is none. -/
structure CallEnds (c : Client) : Prop where
  ends : c.newCall ≠ none
  fresh : ∀ r c', c.newCall = some (r, c') → (∃ mid, Free c mid) → ∃ ch mid, r = .ok (ch, mid) ∧ Free c mid
  full : ∀ r c', c.newCall = some (r, c') → (∀ mid, ¬ Free c mid) → r = .error errTooManyCalls

/-- `nextFid` ends with a fresh id or its error. -/
def FidEnds (c : Client) : Prop :=
  ∃ r c', c.nextFid = some (r, c') ∧ (r = .error errTooManyFiles ∨ ∃ fid, r = .ok fid ∧ fid ∉ c.fids)

def PidEnds (c : Client) : Prop :=
  ∃ r c', c.nextPid = some (r, c') ∧ (r = .error errTooManyPacks ∨ ∃ pid, r = .ok pid ∧ c.pids.lookup pid = none)

/-- Another id than the count is free, or the count is an id and in use. -/
def Roomy (c : Client) : Prop :=
  (∃ mid, Free c mid ∧ mid ≠ c.mIdCount) ∨ (c.mIdCount ≠ 0 ∧ c.calls.lookup c.mIdCount ≠ none)

variable {c : Client}

/-- All rounds that the search can take. -/
def search (c : Client) : Option (Except GoError UInt16) :=
  searchMid c.mIdCount c.calls (2 ^ 16) (c.mIdCount + 1)

theorem ahead_start (count : UInt16) : ahead count (count + 1) + 1 = 2 ^ 16 := by
  have hcount := count.toNat_lt
  simp only [ahead, UInt16.toNat_sub, UInt16.toNat_add, UInt16.reduceToNat]
  omega

theorem search_of_free {mid : UInt16} (h : Free c mid) (hne : mid ≠ c.mIdCount) :
    ∃ mid', search c = some (.ok mid') := by
  have hstart := ahead_start c.mIdCount
  have hstep := ahead_succ hne.symm
  have hlt : ahead mid c.mIdCount < 2 ^ 16 := ahead_lt
  exact searchMid_of_free h.1 h.2 (fun _ => by omega) (by omega)

section

variable (h : ∀ mid, Free c mid → mid = c.mIdCount)
include h

theorem lookup_ne_none (mid : UInt16) (hzero : mid ≠ 0)
    (hne : mid ≠ c.mIdCount) : c.calls.lookup mid ≠ none :=
  fun hlook => hne (h mid ⟨hzero, hlook⟩)

theorem search_of_full (hcount : c.mIdCount ≠ 0) : search c = some (.error errTooManyCalls) :=
  searchMid_of_full (lookup_ne_none h) hcount ahead_lt

theorem searchMid_of_new (hcount : c.mIdCount = 0) (rounds : ℕ) :
    searchMid c.mIdCount c.calls rounds (c.mIdCount + 1) = none := by
  have hfull := lookup_ne_none h
  rw [hcount] at hfull ⊢
  exact searchMid_forever (fun mid hzero => hfull mid hzero hzero)

end

section

variable (hopen : c.closed = false)
include hopen

theorem newCall_of_search_ok {mid : UInt16} (h : search c = some (.ok mid)) :
    ∃ c', c.newCall = some (.ok (c.made, mid), c') := by
  rw [search] at h
  rw [Client.newCall, if_neg (by simp [hopen]), h]
  exact ⟨_, rfl⟩

theorem newCall_of_search_error {e : GoError} (h : search c = some (.error e)) : c.newCall = some (.error e, c) := by
  rw [search] at h
  rw [Client.newCall, if_neg (by simp [hopen]), h]

theorem newCall_of_search_none (h : search c = none) : c.newCall = none := by
  rw [search] at h
  rw [Client.newCall, if_neg (by simp [hopen]), h]

theorem newCall_eq_none_iff :
    c.newCall = none ↔ ∀ rounds, searchMid c.mIdCount c.calls rounds (c.mIdCount + 1) = none := by
  constructor
  · intro hnone
    by_cases hfree : ∀ mid, Free c mid → mid = c.mIdCount
    · by_cases hcount : c.mIdCount = 0
      · exact searchMid_of_new hfree hcount
      · cases hnone.symm.trans (newCall_of_search_error hopen (search_of_full hfree hcount))
    · push Not at hfree
      obtain ⟨mid, hmid, hne⟩ := hfree
      obtain ⟨mid', hsearch⟩ := search_of_free hmid hne
      obtain ⟨c', hcall⟩ := newCall_of_search_ok hopen hsearch
      cases hnone.symm.trans hcall
  · intro h
    exact newCall_of_search_none hopen (h _)

end

theorem fidEnds (c : Client) : FidEnds c := by
  obtain ⟨r, hsearch, hr⟩ := @searchId_ends errTooManyFiles c.fidCount (c.fidCount + 1)
    (fun fid => c.fids.contains fid) (2 ^ 32) (UInt32.toNat_lt _)
  rw [FidEnds, Client.nextFid, hsearch]
  rcases hr with rfl | ⟨fid, rfl, hfree⟩
  · exact ⟨_, _, rfl, .inl rfl⟩
  · exact ⟨_, _, rfl, .inr ⟨fid, rfl, by simpa using hfree⟩⟩

theorem pidEnds (c : Client) : PidEnds c := by
  obtain ⟨r, hsearch, hr⟩ := @searchId_ends errTooManyPacks c.pidCount (c.pidCount + 1)
    (fun pid => (c.pids.lookup pid).isSome) (2 ^ 32) (UInt32.toNat_lt _)
  rw [PidEnds, Client.nextPid, hsearch]
  rcases hr with rfl | ⟨pid, rfl, hfree⟩
  · exact ⟨_, _, rfl, .inl rfl⟩
  · exact ⟨_, _, rfl, .inr ⟨pid, rfl, by simpa using hfree⟩⟩

theorem callEnds_of_free {mid : UInt16} (hopen : c.closed = false) (h : Free c mid) (hne : mid ≠ c.mIdCount) :
    CallEnds c := by
  obtain ⟨mid', hsearch⟩ := search_of_free h hne
  obtain ⟨c', hcall⟩ := newCall_of_search_ok hopen hsearch
  refine ⟨by rw [hcall]; exact nofun, fun r c'' hr _ => ?_, fun r c'' hr hfull => absurd h (hfull mid)⟩
  cases hcall.symm.trans hr
  exact ⟨_, mid', rfl, searchMid_ok hsearch⟩

theorem callEnds_of_full (hopen : c.closed = false) (h : ∀ mid, Free c mid → mid = c.mIdCount)
    (hcount : c.mIdCount ≠ 0) (hused : c.calls.lookup c.mIdCount ≠ none) : CallEnds c := by
  have hcall := newCall_of_search_error hopen (search_of_full h hcount)
  refine ⟨by rw [hcall]; exact nofun, fun r c' _ hfree => ?_, fun r c' hr _ => ?_⟩
  · obtain ⟨mid, hmid⟩ := hfree
    exact absurd (h mid hmid ▸ hmid.2) hused
  · cases hcall.symm.trans hr
    rfl

theorem roomy_of_callEnds (hopen : c.closed = false) (h : CallEnds c) : Roomy c := by
  by_cases hfree : ∃ mid, Free c mid ∧ mid ≠ c.mIdCount
  · exact .inl hfree
  · push Not at hfree
    by_cases hcount : c.mIdCount = 0
    · exact absurd (newCall_of_search_none hopen (searchMid_of_new hfree hcount _)) h.ends
    · have hcall := newCall_of_search_error hopen (search_of_full hfree hcount)
      refine .inr ⟨hcount, fun hlook => ?_⟩
      -- the count is free, and is not found
      obtain ⟨ch, mid, hr, -⟩ := h.fresh _ _ hcall ⟨c.mIdCount, hcount, hlook⟩
      cases hr

theorem allocates_iff (hopen : c.closed = false) : (CallEnds c ∧ FidEnds c ∧ PidEnds c) ↔ Roomy c := by
  constructor
  · intro h
    exact roomy_of_callEnds hopen h.1
  · intro h
    refine ⟨?_, fidEnds c, pidEnds c⟩
    by_cases hfree : ∃ mid, Free c mid ∧ mid ≠ c.mIdCount
    · obtain ⟨mid, hmid, hne⟩ := hfree
      exact callEnds_of_free hopen hmid hne
    · rcases h with h | ⟨hcount, hused⟩
      · exact absurd h hfree
      · push Not at hfree
        exact callEnds_of_full hopen hfree hcount hused

/-- A client as `Attach` makes it, with these calls in progress. -/
def attached (calls : List (UInt16 × ℕ)) : Client where
  rBuf := []
  mIdCount := 0
  closed := false
  calls := calls
  chans := fun _ => Chan.new
  made := calls.length
  fidCount := 0
  fids := []
  pidCount := 0
  pids := []

theorem allocates_attached : CallEnds (attached [(1, 0)]) ∧ FidEnds (attached [(1, 0)]) ∧ PidEnds (attached [(1, 0)]) :=
  (allocates_iff rfl).mpr (.inl ⟨2, ⟨by decide, by decide⟩, by decide⟩)

def everyId : List (UInt16 × ℕ) := (List.range 65535).map (fun i => (UInt16.ofNat (i + 1), i))

theorem lookup_everyId {mid : UInt16} (h : mid ≠ 0) : everyId.lookup mid ≠ none := by
  have hpos : mid.toNat ≠ 0 := fun he => h (UInt16.toNat_inj.mp he)
  have hlt := mid.toNat_lt
  have hmem : (mid, mid.toNat - 1) ∈ everyId := by
    rw [everyId, List.mem_map]
    refine ⟨mid.toNat - 1, List.mem_range.mpr (by omega), ?_⟩
    rw [Nat.sub_add_cancel (by omega), UInt16.ofNat_toNat]
  rw [ne_eq, List.lookup_eq_none_iff]
  intro hnone
  exact absurd (hnone _ hmem) (by simp)

theorem not_free_attached {calls : List (UInt16 × ℕ)} (h : ∀ {mid}, mid ≠ 0 → calls.lookup mid ≠ none)
    (mid : UInt16) : ¬ Free (attached calls) mid := fun hmid => h hmid.1 hmid.2

/-- With a call for every id the search for another one goes on for ever. -/
theorem newCall_everyId_forever : (attached everyId).closed = false ∧ (∀ mid, ¬ Free (attached everyId) mid) ∧
    (attached everyId).newCall = none ∧
    ∀ rounds, searchMid (attached everyId).mIdCount (attached everyId).calls rounds
      ((attached everyId).mIdCount + 1) = none := by
  have hfull := not_free_attached lookup_everyId
  have hforever := searchMid_of_new (fun mid hmid => absurd hmid (hfull mid)) rfl
  exact ⟨rfl, hfull, (newCall_eq_none_iff rfl).mpr hforever, hforever⟩

end Allocates

end Bpy.CallIds
