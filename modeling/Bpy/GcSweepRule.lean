import Bpy.GcSweep
import Bpy.ProgramLogic

/-!
# The rule of the sweep

The sweep is walked through once, for any invariant that its requests preserve. The invariant
is indexed by the packs that are still to be swept, and may say something about the values
that are written. What a value is known to be comes from the cache or from the bytes of a run.
-/
namespace Bpy.GcSweepRule
open ByteWords InteractionPrograms ContentStore PackFile StoreReader GcSweep ProgramLogic Method
open List hiding removeAll

/-- Requests that leave packs and uploads alone. -/
def Quiet : SweepRequest → Prop
  | .newPack _ | .writePack _ _ | .closePack _ _ | .remove _ _ => False
  | _ => True

/-- The values that `moveRun` cuts out of the bytes of a run. -/
def RunValues (Val : Hash → Bytes → Prop) : Index → Bytes → Prop
  | [], _ => True
  | e :: run, data =>
    e.size ≤ data.length → Val (entHash e) (data.take e.size) ∧ RunValues Val run (data.drop e.size)

/-- How the packs, with their listings `item`, and the server are seen by an invariant `I`, and
what the requests of the sweep do to it. -/
structure Rule (σ ι : Type) (visited : List Hash) (byOffset : Index → Index) where
  T : σ → (q : SweepRequest) → q.Response → σ → Prop
  G : σ → SweepRequest → Prop
  item : ι → PackListing
  Indexed : ι → Index → Prop
  Val : Hash → Bytes → Prop
  I : List ι → GcState → σ → Prop
  guard : ∀ {s q}, (∀ n epoch, q ≠ .remove n epoch) → G s q
  quiet : ∀ {todo gc s q r s'}, I todo gc s → Quiet q → T s q r s' → I todo gc s'
  index : ∀ {x todo gc s idx s'}, I (x :: todo) gc s → T s (.readIndex (item x)) (.ok idx) s' → Indexed x idx
  read : ∀ {x todo gc s idx pre e run post data s'}, I todo gc s → x ∈ todo → Indexed x idx →
    byOffset idx = pre ++ e :: run ++ post → (∀ a ∈ e :: run, entHash a ∈ visited) →
    T s (.readAt (item x).name e.offset (runSize (e :: run))) (.ok data) s' → RunValues Val (e :: run) data
  cached : ∀ {s h v s'}, T s (.getRaw h) (.ok (some v)) s' → Val h v
  create : ∀ {todo gc s n s'}, I todo gc s → gc.newPack = none → T s (.newPack n) (.ok ()) s' →
    I todo { gc with newPack := some ⟨n, [], 0⟩ } s'
  fresh : ∀ {todo gc s p hash}, I todo gc s → gc.newPack = some p → hash ∉ gc.moved →
    hash.bytes ∉ keys p.index
  add : ∀ {todo gc s p hash val s'}, I todo gc s → gc.newPack = some p → hash ∉ gc.moved → hash ∈ visited →
    Val hash val → T s (.writePack p.name val) (.ok ()) s' → I todo { gc with
      newPack := some { p with
        index := p.index ++ [⟨hash.bytes, val.length, p.offset⟩]
        offset := p.offset + val.length }
      newPackSize := gc.newPackSize + 32 + val.length
      moved := hash :: gc.moved } s'
  close : ∀ {todo gc s p s'}, I todo gc s → gc.newPack = some p →
    T s (.closePack p.name (sortIndex p.index)) (.ok ()) s' → I todo { gc with newPack := none, newPackSize := 0 } s'
  unopened : ∀ {todo gc s}, I todo gc s → gc.newPack = none → I todo { gc with newPack := none, newPackSize := 0 } s
  removed : ∀ {todo gc s} (epoch : Bytes), I todo gc s → gc.newPack = none →
    Method.wp T G (removeAll epoch gc.canDelete)
      (Method.onOk fun _ gc' s' => gc' = gc ∧ I todo { gc with canDelete := [] } s') gc s
  skip : ∀ {x todo gc s idx}, I (x :: todo) gc s → Indexed x idx →
    (∀ e ∈ byOffset idx, toMove visited gc.moved e = true) →
    I todo { gc with moved := ((byOffset idx).map entHash).reverse ++ gc.moved } s
  retire : ∀ {x todo gc s idx}, I (x :: todo) gc s → Indexed x idx →
    (∀ e ∈ byOffset idx, entHash e ∈ visited → entHash e ∈ gc.moved) →
    I todo { gc with canDelete := gc.canDelete ++ [(item x).name] } s

section Entries

variable {visited : List Hash}

theorem toMove_iff {moved : List Hash} {e : IndexEnt} :
    toMove visited moved e = true ↔ entHash e ∈ visited ∧ entHash e ∉ moved := by
  simp [toMove]

theorem mem_run_cases (f : IndexEnt → Bool) {idx : Index} {a : IndexEnt} (ha : a ∈ idx) :
    a ∈ idx.takeWhile f ∨ f a = false ∨ a ∈ (idx.dropWhile f).drop 1 := by
  induction idx with
  | nil => cases ha
  | cons b idx ih =>
    cases hb : f b with
    | true =>
      rw [takeWhile_cons_of_pos hb, dropWhile_cons_of_pos hb]
      rcases mem_cons.mp ha with rfl | ha
      · exact .inl mem_cons_self
      · exact (ih ha).imp_left (mem_cons_of_mem _)
    | false =>
      rw [dropWhile_cons_of_neg (by simp [hb])]
      rcases mem_cons.mp ha with rfl | ha
      · exact .inr (.inl hb)
      · exact .inr (.inr ha)

end Entries

section Steps

variable {σ ι α β : Type} {visited : List Hash} {byOffset : Index → Index} (R : Rule σ ι visited byOffset)

/-- The specification that the parts of the sweep share. -/
def Sweeps (todo : List ι) (x : SweepM α) (P : α → GcState → Prop) (gc : GcState) (s : σ) : Prop :=
  Method.wp R.T R.G x
    (Method.onOk fun a gc' s' => R.I todo gc' s' ∧ gc.moved ⊆ gc'.moved ∧ P a gc') gc s

variable {R} {todo : List ι} {gc : GcState} {s : σ} {epoch : Bytes} {cache : Bool}

theorem Sweeps.seq {x : SweepM α} {f : α → SweepM β} {P : α → GcState → Prop} {P' : β → GcState → Prop}
    (hx : Sweeps R todo x P gc s)
    (hf : ∀ a gc₁ s₁, R.I todo gc₁ s₁ → gc.moved ⊆ gc₁.moved → P a gc₁ → Sweeps R todo (f a) P' gc₁ s₁) :
    Sweeps R todo (x >>= f) P' gc s := by
  apply wp_seq_ok hx
  rintro a gc₁ s₁ ⟨hinv, hsub, hP⟩
  refine wp_mono_ok ?_ (hf a gc₁ s₁ hinv hsub hP)
  rintro b gc₂ s₂ ⟨hinv', hsub', hP'⟩
  exact ⟨hinv', fun h hh => hsub' (hsub hh), hP'⟩

theorem Sweeps.mono {x : SweepM α} {P P' : α → GcState → Prop} (hx : Sweeps R todo x P gc s)
    (h : ∀ a gc', gc.moved ⊆ gc'.moved → P a gc' → P' a gc') : Sweeps R todo x P' gc s :=
  wp_mono_ok (fun a gc' _ hr => ⟨hr.1, hr.2.1, h a gc' hr.2.1 hr.2.2⟩) hx

section

variable (hinv : R.I todo gc s)
include hinv

theorem sweeps_quiet {q : SweepRequest} (hq : Quiet q) (f : q.Response → Except GoError α) :
    Sweeps R todo (send q f) (fun a gc' => gc' = gc ∧ ∃ r s', f r = .ok a ∧ R.T s q r s') gc s := by
  refine wp_send_ok (R.guard ?_) (fun r _ s' hT hf => ⟨R.quiet hinv hq hT, fun _ h => h, rfl, r, s', hf, hT⟩)
  rintro n epoch rfl
  exact hq

theorem closeNewPack_wp : wp R.T R.G closeNewPack (onOk fun _ gc' s' => gc' = gc ∧
      R.I todo { gc with newPack := none, newPackSize := 0 } s') gc s := by
  rw [closeNewPack, wp_bind, wp_self]
  change wp R.T R.G _ _ gc s
  cases hp : gc.newPack with
  | none => exact ⟨rfl, R.unopened hinv hp⟩
  | some p =>
    refine wp_send_ok (R.guard (by simp)) (fun r a s' hT hr => ⟨rfl, ?_⟩)
    rw [id_eq] at hr
    subst hr
    exact R.close hinv hp hT

theorem closeCurrentWriterAndDeleteOldPacks_sweeps :
    Sweeps R todo (closeCurrentWriterAndDeleteOldPacks epoch) (fun _ gc' => gc' = ⟨0, none, gc.moved, []⟩) gc s := by
  apply wp_seq_ok (closeNewPack_wp hinv)
  rintro - gc' s₁ ⟨rfl, hinv₁⟩
  rw [wp_bind, wp_update]
  change wp R.T _ (Method.self >>= _) _ _ _
  rw [wp_bind, wp_self]
  apply wp_seq_ok (R.removed epoch hinv₁ rfl)
  rintro - gc'' s₂ ⟨rfl, hinv₂⟩
  rw [wp_update]
  exact ⟨hinv₂, fun _ h => h, rfl⟩

theorem openNewPack_sweeps :
    Sweeps R todo openNewPack (fun p gc' => gc'.newPack = some p ∧ gc'.moved = gc.moved) gc s := by
  rw [Sweeps, openNewPack, wp_bind, wp_self]
  change Sweeps R todo _ _ gc s
  beta_reduce
  cases hp : gc.newPack with
  | some p => exact ⟨hinv, fun _ h => h, hp, rfl⟩
  | none =>
    apply (sweeps_quiet hinv (q := .randomFileName) trivial id).seq
    rintro name gc' s₁ hinv₁ - ⟨rfl, -⟩
    apply wp_seq_ok (wp_send_ok (P := fun _ gc'' s₂ => gc'' = gc' ∧
      R.I todo { gc' with newPack := some ⟨name ++ ascii ".ebpack", [], 0⟩ } s₂) (R.guard (by simp)) ?_)
    · rintro - gc'' s₂ ⟨rfl, hinv₂⟩
      apply wp_seq_ok (wp_send_ok (P := fun _ gc₃ s₃ => gc₃ = gc'' ∧
        R.I todo { gc'' with newPack := some ⟨name ++ ascii ".ebpack", [], 0⟩ } s₃) (R.guard (by simp)) ?_)
      · rintro - gc₃ s₃ ⟨rfl, hinv₃⟩
        exact ⟨hinv₃, fun _ h => h, rfl, rfl⟩
      · exact fun r a s₃ hT _ => ⟨rfl, R.quiet (q := .initPack _) hinv₂ trivial hT⟩
    · intro r a s₂ hT hr
      rw [id_eq] at hr
      subst hr
      exact ⟨rfl, R.create hinv₁ hp hT⟩

theorem addValue_sweeps {hash : Hash} {val : Bytes} (hnew : hash ∉ gc.moved) (hvisited : hash ∈ visited)
    (hval : R.Val hash val) : Sweeps R todo (addValue hash val) (fun _ gc' => hash ∈ gc'.moved) gc s := by
  apply (openNewPack_sweeps hinv).seq
  rintro p gc₁ s₁ hinv₁ - ⟨hp, hmoved⟩
  rw [← hmoved] at hnew
  rw [PackWriter.add, if_neg (R.fresh hinv₁ hp hnew)]
  split
  · rw [Sweeps, wp_bind]
    trivial
  · rw [Method.bind_assoc]
    apply wp_seq_ok (wp_send_ok (P := fun _ gc₂ s₂ => gc₂ = gc₁ ∧
      R.T s₁ (.writePack p.name val) (.ok ()) s₂) (R.guard (by simp)) ?_)
    · rintro - gc₂ s₂ ⟨rfl, hT⟩
      exact ⟨R.add hinv₁ hp hnew hvisited hval hT, subset_cons_self _ _, mem_cons_self⟩
    · intro r a s₂ hT hr
      rw [id_eq] at hr
      subst hr
      exact ⟨rfl, hT⟩

theorem putValue_sweeps {hash : Hash} {val : Bytes} (hvisited : hash ∈ visited)
    (hval : R.Val hash val) : Sweeps R todo (putValue epoch hash val) (fun _ gc' => hash ∈ gc'.moved) gc s := by
  rw [Sweeps, putValue, wp_bind, wp_self]
  change Sweeps R todo (if hash ∈ gc.moved then _ else _) _ gc s
  split
  · exact ⟨hinv, fun _ h => h, by assumption⟩
  · rename_i hnew
    split
    · apply (closeCurrentWriterAndDeleteOldPacks_sweeps hinv).seq
      rintro - gc₁ s₁ hinv₁ - rfl
      exact addValue_sweeps hinv₁ hnew hvisited hval
    · exact addValue_sweeps hinv hnew hvisited hval

theorem cachePut_sweeps (hash : Hash) (val : Bytes) :
    Sweeps R todo (cachePut cache hash val) (fun _ _ => True) gc s := by
  rw [cachePut]
  split
  · exact (sweeps_quiet hinv (q := .putRaw hash val) trivial id).mono (fun _ _ _ _ => trivial)
  · exact ⟨hinv, fun _ h => h, trivial⟩

theorem cacheGet_sweeps (hash : Hash) :
    Sweeps R todo (cacheGet cache hash) (fun val gc' => gc' = gc ∧ ∀ v, val = some v → R.Val hash v) gc s := by
  rw [cacheGet]
  split
  · refine (sweeps_quiet hinv (q := .getRaw hash) trivial id).mono ?_
    rintro val gc' - ⟨rfl, r, s', hr, hT⟩
    rw [id_eq] at hr
    subst hr
    refine ⟨rfl, fun v hv => ?_⟩
    subst hv
    exact R.cached hT
  · exact ⟨hinv, fun _ h => h, rfl, by simp⟩

theorem moveRun_sweeps {run : Index} {data : Bytes} (hrun : ∀ e ∈ run, entHash e ∈ visited)
    (hvals : RunValues R.Val run data) :
    Sweeps R todo (moveRun epoch cache run data) (fun _ gc' => ∀ e ∈ run, entHash e ∈ gc'.moved) gc s := by
  induction run generalizing data gc s with
  | nil => exact ⟨hinv, fun _ h => h, by simp⟩
  | cons e run ih =>
    rw [moveRun]
    split
    · trivial
    · rename_i hlen
      obtain ⟨hval, hrest⟩ := hvals (Nat.le_of_not_lt hlen)
      apply (putValue_sweeps hinv (hrun e mem_cons_self) hval).seq
      intro _ gc₁ s₁ hinv₁ _ hmoved
      apply (cachePut_sweeps hinv₁ _ _).seq
      intro _ gc₂ s₂ hinv₂ hsub _
      have htail := ih hinv₂ (fun a ha => hrun a (mem_cons_of_mem _ ha)) hrest
      refine htail.mono (fun _ gc₃ hsub' hmoved' a ha => ?_)
      rcases mem_cons.mp ha with rfl | ha
      · exact hsub' (hsub hmoved)
      · exact hmoved' a ha

theorem sweepEnts_sweeps {x : ι} {idx₀ idx : Index} {rounds : ℕ} (hx : x ∈ todo)
    (hindex : R.Indexed x idx₀) (hsuffix : idx <:+ byOffset idx₀) (hrounds : idx.length ≤ rounds) :
    Sweeps R todo (sweepEnts epoch visited cache (R.item x).name rounds idx)
      (fun _ gc' => ∀ e ∈ idx, entHash e ∈ visited → entHash e ∈ gc'.moved) gc s := by
  induction rounds generalizing idx gc s with
  | zero =>
    obtain rfl := length_eq_zero_iff.mp (Nat.le_zero.mp hrounds)
    exact ⟨hinv, fun _ h => h, by simp⟩
  | succ rounds ih =>
    cases idx with
    | nil => exact ⟨hinv, fun _ h => h, by simp⟩
    | cons e idx =>
      rw [length_cons] at hrounds
      have hnext : idx <:+ byOffset idx₀ := (suffix_cons e idx).trans hsuffix
      rw [Sweeps, sweepEnts, wp_bind, wp_self]
      change Sweeps R todo (if toMove visited gc.moved e = true then _ else _) _ gc s
      split
      · rename_i hmove
        apply (cacheGet_sweeps hinv _).seq
        rintro val gc₁ s₁ hinv₁ - ⟨rfl, hval⟩
        cases val with
        | some val =>
          apply (putValue_sweeps hinv₁ (toMove_iff.mp hmove).1 (hval val rfl)).seq
          intro _ gc₂ s₂ hinv₂ _ hmoved
          refine (ih hinv₂ hnext (by omega)).mono (fun _ gc₃ hsub hrest a ha hv => ?_)
          rcases mem_cons.mp ha with rfl | ha
          · exact hsub hmoved
          · exact hrest a ha hv
        | none =>
          dsimp only
          rw [takeWhile_cons_of_pos hmove, dropWhile_cons_of_pos hmove]
          obtain ⟨pre, hpre⟩ := hsuffix
          have hcut : byOffset idx₀ = pre ++ e :: idx.takeWhile (toMove visited gc₁.moved) ++
              idx.dropWhile (toMove visited gc₁.moved) := by
            rw [← hpre, append_assoc, cons_append, takeWhile_append_dropWhile]
          have hrun : ∀ a ∈ e :: idx.takeWhile (toMove visited gc₁.moved), entHash a ∈ visited := by
            intro a ha
            rcases mem_cons.mp ha with rfl | ha
            · exact (toMove_iff.mp hmove).1
            · exact (toMove_iff.mp (mem_takeWhile_imp ha)).1
          apply (sweeps_quiet hinv₁ (q := .readAt (R.item x).name e.offset _) trivial id).seq
          rintro data gc₂ s₂ hinv₂ - ⟨rfl, r, s', hr, hT⟩
          rw [id_eq] at hr
          subst hr
          apply (moveRun_sweeps hinv₂ hrun (R.read hinv₁ hx hindex hcut hrun hT)).seq
          intro _ gc₃ s₃ hinv₃ hsub hmoved
          have hlater : ((idx.dropWhile (toMove visited gc₂.moved)).drop 1) <:+ idx :=
            (drop_suffix _ _).trans (dropWhile_suffix _)
          have hlength := hlater.length_le
          refine (ih hinv₃ (hlater.trans hnext) (by omega)).mono (fun _ gc₄ hsub' hrest a ha hv => ?_)
          rcases mem_cons.mp ha with rfl | ha
          · exact hsub' (hmoved a mem_cons_self)
          · rcases mem_run_cases (toMove visited gc₂.moved) ha with ha | hstay | ha
            · exact hsub' (hmoved a (mem_cons_of_mem _ ha))
            · rw [← Bool.not_eq_true, toMove_iff, not_and_not_right] at hstay
              exact hsub' (hsub (hstay hv))
            · exact hrest a ha hv
      · rename_i hmove
        refine (ih hinv hnext (by omega)).mono (fun _ gc' hsub hrest a ha hv => ?_)
        rcases mem_cons.mp ha with rfl | ha
        · rw [toMove_iff, not_and_not_right] at hmove
          exact hsub (hmove hv)
        · exact hrest a ha hv

end

theorem sweepPack_wp {x : ι} (hinv : R.I (x :: todo) gc s) :
    wp R.T R.G (sweepPack epoch visited cache byOffset (R.item x)) (onOk fun _ gc' s' => R.I todo gc' s') gc s := by
  refine wp_seq_ok (sweeps_quiet hinv (q := .readIndex (R.item x)) trivial id) ?_
  rintro idx gc' s₁ ⟨hinv₁, -, rfl, r, s', hr, hT⟩
  rw [id_eq] at hr
  subst hr
  have hindex := R.index hinv hT
  dsimp only
  rw [wp_bind, wp_self]
  change wp R.T _ (if _ then _ else _) _ gc' s₁
  split
  · rename_i hskip
    exact R.skip hinv₁ hindex hskip.2
  · apply wp_seq_ok (sweepEnts_sweeps hinv₁ mem_cons_self hindex suffix_rfl le_rfl)
    rintro - gc₂ s₂ ⟨hinv₂, -, hmoved⟩
    exact R.retire hinv₂ hindex hmoved

theorem sweepPacks_wp (hinv : R.I todo gc s) : wp R.T R.G (sweepPacks epoch visited cache byOffset (todo.map R.item))
      (onOk fun _ gc' s' => R.I [] gc' s') gc s := by
  induction todo generalizing gc s with
  | nil => exact hinv
  | cons x todo ih =>
    apply wp_seq_ok (sweepPack_wp hinv)
    intro _ gc₁ s₁ hinv₁
    exact ih hinv₁

theorem sweep_wp (hlisted : ∀ l s', R.T s .listPacks (.ok l) s' →
      ∃ todo : List ι, todo.map R.item = l ∧ R.I todo GcState.start s') :
    wp R.T R.G (sweep epoch visited cache byOffset)
      (onOk fun _ gc' s' => R.I [] gc' s' ∧ gc'.canDelete = [] ∧ gc'.newPack = none) GcState.start s := by
  refine wp_seq_ok (wp_send_ok (P := fun l gc' s' => gc' = GcState.start ∧
    R.T s .listPacks (.ok l) s') (R.guard (by simp)) ?_) ?_
  · intro r a s' hT hr
    rw [id_eq] at hr
    subst hr
    exact ⟨rfl, hT⟩
  · rintro l gc' s₁ ⟨rfl, hT⟩
    obtain ⟨todo, rfl, hinv⟩ := hlisted l s₁ hT
    apply wp_seq_ok (sweepPacks_wp hinv)
    intro _ gc₂ s₂ hinv₂
    refine wp_mono_ok ?_ (closeCurrentWriterAndDeleteOldPacks_sweeps hinv₂)
    rintro - gc₃ s₃ ⟨hinv₃, -, rfl⟩
    exact ⟨hinv₃, rfl, rfl⟩

end Steps

end Bpy.GcSweepRule
