import Bpy.StoreWriter

/-!
# Durability of `cstore.Writer`

The writer runs against a world that answers every request in any way, failures
included, and records what happened. A hash is committed when it is in the index of a
pack whose close succeeded, or in an index that the server listed.
-/
namespace Bpy.StoreDurability
open ByteWords InteractionPrograms PackFile StoreReader ProgramLogic StoreWriter
open ContentStore hiding put get
open Method

abbrev WriterTrace := Trace Request Request.Response

/-- The hash is in the index of a pack that was closed successfully. The server lists a
pack only after its close. -/
def Committed (tr : WriterTrace) (h : Hash) : Prop :=
  (∃ name idx, ⟨.closePack name idx, .ok ()⟩ ∈ tr ∧ h.bytes ∈ keys idx) ∨
  ∃ midx found, ⟨.loadIndex, .ok midx⟩ ∈ tr ∧ searchMetaIndex midx h = .ok (some found)

variable {h : Hash} {p : PackWriter} {w' : Writer}

theorem Committed.append {tr : WriterTrace} (hc : Committed tr h) (tr' : WriterTrace) : Committed (tr ++ tr') h := by
  rcases hc with ⟨name, idx, hmem, hkey⟩ | ⟨midx, found, hmem, hfound⟩
  · exact Or.inl ⟨name, idx, List.mem_append_left _ hmem, hkey⟩
  · exact Or.inr ⟨midx, found, List.mem_append_left _ hmem, hfound⟩

def InPack (w : Writer) (h : Hash) : Prop := ∃ p, w.pack = some p ∧ h.bytes ∈ keys p.index

/-- Every hash that `Put` returned is committed or in the open pack. -/
structure Inv (acked : List Hash) (w : Writer) (tr : WriterTrace) : Prop where
  acked : ∀ h ∈ acked, Committed tr h ∨ InPack w h
  working : ∀ h, (w.workingSet.lookup h).isSome → Committed tr h ∨ InPack w h
  rdr : ∀ midx, w.rdr = some midx → ∀ h found, searchMetaIndex midx h = .ok (some found) →
    Committed tr h

variable {acked : List Hash} {w : Writer} {tr : WriterTrace}

theorem Inv.append (hi : Inv acked w tr) (tr' : WriterTrace) : Inv acked w (tr ++ tr') where
  acked := fun h hh => (hi.acked h hh).imp_left (fun hc => hc.append tr')
  working := fun h hh => (hi.working h hh).imp_left (fun hc => hc.append tr')
  rdr := fun midx hm h found hf => (hi.rdr midx hm h found hf).append tr'

/-- What the rules of the logic come to for a recorded world. -/
abbrev Always {α : Type} (x : WriterM α) (P : Except GoError α → Writer → WriterTrace → Prop)
    (w : Writer) (tr : WriterTrace) : Prop := wp recorded (fun _ _ => True) x P w tr

theorem always_send {α : Type} {q : Request} {f : q.Response → Except GoError α}
    {P : Except GoError α → Writer → WriterTrace → Prop} :
    Always (send q f) P w tr ↔ ∀ r, P (f r) w (tr ++ [⟨q, r⟩]) := by
  rw [Always, wp_send]
  exact ⟨fun h r => h.2 r _ rfl, fun h => ⟨trivial, fun r tr' htr => htr ▸ h r⟩⟩

theorem sort_inPack (hp : w.pack = some p) (h : Hash) :
    InPack { w with pack := some { p with index := sortIndex p.index } } h ↔ InPack w h := by
  simp [InPack, hp]

section

variable (hi : Inv acked w tr)
include hi

theorem Inv.of_inPack (hp : ∀ h, InPack w h → InPack w' h)
    (hw : w'.workingSet = w.workingSet) (hr : w'.rdr = w.rdr) : Inv acked w' tr where
  acked := fun h hh => (hi.acked h hh).imp_right (hp h)
  working := fun h hh => (hi.working h (hw ▸ hh)).imp_right (hp h)
  rdr := fun midx hm => hi.rdr midx (hr ▸ hm)

theorem flushWorkingSet_spec : Always flushWorkingSet (fun _ w' tr' => Inv acked w' tr') w tr := by
  cases hp : w.pack with
  | none =>
    simp only [flushWorkingSet, Always, wp_bind, wp_self, after, hp, wp_pure]
    exact hi
  | some p =>
    have hi' : Inv acked { w with pack := some { p with index := sortIndex p.index } } tr :=
      hi.of_inPack (fun h => (sort_inPack hp h).mpr) rfl rfl
    simp only [flushWorkingSet, Always, wp_bind, wp_self, after, hp, wp_update, always_send]
    rintro (e | u)
    · exact hi'.append _
    · have hall : ∀ h, Committed tr h ∨ InPack w h → Committed (tr ++
          [⟨.closePack p.name (sortIndex p.index), .ok ()⟩]) h := by
        rintro h (hc | ⟨p', hp', hkey⟩)
        · exact hc.append _
        · rw [hp, Option.some.injEq] at hp'
          subst hp'
          exact Or.inl ⟨_, _, List.mem_append_right _ (List.mem_singleton_self _), mem_keys_sortIndex.mpr hkey⟩
      simp only [id]
      rintro (e | u)
      · exact (hi'.append _).append _
      · exact ⟨fun h hh => Or.inl ((hall h (hi.acked h hh)).append _), by simp,
          fun midx hm => ((hi.append _).append _).rdr midx hm⟩

theorem has_spec (h : Hash) :
    Always (has h) (fun r w' tr' => w' = w ∧ tr' = tr ∧ (r = .ok true → Committed tr h)) w tr := by
  simp only [has, Always, wp_bind, wp_self, after]
  cases hr : w.rdr with
  | none => simp [nilReader]
  | some midx =>
    simp only [wp_bind, wp_ofExcept]
    cases hs : searchMetaIndex midx h with
    | error e => simp [after]
    | ok found =>
      refine ⟨rfl, rfl, fun hok => ?_⟩
      cases found with
      | none => simp at hok
      | some found => exact hi.rdr midx hr h found hs

theorem openPack_spec :
    Always openPack (fun r w' tr' => Inv acked w' tr' ∧ ∀ p, r = .ok p → w'.pack = some p) w tr := by
  simp only [openPack, Always, wp_bind, wp_self, after]
  cases hp : w.pack with
  | some p => exact ⟨hi, fun p' hp' => by rw [hp, Except.ok.inj hp']⟩
  | none =>
    have hnew : ∀ p, Inv acked { w with pack := some p } tr := fun p =>
      hi.of_inPack (by rintro h ⟨p', hp', -⟩; simp [hp] at hp') rfl rfl
    simp only [wp_bind, always_send]
    rintro (e | name)
    · exact ⟨hi.append _, by simp⟩
    · simp only [id, after, wp_bind, always_send]
      rintro (e | u)
      · exact ⟨(hi.append _).append _, by simp⟩
      · simp only [after, wp_attempt, always_send]
        rintro (e | u)
        · simp only [id, after, wp_bind, wp_attempt, always_send, wp_raise]
          exact fun r => ⟨(((hi.append _).append _).append _).append _, by simp⟩
        · refine ⟨(((hnew _).append _).append _).append _, fun p hp => ?_⟩
          rw [Except.ok.inj hp]

theorem add_spec (hp : w.pack = some p) (key val : Bytes) :
    Always (add p key val) (fun r w' tr' => Inv acked w' tr' ∧ w'.workingSet = w.workingSet ∧
      (r = .ok () → ∃ p', w'.pack = some p' ∧ key ∈ keys p'.index)) w tr := by
  simp only [add, PackWriter.add, Always, wp_bind]
  split
  · next hkey =>
    exact ⟨hi.of_inPack (fun h hh => by simpa [InPack, hp] using hh) rfl rfl, rfl, fun _ => ⟨p, rfl, hkey⟩⟩
  · split
    · exact ⟨hi, rfl, by simp⟩
    · simp only [wp_bind, always_send]
      rintro (e | u)
      · exact ⟨hi.append _, rfl, by simp⟩
      · refine ⟨(hi.append _).of_inPack ?_ rfl rfl, rfl, fun _ => ⟨_, rfl, by simp [keys]⟩⟩
        rintro h ⟨p', hp', hkey⟩
        rw [hp, Option.some.injEq] at hp'
        subst hp'
        exact ⟨_, rfl, by simpa [keys] using Or.inl (by simpa [keys] using hkey)⟩

end

/-- The hashes that have been returned without an error. -/
def ack (acked : List Hash) : Except GoError Hash → List Hash
  | .ok h => h :: acked
  | .error _ => acked

theorem Inv.cons (hi : Inv acked w tr) (hh : Committed tr h ∨ InPack w h) : Inv (h :: acked) w tr :=
  ⟨by simpa using ⟨hh, hi.acked⟩, hi.working, hi.rdr⟩

theorem put_spec (sha256 : Bytes → Hash) (deflate : Bytes → Bytes) (hi : Inv acked w tr) (data : Bytes) :
    Always (put sha256 deflate data) (fun r w' tr' => Inv (ack acked r) w' tr') w tr := by
  simp only [put, Always, wp_bind, wp_self, after]
  split
  · next hw => exact hi.cons (hi.working _ hw)
  · refine wp_seq (has_spec hi (sha256 data)) ?_ ?_
    · rintro b w' tr' ⟨rfl, rfl, hb⟩
      split
      · next htrue => exact hi.cons (Or.inl (hb (by rw [htrue])))
      · refine wp_seq (openPack_spec hi) ?_ (fun e w tr h => h.1)
        rintro p w₁ tr₁ ⟨hi₁, hp₁⟩
        refine wp_seq (add_spec hi₁ (hp₁ p rfl) _ _) ?_ (fun e w tr h => h.1)
        rintro u w₂ tr₂ ⟨hi₂, hws, hadd⟩
        obtain ⟨p', hp', hkey⟩ := hadd rfl
        have hnew : Inv (sha256 data :: acked) { w₂ with
            workingSetSz := w₂.workingSetSz + (deflate data).length
            workingSet := (sha256 data, data) :: w₂.workingSet } tr₂ := by
          have hin : Committed tr₂ (sha256 data) ∨ InPack w₂ (sha256 data) := Or.inr ⟨p', hp', hkey⟩
          refine ⟨(hi₂.cons hin).acked, fun h hh => ?_, hi₂.rdr⟩
          by_cases heq : h = sha256 data
          · exact heq ▸ hin
          · rw [List.lookup_cons, beq_false_of_ne heq] at hh
            exact hi₂.working h hh
        simp only [wp_bind, wp_update, wp_self, after]
        split
        · exact wp_seq (flushWorkingSet_spec hnew) (fun _ _ _ h => h)
            (fun _ _ _ h => ⟨fun x hx => h.acked x (List.mem_cons_of_mem _ hx), h.working, h.rdr⟩)
        · exact hnew
    · rintro e w' tr' ⟨rfl, rfl, -⟩
      exact hi

theorem Inv.load (hi : Inv acked w tr) (midx : MetaIndex) :
    Inv acked { w with rdr := some midx } (tr ++ [⟨.loadIndex, .ok midx⟩]) where
  acked := (hi.append _).acked
  working := (hi.append _).working
  rdr := fun midx' hm h found hf => by
    rw [Option.some.injEq] at hm
    exact Or.inr ⟨midx, found, List.mem_append_right _ (List.mem_singleton_self _), hm ▸ hf⟩

theorem get_spec (hi : Inv acked w tr) (hash : Hash) :
    Always (StoreWriter.get hash) (fun _ w' tr' => Inv acked w' tr') w tr := by
  simp only [StoreWriter.get, Always, wp_bind, wp_self, after]
  split
  · exact hi
  · exact hi
  · next midx _ _ =>
    simp only [wp_bind, wp_ofExcept]
    cases hs : searchMetaIndex midx hash with
    | error e => exact hi
    | ok found =>
      cases found with
      | some found =>
        simp only [after, always_send]
        exact fun _ => hi.append _
      | none =>
        simp only [after, wp_bind, always_send]
        rintro (e | midx')
        · exact hi.append _
        · simp only [id, after, wp_bind, wp_update, wp_ofExcept]
          cases hs' : searchMetaIndex midx' hash with
          | error e => exact hi.load midx'
          | ok found =>
            cases found with
            | some found =>
              simp only [always_send]
              exact fun _ => (hi.load midx').append _
            | none => exact hi.load midx'

theorem flush_spec (hi : Inv acked w tr) : Always flush (fun _ w' tr' => Inv acked w' tr') w tr := by
  rw [flush]
  refine wp_seq_attempt (flushWorkingSet_spec hi) ?_
  rintro (e | u) w₁ tr₁ hi₁
  · exact hi₁
  · simp only [wp_bind, always_send]
    rintro (e | u)
    · exact hi₁.append _
    · simp only [id, after, wp_bind, wp_attempt, always_send]
      rintro (e | midx)
      · exact ⟨((hi₁.append _).append _).acked, ((hi₁.append _).append _).working, by simp⟩
      · exact (hi₁.append _).load midx

theorem close_spec (hi : Inv acked w tr) : Always close (fun _ w' tr' => Inv acked w' tr') w tr := by
  rw [close]
  refine wp_seq_attempt (flushWorkingSet_spec hi) ?_
  rintro (e | u) w₁ tr₁ hi₁
  · exact hi₁
  · simp only [always_send]
    exact fun _ => hi₁.append _

/-- The call `x` of a method of `w` returned `r` and left the writer `w'`. -/
def Returned {α : Type} (x : WriterM α) (w : Writer) (tr : WriterTrace) (r : Except GoError α)
    (w' : Writer) (tr' : WriterTrace) : Prop :=
  Prog.Runs recorded (x w) tr (.done (r, w')) tr'

theorem Returned.post {α : Type} {x : WriterM α} {r : Except GoError α}
    {tr' : WriterTrace} {P : Except GoError α → Writer → WriterTrace → Prop}
    (h : Returned x w tr r w' tr') (hx : Always x P w tr) : P r w' tr' :=
  Prog.wp_of_runs h hx

/-- The runs of one writer, with the hashes that its calls of `Put` returned without an
error. Calls go on after a failed one. -/
inductive StoreRun (sha256 : Bytes → Hash) (deflate : Bytes → Bytes) :
    List Hash → Writer → WriterTrace → Prop
  | opened {w : Writer} {tr : WriterTrace}
      (h : Prog.Runs recorded (newWriter ()) [] (.done (.ok w, ())) tr) :
      StoreRun sha256 deflate [] w tr
  | put {acked : List Hash} {w w' : Writer} {tr tr' : WriterTrace} {r : Except GoError Hash}
      (data : Bytes) (hrun : StoreRun sha256 deflate acked w tr)
      (h : Returned (StoreWriter.put sha256 deflate data) w tr r w' tr') :
      StoreRun sha256 deflate (ack acked r) w' tr'
  | get {acked : List Hash} {w w' : Writer} {tr tr' : WriterTrace} {r : Except GoError Bytes}
      (hash : Hash) (hrun : StoreRun sha256 deflate acked w tr)
      (h : Returned (StoreWriter.get hash) w tr r w' tr') : StoreRun sha256 deflate acked w' tr'
  | flush {acked : List Hash} {w w' : Writer} {tr tr' : WriterTrace} {r : Except GoError Unit}
      (hrun : StoreRun sha256 deflate acked w tr) (h : Returned flush w tr r w' tr') :
      StoreRun sha256 deflate acked w' tr'
  | close {acked : List Hash} {w w' : Writer} {tr tr' : WriterTrace} {r : Except GoError Unit}
      (hrun : StoreRun sha256 deflate acked w tr) (h : Returned close w tr r w' tr') :
      StoreRun sha256 deflate acked w' tr'

theorem inv_of_newWriter {u : Unit} (h : Prog.Runs recorded (newWriter ()) [] (.done (.ok w, u)) tr) : Inv [] w tr := by
  have hw : wp recorded (fun _ _ => True) (newWriter : Method _ _ _ Unit Writer)
      (fun r _ tr => ∀ w, r = .ok w → Inv [] w tr) () [] := by
    simp only [newWriter, wp_bind, wp_send]
    refine ⟨trivial, ?_⟩
    rintro (e | midx) tr' rfl w hw
    · simp at hw
    · rw [← Except.ok.inj hw]
      have hi : Inv [] ⟨none, [], 0, none⟩ [] := ⟨by simp, by simp, by simp⟩
      exact hi.load midx
  exact Prog.wp_of_runs h hw w rfl

theorem StoreRun.inv {sha256 : Bytes → Hash} {deflate : Bytes → Bytes}
    (h : StoreRun sha256 deflate acked w tr) : Inv acked w tr := by
  induction h with
  | opened h => exact inv_of_newWriter h
  | put data _ h hi => exact h.post (put_spec sha256 deflate hi data)
  | get hash _ h hi => exact h.post (get_spec hi hash)
  | flush _ h hi => exact h.post (flush_spec hi)
  | close _ h hi => exact h.post (close_spec hi)

/-- The two calls that report that everything is stored. -/
inductive Report where
  | flush
  | close

def Report.call : Report → WriterM Unit
  | .flush => StoreWriter.flush
  | .close => StoreWriter.close

/-- There is no open pack, or its close succeeds among the events `ev` of the call, or
the acknowledged hashes in it had been committed before. -/
def Saved (acked : List Hash) (w : Writer) (tr ev : WriterTrace) : Prop :=
  ∀ p, w.pack = some p → ⟨.closePack p.name (sortIndex p.index), .ok ()⟩ ∈ ev ∨
    ∀ h ∈ acked, h.bytes ∈ keys p.index → Committed tr h

theorem committed_of_saved (hi : Inv acked w tr) {ev : WriterTrace} (hs : Saved acked w tr ev) :
    ∀ h ∈ acked, Committed (tr ++ ev) h := by
  intro h hh
  rcases hi.acked h hh with hc | ⟨p, hp, hkey⟩
  · exact hc.append ev
  · rcases hs p hp with hclosed | hall
    · exact Or.inl ⟨_, _, List.mem_append_right _ hclosed, mem_keys_sortIndex.mpr hkey⟩
    · exact (hall h hh hkey).append ev

theorem committed_of_failed_close {name : Bytes} {idx : Index} {e : GoError}
    (hc : Committed (tr ++ [⟨.closePack name idx, .error e⟩]) h) : Committed tr h := by
  rcases hc with ⟨name', idx', hmem, hkey⟩ | ⟨midx, found, hmem, hfound⟩
  · rcases List.mem_append.mp hmem with hmem | hmem
    · exact Or.inl ⟨name', idx', hmem, hkey⟩
    · simp at hmem
  · rcases List.mem_append.mp hmem with hmem | hmem
    · exact Or.inr ⟨midx, found, hmem, hfound⟩
    · simp at hmem

/-- The pack was closed among `ev`, or `ev` ends with the failed attempt to do so. -/
def CloseTried (p : PackWriter) (ev : WriterTrace) : Prop :=
  ⟨.closePack p.name (sortIndex p.index), .ok ()⟩ ∈ ev ∨
    ∃ e, ev = [⟨.closePack p.name (sortIndex p.index), .error e⟩]

theorem flushWorkingSet_events (hp : w.pack = some p) :
    Always flushWorkingSet (fun r _ tr' => ∃ ev, tr' = tr ++ ev ∧ CloseTried p ev ∧
      (r = .ok () → ⟨.closePack p.name (sortIndex p.index), .ok ()⟩ ∈ ev)) w tr := by
  simp only [flushWorkingSet, Always, wp_bind, wp_self, after, hp, wp_update, always_send, id]
  rintro (e | u)
  · exact ⟨_, rfl, Or.inr ⟨e, rfl⟩, by simp⟩
  · intro r
    have hmem : ⟨.closePack p.name (sortIndex p.index), .ok ()⟩ ∈ ([⟨.closePack p.name
        (sortIndex p.index), .ok ()⟩, ⟨.cacheIndex p.name (sortIndex p.index), r⟩] : WriterTrace) := by
      simp
    cases r <;> exact ⟨_, by rw [List.append_assoc]; rfl, Or.inl hmem, fun _ => hmem⟩

theorem report_events (op : Report) (hp : w.pack = some p) :
    Always op.call (fun _ _ tr' => ∃ ev, tr' = tr ++ ev ∧ CloseTried p ev) w tr := by
  have hrest (x : WriterM Unit) (w₁ : Writer) {ev : WriterTrace}
      (hok : ⟨.closePack p.name (sortIndex p.index), .ok ()⟩ ∈ ev) :
      Always x (fun _ _ tr' => ∃ ev, tr' = tr ++ ev ∧ CloseTried p ev) w₁ (tr ++ ev) := by
    refine Prog.wp_mono ?_ _ _ (wp_recorded_extends (x w₁) (tr ++ ev))
    rintro _ tr' ⟨ev', rfl⟩
    exact ⟨ev ++ ev', by rw [List.append_assoc], Or.inl (List.mem_append_left _ hok)⟩
  cases op with
  | flush =>
    refine wp_seq_attempt (flushWorkingSet_events hp) ?_
    rintro r w₁ tr₁ ⟨ev, rfl, htried, hok⟩
    cases r with
    | error e => exact ⟨ev, rfl, htried⟩
    | ok u => exact hrest _ w₁ (hok rfl)
  | close =>
    refine wp_seq_attempt (flushWorkingSet_events hp) ?_
    rintro r w₁ tr₁ ⟨ev, rfl, htried, hok⟩
    cases r with
    | error e => exact ⟨ev, rfl, htried⟩
    | ok u => exact hrest _ w₁ (hok rfl)

/-- Exactly when the pack was saved is everything committed that the writer acknowledged
before a `Flush` or `Close` that returned without an error. -/
theorem report_durable_iff_saved {sha256 : Bytes → Hash} {deflate : Bytes → Bytes} {w' : Writer}
    {ev : WriterTrace} (op : Report) (hrun : StoreRun sha256 deflate acked w tr)
    (hop : Returned op.call w tr (.ok ()) w' (tr ++ ev)) :
    (∀ h ∈ acked, Committed (tr ++ ev) h) ↔ Saved acked w tr ev := by
  refine ⟨fun hall p hp => ?_, committed_of_saved hrun.inv⟩
  obtain ⟨ev', hev, hclosed | ⟨e, rfl⟩⟩ := hop.post (report_events op hp)
  · exact Or.inl (List.append_cancel_left hev ▸ hclosed)
  · refine Or.inr (fun h hh _ => committed_of_failed_close (hev ▸ hall h hh))

/-- The name of the pack of the run below. -/
def packName : Bytes := 1 :: ascii ".ebpack"

/-- A writer with one chunk in its open pack, and what it took to get there. -/
def onePack : Writer :=
  ⟨some ⟨packName, [⟨(Hash.copy [7]).bytes, 1, 0⟩], 1⟩, [(Hash.copy [7], [7])], 1, some []⟩

def onePackTrace : WriterTrace :=
  [⟨.loadIndex, .ok []⟩, ⟨.randomName, .ok [1]⟩, ⟨.newPack packName, .ok ()⟩,
    ⟨.initPack packName, .ok ()⟩, ⟨.writePack packName [7], .ok ()⟩]

theorem storeRun_onePack : StoreRun Hash.copy id [Hash.copy [7]] onePack onePackTrace := by
  have hopen : StoreRun Hash.copy id [] ⟨none, [], 0, some []⟩ [⟨.loadIndex, .ok []⟩] :=
    .opened (.step (r := (.ok [] : Except GoError MetaIndex)) rfl (.refl _ _))
  have hput : Returned (StoreWriter.put Hash.copy id [7]) ⟨none, [], 0, some []⟩
      [⟨.loadIndex, .ok []⟩] (.ok (Hash.copy [7])) onePack onePackTrace := by
    refine .step (r := (.ok [1] : Except GoError Bytes)) rfl ?_
    refine .step (r := (.ok () : Except GoError Unit)) rfl ?_
    refine .step (r := (.ok () : Except GoError Unit)) rfl ?_
    exact .step (r := (.ok () : Except GoError Unit)) rfl (.refl _ _)
  exact .put [7] hopen hput

/-- `Close` reports success although the only pack could not be closed. -/
theorem close_drops_failed_pack :
    StoreRun Hash.copy id [Hash.copy [7]] onePack onePackTrace ∧
    (∃ w', Returned StoreWriter.close onePack onePackTrace (.ok ()) w' (onePackTrace ++
      [⟨.closePack packName (sortIndex [⟨(Hash.copy [7]).bytes, 1, 0⟩]), .error (.text "disk full")⟩])) ∧
    ¬ Committed (onePackTrace ++ [⟨.closePack packName (sortIndex [⟨(Hash.copy [7]).bytes, 1, 0⟩]),
      .error (.text "disk full")⟩]) (Hash.copy [7]) := by
  refine ⟨storeRun_onePack, ⟨_, .step (r := (.error _ : Except GoError Unit)) rfl (.refl _ _)⟩, ?_⟩
  intro hc
  rcases committed_of_failed_close hc with ⟨name, idx, hmem, -⟩ | ⟨midx, found, hmem, hfound⟩
  · simp [onePackTrace] at hmem
  · have hnil : midx = [] := by simpa [onePackTrace] using hmem
    simp [hnil, searchMetaIndex] at hfound

theorem report_durable_one_pack :
    Committed (onePackTrace ++
      [⟨.closePack packName (sortIndex [⟨(Hash.copy [7]).bytes, 1, 0⟩]), .ok ()⟩,
        ⟨.cacheIndex packName (sortIndex [⟨(Hash.copy [7]).bytes, 1, 0⟩]), .ok ()⟩,
        ⟨.closeReader, .ok ()⟩]) (Hash.copy [7]) := by
  have hclose : Returned Report.close.call onePack onePackTrace (.ok ()) ⟨none, [], 0, some []⟩
      (onePackTrace ++ [⟨.closePack packName (sortIndex [⟨(Hash.copy [7]).bytes, 1, 0⟩]), .ok ()⟩,
        ⟨.cacheIndex packName (sortIndex [⟨(Hash.copy [7]).bytes, 1, 0⟩]), .ok ()⟩,
        ⟨.closeReader, .ok ()⟩]) := by
    refine .step (r := (.ok () : Except GoError Unit)) rfl ?_
    refine .step (r := (.ok () : Except GoError Unit)) rfl ?_
    exact .step (r := (.ok () : Except GoError Unit)) rfl (.refl _ _)
  refine (report_durable_iff_saved .close storeRun_onePack hclose).mpr ?_ _ (List.mem_singleton_self _)
  intro p hp
  rw [← Option.some.inj hp]
  exact Or.inl (List.mem_cons_self ..)

end Bpy.StoreDurability
