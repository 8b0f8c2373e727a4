import Mathlib.Data.List.Infix
import Bpy.RemoteCalls

/-!
# The errors of packs

The server tells by `RPackError` that an upload has failed, and `Pack.Write` asks a table for
the error of its pack. What the table should hold follows from the past. What it does hold
is never an error, because `setPidError` writes back the value that it has read.
-/
namespace Bpy.PackErrors
open ByteWords InteractionPrograms ContentStore RemoteMessages Interleaving RemoteClient RemoteProtocol RemoteCalls
open Function

variable {w w' : World} {past : List ClientEvent} {maxsz : UInt32} {c : Choice} {i : ℕ}

section Table

/-- The error that the server has told of a pack whose id is in use. -/
def reports (pid : UInt32) : List ClientEvent → Option (Option GoError)
  | [] => none
  | .act _ _ (.nextId .pack) (.ok pid') :: past => if pid' = pid then some none else reports pid past
  | .act _ _ (.freeId .pack pid') _ :: past => if pid' = pid then none else reports pid past
  | .act _ _ (.setPidError pid' err) _ :: past =>
    if pid' = pid then (reports pid past).map (fun _ => some err) else reports pid past
  | _ :: past => reports pid past

/-- What `checkPidError` has to answer. -/
def expected (pid : UInt32) (past : List ClientEvent) : Option GoError :=
  match reports pid past with
  | none => some errNoSuchPid
  | some err => err

/-- The table knows which ids are in use, and no error. -/
def Forgetful (w : World) (past : List ClientEvent) : Prop :=
  ∀ pid, w.client.pids.lookup pid = (reports pid past).map (fun _ => none)

variable {pid : UInt32}

theorem Forgetful.check (h : Forgetful w past) :
    w.client.checkPidError pid = if (reports pid past).isSome then none else some errNoSuchPid := by
  rw [Client.checkPidError, h pid]
  cases reports pid past with
  | none => rfl
  | some err => rfl

theorem Forgetful.congr {ev : ClientEvent} (h : Forgetful w past) (hpids : w'.client.pids = w.client.pids)
    (hev : ∀ pid, reports pid (ev :: past) = reports pid past) : Forgetful w' (ev :: past) := by
  intro pid
  rw [hpids, hev]
  exact h pid

theorem Forgetful.act {q : Request} {r : Response q} (h : Forgetful w past)
    (hact : act maxsz c i q w = some (r, w')) : Forgetful w' (.act i c q r :: past) := by
  cases q with
  | nextId t =>
    cases t with
    | file =>
      obtain ⟨fids, rfl⟩ := act_nextFid hact
      exact h.congr rfl (fun _ => rfl)
    | pack =>
      obtain ⟨e, rfl, rfl⟩ | ⟨pid, rfl, rfl⟩ := act_nextPid hact
      · exact h.congr rfl (fun _ => rfl)
      · intro pid'
        dsimp only
        rw [lookup_assign, reports]
        by_cases hpid : pid' = pid
        · rw [if_pos hpid, if_pos hpid.symm]
          rfl
        · rw [if_neg hpid, if_neg (fun heq => hpid heq.symm)]
          exact h pid'
  | freeId t id =>
    cases t with
    | file =>
      cases hact
      exact h.congr rfl (fun _ => rfl)
    | pack =>
      cases hact
      intro pid'
      dsimp only [World.on, Client.freePid]
      rw [lookup_delete, reports]
      by_cases hpid : pid' = id
      · rw [if_pos hpid, if_pos hpid.symm]
        rfl
      · rw [if_neg hpid, if_neg (fun heq => hpid heq.symm)]
        exact h pid'
  | setPidError pid err =>
    cases hact
    intro pid'
    rw [reports]
    dsimp only [World.on, Client.setPidError]
    have hpid := h pid
    have hother := h pid'
    split
    · next hlookup =>
      -- the id is not in use
      split
      · next heq =>
        subst heq
        rw [hlookup] at hpid
        rw [hother, Option.map_map]
        rfl
      · exact hother
    · next err' hlookup =>
      rw [lookup_assign]
      by_cases heq : pid' = pid
      · subst heq
        rw [if_pos rfl, if_pos rfl, Option.map_map]
        rw [hlookup] at hpid
        rw [hpid]
        rfl
      · rw [if_neg heq, if_neg (fun hx => heq hx.symm)]
        exact hother
  | newCall =>
    obtain ⟨client, hnew, rfl⟩ := act_newCall hact
    cases r with
    | error e =>
      obtain rfl := newCall_error hnew
      exact h.congr rfl (fun _ => rfl)
    | ok x =>
      obtain ⟨mid, -, -, -, -, rfl⟩ := newCall_ok hnew
      exact h.congr rfl (fun _ => rfl)
  | writeMessage m => exact h.congr (by rw [(writeMessage_client hact).1]) (fun _ => rfl)
  | receive ch =>
    obtain ⟨-, rfl⟩ := act_receive hact
    exact h.congr rfl (fun _ => rfl)
  | close =>
    cases hact
    refine h.congr ?_ (fun _ => rfl)
    change w.client.close.2.pids = w.client.pids
    rcases close_cases w.client with hsame | ⟨-, hclose⟩
    · rw [hsame]
    · rw [hclose]
  | readHead =>
    obtain ⟨k, rfl⟩ := readFull_take hact
    exact h.congr rfl (fun _ => rfl)
  | readBody sz =>
    obtain ⟨k, rfl⟩ := readFull_take hact
    exact h.congr rfl (fun _ => rfl)
  | deliver mid m =>
    obtain ⟨client, hdeliver, rfl⟩ := act_deliver hact
    rcases deliver_cases hdeliver with rfl | ⟨ch, -, -, rfl⟩ <;> exact h.congr rfl (fun _ => rfl)
  | stall => cases hact
  | _ =>
    cases hact
    exact h.congr rfl (fun _ => rfl)

end Table

section Writing

/-- How far a `Pack.Write` is. -/
inductive Writing where
  | other
  | fresh
  | checked (err : Option GoError)

/-- `Pack.Write` asks once, and if it is told an error it does nothing more. -/
def writes : Discipline Request Response Writing where
  allows
    | .checked none, q => ∀ pid, q ≠ .checkPidError pid
    | .checked (some _), _ => False
    | _, _ => True
  next
    | .fresh, .checkPidError _, err => .checked err
    | ph, _, _ => ph

def writingOf : Op → Writing
  | .packWrite _ _ _ _ => .fresh
  | _ => .other

/-- `Pack.Write` returns the error that it is told. -/
def ended (a : Outcome) (ph : Writing) : Prop :=
  ∀ e, ph = .checked (some e) → a = (.ok (.wrote 0 (some e)), ())

theorem wp_writeLoop (maxn pid : UInt32) (rounds : ℕ) (buf : Bytes) (nsent : ℕ) :
    writes.wp (writeLoop maxn pid rounds buf nsent) (fun _ _ ph => ph = .checked none) () (.checked none) := by
  induction rounds generalizing buf nsent with
  | zero => exact Discipline.wp_send (fun _ h => by cases h) (fun r => by cases r)
  | succ rounds ih =>
    rw [writeLoop]
    split
    · exact Discipline.wp_pure rfl
    · apply Discipline.wp_attempt_bind (fun _ _ ph => ph = .checked none)
      · exact Discipline.wp_send (fun _ h => by cases h) (fun _ => rfl)
      · intro r _ ph hph
        rw [hph]
        cases r with
        | error e => exact Discipline.wp_pure rfl
        | ok u => exact ih _ _

theorem method_writes (op : Op) : writes.Keeps (op.method maxsz ()) ended (writingOf op) := by
  cases op with
  | packWrite p pid buf rounds =>
    have hwrite : writes.wp (packWrite maxsz pid buf rounds) (fun r _ ph =>
        ∀ e, ph = .checked (some e) → r = .ok (0, some e)) () .fresh := by
      refine wp_ask_bind trivial (fun err => ?_)
      cases err with
      | some e =>
        refine Discipline.wp_pure ?_
        intro e' he
        cases he
        rfl
      | none =>
        apply Discipline.wp_mono (wp_writeLoop _ pid rounds buf 0)
        intro r _ ph hph e he
        rw [hph] at he
        cases he
    change writes.wp _ (fun r w ph => ended (r, w) ph) () .fresh
    apply Discipline.wp_bind _ hwrite
    · intro x _ ph hx
      obtain ⟨n, err⟩ := x
      refine Discipline.wp_pure ?_
      intro e he
      cases hx e he
      rfl
    · intro e _ ph hx e' he
      cases hx e' he
  | _ =>
    apply ProgramLogic.Prog.wp_mono _ _ _ (Discipline.keeps_of_inert (fun _ => trivial) (fun _ _ => rfl) _)
    intro a ph hph e he
    rw [hph] at he
    cases he

end Writing

section Told

/-- A `Pack.Write` asks for the error of its pack and is told `r`. -/
def Asks (past : List ClientEvent) (i : ℕ) (pid : UInt32) (r : Option GoError) (before : List ClientEvent) : Prop :=
  ∃ c f buf rounds, (.act i c (.checkPidError pid) r :: before) <:+ past ∧
    .start i (.packWrite f pid buf rounds) ∈ before

structure Told (phases : ℕ → Option (Op × Writing)) (w : World) (past : List ClientEvent) : Prop where
  table : Forgetful w past
  answers : ∀ {before i pid r}, Asks past i pid r before →
    r = if (reports pid before).isSome then none else some errNoSuchPid
  started : ∀ {i f pid buf rounds}, .start i (.packWrite f pid buf rounds) ∈ past →
    ∃ op ph, phases i = some (op, ph) ∧ ph ≠ .other
  checked : ∀ {before i pid e}, Asks past i pid (some e) before → part some phases i = some (.checked (some e))

variable {phases : ℕ → Option (Op × Writing)} {ev : ClientEvent} {op : Op} {ph : Writing}

theorem asks_cons {j : ℕ} {pid : UInt32} {r : Option GoError} {before : List ClientEvent}
    (h : Asks (ev :: past) j pid r before) : Asks past j pid r before ∨
      ∃ c f buf rounds, ev = .act j c (.checkPidError pid) r ∧ before = past ∧
        .start j (.packWrite f pid buf rounds) ∈ past := by
  obtain ⟨c, f, buf, rounds, hsuffix, hstart⟩ := h
  rcases List.suffix_cons_iff.mp hsuffix with heq | hsuffix
  · cases heq
    exact Or.inr ⟨c, f, buf, rounds, rfl, rfl, hstart⟩
  · exact Or.inl ⟨c, f, buf, rounds, hsuffix, hstart⟩

theorem writes_next_ne_other {q : Request} {r : Response q} (h : ph ≠ .other) : writes.next ph q r ≠ .other := by
  cases ph with
  | other => exact absurd rfl h
  | fresh => cases q <;> nofun
  | checked err => nofun

theorem Told.act {q : Request} {r : Response q} (h : Told phases w past) (hi : phases i = some (op, ph))
    (hallows : writes.allows ph q) (hact : act maxsz c i q w = some (r, w')) :
    Told (update phases i (some (op, writes.next ph q r))) w' (.act i c q r :: past) := by
  refine ⟨h.table.act hact, ?_, ?_, ?_⟩
  · intro before j pid r' hask
    rcases asks_cons hask with hask | ⟨c', f, buf, rounds, heq, rfl, -⟩
    · exact h.answers hask
    · cases heq
      cases hact
      exact h.table.check
  · intro j f pid buf rounds hj
    rcases List.mem_cons.mp hj with heq | hj
    · cases heq
    · obtain ⟨op', ph', hphase, hne⟩ := h.started hj
      by_cases hji : j = i
      · subst hji
        rw [hi] at hphase
        cases hphase
        exact ⟨op, _, update_self .., writes_next_ne_other hne⟩
      · exact ⟨op', ph', by rw [update_of_ne hji]; exact hphase, hne⟩
  · intro before j pid e hask
    rcases asks_cons hask with hask | ⟨c', f, buf, rounds, heq, rfl, hstart⟩
    · have hj := h.checked hask
      by_cases hji : j = i
      · -- the thread is finished
        subst hji
        rw [part_of_phase hi] at hj
        cases hj
        cases hallows
      · rw [part_update, update_of_ne hji]
        exact hj
    · cases heq
      obtain ⟨op', ph', hphase, hne⟩ := h.started hstart
      rw [hi] at hphase
      cases hphase
      rw [part_update, update_self]
      cases ph with
      | other => exact absurd rfl hne
      | fresh => rfl
      | checked err =>
        cases err with
        | none => exact absurd rfl (hallows pid)
        | some e' => cases hallows

theorem Told.start (h : Told phases w past) (hi : phases i = none) :
    Told (update phases i (some (op, writingOf op))) w (.start i op :: past) := by
  have hasks {before : List ClientEvent} {j : ℕ} {pid : UInt32} {r : Option GoError}
      (hask : Asks (.start i op :: past) j pid r before) : Asks past j pid r before := by
    rcases asks_cons hask with hask | ⟨c', f, buf, rounds, heq, -, -⟩
    · exact hask
    · cases heq
  refine ⟨h.table.congr rfl (fun _ => rfl), fun hask => h.answers (hasks hask), ?_, ?_⟩
  · intro j f pid buf rounds hj
    rcases List.mem_cons.mp hj with heq | hj
    · cases heq
      exact ⟨_, _, update_self .., nofun⟩
    · obtain ⟨op', ph', hphase, hne⟩ := h.started hj
      have hji : j ≠ i := by
        rintro rfl
        rw [hi] at hphase
        cases hphase
      exact ⟨op', ph', by rw [update_of_ne hji]; exact hphase, hne⟩
  · intro before j pid e hask
    have hj := h.checked (hasks hask)
    have hji : j ≠ i := by
      rintro rfl
      rw [part, hi] at hj
      cases hj
    rw [part_update, update_of_ne hji]
    exact hj

theorem Told.env {e : ServerStep} (h : Told phases w past) (hclient : w'.client = w.client) :
    Told phases w' (.env e :: past) := by
  have hasks {before : List ClientEvent} {j : ℕ} {pid : UInt32} {r : Option GoError}
      (hask : Asks (.env e :: past) j pid r before) : Asks past j pid r before := by
    rcases asks_cons hask with hask | ⟨c', f, buf, rounds, heq, -, -⟩
    · exact hask
    · cases heq
  refine ⟨h.table.congr (by rw [hclient]) (fun _ => rfl), fun hask => h.answers (hasks hask), ?_,
    fun hask => h.checked (hasks hask)⟩
  intro j f pid buf rounds hj
  rcases List.mem_cons.mp hj with heq | hj
  · cases heq
  · exact h.started hj

variable {rule : Message → Bool → Message → Bool} {rounds : ℕ} {ls : List ClientLabel}
  {p : Pool Op Request Response Choice ServerStep Outcome World}

def attachedWrites (rounds : ℕ) (i : ℕ) : Option (Op × Writing) :=
  if i = 0 then some (.readMessages rounds, .other) else none

theorem attached_writes (maxsz : UInt32) (rounds : ℕ) : writes.Views (fun _ => ended)
    ⟨attachedWrites rounds, World.init maxsz, []⟩ (attached maxsz rounds) where
  fits i := by
    dsimp only [attached, attachedWrites]
    split
    · exact .used (method_writes (.readMessages rounds))
    · exact .unused
  shared := rfl
  past := rfl

theorem Told.init (maxsz : UInt32) (rounds : ℕ) : Told (attachedWrites rounds) (World.init maxsz) [] := by
  have hasks {before : List ClientEvent} {j : ℕ} {pid : UInt32} {r : Option GoError}
      (hask : Asks [] j pid r before) : False := by
    obtain ⟨c, f, buf, rounds, hsuffix, -⟩ := hask
    cases List.suffix_nil.mp hsuffix
  refine ⟨fun _ => rfl, fun hask => (hasks hask).elim, ?_, fun hask => (hasks hask).elim⟩
  intro j f pid buf rounds hj
  cases hj

/-- In every run `Pack.Write` is told the error that the server has reported, and returns it,
exactly if no `Pack.Write` asks for the error of a pack for which there is one. -/
theorem write_reports_errors (hrun : run (system maxsz rule) ls (attached maxsz rounds) = some p) :
    (∀ i pid r before, Asks p.past i pid r before → r = expected pid before ∧
      ∀ e, r = some e → p.results i = some (.ok (.wrote 0 (some e)), ())) ↔
    ∀ i pid r before e, Asks p.past i pid r before → reports pid before ≠ some (some e) := by
  have hI : Discipline.Invariant (system maxsz rule) writes writingOf (fun _ => ended) (fun _ _ _ => True)
      (fun v => Told v.phases v.shared v.past) := by
    refine ⟨fun h hi _ _ _ => h.start hi, fun h hi hallows hact _ => h.act hi hallows hact, ?_⟩
    intro v e w' h henv _
    obtain ⟨inbox, unanswered, rfl⟩ := serve_client henv
    exact h.env rfl
  obtain ⟨v, hviews, htold⟩ := hI.of_run (fun op => method_writes op)
    ⟨_, attached_writes maxsz rounds, Told.init maxsz rounds⟩ (careful_true _ _) hrun
  rw [hviews.past] at htold
  constructor
  · intro h i pid r before e hask hreports
    have hr := (h i pid r before hask).1
    rw [expected, hreports, htold.answers hask, hreports] at hr
    cases hr
  · intro h i pid r before hask
    refine ⟨?_, ?_⟩
    · rw [htold.answers hask, expected]
      cases hreports : reports pid before with
      | none => rfl
      | some err =>
        cases err with
        | none => rfl
        | some e => exact absurd hreports (h i pid r before e hask)
    · rintro e rfl
      obtain ⟨op, hphase⟩ := phase_of_part (htold.checked hask)
      have hfits := hviews.fits i
      rw [hphase] at hfits
      obtain ⟨a, ha, hended⟩ := Discipline.result_of_stuck hfits (fun _ => id)
      rw [hended e rfl] at ha
      exact ha

/-- A pack is opened. -/
def newPackRun : List ClientLabel :=
  [.start 1 (.newPack []), .act 1 .go, .act 1 .go, .act 1 (.received true), .act 1 .go,
    .env (.answer 1 ⟨.RNewPack, (1, ())⟩), .act 0 .go, .act 0 .go, .act 0 .go, .act 1 .go, .act 1 .go]

def writeRun : List ClientLabel := [.start 2 (.packWrite 1 1 [10, 11] 2), .act 2 .go, .act 2 (.received false)]

/-- No `checkPidError` comes while an error is reported. -/
def quiet (past : List ClientEvent) : Bool :=
  past.tails.all fun
    | .act _ _ (.checkPidError pid) _ :: before => !(reports pid before).any Option.isSome
    | _ => true

theorem quiet_asks {i : ℕ} {pid : UInt32} {r : Option GoError} {past before : List ClientEvent}
    (h : quiet past = true) (hask : Asks past i pid r before) (e : GoError) : reports pid before ≠ some (some e) := by
  obtain ⟨c, f, buf, rounds, hsuffix, -⟩ := hask
  intro hreports
  have hcheck := List.all_eq_true.mp h _ ((List.mem_tails _ _).mpr hsuffix)
  dsimp only at hcheck
  rw [hreports] at hcheck
  cases hcheck

/-- The pack is written to, and no error has been reported. -/
theorem write_reports_errors_two_bytes : ∃ p,
    run (system 100 fun _ _ _ => true) (newPackRun ++ writeRun) (attached 100 1) = some p ∧
      ∀ i pid r before, Asks p.past i pid r before → r = expected pid before ∧
        ∀ e, r = some e → p.results i = some (.ok (.wrote 0 (some e)), ()) := by
  have hquiet : (run (system 100 fun _ _ _ => true) (newPackRun ++ writeRun) (attached 100 1)).map
      (fun p => quiet p.past) = some true := by
    decide +kernel
  obtain ⟨p, hp, hquiet⟩ := Option.map_eq_some_iff.mp hquiet
  exact ⟨p, hp, (write_reports_errors hp).mpr fun i pid r before e hask => quiet_asks hquiet hask e⟩

/-- The number of bytes that a `Pack.Write` has sent, if it returns no error. -/
def wroteOf : Option Outcome → Option ℕ
  | some (.ok (.wrote n none), ()) => some n
  | _ => none

/-- The server reports an error, the reader processes it, and `Pack.Write` returns no error. -/
theorem write_after_error : ((run (system 100 fun _ _ _ => true) (newPackRun ++
    [.env (.notify ⟨.RPackError, (1, [70], ())⟩), .act 0 .go, .act 0 .go, .act 0 .go, .act 0 .go] ++ writeRun)
    (attached 100 2)).any fun p =>
      decide ((reports 1 p.past).any Option.isSome = true ∧ wroteOf (p.results 2) = some 2)) = true := by
  decide +kernel

end Told

end Bpy.PackErrors
