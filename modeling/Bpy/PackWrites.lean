import Mathlib.Tactic.IntervalCases
import Bpy.RemoteClient

/-!
# `Pack.Write`

A buffer is sent in messages that fit the message size of the server. The size of their
data is the message size less the overhead of a `TWritePack`, as a `uint32` value: it is 0 if
the server asked for 13 bytes, and very large if it asked for fewer.
-/
namespace Bpy.PackWrites
open ByteWords InteractionPrograms ContentStore RemoteMessages RemoteMessageRoundTrip RemoteClient ProgramLogic Method
open List hiding le_trans not_lt

/-- One message of `Write`. -/
def writePack (pid : UInt32) (data : Bytes) : Message := ⟨.TWritePack, (pid, data, ())⟩

/-- The messages on the connection, before and after a request of `Write`. The connection may
fail, and an error of the pack may have been reported. -/
inductive Answer (maxsz : UInt32) : List Message → (q : Request) → Response q → List Message → Prop
  | checked (wire : List Message) (pid : UInt32) {err : Option GoError} (herr : ∀ msg, err ≠ some (.panic msg)) :
      Answer maxsz wire (.checkPidError pid) err wire
  /-- the error of `PackMessage` is lost -/
  | dropped {wire : List Message} {m : Message} {e : GoError} (h : packMessage m maxsz.toNat = .error e)
      (he : ∀ msg, e ≠ .panic msg) : Answer maxsz wire (.writeMessage m) (.ok ()) wire
  | panicked {wire : List Message} {m : Message} {msg : String}
      (h : packMessage m maxsz.toNat = .error (.panic msg)) :
      Answer maxsz wire (.writeMessage m) (.error (.panic msg)) wire
  | sent {wire : List Message} {m : Message} {bytes : Bytes} (h : packMessage m maxsz.toNat = .ok bytes) :
      Answer maxsz wire (.writeMessage m) (.ok ()) (wire ++ [m])
  | failed {wire : List Message} {m : Message} {bytes : Bytes} {e : GoError}
      (h : packMessage m maxsz.toNat = .ok bytes) (he : ∀ msg, e ≠ .panic msg) :
      Answer maxsz wire (.writeMessage m) (.error e) wire

/-- The requests of `Write`. -/
def Issued (_ : List Message) : Request → Prop
  | .checkPidError _ | .writeMessage _ => True
  | _ => False

section Write

variable (maxsz pid : UInt32)

/-- `Write` returns without a panic, and if it returns no error, all of the buffer is on the
connection, in messages that the server accepts. -/
def Written (buf : Bytes) (r : Except GoError (ℕ × Option GoError)) (wire : List Message) : Prop :=
  (∃ n err, r = .ok (n, err) ∧ ∀ msg, err ≠ some (.panic msg)) ∧
  ∀ n, r = .ok (n, none) → n = buf.length ∧
    ∃ parts : List Bytes, parts.flatten = buf ∧ wire = parts.map (writePack pid) ∧
      ∀ m ∈ wire, size m ≤ maxsz.toNat

/-- `Write` ends after some number of rounds, whatever is answered, and has sent the buffer. -/
def Sends (buf : Bytes) : Prop :=
  ∃ least, ∀ rounds, least ≤ rounds →
    Method.wp (Answer maxsz) Issued (packWrite maxsz pid buf rounds) (fun r _ => Written maxsz pid buf r) () []

/-- The number of bytes that a round of the loop sends. -/
def portion (maxn : UInt32) (buf : Bytes) : ℕ :=
  (if UInt32.ofNat buf.length < maxn then UInt32.ofNat buf.length else maxn).toNat

theorem portion_eq {maxn : UInt32} {buf : Bytes} (hlen : buf.length < 2 ^ 32) :
    portion maxn buf = min buf.length maxn.toNat := by
  have hnat : (UInt32.ofNat buf.length).toNat = buf.length := UInt32.toNat_ofNat_of_lt' hlen
  rw [portion]
  split
  · next hlt =>
    rw [UInt32.lt_iff_toNat_lt, hnat] at hlt
    rw [hnat, min_eq_left hlt.le]
  · next hge =>
    rw [UInt32.lt_iff_toNat_lt, hnat, not_lt] at hge
    rw [min_eq_right hge]

theorem size_writePack (data : Bytes) : size (writePack pid data) = 13 + data.length := by
  have hsize : size (writePack pid data) = 5 + (4 + (4 + data.length + 0)) := rfl
  omega

variable {maxsz pid}
variable {maxn : UInt32} {rounds nsent : ℕ} {buf : Bytes} {wire : List Message}
  {P : Except GoError (ℕ × Option GoError) → Unit → List Message → Prop}

theorem wp_writeLoop_round (hbuf : buf ≠ []) :
    wp (Answer maxsz) Issued (writeLoop maxn pid (rounds + 1) buf nsent) P () wire ↔
      ∀ r wire', Answer maxsz wire (.writeMessage (writePack pid (buf.take (portion maxn buf)))) r wire' →
        (∀ e, r = .error e → P (.ok (nsent, some e)) () wire') ∧
        (r = .ok () → wp (Answer maxsz) Issued
          (writeLoop maxn pid rounds (buf.drop (portion maxn buf)) (nsent + portion maxn buf)) P () wire') := by
  rw [writeLoop, if_neg (by simpa using hbuf)]
  simp only [wp_bind, wp_attempt, tWritePack, wp_send, Issued, true_and]
  refine forall_congr' fun r => forall_congr' fun wire' => imp_congr_right fun _ => ?_
  cases r with
  | error e => simp [Method.after]
  | ok u => simp [Method.after, portion]

theorem packMessage_writePack_short (data : Bytes) {n : ℕ} (hn : n < 11) :
    packMessage (writePack pid data) n = .error errMsgTooLarge := by
  interval_cases n <;> rfl

theorem packMessage_writePack_panics (data : Bytes) {n : ℕ} (hlo : 11 ≤ n) (hhi : n < 13) :
    packMessage (writePack pid data) n = .error (.panic "slice bounds out of range") := by
  interval_cases n <;> rfl

theorem packMessage_writePack_fits {data : Bytes} (hfits : 13 + data.length ≤ maxsz.toNat) :
    ∃ bytes, packMessage (writePack pid data) maxsz.toNat = .ok bytes := by
  have hsize : size (writePack pid data) ≤ maxsz.toNat % 2 ^ 32 := by
    rw [size_writePack, Nat.mod_eq_of_lt maxsz.toNat_lt]
    exact hfits
  obtain ⟨head, body, hpack, -⟩ := packMessage_spec (m := writePack pid data) ⟨trivial, trivial, trivial⟩ hsize
  exact ⟨_, hpack⟩

theorem not_wp_writeLoop_dropped (hmax : maxsz.toNat < 11) (hbuf : buf ≠ []) (rest : Bytes) :
    ¬ wp (Answer maxsz) Issued (writeLoop maxn pid rounds rest nsent) (fun r _ => Written maxsz pid buf r) () [] := by
  intro h
  induction rounds generalizing rest nsent with
  | zero => exact h.1
  | succ rounds ih =>
    by_cases hrest : rest = []
    · subst hrest
      obtain ⟨-, parts, hflat, hwire, -⟩ := h.2 nsent rfl
      rw [map_eq_nil_iff.mp hwire.symm] at hflat
      exact hbuf hflat.symm
    · rw [wp_writeLoop_round hrest] at h
      exact ih _ ((h _ _ (.dropped (packMessage_writePack_short _ hmax) (by simp [errMsgTooLarge]))).2 rfl)

theorem not_wp_writeLoop_empty (hmax : maxsz.toNat = 13) (hbuf : buf ≠ []) :
    ¬ wp (Answer maxsz) Issued (writeLoop 0 pid rounds buf nsent) P () wire := by
  intro h
  induction rounds generalizing nsent wire with
  | zero => exact h.1
  | succ rounds ih =>
    have hnone : portion 0 buf = 0 := by simp [portion]
    rw [wp_writeLoop_round hbuf, hnone] at h
    obtain ⟨bytes, hpack⟩ : ∃ bytes, packMessage (writePack pid (buf.take 0)) maxsz.toNat = .ok bytes :=
      packMessage_writePack_fits (by simp [hmax])
    exact ih ((h _ _ (.sent hpack)).2 rfl)

theorem not_wp_writeLoop_panics (hlo : 11 ≤ maxsz.toNat) (hhi : maxsz.toNat < 13) (hbuf : buf ≠ []) :
    ¬ wp (Answer maxsz) Issued (writeLoop maxn pid rounds buf nsent) (fun r _ => Written maxsz pid buf r) () [] := by
  intro h
  cases rounds with
  | zero => exact h.1
  | succ rounds =>
    rw [wp_writeLoop_round hbuf] at h
    obtain ⟨n, err, hr, hnot⟩ := ((h _ _ (.panicked (packMessage_writePack_panics _ hlo hhi))).1 _ rfl).1
    cases hr
    exact hnot _ rfl

theorem wp_writeLoop (hmax : 13 + maxn.toNat ≤ maxsz.toNat) (hmaxn : 0 < maxn.toNat) {buf : Bytes} (sent : List Bytes)
    {rest : Bytes} (hrounds : rest.length < rounds) (hlen : rest.length < 2 ^ 32) (hsent : sent.flatten ++ rest = buf)
    (hnsent : nsent + rest.length = buf.length) (hsizes : ∀ m ∈ sent.map (writePack pid), size m ≤ maxsz.toNat) :
    wp (Answer maxsz) Issued (writeLoop maxn pid rounds rest nsent)
      (fun r _ => Written maxsz pid buf r) () (sent.map (writePack pid)) := by
  induction rounds generalizing sent rest nsent with
  | zero => omega
  | succ rounds ih =>
    by_cases hrest : rest = []
    · subst hrest
      refine ⟨⟨nsent, none, rfl, by simp⟩, fun n hn => ?_⟩
      cases hn
      exact ⟨hnsent, sent, by rw [← hsent, append_nil], rfl, hsizes⟩
    · have hpos : 0 < rest.length := length_pos_iff.mpr hrest
      have hportion : portion maxn rest = min rest.length maxn.toNat := portion_eq hlen
      have htake : (rest.take (portion maxn rest)).length = portion maxn rest := length_take_of_le (by omega)
      obtain ⟨bytes, hpack⟩ : ∃ bytes,
          packMessage (writePack pid (rest.take (portion maxn rest))) maxsz.toNat = .ok bytes :=
        packMessage_writePack_fits (by omega)
      rw [wp_writeLoop_round hrest]
      intro r wire' hanswer
      cases hanswer with
      | dropped h => rw [hpack] at h; cases h
      | panicked h => rw [hpack] at h; cases h
      | failed _ he =>
        refine ⟨fun e' he' => ?_, fun hr => nomatch hr⟩
        cases he'
        exact ⟨⟨nsent, _, rfl, fun msg hmsg => he msg (Option.some.inj hmsg)⟩, fun n hn => nomatch hn⟩
      | sent _ =>
        refine ⟨fun e he => (nomatch he), fun _ => ?_⟩
        have hwire : sent.map (writePack pid) ++ [writePack pid (rest.take (portion maxn rest))] =
            (sent ++ [rest.take (portion maxn rest)]).map (writePack pid) := by
          rw [map_append, map_singleton]
        rw [hwire]
        refine ih _ ?_ ?_ ?_ ?_ ?_
        · rw [length_drop]
          omega
        · rw [length_drop]
          omega
        · rw [flatten_append, flatten_singleton, append_assoc, take_append_drop, hsent]
        · rw [length_drop]
          omega
        · intro m hm
          rw [← hwire, mem_append, mem_singleton] at hm
          rcases hm with hm | rfl
          · exact hsizes m hm
          · rw [size_writePack]
            omega

theorem wp_packWrite (h : ∀ rounds, buf.length < rounds →
      wp (Answer maxsz) Issued (writeLoop (maxsz - writeOverhead) pid rounds buf 0)
        (fun r _ => Written maxsz pid buf r) () []) :
    Sends maxsz pid buf := by
  refine ⟨buf.length + 1, fun rounds hrounds => ?_⟩
  rw [packWrite, wp_bind]
  refine ⟨trivial, fun err wire hanswer => ?_⟩
  cases hanswer with
  | checked _ herr =>
    cases err with
    | none => exact h rounds hrounds
    | some e => exact ⟨⟨0, some e, rfl, herr⟩, fun n hn => nomatch hn⟩

theorem wp_writeLoop_of_sends (h : Sends maxsz pid buf) :
    ∃ rounds, wp (Answer maxsz) Issued (writeLoop (maxsz - writeOverhead) pid rounds buf 0)
      (fun r _ => Written maxsz pid buf r) () [] := by
  obtain ⟨least, h⟩ := h
  have hwp := h least le_rfl
  rw [packWrite, wp_bind] at hwp
  exact ⟨least, hwp.2 none [] (.checked [] pid (by simp))⟩

/-- `Write` sends every buffer of fewer than `2 ^ 32` bytes just if a message has room for a byte. -/
theorem packWrite_sends_iff (maxsz pid : UInt32) (buf : Bytes) (hlen : buf.length < 2 ^ 32) :
    Sends maxsz pid buf ↔ buf = [] ∨ 14 ≤ maxsz.toNat := by
  constructor
  · intro h
    by_contra hnot
    rw [not_or] at hnot
    obtain ⟨rounds, hwp⟩ := wp_writeLoop_of_sends h
    by_cases hdropped : maxsz.toNat < 11
    · exact not_wp_writeLoop_dropped hdropped hnot.1 buf hwp
    · by_cases hpanics : maxsz.toNat < 13
      · exact not_wp_writeLoop_panics (not_lt.mp hdropped) hpanics hnot.1 hwp
      · have hempty : maxsz = 13 := UInt32.toNat_inj.mp (show maxsz.toNat = 13 by omega)
        subst hempty
        exact not_wp_writeLoop_empty rfl hnot.1 hwp
  · intro h
    refine wp_packWrite (fun rounds hrounds => ?_)
    rcases h with rfl | hmax
    · cases rounds with
      | zero => omega
      | succ rounds =>
        refine ⟨⟨0, none, rfl, by simp⟩, fun n hn => ?_⟩
        cases hn
        exact ⟨rfl, [], rfl, rfl, by simp⟩
    · have hmaxn : (maxsz - writeOverhead).toNat = maxsz.toNat - 13 :=
        UInt32.toNat_sub_of_le _ _ (UInt32.le_iff_toNat_le.mpr (le_trans (by decide) hmax))
      exact wp_writeLoop (by omega) (by omega) [] hrounds hlen rfl (Nat.zero_add _) (by simp)

theorem packWrite_sends_one_byte : Sends 14 1 [7] :=
  (packWrite_sends_iff 14 1 [7] (by decide)).mpr (.inr (by decide))

theorem writeLoop_sends_nothing (rounds rest : ℕ) (wire : List Message) :
    Prog.Runs (Answer 13) (writeLoop 0 1 (rounds + rest) [7] 0 ()) wire (writeLoop 0 1 rest [7] 0 ())
      (wire ++ replicate rounds (writePack 1 [])) := by
  induction rounds generalizing wire with
  | zero =>
    rw [Nat.zero_add, replicate_zero, append_nil]
    exact .refl _ _
  | succ rounds ih =>
    obtain ⟨bytes, hpack⟩ : ∃ bytes, packMessage (writePack 1 []) (13 : UInt32).toNat = .ok bytes :=
      packMessage_writePack_fits (by decide)
    have hrest := ih (wire ++ [writePack 1 []])
    rw [append_assoc, singleton_append, ← replicate_succ] at hrest
    rw [Nat.succ_add]
    exact .step (.sent hpack) hrest

/-- If the server asks for messages of 13 bytes, `Write` sends empty ones for ever: after any number of
rounds the whole buffer is left. -/
theorem packWrite_never_ends :
    ¬ Sends 13 1 [7] ∧ ∀ rounds rest, Prog.Runs (Answer 13) (packWrite 13 1 [7] (rounds + rest) ()) []
      (writeLoop 0 1 rest [7] 0 ()) (replicate rounds (writePack 1 [])) := by
  refine ⟨fun h => ?_, fun rounds rest => ?_⟩
  · obtain ⟨rounds, hwp⟩ := wp_writeLoop_of_sends h
    exact not_wp_writeLoop_empty rfl (by decide) hwp
  · have hchecked : Answer 13 [] (.checkPidError 1) none [] := .checked [] 1 (by simp)
    exact .step hchecked (writeLoop_sends_nothing rounds rest [])

end Write

end Bpy.PackWrites
