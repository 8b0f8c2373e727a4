import Mathlib.Data.Finset.Card
import Mathlib.Data.List.Nodup
import Mathlib.Order.Interval.Finset.Nat

/-!
# The idle timer of the cache daemon

`deadman` counts the connections of the daemon and shuts it down when there has been none
for a while. It meets `listenLoop` and the connections at channels without a buffer. The
timer may fire whenever it is armed, also between two operations of `deadman`. Its channel
then holds a value until it is received.
-/
namespace Bpy.IdleShutdown
open List

/-- The address of a connection. Connections that live at the same time have different ones. -/
abbrev Conn := {p : UInt64 // p ≠ 0}

/-- Where `deadman` stands. -/
inductive Place where
  /-- the outer `select` -/
  | select
  /-- a new connection has been counted -/
  | stopping
  /-- the inner `select` -/
  | draining
  | sendingOk
  /-- a connection has been counted off -/
  | resetting
  | timeout
  | exited
  deriving DecidableEq

inductive Listener where
  | accepting
  /-- at `newCon <-` -/
  | offering (c : Conn)
  /-- at `<-conOk` -/
  | waiting (c : Conn)
  deriving DecidableEq

structure Daemon where
  place : Place
  counter : UInt64
  armed : Bool
  /-- the channel of the timer holds a value -/
  fired : Bool
  listener : Listener
  /-- the connections that have received `conOk` and are open -/
  serving : List Conn
  /-- the connections that are closed, at `conClosed <-` -/
  closing : List Conn
  deriving DecidableEq

def Daemon.start : Daemon := ⟨.select, 0, true, false, .accepting, [], []⟩

inductive Event where
  | accept (c : Conn)
  | newCon
  | stop
  | drain
  | conOk
  | close (c : Conn)
  | conClosed (c : Conn)
  | reset
  | fire
  | timeout
  | shutdown

/-- `none` if the event cannot happen. -/
def step (s : Daemon) : Event → Option Daemon
  | .accept c =>
    if s.listener = .accepting ∧ c ∉ s.serving ++ s.closing then some { s with listener := .offering c } else none
  | .newCon =>
    match s.place, s.listener with
    | .select, .offering c =>
      some { s with place := .stopping, counter := s.counter + 1, listener := .waiting c }
    | _, _ => none
  | .stop => if s.place = .stopping then some { s with place := .draining, armed := false } else none
  | .drain =>
    if s.place = .draining then
      if s.fired then some { s with place := .timeout, fired := false } else some { s with place := .sendingOk }
    else none
  | .conOk =>
    match s.place, s.listener with
    | .sendingOk, .waiting c =>
      some { s with place := .select, listener := .accepting, serving := c :: s.serving }
    | _, _ => none
  | .close c =>
    if c ∈ s.serving then some { s with serving := s.serving.erase c, closing := c :: s.closing } else none
  | .conClosed c =>
    if s.place = .select ∧ c ∈ s.closing then
      some { s with place := .resetting, counter := s.counter - 1, closing := s.closing.erase c }
    else none
  | .reset =>
    if s.place = .resetting then
      if s.counter = 0 then some { s with place := if s.armed then .timeout else .select, armed := true }
      else some { s with place := .select }
    else none
  | .fire => if s.armed then some { s with armed := false, fired := true } else none
  | .timeout => if s.place = .select ∧ s.fired then some { s with place := .timeout, fired := false } else none
  | .shutdown => if s.place = .timeout then some { s with place := .exited } else none

def run : List Event → Daemon → Option Daemon
  | [], s => some s
  | e :: es, s => (step s e).bind (run es)

/-- The connection that `listenLoop` has at hand. -/
def Listener.held : Listener → List Conn
  | .accepting => []
  | .offering c => [c]
  | .waiting c => [c]

/-- The one that is counted already. -/
def Listener.counted : Listener → ℕ
  | .waiting _ => 1
  | _ => 0

theorem length_lt_of_nodup {l : List Conn} (h : l.Nodup) : l.length < 2 ^ 64 := by
  have hnodup : (l.map (fun c => c.1.toNat)).Nodup := by
    apply h.map
    intro c c' hc
    exact Subtype.ext (UInt64.toNat_inj.mp hc)
  have hsub : (l.map (fun c => c.1.toNat)).toFinset ⊆ Finset.Ico 1 (2 ^ 64) := by
    intro n hn
    obtain ⟨c, -, rfl⟩ := mem_map.mp (mem_toFinset.mp hn)
    have hpos : c.1.toNat ≠ 0 := fun hzero => c.2 (UInt64.toNat_inj.mp hzero)
    have hlt := c.1.toNat_lt
    rw [Finset.mem_Ico]
    omega
  have hcard := Finset.card_le_card hsub
  rw [toFinset_card_of_nodup hnodup, length_map, Nat.card_Ico] at hcard
  omega

/-- What the place of `deadman` says about the timer and the connections. -/
def Placed (s : Daemon) : Prop :=
  match s.place with
  | .select => s.listener.counted = 0
  | .stopping => True
  | .draining => s.armed = false
  | .sendingOk => s.armed = false ∧ s.fired = false
  | .resetting => s.listener.counted = 0 ∧ s.armed = false ∧ s.fired = false
  | .timeout | .exited => s.serving = [] ∧ s.closing = []

/-- The invariant of the daemon. While the timer can end it, no connection is served. -/
structure Sound (s : Daemon) : Prop where
  nodup : (s.listener.held ++ (s.serving ++ s.closing)).Nodup
  counter : s.counter.toNat = s.listener.counted + (s.serving.length + s.closing.length)
  idle : s.armed = true ∨ s.fired = true → s.serving = [] ∧ s.closing = []
  placed : Placed s

variable {s s' : Daemon}

theorem sound_start : Sound .start := ⟨nodup_nil, rfl, fun _ => ⟨rfl, rfl⟩, rfl⟩

section

variable (h : Sound s)
include h

theorem Sound.newCon (hstep : step s .newCon = some s') : Sound s' := by
  rw [step] at hstep
  split at hstep
  · next c hplace hlistener =>
    cases hstep
    have hnodup := h.nodup
    have hcounter := h.counter
    rw [hlistener] at hnodup hcounter
    have hlt := length_lt_of_nodup hnodup
    simp only [Listener.held, Listener.counted, length_append, length_singleton] at hlt hcounter
    refine ⟨hnodup, ?_, h.idle, trivial⟩
    simp only [Listener.counted, UInt64.toNat_add, UInt64.reduceToNat]
    omega
  · cases hstep

theorem Sound.conOk (hstep : step s .conOk = some s') : Sound s' := by
  rw [step] at hstep
  split at hstep
  · next c hplace hlistener =>
    cases hstep
    have hplaced := h.placed
    rw [Placed, hplace] at hplaced
    have hnodup := h.nodup
    have hcounter := h.counter
    rw [hlistener] at hnodup hcounter
    simp only [Listener.counted] at hcounter
    refine ⟨hnodup, ?_, ?_, rfl⟩
    · simp only [Listener.counted, length_cons]
      omega
    · rintro (harmed | hfired)
      · simp [hplaced.1] at harmed
      · simp [hplaced.2] at hfired
  · cases hstep

theorem Sound.close {c : Conn} (hstep : step s (.close c) = some s') : Sound s' := by
  rw [step] at hstep
  split at hstep
  · next hc =>
    cases hstep
    have hperm : (s.serving.erase c ++ c :: s.closing).Perm (s.serving ++ s.closing) :=
      perm_middle.trans ((perm_cons_erase hc).symm.append_right s.closing)
    have hsome : ¬ (s.serving = [] ∧ s.closing = []) := fun hnone => ne_nil_of_mem hc hnone.1
    refine ⟨(hperm.append_left _).nodup_iff.mpr h.nodup, ?_, fun hidle => absurd (h.idle hidle) hsome, ?_⟩
    · have hlength := hperm.length_eq
      rw [length_append, length_append] at hlength
      rw [h.counter, ← hlength]
    · have hplaced := h.placed
      rw [Placed] at hplaced ⊢
      cases hplace : s.place with
      | timeout | exited =>
        rw [hplace] at hplaced
        exact absurd hplaced hsome
      | _ =>
        rw [hplace] at hplaced
        exact hplaced
  · cases hstep

theorem Sound.conClosed {c : Conn} (hstep : step s (.conClosed c) = some s') :
    Sound s' ∧ s'.counter.toNat + 1 = s.counter.toNat := by
  rw [step] at hstep
  split at hstep
  · next hc =>
    cases hstep
    have hsome : ¬ (s.serving = [] ∧ s.closing = []) := fun hnone => ne_nil_of_mem hc.2 hnone.2
    have hoff : ¬ (s.armed = true ∨ s.fired = true) := fun hidle => hsome (h.idle hidle)
    have hplaced := h.placed
    rw [Placed, hc.1] at hplaced
    have hpos := length_pos_of_mem hc.2
    have hcounter := h.counter
    have hminus : (s.counter - 1).toNat = s.counter.toNat - 1 := by
      rw [UInt64.toNat_sub_of_le]
      · rfl
      · apply UInt64.le_iff_toNat_le.mpr
        change 1 ≤ s.counter.toNat
        omega
    refine ⟨⟨?_, ?_, fun hidle => absurd hidle hoff, hplaced, ?_⟩, ?_⟩
    · refine h.nodup.sublist ?_
      exact (erase_sublist.append_left _).append_left _
    · rw [hminus, length_erase_of_mem hc.2]
      dsimp only
      omega
    · rw [not_or, Bool.not_eq_true, Bool.not_eq_true] at hoff
      exact hoff
    · rw [hminus]
      omega
  · cases hstep

theorem Sound.reset (hstep : step s .reset = some s') : Sound s' := by
  rw [step] at hstep
  split at hstep
  · next hplace =>
    have hplaced := h.placed
    rw [Placed, hplace] at hplaced
    obtain ⟨hnone, harmed, hfired⟩ := hplaced
    split at hstep
    · next hzero =>
      rw [harmed] at hstep
      cases hstep
      have hcounter := h.counter
      rw [hzero, hnone] at hcounter
      simp only [UInt64.reduceToNat] at hcounter
      have hserving : s.serving = [] := length_eq_zero_iff.mp (by omega)
      have hclosing : s.closing = [] := length_eq_zero_iff.mp (by omega)
      exact ⟨h.nodup, h.counter, fun _ => ⟨hserving, hclosing⟩, hnone⟩
    · cases hstep
      exact ⟨h.nodup, h.counter, h.idle, hnone⟩
  · cases hstep

theorem Sound.step {e : Event} (hstep : step s e = some s') : Sound s' := by
  cases e with
  | newCon => exact h.newCon hstep
  | conOk => exact h.conOk hstep
  | close c => exact h.close hstep
  | conClosed c => exact (h.conClosed hstep).1
  | reset => exact h.reset hstep
  | accept c =>
    rw [IdleShutdown.step, Option.ite_none_right_eq_some] at hstep
    obtain ⟨⟨hlistener, hnew⟩, hs'⟩ := hstep
    cases hs'
    have hnodup := h.nodup
    have hcounter := h.counter
    have hplaced := h.placed
    rw [Placed, hlistener] at hplaced
    rw [hlistener] at hnodup hcounter
    exact ⟨nodup_cons.mpr ⟨hnew, hnodup⟩, hcounter, h.idle, hplaced⟩
  | stop =>
    rw [IdleShutdown.step, Option.ite_none_right_eq_some] at hstep
    obtain ⟨-, hs'⟩ := hstep
    cases hs'
    refine ⟨h.nodup, h.counter, ?_, rfl⟩
    rintro (harmed | hfired)
    · cases harmed
    · exact h.idle (.inr hfired)
  | drain =>
    rw [IdleShutdown.step, Option.ite_none_right_eq_some] at hstep
    obtain ⟨hplace, hs'⟩ := hstep
    have hplaced := h.placed
    rw [Placed, hplace] at hplaced
    split at hs'
    · next hfired =>
      cases hs'
      exact ⟨h.nodup, h.counter, fun _ => h.idle (.inr hfired), h.idle (.inr hfired)⟩
    · next hfired =>
      cases hs'
      exact ⟨h.nodup, h.counter, h.idle, hplaced, Bool.not_eq_true _ ▸ hfired⟩
  | fire =>
    rw [IdleShutdown.step, Option.ite_none_right_eq_some] at hstep
    obtain ⟨harmed, hs'⟩ := hstep
    cases hs'
    refine ⟨h.nodup, h.counter, fun _ => h.idle (.inl harmed), ?_⟩
    have hplaced := h.placed
    rw [Placed] at hplaced ⊢
    cases hplace : s.place with
    | stopping => trivial
    | draining => rfl
    | sendingOk | resetting =>
      rw [hplace] at hplaced
      simp [harmed] at hplaced
    | select | timeout | exited =>
      rw [hplace] at hplaced
      exact hplaced
  | timeout =>
    rw [IdleShutdown.step, Option.ite_none_right_eq_some] at hstep
    obtain ⟨⟨-, hfired⟩, hs'⟩ := hstep
    cases hs'
    exact ⟨h.nodup, h.counter, fun _ => h.idle (.inr hfired), h.idle (.inr hfired)⟩
  | shutdown =>
    rw [IdleShutdown.step, Option.ite_none_right_eq_some] at hstep
    obtain ⟨hplace, hs'⟩ := hstep
    cases hs'
    have hplaced := h.placed
    rw [Placed, hplace] at hplaced
    exact ⟨h.nodup, h.counter, h.idle, hplaced⟩

theorem Sound.run {es : List Event} (hrun : run es s = some s') : Sound s' := by
  induction es generalizing s with
  | nil =>
    cases hrun
    exact h
  | cons e es ih =>
    rw [IdleShutdown.run, Option.bind_eq_some_iff] at hrun
    obtain ⟨s₁, hstep, hrun⟩ := hrun
    exact ih (h.step hstep) hrun

end

/-- However connections, closes and the timer interleave, `deadman` shuts the daemon down only when
no connection is served, and its counter does not go below zero. -/
theorem shutdown_only_idle (es : List Event) (s : Daemon) (hrun : run es .start = some s) :
    (∀ s', step s .shutdown = some s' → s.serving = []) ∧
    ∀ c s', step s (.conClosed c) = some s' → s'.counter.toNat + 1 = s.counter.toNat := by
  have hsound := sound_start.run hrun
  constructor
  · intro s' hstep
    rw [step, Option.ite_none_right_eq_some] at hstep
    have hplaced := hsound.placed
    rw [Placed, hstep.1] at hplaced
    exact hplaced.1
  · intro c s' hstep
    exact (hsound.conClosed hstep).2

/-- A connection comes and goes, and the timer fires. -/
theorem shutdown_only_idle_once : ∃ s s',
    run [.accept ⟨1, by decide⟩, .newCon, .stop, .drain, .conOk, .close ⟨1, by decide⟩, .conClosed ⟨1, by decide⟩,
      .reset, .fire, .timeout] .start = some s ∧ step s .shutdown = some s' ∧ s.serving = [] := by
  have hrun : run [.accept ⟨1, by decide⟩, .newCon, .stop, .drain, .conOk, .close ⟨1, by decide⟩,
      .conClosed ⟨1, by decide⟩, .reset, .fire, .timeout] .start =
      some ⟨.timeout, 0, false, false, .accepting, [], []⟩ := by decide
  exact ⟨_, _, hrun, rfl, (shutdown_only_idle _ _ hrun).1 _ rfl⟩

end Bpy.IdleShutdown
