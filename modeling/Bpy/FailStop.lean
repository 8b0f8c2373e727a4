import Bpy.ProgramLogic

/-!
# Methods that stop at the first failure

A method stops when it issues `allowed` requests only and an answer that is a failure
makes it return, with an error of the kind `fails`. A run of such a method in a world
with failures that returns a value is the run without failures.
-/
namespace Bpy.FailStop
open InteractionPrograms ProgramLogic Method

variable {Q : Type} {R : Q → Type} {α β σ ω ω' ε : Type}

/-- The rest of the program returns an error of the kind `fails`. -/
def Failing (fails : ε → Prop) (p : Prog Q R (Except ε α × ω)) : Prop :=
  ∃ e w, p = .done (.error e, w) ∧ fails e

section Stops

variable (allowed : Q → Prop) (bad : (q : Q) → R q → Prop) (fails : ε → Prop)

def StopsAt : Prog Q R (Except ε α × ω) → Prop
  | .done _ => True
  | .call q k => allowed q ∧ ∀ r, (bad q r → Failing fails (k r)) ∧ (¬ bad q r → StopsAt (k r))

def Stops (x : Method Q R ε ω α) : Prop := ∀ w, StopsAt allowed bad fails (x w)

variable {allowed bad fails}

theorem StopsAt.bind {p : Prog Q R (Except ε α × ω)} {g : Except ε α × ω → Prog Q R (Except ε β × ω')}
    (hp : StopsAt allowed bad fails p) (hg : ∀ r, StopsAt allowed bad fails (g r))
    (hfail : ∀ e w, fails e → Failing fails (g (.error e, w))) : StopsAt allowed bad fails (p.bind g) := by
  induction p with
  | done a => exact hg a
  | call q k ih =>
    refine ⟨hp.1, fun r => ⟨fun hbad => ?_, fun hgood => ih r ((hp.2 r).2 hgood)⟩⟩
    obtain ⟨e, w, hk, hfails⟩ := (hp.2 r).1 hbad
    change Failing fails ((k r).bind g)
    rw [hk]
    exact hfail e w hfails

theorem stops_pure (a : α) : Stops allowed bad fails (pure a : Method Q R ε ω α) := fun _ => trivial

theorem stops_raise (e : ε) : Stops allowed bad fails (raise e : Method Q R ε ω α) :=
  fun _ => trivial

theorem stops_self : Stops allowed bad fails (Method.self : Method Q R ε ω ω) := fun _ => trivial

theorem stops_update (f : ω → ω) : Stops allowed bad fails (Method.update f : Method Q R ε ω Unit) := fun _ => trivial

theorem stops_ofExcept (x : Except ε α) :
    Stops allowed bad fails (ofExcept x : Method Q R ε ω α) := fun _ => trivial

theorem stops_send {q : Q} {f : R q → Except ε α} (hq : allowed q) (h : ∀ r, bad q r → ∃ e, f r = .error e ∧ fails e) :
    Stops allowed bad fails (send q f : Method Q R ε ω α) := by
  intro w
  refine ⟨hq, fun r => ⟨fun hbad => ?_, fun _ => trivial⟩⟩
  obtain ⟨e, he, hfails⟩ := h r hbad
  exact ⟨e, w, congrArg (fun x => Prog.done (x, w)) he, hfails⟩

theorem Stops.bind {x : Method Q R ε ω α} {f : α → Method Q R ε ω β} (hx : Stops allowed bad fails x)
    (hf : ∀ a, Stops allowed bad fails (f a)) : Stops allowed bad fails (x >>= f) := by
  intro w
  apply (hx w).bind
  · intro r
    rcases r with ⟨r, w'⟩
    cases r with
    | ok a => exact hf a w'
    | error e => trivial
  · intro e w' hfails
    exact ⟨e, w', rfl, hfails⟩

theorem Stops.attempt_bind {x : Method Q R ε ω α} {f : Except ε α → Method Q R ε ω β} (hx : Stops allowed bad fails x)
    (hf : ∀ r, Stops allowed bad fails (f r)) (hfail : ∀ e w, fails e → Failing fails (f (.error e) w)) :
    Stops allowed bad fails (attempt x >>= f) := by
  intro w
  rw [Method.bind_apply, attempt, Prog.bind_assoc]
  apply (hx w).bind
  · intro r
    exact hf r.1 r.2
  · intro e w' hfails
    exact hfail e w' hfails

theorem Stops.on {x : Method Q R ε ω' α} (hx : Stops allowed bad fails x) (w₀ : ω') :
    Stops allowed bad fails (Method.on w₀ x : Method Q R ε ω (α × ω')) := by
  intro w
  apply (hx w₀).bind
  · intro r
    trivial
  · intro e w' hfails
    exact ⟨e, w, rfl, hfails⟩

end Stops

section Transfer

variable {allowed : Q → Prop} {bad : (q : Q) → R q → Prop} {fails : ε → Prop}
variable {T : σ → (q : Q) → R q → σ → Prop} {hd : (q : Q) → σ → R q × σ} {faulty : Prop}

/-- What the world `T` has to do with the handler: an answer that is not bad is the answer
of the handler, without faults a bad answer is one too, and a bad answer to an allowed
request has no effect. -/
structure Honest (allowed : Q → Prop) (bad : (q : Q) → R q → Prop)
    (T : σ → (q : Q) → R q → σ → Prop) (hd : (q : Q) → σ → R q × σ) (faulty : Prop) : Prop where
  good : ∀ s q r s', T s q r s' → ¬ bad q r → hd q s = (r, s')
  fault : ∀ s q r s', T s q r s' → bad q r → faulty ∨ bad q (hd q s).1
  keep : ∀ s q r s', T s q r s' → bad q r → allowed q → s' = s

/-- A method that stops does what it does with the handler, or it fails in a state of the
handler's run. -/
theorem wp_of_stops {p : Prog Q R (Except ε α × ω)} {s s₁ : σ} {a : α} {w : ω} {I : σ → Prop}
    (hT : Honest allowed bad T hd faulty) (hI : ∀ q s, allowed q → I s → I (hd q s).2)
    (hp : StopsAt allowed bad fails p) (hs : I s) (hrun : p.run hd s = ((.ok a, w), s₁)) :
    Prog.wp T (fun _ q => allowed q) p (fun x s' => (x = (.ok a, w) ∧ s' = s₁) ∨
      (faulty ∧ I s' ∧ ∃ e w', x = (.error e, w') ∧ fails e)) s := by
  induction p generalizing s with
  | done x =>
    left
    exact ⟨congrArg Prod.fst hrun, congrArg Prod.snd hrun⟩
  | call q k ih =>
    refine ⟨hp.1, fun r s' hstep => ?_⟩
    by_cases hbad : bad q r
    · cases hT.fault s q r s' hstep hbad with
      | inl hfaulty =>
        obtain ⟨e, w', hk, hfails⟩ := (hp.2 r).1 hbad
        rw [hk]
        refine Or.inr ⟨hfaulty, ?_, e, w', rfl, hfails⟩
        rw [hT.keep s q r s' hstep hbad hp.1]
        exact hs
      | inr hhd =>
        -- the handler itself fails here, so its run cannot have returned a value
        obtain ⟨e, w', hk, -⟩ := (hp.2 _).1 hhd
        rw [Prog.run_call, hk] at hrun
        simp at hrun
    · have hgood := hT.good s q r s' hstep hbad
      have hs' := hI q s hp.1 hs
      rw [Prog.run_call, hgood] at hrun
      rw [hgood] at hs'
      exact ih r ((hp.2 r).2 hbad) hs' hrun

theorem method_wp_of_stops {x : Method Q R ε ω α} {w w' : ω} {s s₁ : σ} {a : α} {I : σ → Prop}
    (hT : Honest allowed bad T hd faulty) (hI : ∀ q s, allowed q → I s → I (hd q s).2)
    (hx : Stops allowed bad fails x) (hs : I s) (hrun : exec hd x w s = (.ok a, w', s₁)) :
    wp T (fun _ q => allowed q) x (fun r w'' s' => (r = .ok a ∧ w'' = w' ∧ s' = s₁) ∨
      (faulty ∧ I s' ∧ ∃ e, r = .error e ∧ fails e)) w s := by
  simp only [exec, Prod.mk.injEq] at hrun
  have hrun' : (x w).run hd s = ((.ok a, w'), s₁) := by
    rw [← hrun.1, ← hrun.2.1, ← hrun.2.2]
  refine Prog.wp_mono (fun r s' hr => ?_) _ _ (wp_of_stops hT hI (hx w) hs hrun')
  rcases hr with ⟨rfl, rfl⟩ | ⟨hfaulty, hI', e, w'', rfl, hfails⟩
  · exact Or.inl ⟨rfl, rfl, rfl⟩
  · exact Or.inr ⟨hfaulty, hI', e, rfl, hfails⟩

end Transfer

end Bpy.FailStop
