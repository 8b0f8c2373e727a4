import Bpy.InteractionPrograms

/-!
# Weakest preconditions of interaction programs

`T s q r s'` says that in the state `s` of the world the request `q` may be answered by
`r`, which leaves the world in the state `s'`. It is a relation: a call may fail, and
other parties may act before it is answered. `G s q` is what a program has to establish
before it issues `q`. A program that satisfies `wp` keeps to `G` in every partial run.
-/
namespace Bpy.ProgramLogic
open InteractionPrograms Method

variable {Q : Type} {R : Q → Type} {α β σ ω ω' ε : Type}

namespace Prog

section Rules

variable (T : σ → (q : Q) → R q → σ → Prop) (G : σ → Q → Prop)

def wp : Prog Q R α → (α → σ → Prop) → σ → Prop
  | .done a, P, s => P a s
  | .call q k, P, s => G s q ∧ ∀ r s', T s q r s' → wp (k r) P s'

/-- `p` reaches the rest `p'` of itself. -/
inductive Runs : Prog Q R α → σ → Prog Q R α → σ → Prop
  | refl (p : Prog Q R α) (s : σ) : Runs p s p s
  | step {q : Q} {k : R q → Prog Q R α} {r : R q} {s s' s'' : σ} {p' : Prog Q R α}
      (hstep : T s q r s') (hrest : Runs (k r) s' p' s'') : Runs (.call q k) s p' s''

variable {T G}

@[simp] theorem wp_done (a : α) (P : α → σ → Prop) (s : σ) : wp T G (.done a) P s ↔ P a s := Iff.rfl

theorem wp_call (q : Q) (k : R q → Prog Q R α) (P : α → σ → Prop) (s : σ) :
    wp T G (.call q k) P s ↔ G s q ∧ ∀ r s', T s q r s' → wp T G (k r) P s' := Iff.rfl

theorem wp_mono {P P' : α → σ → Prop} (h : ∀ a s, P a s → P' a s) (p : Prog Q R α) (s : σ)
    (hp : wp T G p P s) : wp T G p P' s := by
  induction p generalizing s with
  | done a => exact h a s hp
  | call q k ih => exact ⟨hp.1, fun r s' hs => ih r s' (hp.2 r s' hs)⟩

theorem wp_bind (p : Prog Q R α) (f : α → Prog Q R β) (P : β → σ → Prop) (s : σ) :
    wp T G (p.bind f) P s ↔ wp T G p (fun a s' => wp T G (f a) P s') s := by
  induction p generalizing s with
  | done a => rfl
  | call q k ih =>
    simp only [Prog.call_bind, wp_call]
    exact and_congr_right' (forall_congr' fun r => forall_congr' fun s' => imp_congr_right fun _ => ih r s')

theorem wp_and_always {P : α → σ → Prop} {P' : α → Prop} {p : Prog Q R α} {s : σ}
    (hp : wp T G p P s) (halways : p.Always P') : wp T G p (fun a s' => P a s' ∧ P' a) s := by
  induction p generalizing s with
  | done a => exact ⟨hp, halways⟩
  | call q k ih => exact ⟨hp.1, fun r s' hs => ih r (hp.2 r s' hs) (halways r)⟩

theorem wp_of_runs {P : α → σ → Prop} {p p' : Prog Q R α} {s s' : σ} (hrun : Runs T p s p' s')
    (hp : wp T G p P s) : wp T G p' P s' := by
  induction hrun with
  | refl => exact hp
  | step hstep _ ih => exact ih (hp.2 _ _ hstep)

theorem inv_of_runs {P : α → σ → Prop} {I : σ → Prop} {p p' : Prog Q R α} {s s' : σ}
    (hrun : Runs T p s p' s') (hp : wp T G p P s) (hs : I s)
    (hstep : ∀ s q r s', I s → G s q → T s q r s' → I s') : I s' := by
  induction hrun with
  | refl => exact hs
  | step ht _ ih => exact ih (hp.2 _ _ ht) (hstep _ _ _ _ hs hp.1 ht)

theorem exists_runs_of_wp {P : α → σ → Prop} {p : Prog Q R α} {s : σ} (hG : ∀ s q, G s q → ∃ r s', T s q r s')
    (hp : wp T G p P s) : ∃ a s', Runs T p s (.done a) s' := by
  induction p generalizing s with
  | done a => exact ⟨a, s, .refl _ _⟩
  | call q k ih =>
    obtain ⟨r, s₁, hT⟩ := hG s q hp.1
    obtain ⟨a, s', hrun⟩ := ih r (hp.2 r s₁ hT)
    exact ⟨a, s', .step hT hrun⟩

theorem runs_run {hd : (q : Q) → σ → R q × σ} (hT : ∀ s q, T s q (hd q s).1 (hd q s).2)
    (p : Prog Q R α) (s : σ) : Runs T p s (.done (p.run hd s).1) (p.run hd s).2 := by
  induction p generalizing s with
  | done a => exact .refl _ _
  | call q k ih => exact .step (hT s q) (ih _ _)

end Rules

end Prog

namespace Method

variable (T : σ → (q : Q) → R q → σ → Prop) (G : σ → Q → Prop)

def wp (x : Method Q R ε ω α) (P : Except ε α → ω → σ → Prop) (w : ω) (s : σ) : Prop :=
  Prog.wp T G (x w) (fun r s' => P r.1 r.2 s') s

variable {T G} {P : Except ε α → ω → σ → Prop}

@[simp] theorem wp_pure (a : α) (w : ω) (s : σ) : wp T G (pure a : Method Q R ε ω α) P w s ↔ P (.ok a) w s := Iff.rfl

@[simp] theorem wp_raise (e : ε) (w : ω) (s : σ) :
    wp T G (raise e : Method Q R ε ω α) P w s ↔ P (.error e) w s := Iff.rfl

@[simp] theorem wp_self {P : Except ε ω → ω → σ → Prop} (w : ω) (s : σ) :
    wp T G (self : Method Q R ε ω ω) P w s ↔ P (.ok w) w s := Iff.rfl

@[simp] theorem wp_update {P : Except ε Unit → ω → σ → Prop} (f : ω → ω) (w : ω) (s : σ) :
    wp T G (update f : Method Q R ε ω Unit) P w s ↔ P (.ok ()) (f w) s := Iff.rfl

@[simp] theorem wp_ofExcept (x : Except ε α) (w : ω) (s : σ) :
    wp T G (ofExcept x : Method Q R ε ω α) P w s ↔ P x w s := Iff.rfl

theorem wp_send (q : Q) (f : R q → Except ε α) (w : ω) (s : σ) :
    wp T G (send q f : Method Q R ε ω α) P w s ↔ G s q ∧ ∀ r s', T s q r s' → P (f r) w s' := Iff.rfl

theorem wp_attempt {P : Except ε (Except ε α) → ω → σ → Prop} (x : Method Q R ε ω α) (w : ω) (s : σ) :
    wp T G (attempt x) P w s ↔ wp T G x (fun r w' s' => P (.ok r) w' s') w s := by
  rw [wp, attempt, Prog.wp_bind]
  rfl

theorem wp_on {P : Except ε (α × ω') → ω → σ → Prop} (w₀ : ω') (x : Method Q R ε ω' α) (w : ω) (s : σ) :
    wp T G (on w₀ x) P w s ↔ wp T G x (fun r w' s' => P (r.map (fun a => (a, w'))) w s') w₀ s := by
  rw [wp, on, Prog.wp_bind]
  rfl

/-- What follows a call, by its outcome. -/
def after (f : α → Method Q R ε ω β) (P : Except ε β → ω → σ → Prop) :
    Except ε α → ω → σ → Prop
  | .ok a, w, s => wp T G (f a) P w s
  | .error e, w, s => P (.error e) w s

theorem wp_bind (x : Method Q R ε ω α) (f : α → Method Q R ε ω β) (P : Except ε β → ω → σ → Prop)
    (w : ω) (s : σ) : wp T G (x >>= f) P w s ↔ wp T G x (after (T := T) (G := G) f P) w s := by
  rw [wp, bind_apply, Prog.wp_bind, wp]
  have hpost : (fun (r : Except ε α × ω) s' =>
      Prog.wp T G (follow f r) (fun r s' => P r.1 r.2 s') s') =
      fun r s' => after (T := T) (G := G) f P r.1 r.2 s' := by
    funext r s'
    rcases r with ⟨r, w'⟩
    cases r <;> rfl
  rw [hpost]

theorem wp_mono {P P' : Except ε α → ω → σ → Prop} (h : ∀ r w s, P r w s → P' r w s)
    (x : Method Q R ε ω α) (w : ω) (s : σ) (hx : wp T G x P w s) : wp T G x P' w s :=
  Prog.wp_mono (fun r s' hr => h r.1 r.2 s' hr) _ s hx

theorem wp_seq {x : Method Q R ε ω α} {f : α → Method Q R ε ω β} {P : Except ε β → ω → σ → Prop}
    {P₁ : Except ε α → ω → σ → Prop} {w : ω} {s : σ} (hx : wp T G x P₁ w s)
    (hok : ∀ a w s, P₁ (.ok a) w s → wp T G (f a) P w s)
    (herror : ∀ e w s, P₁ (.error e) w s → P (.error e) w s) : wp T G (x >>= f) P w s := by
  rw [wp_bind]
  refine wp_mono (fun r w s hr => ?_) x w s hx
  cases r with
  | ok a => exact hok a w s hr
  | error e => exact herror e w s hr

theorem wp_seq_attempt {x : Method Q R ε ω α} {f : Except ε α → Method Q R ε ω β}
    {P : Except ε β → ω → σ → Prop} {P₁ : Except ε α → ω → σ → Prop} {w : ω} {s : σ} (hx : wp T G x P₁ w s)
    (hf : ∀ r w s, P₁ r w s → wp T G (f r) P w s) : wp T G (attempt x >>= f) P w s := by
  rw [wp_bind, wp_attempt]
  exact wp_mono hf x w s hx

theorem wp_inv {I : σ → Prop} (hG : ∀ s q, G s q) (hI : ∀ s q r s', I s → T s q r s' → I s')
    (x : Method Q R ε ω α) (w : ω) {s : σ} (hs : I s) : wp T G x (fun _ _ s' => I s') w s := by
  rw [wp]
  induction x w generalizing s with
  | done a => exact hs
  | call q k ih => exact ⟨hG s q, fun r s' hT => ih r (hI s q r s' hs hT)⟩

/-- A postcondition of the calls that return a value. -/
def onOk (P : α → ω → σ → Prop) : Except ε α → ω → σ → Prop
  | .ok a, w, s => P a w s
  | .error _, _, _ => True

@[simp] theorem onOk_ok (P : α → ω → σ → Prop) (a : α) (w : ω) (s : σ) :
    onOk P (.ok a : Except ε α) w s ↔ P a w s := Iff.rfl

@[simp] theorem onOk_error (P : α → ω → σ → Prop) (e : ε) (w : ω) (s : σ) : onOk P (.error e) w s ↔ True := Iff.rfl

theorem wp_seq_ok {x : Method Q R ε ω α} {f : α → Method Q R ε ω β} {P : β → ω → σ → Prop}
    {P₁ : α → ω → σ → Prop} {w : ω} {s : σ} (hx : wp T G x (onOk P₁) w s)
    (hok : ∀ a w s, P₁ a w s → wp T G (f a) (onOk P) w s) : wp T G (x >>= f) (onOk P) w s :=
  wp_seq hx hok (fun _ _ _ _ => trivial)

theorem wp_send_ok {q : Q} {f : R q → Except ε α} {P : α → ω → σ → Prop} {w : ω} {s : σ} (hG : G s q)
    (hok : ∀ r a s', T s q r s' → f r = .ok a → P a w s') : wp T G (send q f : Method Q R ε ω α) (onOk P) w s := by
  rw [wp_send]
  refine ⟨hG, fun r s' hT => ?_⟩
  cases hf : f r with
  | ok a => exact hok r a s' hT hf
  | error e => trivial

theorem wp_mono_ok {P P' : α → ω → σ → Prop} (h : ∀ a w s, P a w s → P' a w s)
    {x : Method Q R ε ω α} {w : ω} {s : σ} (hx : wp T G x (onOk P) w s) : wp T G x (onOk P') w s := by
  refine wp_mono (fun r w s hr => ?_) x w s hx
  cases r with
  | ok a => exact h a w s hr
  | error e => trivial

end Method

/-- Requests and their answers, oldest first. -/
abbrev Trace (Q : Type) (R : Q → Type) := List ((q : Q) × R q)

/-- A world that only records what it is asked and answers anything. -/
def recorded (tr : Trace Q R) (q : Q) (r : R q) (tr' : Trace Q R) : Prop := tr' = tr ++ [⟨q, r⟩]

theorem wp_recorded_extends (p : Prog Q R α) (tr : Trace Q R) :
    Prog.wp recorded (fun _ _ => True) p (fun _ tr' => ∃ ev, tr' = tr ++ ev) tr := by
  induction p generalizing tr with
  | done a => exact ⟨[], by simp⟩
  | call q k ih =>
    refine ⟨trivial, fun r tr' htr => Prog.wp_mono ?_ _ _ (ih r tr')⟩
    rintro a tr'' ⟨ev, rfl⟩
    exact ⟨⟨q, r⟩ :: ev, by rw [htr, List.append_assoc]; rfl⟩

end Bpy.ProgramLogic
