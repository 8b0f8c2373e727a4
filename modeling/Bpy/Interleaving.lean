import Bpy.ProgramLogic
import Mathlib.Logic.Function.Basic

/-!
# Interleaved interaction programs

A pool has any number of threads, each with an operation and what is left of its program,
and a state that the threads share. In a step a thread is started, a thread has its next
request answered, or the surroundings of the pool do something. `C` is the type of the
choices that are left open when a request is answered, and `E` is that of the events of
the surroundings.

A discipline is an automaton that says which requests a thread may issue, by the requests
and answers that it has seen. If every program keeps to the discipline, an invariant of
all threads' automata and of the shared state is proved request by request, without the
programs.
-/
namespace Bpy.Interleaving
open InteractionPrograms Method Function

variable {Op Q C E α σ Ph : Type} {R : Q → Type}

inductive Event (Op Q : Type) (R : Q → Type) (C E : Type) where
  | start (i : ℕ) (op : Op)
  | act (i : ℕ) (c : C) (q : Q) (r : R q)
  | env (e : E)

inductive Label (Op C E : Type) where
  | start (i : ℕ) (op : Op)
  | act (i : ℕ) (c : C)
  | env (e : E)

/-- `past` has the latest event first. -/
structure Pool (Op Q : Type) (R : Q → Type) (C E α σ : Type) where
  threads : ℕ → Option (Op × Prog Q R α)
  shared : σ
  past : List (Event Op Q R C E)

structure System (Op Q : Type) (R : Q → Type) (C E α σ : Type) where
  prog : Op → Prog Q R α
  /-- whether an operation may be started, by the results of the finished threads -/
  mayStart : (ℕ → Option α) → Op → Bool
  /-- the answer to a request of a thread, if it is not blocked -/
  act : C → ℕ → (q : Q) → σ → Option (R q × σ)
  env : E → σ → Option σ

/-- The result of a thread that is finished. -/
def resultOf : Option (Op × Prog Q R α) → Option α
  | some (_, .done a) => some a
  | _ => none

def Pool.results (p : Pool Op Q R C E α σ) (i : ℕ) : Option α := resultOf (p.threads i)

section Steps

variable (sys : System Op Q R C E α σ)

def step : Label Op C E → Pool Op Q R C E α σ → Option (Pool Op Q R C E α σ)
  | .start i op, p =>
    if (p.threads i).isNone && sys.mayStart p.results op then
      some ⟨Function.update p.threads i (some (op, sys.prog op)), p.shared, .start i op :: p.past⟩
    else none
  | .act i c, p =>
    match p.threads i with
    | some (op, .call q k) =>
      (sys.act c i q p.shared).map fun rs =>
        ⟨Function.update p.threads i (some (op, k rs.1)), rs.2, .act i c q rs.1 :: p.past⟩
    | _ => none
  | .env e, p => (sys.env e p.shared).map fun s => ⟨p.threads, s, .env e :: p.past⟩

def run : List (Label Op C E) → Pool Op Q R C E α σ → Option (Pool Op Q R C E α σ)
  | [], p => some p
  | l :: ls, p => (step sys l p).bind (run ls)

/-- Every step of the run meets the condition `ok`, on the shared state and the past before
the step and on the event of the step. -/
def Careful (ok : σ → List (Event Op Q R C E) → Event Op Q R C E → Prop) :
    List (Label Op C E) → Pool Op Q R C E α σ → Prop
  | [], _ => True
  | l :: ls, p => ∀ p', step sys l p = some p' →
      (∀ ev, p'.past = ev :: p.past → ok p.shared p.past ev) ∧ Careful ok ls p'

variable {sys}

theorem careful_true (ls : List (Label Op C E)) (p : Pool Op Q R C E α σ) : Careful sys (fun _ _ _ => True) ls p := by
  induction ls generalizing p with
  | nil => trivial
  | cons l ls ih => exact fun p' _ => ⟨fun _ _ => trivial, ih p'⟩

/-- Whether every step of the run meets the condition, as it can be computed. -/
def checks (sys : System Op Q R C E α σ) (ok : σ → List (Event Op Q R C E) → Event Op Q R C E → Prop)
    [∀ s past ev, Decidable (ok s past ev)] : List (Label Op C E) → Pool Op Q R C E α σ → Bool
  | [], _ => true
  | l :: ls, p =>
    match step sys l p with
    | none => true
    | some p' => p'.past.head?.all (fun ev => decide (ok p.shared p.past ev)) && checks sys ok ls p'

theorem careful_of_checks {ok : σ → List (Event Op Q R C E) → Event Op Q R C E → Prop}
    [∀ s past ev, Decidable (ok s past ev)] {ls : List (Label Op C E)} {p : Pool Op Q R C E α σ}
    (h : checks sys ok ls p = true) : Careful sys ok ls p := by
  induction ls generalizing p with
  | nil => trivial
  | cons l ls ih =>
    intro p' hp'
    rw [checks, hp', Bool.and_eq_true] at h
    refine ⟨?_, ih h.2⟩
    intro ev hev
    rw [hev] at h
    exact of_decide_eq_true h.1

theorem inv_of_run {ok : σ → List (Event Op Q R C E) → Event Op Q R C E → Prop} {I : Pool Op Q R C E α σ → Prop}
    (hstep : ∀ l p p', I p → (∀ ev, p'.past = ev :: p.past → ok p.shared p.past ev) → step sys l p = some p' → I p')
    {ls : List (Label Op C E)} {p p' : Pool Op Q R C E α σ} (hp : I p) (hok : Careful sys ok ls p)
    (hrun : run sys ls p = some p') : I p' := by
  induction ls generalizing p with
  | nil =>
    rw [run, Option.some.injEq] at hrun
    exact hrun ▸ hp
  | cons l ls ih =>
    rw [run, Option.bind_eq_some_iff] at hrun
    obtain ⟨p₁, hp₁, hrun⟩ := hrun
    obtain ⟨hev, hok⟩ := hok p₁ hp₁
    exact ih (hstep l p p₁ hp hev hp₁) hok hrun

end Steps

/-- An automaton that reads the requests of a thread and their answers. -/
structure Discipline (Q : Type) (R : Q → Type) (Ph : Type) where
  allows : Ph → Q → Prop
  next : Ph → (q : Q) → R q → Ph

/-- The phases of the threads, instead of their programs. -/
structure View (Op Q : Type) (R : Q → Type) (C E σ Ph : Type) where
  phases : ℕ → Option (Op × Ph)
  shared : σ
  past : List (Event Op Q R C E)

namespace Discipline

/-- The program issues only requests that are allowed, and ends in a phase that `final`
relates to its result. -/
def Keeps (D : Discipline Q R Ph) (p : Prog Q R α) (final : α → Ph → Prop) (ph : Ph) : Prop :=
  ProgramLogic.Prog.wp (fun ph q r ph' => ph' = D.next ph q r) D.allows p final ph

theorem keeps_of_inert {D : Discipline Q R Ph} {ph : Ph} (hallows : ∀ q, D.allows ph q)
    (hnext : ∀ q r, D.next ph q r = ph) (p : Prog Q R α) : D.Keeps p (fun _ ph' => ph' = ph) ph := by
  induction p with
  | done a => rfl
  | call q k ih =>
    refine ⟨hallows q, ?_⟩
    intro r ph' hph
    rw [hph, hnext]
    exact ih r

section Methods

variable {β ε ω : Type}

/-- The same for a method: `P` holds of the result, the object and the phase at the end. -/
def wp (D : Discipline Q R Ph) (x : Method Q R ε ω α) (P : Except ε α → ω → Ph → Prop) (w : ω) (ph : Ph) :
    Prop := ProgramLogic.Method.wp (fun ph q r ph' => ph' = D.next ph q r) D.allows x P w ph

variable {D : Discipline Q R Ph} {P : Except ε α → ω → Ph → Prop} {w : ω} {ph : Ph}

theorem wp_pure {a : α} (h : P (.ok a) w ph) : D.wp (pure a) P w ph := h

theorem wp_raise {e : ε} (h : P (.error e) w ph) : D.wp (raise e) P w ph := h

theorem wp_ofExcept {x : Except ε α} (h : P x w ph) : D.wp (ofExcept x) P w ph := h

theorem wp_send {q : Q} {f : R q → Except ε α} (hallows : D.allows ph q)
    (hP : ∀ r, P (f r) w (D.next ph q r)) : D.wp (send q f) P w ph := by
  apply (ProgramLogic.Method.wp_send _ _ _ _).mpr
  refine ⟨hallows, ?_⟩
  intro r ph' hph
  rw [hph]
  exact hP r

theorem wp_mono {P' : Except ε α → ω → Ph → Prop} {x : Method Q R ε ω α} (hx : D.wp x P' w ph)
    (h : ∀ r w ph, P' r w ph → P r w ph) : D.wp x P w ph :=
  ProgramLogic.Method.wp_mono h x w ph hx

theorem wp_bind (P' : Except ε β → ω → Ph → Prop) {x : Method Q R ε ω β} {f : β → Method Q R ε ω α}
    (hx : D.wp x P' w ph) (hok : ∀ b w ph, P' (.ok b) w ph → D.wp (f b) P w ph)
    (herror : ∀ e w ph, P' (.error e) w ph → P (.error e) w ph) : D.wp (x >>= f) P w ph :=
  ProgramLogic.Method.wp_seq hx hok herror

theorem wp_attempt_bind (P' : Except ε β → ω → Ph → Prop) {x : Method Q R ε ω β}
    {f : Except ε β → Method Q R ε ω α} (hx : D.wp x P' w ph)
    (hf : ∀ r w ph, P' r w ph → D.wp (f r) P w ph) : D.wp (attempt x >>= f) P w ph :=
  ProgramLogic.Method.wp_seq_attempt hx hf

theorem wp_send_bind {q : Q} {f : R q → Except ε β} {g : β → Method Q R ε ω α} (hallows : D.allows ph q)
    (hok : ∀ r b, f r = .ok b → D.wp (g b) P w (D.next ph q r))
    (herror : ∀ r e, f r = .error e → P (.error e) w (D.next ph q r)) : D.wp (send q f >>= g) P w ph := by
  apply wp_bind (fun x w' ph' => ∃ r, f r = x ∧ w' = w ∧ ph' = D.next ph q r)
  · exact wp_send hallows (fun r => ⟨r, rfl, rfl, rfl⟩)
  · intro b _ _ hr
    obtain ⟨r, hr, rfl, rfl⟩ := hr
    exact hok r b hr
  · intro e _ _ hr
    obtain ⟨r, hr, rfl, rfl⟩ := hr
    exact herror r e hr

end Methods

variable (D : Discipline Q R Ph) (final : Op → α → Ph → Prop)

/-- A thread and its phase. -/
inductive Fits : Option (Op × Prog Q R α) → Option (Op × Ph) → Prop
  | unused : Fits none none
  | used {op : Op} {p : Prog Q R α} {ph : Ph} (h : D.Keeps p (final op) ph) : Fits (some (op, p)) (some (op, ph))

/-- `v` is a view of the pool. -/
structure Views (v : View Op Q R C E σ Ph) (p : Pool Op Q R C E α σ) : Prop where
  fits : ∀ i, D.Fits final (p.threads i) (v.phases i)
  shared : v.shared = p.shared
  past : v.past = p.past

variable {D final}

variable {t : Option (Op × Prog Q R α)}

theorem Fits.update {threads : ℕ → Option (Op × Prog Q R α)} {phases : ℕ → Option (Op × Ph)}
    (h : ∀ i, D.Fits final (threads i) (phases i)) (i : ℕ) {ph : Option (Op × Ph)} (ht : D.Fits final t ph) (j : ℕ) :
    D.Fits final (update threads i t j) (update phases i ph j) := by
  by_cases hj : j = i
  · subst hj
    rw [update_self, update_self]
    exact ht
  · rw [update_of_ne hj, update_of_ne hj]
    exact h j

theorem Fits.eq_none {ph : Option (Op × Ph)} (h : D.Fits final none ph) : ph = none := by
  cases h
  rfl

theorem Fits.eq_some {op : Op} {p : Prog Q R α} {ph : Option (Op × Ph)}
    (h : D.Fits final (some (op, p)) ph) : ∃ ph', ph = some (op, ph') ∧ D.Keeps p (final op) ph' := by
  cases h with
  | used hkeeps => exact ⟨_, rfl, hkeeps⟩

theorem final_of_result {ph : Option (Op × Ph)} {a : α}
    (h : D.Fits final t ph) (ha : resultOf t = some a) : ∃ op ph', ph = some (op, ph') ∧ final op a ph' := by
  cases h with
  | unused => simp [resultOf] at ha
  | @used op p ph hkeeps =>
    cases p with
    | done b =>
      simp only [resultOf, Option.some.injEq] at ha
      subst ha
      exact ⟨op, ph, rfl, hkeeps⟩
    | call q k => simp [resultOf] at ha

theorem result_of_stuck {op : Op} {ph : Ph} (h : D.Fits final t (some (op, ph)))
    (hno : ∀ q, ¬ D.allows ph q) : ∃ a, resultOf t = some a ∧ final op a ph := by
  cases h with
  | @used _ p _ hkeeps =>
    cases p with
    | done a => exact ⟨a, rfl, hkeeps⟩
    | call q k => exact absurd hkeeps.1 (hno q)

/-- What has to be shown of a property of views: it is kept when a thread is started, when a
thread that keeps to the discipline has a request answered, and in a step of the
surroundings. -/
structure Invariant (sys : System Op Q R C E α σ) (D : Discipline Q R Ph) (init : Op → Ph)
    (final : Op → α → Ph → Prop) (ok : σ → List (Event Op Q R C E) → Event Op Q R C E → Prop)
    (I : View Op Q R C E σ Ph → Prop) : Prop where
  start : ∀ {v : View Op Q R C E σ Ph} {i : ℕ} {op : Op} {results : ℕ → Option α}, I v →
    v.phases i = none → sys.mayStart results op = true →
    (∀ j a, results j = some a → ∃ op' ph, v.phases j = some (op', ph) ∧ final op' a ph) →
    ok v.shared v.past (.start i op) →
    I ⟨Function.update v.phases i (some (op, init op)), v.shared, .start i op :: v.past⟩
  act : ∀ {v : View Op Q R C E σ Ph} {i : ℕ} {c : C} {op : Op} {ph : Ph} {q : Q} {r : R q} {s : σ}, I v →
    v.phases i = some (op, ph) → D.allows ph q → sys.act c i q v.shared = some (r, s) →
    ok v.shared v.past (.act i c q r) →
    I ⟨Function.update v.phases i (some (op, D.next ph q r)), s, .act i c q r :: v.past⟩
  env : ∀ {v : View Op Q R C E σ Ph} {e : E} {s : σ}, I v → sys.env e v.shared = some s →
    ok v.shared v.past (.env e) → I ⟨v.phases, s, .env e :: v.past⟩

variable {sys : System Op Q R C E α σ} {init : Op → Ph}
  {ok : σ → List (Event Op Q R C E) → Event Op Q R C E → Prop} {I : View Op Q R C E σ Ph → Prop}
  (hI : Invariant sys D init final ok I) (hprog : ∀ op, D.Keeps (sys.prog op) (final op) (init op))
include hI hprog

/-- If the programs keep to the discipline, a pool with a view that satisfies the invariant
has such a view after every step. -/
theorem Invariant.step (l : Label Op C E) (p p' : Pool Op Q R C E α σ)
    (hp : ∃ v, D.Views final v p ∧ I v) (hok : ∀ ev, p'.past = ev :: p.past → ok p.shared p.past ev)
    (hstep : step sys l p = some p') : ∃ v, D.Views final v p' ∧ I v := by
  obtain ⟨⟨phases, shared, past⟩, ⟨hfits, rfl, rfl⟩, hv⟩ := hp
  cases l with
  | start i op =>
    rw [Interleaving.step] at hstep
    split at hstep
    · next hmay =>
      rw [Bool.and_eq_true, Option.isNone_iff_eq_none] at hmay
      cases hstep
      have hi : phases i = none := Fits.eq_none (hmay.1 ▸ hfits i)
      have hresults (j : ℕ) (a : α) (ha : p.results j = some a) :
          ∃ op' ph, phases j = some (op', ph) ∧ final op' a ph := final_of_result (hfits j) ha
      exact ⟨_, ⟨Fits.update hfits i (.used (hprog op)), rfl, rfl⟩, hI.start hv hi hmay.2 hresults (hok _ rfl)⟩
    · cases hstep
  | act i c =>
    rw [Interleaving.step] at hstep
    split at hstep
    · next op q k hthread =>
      rw [Option.map_eq_some_iff] at hstep
      obtain ⟨⟨r, s⟩, hact, rfl⟩ := hstep
      have hi := hfits i
      rw [hthread] at hi
      obtain ⟨ph, hphase, hkeeps⟩ := hi.eq_some
      have hrest := hkeeps.2 r _ rfl
      exact ⟨_, ⟨Fits.update hfits i (.used hrest), rfl, rfl⟩, hI.act hv hphase hkeeps.1 hact (hok _ rfl)⟩
    · cases hstep
  | env e =>
    rw [Interleaving.step, Option.map_eq_some_iff] at hstep
    obtain ⟨s, henv, rfl⟩ := hstep
    exact ⟨⟨phases, s, .env e :: p.past⟩, ⟨hfits, rfl, rfl⟩, hI.env hv henv (hok _ rfl)⟩

theorem Invariant.of_run {ls : List (Label Op C E)}
    {p p' : Pool Op Q R C E α σ} (hp : ∃ v, D.Views final v p ∧ I v) (hok : Careful sys ok ls p)
    (hrun : run sys ls p = some p') : ∃ v, D.Views final v p' ∧ I v :=
  inv_of_run (hI.step hprog) hp hok hrun

end Discipline

end Bpy.Interleaving
