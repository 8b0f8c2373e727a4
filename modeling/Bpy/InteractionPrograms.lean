import Mathlib.Data.Nat.Notation
import Mathlib.Logic.Basic

/-!
# Interaction programs and fallible methods

A program over a request type `Q` either returns or issues one request and continues
with the answer. It fixes no meaning for the requests: `Prog.run` answers them by a
handler over a state, and `Prog.interp` by programs over another request type.

A method of an object `ω` is a program that also reads and updates the object and may
fail. The object and the state of the handler survive a failure: this is how a call
that returns an error value behaves in a language without rollback.
-/
namespace Bpy.InteractionPrograms

inductive Prog (Q : Type) (R : Q → Type) (α : Type) : Type
  | done (a : α)
  | call (q : Q) (k : R q → Prog Q R α)

variable {Q Q' : Type} {R : Q → Type} {R' : Q' → Type} {α β γ σ ω ω' ε : Type}

namespace Prog

def bind : Prog Q R α → (α → Prog Q R β) → Prog Q R β
  | .done a, f => f a
  | .call q k, f => .call q (fun r => (k r).bind f)

instance : Monad (Prog Q R) where
  pure := .done
  bind := bind

@[simp] theorem pure_eq (a : α) : (pure a : Prog Q R α) = .done a := rfl

@[simp] theorem bind_eq (p : Prog Q R α) (f : α → Prog Q R β) : p >>= f = p.bind f := rfl

@[simp] theorem done_bind (a : α) (f : α → Prog Q R β) : (Prog.done a).bind f = f a := rfl

@[simp] theorem call_bind (q : Q) (k : R q → Prog Q R α) (f : α → Prog Q R β) :
    (Prog.call q k).bind f = .call q (fun r => (k r).bind f) := rfl

theorem bind_assoc (p : Prog Q R α) (f : α → Prog Q R β) (g : β → Prog Q R γ) :
    (p.bind f).bind g = p.bind (fun a => (f a).bind g) := by
  induction p with
  | done a => rfl
  | call q k ih => simp only [call_bind, ih]

/-- Every value the program can return satisfies `P`, whatever the answers. -/
def Always (P : α → Prop) : Prog Q R α → Prop
  | .done a => P a
  | .call _ k => ∀ r, (k r).Always P

theorem Always.bind {P : α → Prop} {P' : β → Prop} {p : Prog Q R α} {f : α → Prog Q R β}
    (hp : p.Always P) (hf : ∀ a, P a → (f a).Always P') : (p.bind f).Always P' := by
  induction p with
  | done a => exact hf a hp
  | call q k ih => exact fun r => ih r (hp r)

theorem Always.bind_congr {P : α → Prop} {p : Prog Q R α} {f g : α → Prog Q R β}
    (hp : p.Always P) (hfg : ∀ a, P a → f a = g a) : p.bind f = p.bind g := by
  induction p with
  | done a => exact hfg a hp
  | call q k ih =>
    simp only [call_bind]
    congr 1
    funext r
    exact ih r (hp r)

theorem always_of_forall {P : α → Prop} (p : Prog Q R α) (h : ∀ a, P a) : p.Always P := by
  induction p with
  | done a => exact h a
  | call q k ih => exact ih

/-- Answer every request by the handler `h`. -/
def run (h : (q : Q) → σ → R q × σ) : Prog Q R α → σ → α × σ
  | .done a, s => (a, s)
  | .call q k, s => (k (h q s).1).run h (h q s).2

section

variable (h : (q : Q) → σ → R q × σ)
include h

@[simp] theorem run_done (a : α) (s : σ) : (Prog.done a).run h s = (a, s) := rfl

@[simp] theorem run_call (q : Q) (k : R q → Prog Q R α) (s : σ) :
    (Prog.call q k).run h s = (k (h q s).1).run h (h q s).2 := rfl

theorem run_bind (p : Prog Q R α) (f : α → Prog Q R β) (s : σ) :
    (p.bind f).run h s = (f (p.run h s).1).run h (p.run h s).2 := by
  induction p generalizing s with
  | done a => rfl
  | call q k ih => exact ih _ _

end

/-- Issue every request as a request of another type, and read its answer by `back`. -/
def relabel (f : Q → Q') (back : (q : Q) → R' (f q) → R q) : Prog Q R α → Prog Q' R' α
  | .done a => .done a
  | .call q k => .call (f q) (fun r => (k (back q r)).relabel f back)

end Prog

/-- A method of an object of type `ω` that returns a value or an error. -/
def Method (Q : Type) (R : Q → Type) (ε ω α : Type) : Type :=
  ω → Prog Q R (Except ε α × ω)

namespace Method

/-- Go on after a call that returned a value, and return its error otherwise. -/
def follow (f : α → Method Q R ε ω β) : Except ε α × ω → Prog Q R (Except ε β × ω)
  | (.ok a, w) => f a w
  | (.error e, w) => .done (.error e, w)

instance : Monad (Method Q R ε ω) where
  pure a := fun w => .done (.ok a, w)
  bind x f := fun w => (x w).bind (follow f)

theorem bind_apply (x : Method Q R ε ω α) (f : α → Method Q R ε ω β) (w : ω) :
    (x >>= f) w = (x w).bind (follow f) := rfl

@[simp] theorem pure_bind (a : α) (f : α → Method Q R ε ω β) : (pure a : Method Q R ε ω α) >>= f = f a := rfl

theorem bind_assoc (x : Method Q R ε ω α) (f : α → Method Q R ε ω β) (g : β → Method Q R ε ω γ) :
    x >>= f >>= g = x >>= fun a => f a >>= g := by
  funext w
  simp only [bind_apply, Prog.bind_assoc]
  congr 1
  funext r
  rcases r with ⟨r, w'⟩
  cases r <;> rfl

/-- Return an error. -/
def raise (e : ε) : Method Q R ε ω α := fun w => .done (.error e, w)

/-- The receiver of the method. -/
def self : Method Q R ε ω ω := fun w => .done (.ok w, w)

def update (f : ω → ω) : Method Q R ε ω Unit := fun w => .done (.ok (), f w)

/-- The result of a computation without requests. -/
def ofExcept (x : Except ε α) : Method Q R ε ω α := fun w => .done (x, w)

/-- The outcome of a call as a value, so that an error does not end the caller. -/
def attempt (x : Method Q R ε ω α) : Method Q R ε ω (Except ε α) :=
  fun w => (x w).bind (fun r => .done (.ok r.1, r.2))

/-- Issue a request whose answer is itself a value or an error. -/
def send (q : Q) (f : R q → Except ε α) : Method Q R ε ω α :=
  fun w => .call q (fun r => .done (f r, w))

/-- Call a method of a local object, which is dropped when the method fails. -/
def on (w₀ : ω') (x : Method Q R ε ω' α) : Method Q R ε ω (α × ω') :=
  fun w => (x w₀).bind (fun r => .done (r.1.map (fun a => (a, r.2)), w))

/-- Call a method of a part of the receiver. -/
def within (part : ω → ω') (put : ω → ω' → ω) (x : Method Q R ε ω' α) : Method Q R ε ω α :=
  fun w => (x (part w)).bind (fun r => .done (r.1, put w r.2))

section Run

variable (h : (q : Q) → σ → R q × σ)

/-- The outcome of a method call: result, receiver and handler state. -/
def exec (x : Method Q R ε ω α) (w : ω) (s : σ) : Except ε α × ω × σ :=
  (((x w).run h s).1.1, ((x w).run h s).1.2, ((x w).run h s).2)

theorem exec_congr {x y : Method Q R ε ω α} {w : ω} (hxy : x w = y w) (s : σ) :
    exec h x w s = exec h y w s := by rw [exec, hxy, exec]

@[simp] theorem exec_pure (a : α) (w : ω) (s : σ) : exec h (pure a : Method Q R ε ω α) w s = (.ok a, w, s) := rfl

@[simp] theorem exec_raise (e : ε) (w : ω) (s : σ) : exec h (raise e : Method Q R ε ω α) w s = (.error e, w, s) := rfl

@[simp] theorem exec_self (w : ω) (s : σ) : exec h (self : Method Q R ε ω ω) w s = (.ok w, w, s) := rfl

@[simp] theorem exec_update (f : ω → ω) (w : ω) (s : σ) :
    exec h (update f : Method Q R ε ω Unit) w s = (.ok (), f w, s) := rfl

@[simp] theorem exec_ofExcept (x : Except ε α) (w : ω) (s : σ) :
    exec h (ofExcept x : Method Q R ε ω α) w s = (x, w, s) := rfl

@[simp] theorem exec_send (q : Q) (f : R q → Except ε α) (w : ω) (s : σ) :
    exec h (send q f : Method Q R ε ω α) w s = (f (h q s).1, w, (h q s).2) := rfl

theorem exec_bind (x : Method Q R ε ω α) (f : α → Method Q R ε ω β) (w : ω) (s : σ) :
    exec h (x >>= f) w s = match exec h x w s with
      | (.ok a, w', s') => exec h (f a) w' s'
      | (.error e, w', s') => (.error e, w', s') := by
  simp only [exec, bind_apply, Prog.run_bind]
  rcases (x w).run h s with ⟨⟨r, w'⟩, s'⟩
  cases r <;> rfl

theorem exec_bind_ok {x : Method Q R ε ω α} {f : α → Method Q R ε ω β} {w w' : ω} {s s' : σ} {a : α}
    (hx : exec h x w s = (.ok a, w', s')) : exec h (x >>= f) w s = exec h (f a) w' s' := by
  rw [exec_bind, hx]

theorem exec_bind_error {x : Method Q R ε ω α} {f : α → Method Q R ε ω β} {w w' : ω} {s s' : σ} {e : ε}
    (hx : exec h x w s = (.error e, w', s')) : exec h (x >>= f) w s = (.error e, w', s') := by
  rw [exec_bind, hx]

theorem exec_bind_eq_ok {x : Method Q R ε ω α} {f : α → Method Q R ε ω β} {w w' : ω} {s s' : σ} {b : β}
    (hxf : exec h (x >>= f) w s = (.ok b, w', s')) :
    ∃ a w₁ s₁, exec h x w s = (.ok a, w₁, s₁) ∧ exec h (f a) w₁ s₁ = (.ok b, w', s') := by
  rw [exec_bind] at hxf
  rcases hx : exec h x w s with ⟨r, w₁, s₁⟩
  rw [hx] at hxf
  cases r with
  | error e => simp at hxf
  | ok a => exact ⟨a, w₁, s₁, rfl, hxf⟩

theorem exec_attempt (x : Method Q R ε ω α) (w : ω) (s : σ) :
    exec h (attempt x) w s = (.ok (exec h x w s).1, (exec h x w s).2) := by
  simp only [exec, attempt, Prog.run_bind, Prog.run_done]

theorem exec_on (w₀ : ω') (x : Method Q R ε ω' α) (w : ω) (s : σ) : exec h (on w₀ x : Method Q R ε ω (α × ω')) w s =
      ((exec h x w₀ s).1.map (fun a => (a, (exec h x w₀ s).2.1)), w, (exec h x w₀ s).2.2) := by
  have hrun := Prog.run_bind h (x w₀)
    (fun r => (.done (r.1.map (fun a => (a, r.2)), w) : Prog Q R (Except ε (α × ω') × ω))) s
  simp only [exec, on, hrun, Prog.run_done]

theorem exec_within (part : ω → ω') (put : ω → ω' → ω) (x : Method Q R ε ω' α) (w : ω) (s : σ) :
    exec h (within part put x) w s =
      ((exec h x (part w) s).1, put w (exec h x (part w) s).2.1, (exec h x (part w) s).2.2) := by
  simp only [exec, within, Prog.run_bind, Prog.run_done]

end Run

end Method

end Bpy.InteractionPrograms
