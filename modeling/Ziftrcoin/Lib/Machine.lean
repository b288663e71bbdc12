/-
Module: Ziftrcoin.Lib.Machine
Purpose: Programs over a mutable state whose calls return, refuse with a
  reason, or fault, and rules of pre- and postconditions for them.  A refusal
  keeps the state it happened in; a fault is final.
Trusted boundary: none
Main exports: Result, Machine, Machine.get
-/
import Mathlib.Logic.Basic

namespace Ziftrcoin.Lib

/-- How a call ends. -/
inductive Result (σ ρ φ α : Type) where
  | done (a : α) (s : σ)
  | refused (r : ρ) (s : σ)
  | faulted (f : φ)

/-- A program over states `σ` that can refuse with `ρ` and fault with `φ`. -/
def Machine (σ ρ φ α : Type) := σ → Result σ ρ φ α

namespace Machine

variable {σ ρ φ α β : Type}

def bind (x : Machine σ ρ φ α) (f : α → Machine σ ρ φ β) : Machine σ ρ φ β :=
  fun s =>
    match x s with
    | .done a s' => f a s'
    | .refused r s' => .refused r s'
    | .faulted e => .faulted e

instance : Monad (Machine σ ρ φ) where
  pure a := fun s => .done a s
  bind := bind

def get : Machine σ ρ φ σ := fun s => .done s s

def modify (f : σ → σ) : Machine σ ρ φ Unit := fun s => .done () (f s)

def refuse (r : ρ) : Machine σ ρ φ α := fun s => .refused r s

def fault (e : φ) : Machine σ ρ φ α := fun _ => .faulted e

/-- Run a call and look at how it went, with the state it left. -/
def attempt (x : Machine σ ρ φ α) : Machine σ ρ φ (Except ρ α) :=
  fun s =>
    match x s with
    | .done a s' => .done (.ok a) s'
    | .refused r s' => .done (.error r) s'
    | .faulted e => .faulted e

/-! ### Running a program -/

@[simp] theorem pure_run (a : α) (s : σ) :
    (pure a : Machine σ ρ φ α) s = .done a s := rfl

@[simp] theorem get_run (s : σ) : (get : Machine σ ρ φ σ) s = .done s s := rfl

@[simp] theorem modify_run (f : σ → σ) (s : σ) :
    (modify f : Machine σ ρ φ Unit) s = .done () (f s) := rfl

@[simp] theorem refuse_run (r : ρ) (s : σ) :
    (refuse r : Machine σ ρ φ α) s = .refused r s := rfl

@[simp] theorem fault_run (e : φ) (s : σ) :
    (fault e : Machine σ ρ φ α) s = .faulted e := rfl

theorem bind_run (x : Machine σ ρ φ α) (f : α → Machine σ ρ φ β) (s : σ) :
    (x >>= f) s =
      match x s with
      | .done a s' => f a s'
      | .refused r s' => .refused r s'
      | .faulted e => .faulted e := rfl

theorem bind_run_done {x : Machine σ ρ φ α} {f : α → Machine σ ρ φ β} {s s' : σ}
    {a : α} (h : x s = .done a s') : (x >>= f) s = f a s' := by
  rw [bind_run, h]

@[simp] theorem get_bind_run (f : σ → Machine σ ρ φ β) (s : σ) :
    ((get : Machine σ ρ φ σ) >>= f) s = f s s := rfl

@[simp] theorem modify_bind_run (g : σ → σ) (f : Unit → Machine σ ρ φ β) (s : σ) :
    ((modify g : Machine σ ρ φ Unit) >>= f) s = f () (g s) := rfl

@[simp] theorem pure_bind_run (a : α) (f : α → Machine σ ρ φ β) (s : σ) :
    ((pure a : Machine σ ρ φ α) >>= f) s = f a s := rfl

@[simp] theorem refuse_bind_run (r : ρ) (f : α → Machine σ ρ φ β) (s : σ) :
    ((refuse r : Machine σ ρ φ α) >>= f) s = .refused r s := rfl

@[simp] theorem fault_bind_run (e : φ) (f : α → Machine σ ρ φ β) (s : σ) :
    ((fault e : Machine σ ρ φ α) >>= f) s = .faulted e := rfl

end Machine

/-! ### Postconditions -/

/-- The call returned with `D`, refused with `R` or faulted with `F`. -/
def Result.Meets {σ ρ φ α : Type} (D : α → σ → Prop) (R : ρ → σ → Prop)
    (F : φ → Prop) : Result σ ρ φ α → Prop
  | .done a s => D a s
  | .refused r s => R r s
  | .faulted e => F e

namespace Meets

open Machine

variable {σ ρ φ α β : Type} {D D' : α → σ → Prop} {E : β → σ → Prop}
  {R R' : ρ → σ → Prop} {F F' : φ → Prop}

theorem done {a : α} {s : σ} (h : D a s) :
    (Result.done a s : Result σ ρ φ α).Meets D R F := h

theorem bind {x : Machine σ ρ φ α} {f : α → Machine σ ρ φ β} {s : σ}
    (hx : (x s).Meets D R F) (hf : ∀ a s', D a s' → (f a s').Meets E R F) :
    ((x >>= f) s).Meets E R F := by
  rw [bind_run]
  cases h : x s with
  | done a s' =>
      rw [h] at hx
      exact hf a s' hx
  | refused r s' =>
      rw [h] at hx
      exact hx
  | faulted e =>
      rw [h] at hx
      exact hx

theorem mono {r : Result σ ρ φ α} (h : r.Meets D R F)
    (hD : ∀ a s, D a s → D' a s) (hR : ∀ e s, R e s → R' e s)
    (hF : ∀ e, F e → F' e) : r.Meets D' R' F' := by
  cases r with
  | done a s => exact hD a s h
  | refused e s => exact hR e s h
  | faulted e => exact hF e h

theorem and {r : Result σ ρ φ α} (h : r.Meets D R F) (h' : r.Meets D' R' F') :
    r.Meets (fun a s => D a s ∧ D' a s) (fun e s => R e s ∧ R' e s)
      fun e => F e ∧ F' e := by
  cases r with
  | done a s => exact ⟨h, h'⟩
  | refused e s => exact ⟨h, h'⟩
  | faulted e => exact ⟨h, h'⟩

theorem ite {c : Prop} [Decidable c] {x y : Machine σ ρ φ α} {s : σ}
    (hx : c → (x s).Meets D R F) (hy : ¬ c → (y s).Meets D R F) :
    ((if c then x else y) s).Meets D R F := by
  by_cases h : c
  · rw [if_pos h]
    exact hx h
  · rw [if_neg h]
    exact hy h

/-- A call that is looked at meets the postcondition when both ways for it to
come back do. -/
theorem attempt {x : Machine σ ρ φ α} {s : σ} {G : Except ρ α → σ → Prop}
    (h : (x s).Meets (fun a => G (.ok a)) (fun r => G (.error r)) F) :
    (attempt x s).Meets G R F := by
  unfold Machine.attempt
  cases hx : x s with
  | done a s' =>
      rw [hx] at h
      exact h
  | refused r s' =>
      rw [hx] at h
      exact h
  | faulted e =>
      rw [hx] at h
      exact h

/-- What holds of every way to come back holds of the state of a call that
returned. -/
theorem of_done {x : Result σ ρ φ α} {a : α} {s : σ} (h : x.Meets D R F)
    (hx : x = .done a s) : D a s := by
  subst hx
  exact h

end Meets

end Ziftrcoin.Lib
