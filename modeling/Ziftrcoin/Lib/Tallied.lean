/-
Module: Ziftrcoin.Lib.Tallied
Purpose: Programs that can stop early and that keep a tally of what they did, also
  when they stop.  Pre- and postconditions of such programs, one rule for each
  way to build one.
Trusted boundary: none
Main exports: Ends, Tallied, tick
-/
import Ziftrcoin.Lib.Outcome

namespace Ziftrcoin.Lib

universe u

variable {τ ε : Type u} {α β γ : Type u}

/-! ### Without a tally -/

/-- The program returns a value with `Q`, or stops for a reason with `E`. -/
def Ends (x : Except ε α) (Q : α → Prop) (E : ε → Prop) : Prop :=
  match x with
  | .ok a => Q a
  | .error e => E e

namespace Ends

variable {Q Q' : α → Prop} {R : β → Prop} {E E' : ε → Prop}

@[simp] theorem ok_iff {a : α} : Ends (.ok a) Q E ↔ Q a := Iff.rfl

@[simp] theorem error_iff {e : ε} : Ends (.error e : Except ε α) Q E ↔ E e := Iff.rfl

@[simp] theorem pure_iff {a : α} : Ends (pure a) Q E ↔ Q a := Iff.rfl

@[simp] theorem throw_iff {e : ε} : Ends (throw e : Except ε α) Q E ↔ E e := Iff.rfl

theorem bind_iff {x : Except ε α} {f : α → Except ε β} :
    Ends (x >>= f) R E ↔ Ends x (fun a => Ends (f a) R E) E := by
  cases x <;> rfl

theorem mono {x : Except ε α} (h : Ends x Q E) (hQ : ∀ a, Q a → Q' a)
    (hE : ∀ e, E e → E' e) : Ends x Q' E' := by
  cases x with
  | error e => exact hE e h
  | ok a => exact hQ a h

theorem and {x : Except ε α} (h : Ends x Q E) (h' : Ends x Q' E') :
    Ends x (fun a => Q a ∧ Q' a) fun e => E e ∧ E' e := by
  cases x with
  | error e => exact ⟨h, h'⟩
  | ok a => exact ⟨h, h'⟩

end Ends

/-! ### With a tally -/

/-- A program that returns an `α` or stops with an `ε`, and has counted in a `τ`. -/
abbrev Tallied (τ ε : Type u) (α : Type u) := ExceptT ε (StateM τ) α

namespace Tallied

/-- Run the program from a tally. -/
def exec (x : Tallied τ ε α) (t : τ) : Except ε α × τ := x t

/-- Change the tally. -/
def tick (f : τ → τ) : Tallied τ ε PUnit := fun t => (.ok PUnit.unit, f t)

/-- Stop. -/
def halt (e : ε) : Tallied τ ε α := fun t => (.error e, t)

/-- A program that counts nothing. -/
def uncounted (x : Except ε α) : Tallied τ ε α := fun t => (x, t)

/-- Go on with `none` after a stop that is caught.  The tally is kept. -/
def attempt (caught : ε → Bool) (x : Tallied τ ε α) : Tallied τ ε (Option α) := fun t =>
  match exec x t with
  | (.ok a, t) => (.ok (some a), t)
  | (.error e, t) => if caught e then (.ok none, t) else (.error e, t)

@[simp] theorem exec_pure (a : α) (t : τ) :
    exec (pure a : Tallied τ ε α) t = (.ok a, t) := rfl

@[simp] theorem exec_halt (e : ε) (t : τ) :
    exec (halt e : Tallied τ ε α) t = (.error e, t) := rfl

@[simp] theorem exec_tick (f : τ → τ) (t : τ) :
    exec (tick f : Tallied τ ε PUnit) t = (.ok PUnit.unit, f t) := rfl

@[simp] theorem exec_uncounted (x : Except ε α) (t : τ) :
    exec (uncounted x : Tallied τ ε α) t = (x, t) := rfl

/-- What a sequence does after its first part. -/
def continue_ (f : α → Tallied τ ε β) : Except ε α × τ → Except ε β × τ
  | (.ok a, t) => exec (f a) t
  | (.error e, t) => (.error e, t)

theorem exec_bind (x : Tallied τ ε α) (f : α → Tallied τ ε β) (t : τ) :
    exec (x >>= f) t = continue_ f (exec x t) := by
  change (ExceptT.bind x f) t = continue_ f (x t)
  simp only [ExceptT.bind, ExceptT.mk, bind, StateT.bind]
  generalize x t = r
  obtain ⟨a | a, t'⟩ := r <;> rfl

/-- A sequence stops where its first part stops, or in its second part. -/
theorem exec_bind_eq_error {x : Tallied τ ε α} {f : α → Tallied τ ε β} {t : τ} {e : ε} :
    (exec (x >>= f) t).1 = .error e ↔
      (exec x t).1 = .error e ∨
        ∃ a t₁, exec x t = (.ok a, t₁) ∧ (exec (f a) t₁).1 = .error e := by
  rw [exec_bind]
  generalize exec x t = r
  obtain ⟨e' | a, t₁⟩ := r
  · simp [continue_]
  · simp only [continue_, Prod.mk.injEq, Except.ok.injEq, reduceCtorEq, false_or]
    constructor
    · intro h
      exact ⟨a, t₁, ⟨rfl, rfl⟩, h⟩
    · rintro ⟨_, _, ⟨rfl, rfl⟩, h⟩
      exact h

end Tallied

open Tallied

/-- From the tally `t` the program returns with `Q`, or stops with `E`. -/
def Achieves (x : Tallied τ ε α) (Q : α → τ → Prop) (E : ε → τ → Prop) (t : τ) : Prop :=
  Ends (exec x t).1 (fun a => Q a (exec x t).2) (fun e => E e (exec x t).2)

namespace Achieves

variable {x : Tallied τ ε α} {Q Q' : α → τ → Prop} {R : β → τ → Prop}
  {E E' : ε → τ → Prop} {t : τ}

@[simp] theorem pure_iff {a : α} : Achieves (pure a) Q E t ↔ Q a t := Iff.rfl

@[simp] theorem halt_iff {e : ε} : Achieves (halt e : Tallied τ ε α) Q E t ↔ E e t := Iff.rfl

@[simp] theorem tick_iff {f : τ → τ} {Q : PUnit → τ → Prop} :
    Achieves (tick f : Tallied τ ε PUnit) Q E t ↔ Q PUnit.unit (f t) := Iff.rfl

@[simp] theorem uncounted_iff {x : Except ε α} :
    Achieves (uncounted x : Tallied τ ε α) Q E t ↔
      Ends x (fun a => Q a t) (fun e => E e t) := Iff.rfl

theorem bind_iff {f : α → Tallied τ ε β} :
    Achieves (x >>= f) R E t ↔ Achieves x (fun a t => Achieves (f a) R E t) E t := by
  simp only [Achieves, exec_bind]
  generalize exec x t = r
  obtain ⟨e | a, t₁⟩ := r <;> rfl

theorem bind {f : α → Tallied τ ε β} (hx : Achieves x Q E t)
    (hf : ∀ a t, Q a t → Achieves (f a) R E t) : Achieves (x >>= f) R E t := by
  rw [bind_iff]
  unfold Achieves at hx ⊢
  exact hx.mono (fun a ha => hf a _ ha) fun e he => he

theorem mono (h : Achieves x Q E t) (hQ : ∀ a t, Q a t → Q' a t)
    (hE : ∀ e t, E e t → E' e t) : Achieves x Q' E' t :=
  Ends.mono h (fun a ha => hQ a _ ha) fun e he => hE e _ he

theorem and (h : Achieves x Q E t) (h' : Achieves x Q' E' t) :
    Achieves x (fun a t => Q a t ∧ Q' a t) (fun e t => E e t ∧ E' e t) t := Ends.and h h'

theorem ite {c : Prop} [Decidable c] {y : Tallied τ ε α} (hx : c → Achieves x Q E t)
    (hy : ¬ c → Achieves y Q E t) : Achieves (if c then x else y) Q E t := by
  by_cases h : c
  · simpa [h] using hx h
  · simpa [h] using hy h

/-- A stop that is caught becomes `none`. -/
theorem attempt {caught : ε → Bool} {Q : Option α → τ → Prop}
    (h : Achieves x (fun a t => Q (some a) t)
      (fun e t => (caught e = true → Q none t) ∧ (caught e = false → E e t)) t) :
    Achieves (attempt caught x) Q E t := by
  unfold Achieves at h ⊢
  unfold Tallied.attempt
  simp only [exec] at h ⊢
  generalize x t = r at h ⊢
  obtain ⟨e | a, t₁⟩ := r
  · cases hcaught : caught e with
    | true => simpa [hcaught] using h.1 hcaught
    | false => simpa [hcaught] using h.2 hcaught
  · exact h

/-- What a program that meets its specification has returned. -/
theorem of_exec {a : α} {t' : τ} (h : Achieves x Q E t) (hx : exec x t = (.ok a, t')) :
    Q a t' := by
  unfold Achieves at h
  rw [hx] at h
  exact h

end Achieves

end Ziftrcoin.Lib
