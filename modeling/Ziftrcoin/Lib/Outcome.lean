/-
Module: Ziftrcoin.Lib.Outcome
Purpose: Inversion, safety and two-run rules for programs that return `Except`.
  A program that can stop early is an `Except ε α`; these rules take such a
  program apart along its `do` block, once and for all loops.
Trusted boundary: none
Main exports: bind_eq_ok, Errs, Errs.bind
-/
import Mathlib.Data.List.Basic

namespace Ziftrcoin.Lib.Outcome

universe u v

variable {ε : Type u} {α β γ δ : Type v}

/-! ### Inversion -/

/-- A sequence succeeds exactly when its first part does and its second part
succeeds on the value the first one returned. -/
theorem bind_eq_ok {x : Except ε α} {f : α → Except ε β} {b : β} :
    (x >>= f) = .ok b ↔ ∃ a, x = .ok a ∧ f a = .ok b := by
  cases x with
  | error e => simp [bind, Except.bind]
  | ok a => simp [bind, Except.bind]

/-- A sequence stops where its first part stops, or in its second part. -/
theorem bind_eq_error {x : Except ε α} {f : α → Except ε β} {e : ε} :
    (x >>= f) = .error e ↔
      x = .error e ∨ ∃ a, x = .ok a ∧ f a = .error e := by
  cases x with
  | error e' => simp [bind, Except.bind]
  | ok a => simp [bind, Except.bind]

@[simp] theorem ok_bind (a : α) (f : α → Except ε β) :
    ((Except.ok a : Except ε α) >>= f) = f a := rfl

@[simp] theorem error_bind (e : ε) (f : α → Except ε β) :
    ((Except.error e : Except ε α) >>= f) = .error e := rfl

@[simp] theorem pure_eq_ok (a : α) : (pure a : Except ε α) = .ok a := rfl

@[simp] theorem throw_eq_error (e : ε) :
    (throw e : Except ε α) = .error e := rfl

/-- A guard that stops the program lets it through only when the guard is
false. -/
theorem guard_eq_ok {c : Prop} [Decidable c] {e : ε} {x : Except ε α} {a : α} :
    (if c then .error e else x) = .ok a ↔ ¬ c ∧ x = .ok a := by
  by_cases h : c <;> simp [h]

/-! ### What a program may stop with -/

/-- Every way the program stops early satisfies `P`. -/
def Errs (P : ε → Prop) (x : Except ε α) : Prop :=
  ∀ e, x = .error e → P e

namespace Errs

variable {P Q : ε → Prop}

theorem ok (a : α) : Errs P (.ok a) := by
  intro e h
  cases h

theorem error {e : ε} (h : P e) : Errs P (.error e : Except ε α) := by
  intro e' h'
  cases h'
  exact h

theorem bind {x : Except ε α} {f : α → Except ε β} (hx : Errs P x)
    (hf : ∀ a, x = .ok a → Errs P (f a)) : Errs P (x >>= f) := by
  intro e h
  rcases bind_eq_error.mp h with h | ⟨a, ha, h⟩
  · exact hx e h
  · exact hf a ha e h

theorem ite {c : Prop} [Decidable c] {x y : Except ε α} (hx : c → Errs P x)
    (hy : ¬ c → Errs P y) : Errs P (if c then x else y) := by
  by_cases h : c
  · simpa [h] using hx h
  · simpa [h] using hy h

theorem mono {x : Except ε α} (h : Errs P x) (hPQ : ∀ e, P e → Q e) :
    Errs Q x := fun e he => hPQ e (h e he)

end Errs

/-! ### Two runs side by side -/

/-- Both programs return, with results related by `R`, or both stop, for
reasons related by `E`. -/
inductive Rel (E : ε → ε → Prop) (R : α → β → Prop) :
    Except ε α → Except ε β → Prop where
  | ok {a : α} {b : β} (related : R a b) : Rel E R (.ok a) (.ok b)
  | error {e e' : ε} (related : E e e') : Rel E R (.error e) (.error e')

namespace Rel

variable {E : ε → ε → Prop} {R : α → β → Prop} {S : γ → δ → Prop}

theorem bind {x : Except ε α} {y : Except ε β} {f : α → Except ε γ}
    {g : β → Except ε δ} (hxy : Rel E R x y)
    (hfg : ∀ a b, R a b → Rel E S (f a) (g b)) :
    Rel E S (x >>= f) (y >>= g) := by
  cases hxy with
  | ok related => exact hfg _ _ related
  | error related => exact .error related

theorem ite {c d : Prop} [Decidable c] [Decidable d] (hcd : c ↔ d)
    {x y : Except ε α} {x' y' : Except ε β}
    (hx : c → Rel E R x x') (hy : ¬ c → Rel E R y y') :
    Rel E R (if c then x else y) (if d then x' else y') := by
  by_cases h : c
  · have hd : d := hcd.mp h
    simpa [h, hd] using hx h
  · have hd : ¬ d := fun hd => h (hcd.mpr hd)
    simpa [h, hd] using hy h

end Rel

/-! ### Loops -/

/-- Two loops that do the same in each round do the same. -/
theorem mapM_congr {f g : α → Except ε β} :
    ∀ {xs : List α}, (∀ x ∈ xs, f x = g x) → xs.mapM f = xs.mapM g
  | [], _ => rfl
  | x :: xs, h => by
      rw [List.mapM_cons, List.mapM_cons, h x List.mem_cons_self,
        mapM_congr fun y hy => h y (List.mem_cons_of_mem x hy)]

/-- Loop invariant rule: what one round keeps, a whole loop keeps.  The rule
hands each round the fact that its element belongs to the list. -/
theorem foldlM_invariant {f : β → α → Except ε β} (I : β → Prop) :
    ∀ {xs : List α} {b b' : β}, xs.foldlM f b = .ok b' → I b →
      (∀ x ∈ xs, ∀ c c', I c → f c x = .ok c' → I c') → I b'
  | [], b, b', h, hb, _ => by
      simp only [List.foldlM_nil, pure_eq_ok, Except.ok.injEq] at h
      exact h ▸ hb
  | x :: xs, b, b', h, hb, hstep => by
      rw [List.foldlM_cons, bind_eq_ok] at h
      obtain ⟨c, hc, h⟩ := h
      have hI : I c := hstep x List.mem_cons_self b c hb hc
      exact foldlM_invariant I h hI fun y hy =>
        hstep y (List.mem_cons_of_mem x hy)

/-- A loop stops only the way one of its rounds can stop, reached with the
invariant intact. -/
theorem Errs.foldlM {P : ε → Prop} {f : β → α → Except ε β} (I : β → Prop) :
    ∀ {xs : List α} {b : β}, I b →
      (∀ x ∈ xs, ∀ c, I c → Errs P (f c x)) →
      (∀ x ∈ xs, ∀ c c', I c → f c x = .ok c' → I c') →
      Errs P (xs.foldlM f b)
  | [], b, _, _, _ => by
      simp only [List.foldlM_nil, pure_eq_ok]
      exact Errs.ok b
  | x :: xs, b, hb, herr, hstep => by
      rw [List.foldlM_cons]
      refine (herr x List.mem_cons_self b hb).bind fun c hc => ?_
      exact Errs.foldlM I (hstep x List.mem_cons_self b c hb hc)
        (fun y hy => herr y (List.mem_cons_of_mem x hy))
        (fun y hy => hstep y (List.mem_cons_of_mem x hy))

/-- Two loops over one list stay related when their rounds do. -/
theorem Rel.foldlM {E : ε → ε → Prop} {R : β → γ → Prop}
    {f : β → α → Except ε β} {g : γ → α → Except ε γ} :
    ∀ {xs : List α} {b : β} {c : γ}, R b c →
      (∀ x ∈ xs, ∀ b c, R b c → Rel E R (f b x) (g c x)) →
      Rel E R (xs.foldlM f b) (xs.foldlM g c)
  | [], b, c, hR, _ => by
      simp only [List.foldlM_nil, pure_eq_ok]
      exact .ok hR
  | x :: xs, b, c, hR, hstep => by
      rw [List.foldlM_cons, List.foldlM_cons]
      refine (hstep x List.mem_cons_self b c hR).bind fun b' c' hR' => ?_
      exact Rel.foldlM hR' fun y hy => hstep y (List.mem_cons_of_mem x hy)

end Ziftrcoin.Lib.Outcome
