/-
Module: Ziftrcoin.Lib.Undo
Purpose: Programs that take a state back to an earlier one and keep a flag that
  says whether they could, and how such programs compose.
Trusted boundary: none
Main exports: Undoes, Undoes.id, Undoes.comp
-/
import Mathlib.Logic.Basic

namespace Ziftrcoin.Lib.Undo

universe u v

/-- `f` takes every state that matches `s'` back to one that matches `s` and
leaves the flag alone, unless the way from `s` to `s'` lost something: then,
and whenever the flag was lowered before, the flag ends up lowered. -/
structure Undoes {S : Type u} {D : Type v} (Matches : S → D → Prop)
    (clean : D → Bool) (Lost : S → S → Prop) (s s' : S) (f : D → D) : Prop where
  sticky : ∀ d, clean d = false → clean (f d) = false
  spoiled : Lost s s' → ∀ d, Matches s' d → clean (f d) = false
  restored : ¬ Lost s s' → ∀ d, Matches s' d →
    Matches s (f d) ∧ clean (f d) = clean d

namespace Undoes

variable {S : Type u} {D : Type v} {Matches : S → D → Prop}
  {clean : D → Bool} {Lost : S → S → Prop} {s s' s'' : S} {f g : D → D}

/-- Nothing has to be undone where nothing was done. -/
theorem id (h : ¬ Lost s s) : Undoes Matches clean Lost s s fun d => d where
  sticky := fun _ hd => hd
  spoiled := fun hlost => absurd hlost h
  restored := fun _ _ hd => ⟨hd, rfl⟩

/-- The last step is undone first. -/
theorem comp (hf : Undoes Matches clean Lost s s' f)
    (hg : Undoes Matches clean Lost s' s'' g)
    (hlost : Lost s s'' ↔ Lost s s' ∨ Lost s' s'') :
    Undoes Matches clean Lost s s'' fun d => f (g d) where
  sticky := fun d hd => hf.sticky _ (hg.sticky d hd)
  spoiled := by
    intro h d hd
    by_cases hlate : Lost s' s''
    · exact hf.sticky _ (hg.spoiled hlate d hd)
    · have hearly : Lost s s' := (hlost.mp h).resolve_right hlate
      exact hf.spoiled hearly _ (hg.restored hlate d hd).1
  restored := by
    intro h d hd
    have hearly : ¬ Lost s s' := fun hl => h (hlost.mpr (.inl hl))
    have hlate : ¬ Lost s' s'' := fun hl => h (hlost.mpr (.inr hl))
    obtain ⟨hmid, hflag⟩ := hg.restored hlate d hd
    obtain ⟨hfirst, hflag'⟩ := hf.restored hearly _ hmid
    exact ⟨hfirst, hflag'.trans hflag⟩

end Undoes

end Ziftrcoin.Lib.Undo
