/-
Module: Ziftrcoin.Lib.BitGroups
Purpose: A string of bits read in groups of one width and written in groups of another:
  what is pending in between, and that the groups determine each other.
Trusted boundary: none
Main exports: BitGroups.Regroups, Regroups.take, Regroups.emit
-/
import Ziftrcoin.Lib.Radix

namespace Ziftrcoin.Lib.BitGroups

/-- Groups `us` of `u` bits have been read and groups `ws` of `w` bits have been written; the
last `pending` bits are left over. -/
structure Regroups (u w : ℕ) (us ws : List ℕ) (pending left : ℕ) : Prop where
  below : ∀ d ∈ ws, d < 2 ^ w
  left_lt : left < 2 ^ pending
  bits : w * ws.length + pending = u * us.length
  value : Radix.read (2 ^ w) ws * 2 ^ pending + left = Radix.read (2 ^ u) us

variable {u w pending left : ℕ} {us ws : List ℕ}

namespace Regroups

theorem nil : Regroups u w [] [] 0 0 :=
  ⟨List.forall_mem_nil _, Nat.one_pos, rfl, rfl⟩

/-- A group is read. -/
theorem take (h : Regroups u w us ws pending left) {x : ℕ} (hx : x < 2 ^ u) :
    Regroups u w (us ++ [x]) ws (pending + u) (left * 2 ^ u + x) := by
  refine ⟨h.below, ?_, ?_, ?_⟩
  · have hmul : (left + 1) * 2 ^ u ≤ 2 ^ pending * 2 ^ u := Nat.mul_le_mul_right _ h.left_lt
    rw [Nat.pow_add]
    rw [Nat.add_mul, Nat.one_mul] at hmul
    omega
  · rw [← Nat.add_assoc, h.bits, List.length_append, List.length_singleton, Nat.mul_add,
      Nat.mul_one]
  · rw [Radix.read_concat, ← h.value, Nat.pow_add]
    ring

/-- A group is written. -/
theorem emit (h : Regroups u w us ws (pending + w) left) :
    Regroups u w us (ws ++ [left / 2 ^ pending]) pending (left % 2 ^ pending) := by
  have hpos : 0 < 2 ^ pending := Nat.two_pow_pos pending
  refine ⟨?_, Nat.mod_lt _ hpos, ?_, ?_⟩
  · intro d hd
    obtain hd | hd := List.mem_append.mp hd
    · exact h.below d hd
    · rw [List.mem_singleton.mp hd]
      apply Nat.div_lt_of_lt_mul
      rw [← Nat.pow_add]
      exact h.left_lt
  · rw [List.length_append, List.length_singleton, ← h.bits]
    ring
  · have hdiv := Nat.div_add_mod left (2 ^ pending)
    rw [Radix.read_concat, ← h.value, Nat.pow_add]
    calc (2 ^ w * Radix.read (2 ^ w) ws + left / 2 ^ pending) * 2 ^ pending + left % 2 ^ pending
        = Radix.read (2 ^ w) ws * (2 ^ pending * 2 ^ w) +
            (2 ^ pending * (left / 2 ^ pending) + left % 2 ^ pending) := by ring
      _ = Radix.read (2 ^ w) ws * (2 ^ pending * 2 ^ w) + left := by rw [hdiv]

/-- With no bits left over the groups can be read back. -/
theorem swap (h : Regroups u w us ws 0 left) (hus : ∀ d ∈ us, d < 2 ^ u) :
    Regroups w u ws us 0 0 := by
  have hleft := h.left_lt
  have hvalue := h.value
  rw [Nat.pow_zero, Nat.lt_one_iff] at hleft
  rw [hleft, Nat.pow_zero, Nat.mul_one, Nat.add_zero] at hvalue
  refine ⟨hus, Nat.one_pos, h.bits.symm, ?_⟩
  rw [Nat.pow_zero, Nat.mul_one, Nat.add_zero, hvalue]

/-- The bits left over are written with zeros behind them, and the groups can be read back. -/
theorem pad (h : Regroups u w us ws pending left) (hus : ∀ d ∈ us, d < 2 ^ u)
    (hpending : pending ≤ w) :
    Regroups w u (ws ++ [left * 2 ^ (w - pending)]) us (w - pending) 0 := by
  have hsplit : 2 ^ pending * 2 ^ (w - pending) = 2 ^ w := by
    rw [← Nat.pow_add, Nat.add_sub_cancel' hpending]
  refine ⟨hus, Nat.two_pow_pos _, ?_, ?_⟩
  · have hbits := h.bits
    rw [List.length_append, List.length_singleton, Nat.mul_add, Nat.mul_one]
    omega
  · rw [Radix.read_concat, ← h.value, ← hsplit]
    ring

/-- As many groups are read for as many groups written and bits left over. -/
theorem length_eq {k n n' : ℕ} {pending pending' : ℕ} (h : w * n + pending = k)
    (h' : w * n' + pending' = k) (hpending : pending < w) (hpending' : pending' < w) :
    n = n' ∧ pending = pending' := by
  have hmul := h.trans h'.symm
  have hdiv := congrArg (· / w) hmul
  have hmod := congrArg (· % w) hmul
  have hpos : 0 < w := by omega
  rw [Nat.mul_add_div hpos, Nat.mul_add_div hpos, Nat.div_eq_of_lt hpending,
    Nat.div_eq_of_lt hpending'] at hdiv
  rw [Nat.mul_add_mod, Nat.mul_add_mod, Nat.mod_eq_of_lt hpending,
    Nat.mod_eq_of_lt hpending'] at hmod
  exact ⟨hdiv, hmod⟩

/-- What has been written is determined by what has been read. -/
theorem unique {ws' : List ℕ} {pending' left' : ℕ} (h : Regroups u w us ws pending left)
    (h' : Regroups u w us ws' pending' left') (hpending : pending < w) (hpending' : pending' < w) :
    ws = ws' ∧ pending = pending' ∧ left = left' := by
  obtain ⟨hlength, rfl⟩ := length_eq h.bits h'.bits hpending hpending'
  have hpos : 0 < 2 ^ pending := Nat.two_pow_pos pending
  have hvalue := h.value.trans h'.value.symm
  have hdiv := congrArg (· / 2 ^ pending) hvalue
  have hmod := congrArg (· % 2 ^ pending) hvalue
  rw [Nat.mul_comm, Nat.mul_comm (Radix.read _ ws'), Nat.mul_add_div hpos, Nat.mul_add_div hpos,
    Nat.div_eq_of_lt h.left_lt, Nat.div_eq_of_lt h'.left_lt] at hdiv
  rw [Nat.mul_comm, Nat.mul_comm (Radix.read _ ws'), Nat.mul_add_mod, Nat.mul_add_mod,
    Nat.mod_eq_of_lt h.left_lt, Nat.mod_eq_of_lt h'.left_lt] at hmod
  have hbase : 1 < 2 ^ w := Nat.one_lt_two_pow (by omega)
  exact ⟨Radix.read_inj hbase h.below h'.below hlength hdiv, rfl, hmod⟩

/-- What has been read is determined by what has been written, if zeros are left over and
fewer of them than a group has. -/
theorem unique_source {us' : List ℕ} {pending' : ℕ} (h : Regroups u w us ws pending 0)
    (h' : Regroups u w us' ws pending' 0) (hus : ∀ d ∈ us, d < 2 ^ u) (hus' : ∀ d ∈ us', d < 2 ^ u)
    (hpending : pending < u) (hpending' : pending' < u) : us = us' := by
  have hbits := h.bits
  have hbits' := h'.bits
  obtain ⟨hlength, rfl⟩ : us.length = us'.length ∧ pending = pending' := by
    -- counted down from the next number of bits that is less than a group away
    have hdown : u * us.length + (u - 1 - pending) = w * ws.length + (u - 1) := by omega
    have hdown' : u * us'.length + (u - 1 - pending') = w * ws.length + (u - 1) := by omega
    obtain ⟨hlength, hpendings⟩ := length_eq hdown hdown' (by omega) (by omega)
    exact ⟨hlength, by omega⟩
  have hbase : 1 < 2 ^ u := Nat.one_lt_two_pow (by omega)
  exact Radix.read_inj hbase hus hus' hlength (h.value.symm.trans h'.value)

end Regroups

/-- An invariant of a fold that knows what has been folded. -/
theorem foldl_history {α β : Type*} {step : β → α → β} {start : β} {Inv : List α → β → Prop}
    {P : α → Prop} (hstart : Inv [] start)
    (hstep : ∀ xs s x, Inv xs s → P x → Inv (xs ++ [x]) (step s x)) (xs : List α)
    (h : ∀ x ∈ xs, P x) : Inv xs (xs.foldl step start) := by
  induction xs using List.reverseRecOn with
  | nil => exact hstart
  | append_singleton xs x ih =>
      rw [List.foldl_append, List.foldl_cons, List.foldl_nil]
      apply hstep xs _ x (ih fun y hy => h y (List.mem_append_left _ hy))
      exact h x (List.mem_append_right _ List.mem_cons_self)

end Ziftrcoin.Lib.BitGroups
