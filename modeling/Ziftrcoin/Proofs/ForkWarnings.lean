/-
Module: Ziftrcoin.Proofs.ForkWarnings
Purpose: When the warnings about forks read the base of the best fork without
  having one, and that the search for the base finds the last common block.
Trusted boundary: none
-/
import Ziftrcoin.Spec.ForkWarnings
import Ziftrcoin.Proofs.Locator
import Ziftrcoin.Proofs.Retarget
import Ziftrcoin.Proofs.SizeLimits

namespace Ziftrcoin.Spec

open Ziftrcoin.Lib Ziftrcoin.Lib.Outcome

/-! ### The common ancestor -/

section Ancestors

variable {tree : BlockTree} {xs ys : List Ptr} {i j f : ℕ} {p q : Ptr}

/-- The inner loop stops at the height, or at once if it starts below. -/
theorem goDown_spec (hlinked : WellLinked tree) (hys : Branch tree.pprev ys)
    (hknown : ∀ q ∈ ys, q < tree.length) (n : ℕ) :
    ∀ {fuel j : ℕ}, j < ys.length → j - n < fuel →
      goDown tree n fuel ys[j]? = .ok ys[min n j]?
  | 0, _, _, hfuel => absurd hfuel (Nat.not_lt_zero _)
  | fuel + 1, j, hj, hfuel => by
      obtain ⟨q, qindex, hq⟩ := exists_at hlinked hys hknown hj
      rw [hq.place, goDown, hq.entry]
      dsimp only
      rw [hq.height]
      by_cases hlt : n < j
      · obtain ⟨j, rfl⟩ := Nat.exists_eq_succ_of_ne_zero (Nat.ne_zero_of_lt hlt)
        have hprev : qindex.pprev = ys[j]? := by
          rw [← pprev_of_getElem? hq.entry]
          exact hys.parent_succ hq.place
        have hmin : min n (j + 1) = min n j := by omega
        rw [if_pos hlt, hprev, hmin]
        exact goDown_spec hlinked hys hknown n (by omega) (by omega)
      · have hmin : min n j = j := by omega
        rw [if_neg hlt, hmin, hq.place]

/-- The loop finds the last block that the two branches share. -/
theorem forkBase_spec (hlinked : WellLinked tree) (hxs : Branch tree.pprev xs)
    (hys : Branch tree.pprev ys) (hxsKnown : ∀ p ∈ xs, p < tree.length)
    (hysKnown : ∀ p ∈ ys, p < tree.length) (hf : LastCommon xs ys f) :
    ∀ {fuel i j : ℕ}, i < xs.length → j < ys.length → f ≤ i → f ≤ j → i + j + 2 ≤ fuel →
      forkBase tree fuel xs[i]? ys[j]? = .ok xs[f]?
  | 0, _, _, _, _, _, _, hfuel => absurd hfuel (by omega)
  | fuel + 1, i, j, hi, hj, hfi, hfj, hfuel => by
      obtain ⟨p, pindex, hp⟩ := exists_at hlinked hxs hxsKnown hi
      -- Where the branches meet at this height is the fork.
      have hmeet : ∀ {k : ℕ}, some p = ys[k]? → i = f := by
        intro k hk
        have hki := hxs.index_unique hys hp.place hk.symm
        by_contra hne
        exact hf.last i (by omega) hi (by rw [hp.place, hk, hki])
      rw [hp.place, forkBase]
      by_cases hsame : some p = ys[j]?
      · rw [if_pos hsame, ← hmeet hsame, hp.place]
      · rw [if_neg hsame, hp.entry]
        dsimp only
        rw [hp.height, goDown_spec hlinked hys hysKnown i hj (by omega), ok_bind]
        by_cases hlow : some p = ys[min i j]?
        · rw [if_pos hlow, ← hmeet hlow, hp.place]
        · have hne : i ≠ f := by
            rintro rfl
            rw [Nat.min_eq_left hfj, ← hf.eq, hp.place] at hlow
            exact hlow rfl
          obtain ⟨i, rfl⟩ := Nat.exists_eq_succ_of_ne_zero (show i ≠ 0 by omega)
          have hprev : pindex.pprev = xs[i]? := by
            rw [← pprev_of_getElem? hp.entry]
            exact hxs.parent_succ hp.place
          rw [if_neg hlow, hprev]
          exact forkBase_spec hlinked hxs hys hxsKnown hysKnown hf (by omega) (by omega)
            (by omega) (by omega) (by omega)

/-- Without an active chain the loop ends below the root. -/
theorem forkBase_none (hlinked : WellLinked tree) (hxs : Branch tree.pprev xs)
    (hxsKnown : ∀ p ∈ xs, p < tree.length) :
    ∀ {fuel i : ℕ}, i < xs.length → i + 2 ≤ fuel → forkBase tree fuel xs[i]? none = .ok none
  | 0, _, _, hfuel => absurd hfuel (by omega)
  | fuel + 1, i, hi, hfuel => by
      obtain ⟨p, pindex, hp⟩ := exists_at hlinked hxs hxsKnown hi
      rw [hp.place, forkBase, if_neg (Option.some_ne_none p), hp.entry]
      dsimp only
      rw [goDown, ok_bind, if_neg (Option.some_ne_none p), ← pprev_of_getElem? hp.entry]
      cases i with
      | zero =>
          rw [hxs.parent_zero hp.place]
          obtain ⟨fuel, rfl⟩ := Nat.exists_eq_succ_of_ne_zero (show fuel ≠ 0 by omega)
          rw [forkBase]
      | succ i =>
          rw [hxs.parent_succ hp.place]
          exact forkBase_none hlinked hxs hxsKnown (by omega) (by omega)

/-- Whatever the loop finds is the block that it started from, or an ancestor of it. -/
theorem ancestor_of_forkBase {b : Ptr} : ∀ {fuel : ℕ} {p : Ptr} {plonger : Option Ptr},
    forkBase tree fuel (some p) plonger = .ok (some b) → b = p ∨ Ancestor tree b p
  | 0, _, _, h => (nomatch h)
  | fuel + 1, p, plonger, h => by
      rw [forkBase] at h
      split at h
      · exact .inl (Option.some.inj (Except.ok.inj h)).symm
      · cases hp : tree[p]? with
        | none =>
            rw [hp] at h
            exact nomatch h
        | some pindex =>
            rw [hp] at h
            obtain ⟨plonger', -, h⟩ := bind_eq_ok.mp h
            split at h
            · exact .inl (Option.some.inj (Except.ok.inj h)).symm
            · cases hprev : pindex.pprev with
              | none =>
                  rw [hprev] at h
                  cases fuel with
                  | zero => exact nomatch h
                  | succ fuel => exact nomatch Except.ok.inj h
              | some q =>
                  rw [hprev] at h
                  have hstep : Ancestor tree q p := .single ((pprev_of_getElem? hp).trans hprev)
                  obtain rfl | hq := ancestor_of_forkBase h
                  · exact .inr hstep
                  · exact .inr (hq.trans hstep)

theorem Grows.ancestor {tree' : BlockTree} (h : Grows tree tree') (hpq : Ancestor tree p q) :
    Ancestor tree' p q := by
  refine Relation.TransGen.mono (fun a b hab => ?_) _ _ hpq
  obtain ⟨pindex, hb, hprev⟩ := pprev_eq_some hab
  have hentry := h.entry (List.getElem?_eq_some_iff.mp hb).1
  rw [hb, Option.map_some, Option.map_eq_some_iff] at hentry
  obtain ⟨pindex', hb', hfixed⟩ := hentry
  rw [pprev_of_getElem? hb', pprev_fixed hfixed, hprev]

end Ancestors

/-! ### Runs -/

/-- The rest of the program lets the index grow and keeps the active chain a branch of it. -/
def Allowed (s : ForkState) : ForkEvent → Prop
  | .move tree chain _ _ _ =>
      Grows s.mapBlockIndex tree ∧ WellLinked tree ∧ ∃ ys, Path tree chain ys
  | .newTip _ => True
  | .newFork _ _ p => p < s.mapBlockIndex.length
  | .invalidChainFound _ p => p < s.mapBlockIndex.length

/-- The states between the events of a run. -/
inductive ForkRun (cfg : ForkConfig) : ForkState → Prop where
  | initial : ForkRun cfg .initial
  | step {s s' : ForkState} {event : ForkEvent} (run : ForkRun cfg s) (allowed : Allowed s event)
      (h : s.handle cfg event = .ok s') : ForkRun cfg s'

/-- The best fork has a base, which is an ancestor of its tip. -/
def BaseRight (s : ForkState) : Prop :=
  ∃ tip base, s.pindexBestForkTip = some tip ∧ s.pindexBestForkBase = some base ∧
    Ancestor s.mapBlockIndex base tip

/-- What holds between the events: a fork is never without its base. -/
structure ForkInvariant (s : ForkState) : Prop where
  linked : WellLinked s.mapBlockIndex
  path : ∃ ys, Path s.mapBlockIndex s.chainActive ys
  fork : s.pindexBestForkTip ≠ none → BaseRight s

section Invariant

variable {cfg : ForkConfig} {s s' c w : ForkState} {event : ForkEvent} {now : Moment}

/-- The test for the initial download changes its static variables only. -/
theorem isInitialBlockDownload_cases {b : Bool}
    (h : s.IsInitialBlockDownload cfg now = .ok (b, s')) : ∃ nLastUpdate pindexLastBest,
      s' = { s with nLastUpdate, pindexLastBest } := by
  unfold ForkState.IsInitialBlockDownload at h
  split at h
  · obtain ⟨-, rfl⟩ := Prod.mk.inj (Except.ok.inj h)
    exact ⟨_, _, rfl⟩
  · generalize hclock : (if s.chainActive.Tip ≠ s.pindexLastBest then
        { s with pindexLastBest := s.chainActive.Tip, nLastUpdate := now.GetTime 0 }
      else s) = s₁ at h
    have hs₁ : ∃ nLastUpdate pindexLastBest, s₁ = { s with nLastUpdate, pindexLastBest } := by
      subst hclock
      split
      · exact ⟨_, _, rfl⟩
      · exact ⟨_, _, rfl⟩
    dsimp only at h
    split at h
    · split at h
      · cases h
      · obtain ⟨-, rfl⟩ := Prod.mk.inj (Except.ok.inj h)
        exact hs₁
    · obtain ⟨-, rfl⟩ := Prod.mk.inj (Except.ok.inj h)
      exact hs₁

theorem dropFork_tip : s.dropFork.pindexBestForkTip = none ↔
    s.pindexBestForkTip = none ∨ s.forkIsOld = true := by
  unfold ForkState.dropFork
  split
  · next hold => exact iff_of_true rfl (.inr hold)
  · next hold => simp [hold]

theorem dropFork_eq : s.dropFork = s ∨ s.dropFork = { s with pindexBestForkTip := none } := by
  unfold ForkState.dropFork
  split
  · exact .inr rfl
  · exact .inl rfl

theorem dropFork_found : s.dropFork.fLargeWorkForkFound = s.fLargeWorkForkFound := by
  obtain h | h := @dropFork_eq s <;> rw [h]

theorem dropFork_base : s.dropFork.pindexBestForkBase = s.pindexBestForkBase := by
  obtain h | h := @dropFork_eq s <;> rw [h]

theorem invalidAhead_dropFork : s.dropFork.invalidAhead = s.invalidAhead := by
  obtain h | h := @dropFork_eq s
  · rw [h]
  · rw [h]
    rfl

theorem ForkInvariant.dropFork (h : ForkInvariant s) : ForkInvariant s.dropFork := by
  obtain heq | heq := @dropFork_eq s
  · rw [heq]
    exact h
  · rw [heq]
    exact ⟨h.linked, h.path, fun hne => absurd rfl hne⟩

/-- The check changes no more than the flags and the static variables, and drops a fork. -/
theorem ForkInvariant.check (h : ForkInvariant s)
    (hcheck : s.CheckForkWarningConditions cfg now = .ok s') : ForkInvariant s' := by
  simp only [ForkState.CheckForkWarningConditions, bind_eq_ok] at hcheck
  obtain ⟨⟨fInitialDownload, s₁⟩, hdownload, hcheck⟩ := hcheck
  obtain ⟨nLastUpdate, pindexLastBest, rfl⟩ := isInitialBlockDownload_cases hdownload
  have h₁ : ForkInvariant { s with nLastUpdate, pindexLastBest } := ⟨h.linked, h.path, h.fork⟩
  dsimp only at hcheck
  split at hcheck
  · obtain rfl := Except.ok.inj hcheck
    exact h₁
  · have h₂ := h₁.dropFork
    obtain ⟨warns, -, hcheck⟩ := bind_eq_ok.mp hcheck
    split at hcheck
    · unfold ForkState.warn at hcheck
      split at hcheck
      · cases hcheck
      · split at hcheck
        · obtain rfl := Except.ok.inj hcheck
          exact ⟨h₂.linked, h₂.path, h₂.fork⟩
        · obtain rfl := Except.ok.inj hcheck
          exact ⟨h₂.linked, h₂.path, h₂.fork⟩
    · obtain rfl := Except.ok.inj hcheck
      exact ⟨h₂.linked, h₂.path, h₂.fork⟩

/-- A block is no fork from itself: it has no more work than it has. -/
theorem not_isBestFork_self (s : ForkState) (p : Ptr) : s.isBestFork p p = false := by
  simp [ForkState.isBestFork]

theorem ForkInvariant.noteFork (h : ForkInvariant s) {fuel : ℕ} {p : Ptr}
    (hnote : s.noteFork fuel p = .ok c) : ForkInvariant c := by
  unfold ForkState.noteFork at hnote
  obtain ⟨pfork, hbase, hnote⟩ := bind_eq_ok.mp hnote
  cases pfork with
  | none =>
      obtain rfl := Except.ok.inj hnote
      exact h
  | some pfork =>
      dsimp only at hnote
      split at hnote
      · next hbest =>
          obtain rfl := Except.ok.inj hnote
          refine ⟨h.linked, h.path, fun _ => ⟨p, pfork, rfl, rfl, ?_⟩⟩
          obtain rfl | hanc := ancestor_of_forkBase hbase
          · rw [not_isBestFork_self] at hbest
            exact absurd hbest Bool.false_ne_true
          · exact hanc
      · obtain rfl := Except.ok.inj hnote
        exact h

theorem ForkInvariant.noteInvalid (h : ForkInvariant s) {p : Ptr}
    (hnote : s.noteInvalid p = .ok c) : ForkInvariant c := by
  unfold ForkState.noteInvalid at hnote
  dsimp only at hnote
  split at hnote
  · cases hnote
  · obtain rfl := Except.ok.inj hnote
    split
    · exact ⟨h.linked, h.path, h.fork⟩
    · exact h

/-- What an event does before it checks the warnings. -/
theorem ForkInvariant.note (h : ForkInvariant s) (hallowed : Allowed s event)
    {check : Option Moment} (hnote : s.note event = .ok (c, check)) : ForkInvariant c := by
  cases event with
  | move tree chain pindexBestInvalid nLastUpdate pindexLastBest =>
      obtain ⟨rfl, -⟩ := Prod.mk.inj (Except.ok.inj hnote)
      obtain ⟨hgrows, hlinked, hpath⟩ := hallowed
      refine ⟨hlinked, hpath, fun hne => ?_⟩
      obtain ⟨tip, base, htip, hbase, hanc⟩ := h.fork hne
      exact ⟨tip, base, htip, hbase, hgrows.ancestor hanc⟩
  | newTip now =>
      obtain ⟨rfl, -⟩ := Prod.mk.inj (Except.ok.inj hnote)
      exact h
  | newFork now fuel p =>
      obtain ⟨s', hfork, hnote⟩ := bind_eq_ok.mp hnote
      obtain ⟨rfl, -⟩ := Prod.mk.inj (Except.ok.inj hnote)
      exact h.noteFork hfork
  | invalidChainFound now p =>
      obtain ⟨s', hinvalid, hnote⟩ := bind_eq_ok.mp hnote
      obtain ⟨rfl, -⟩ := Prod.mk.inj (Except.ok.inj hnote)
      exact h.noteInvalid hinvalid

theorem ForkInvariant.handle (h : ForkInvariant s) (hallowed : Allowed s event)
    (hhandle : s.handle cfg event = .ok s') : ForkInvariant s' := by
  obtain ⟨⟨c, check⟩, hnote, hhandle⟩ := bind_eq_ok.mp hhandle
  have hc := h.note hallowed hnote
  cases check with
  | none =>
      obtain rfl := Except.ok.inj hhandle
      exact hc
  | some now => exact hc.check hhandle

theorem forkInvariant_initial : ForkInvariant .initial :=
  ⟨⟨fun h => (nomatch h), fun h => (nomatch h)⟩, ⟨[], path_empty []⟩, fun hne => absurd rfl hne⟩

theorem ForkRun.invariant (h : ForkRun cfg s) : ForkInvariant s := by
  induction h with
  | initial => exact forkInvariant_initial
  | step _ hallowed hhandle ih => exact ih.handle hallowed hhandle

/-! ### Reading the base -/

/-- The check enters the branch of the warning, in the state `w`. -/
def Warned (cfg : ForkConfig) (now : Moment) (s w : ForkState) : Prop :=
  ∃ s', s.IsInitialBlockDownload cfg now = .ok (false, s') ∧ w = s'.dropFork ∧ w.warns = .ok true

/-- When the check reads the base, it is there and an ancestor of the tip of the fork. -/
def BaseSafe (cfg : ForkConfig) (now : Moment) (s : ForkState) : Prop :=
  ∀ w, Warned cfg now s w → w.readsForkBase cfg = true → BaseRight w

/-- There is a command to notify, no fork to warn of, nor a warning about one, and an invalid
chain that is ahead. -/
structure OnlyInvalid (cfg : ForkConfig) (now : Moment) (s : ForkState) : Prop where
  notify : cfg.fAlertNotify = true
  unwarned : s.fLargeWorkForkFound = false
  noFork : s.pindexBestForkTip = none ∨ s.forkIsOld = true
  ahead : s.invalidAhead = .ok true
  download : (s.IsInitialBlockDownload cfg now).map Prod.fst = .ok false

theorem OnlyInvalid.warned (h : OnlyInvalid cfg now s) :
    ∃ w, Warned cfg now s w ∧ w.pindexBestForkTip = none ∧ w.readsForkBase cfg = true ∧
      w.pindexBestForkBase = s.pindexBestForkBase := by
  cases hdownload : s.IsInitialBlockDownload cfg now with
  | error e =>
      have := h.download
      rw [hdownload] at this
      cases this
  | ok result =>
      obtain ⟨b, s'⟩ := result
      have hb := h.download
      rw [hdownload] at hb
      obtain rfl : b = false := Except.ok.inj hb
      obtain ⟨nLastUpdate, pindexLastBest, rfl⟩ := isInitialBlockDownload_cases hdownload
      have htip : ({ s with nLastUpdate, pindexLastBest } : ForkState).dropFork.pindexBestForkTip =
          none := dropFork_tip.mpr h.noFork
      refine ⟨_, ⟨_, hdownload, rfl, ?_⟩, htip, ?_, ?_⟩
      · rw [ForkState.warns, if_neg (not_not.mpr htip), invalidAhead_dropFork]
        exact h.ahead
      · rw [ForkState.readsForkBase, dropFork_found, h.unwarned, h.notify]
        rfl
      · exact dropFork_base

theorem invalidAhead_ne (s : ForkState) : s.invalidAhead ≠ .error .bestForkBase := by
  unfold ForkState.invalidAhead
  split
  · exact fun h => (nomatch h)
  · split
    · exact fun h => (nomatch h)
    · exact fun h => (nomatch h)

theorem isInitialBlockDownload_ne (cfg : ForkConfig) (now : Moment) (s : ForkState) :
    s.IsInitialBlockDownload cfg now ≠ .error .bestForkBase := by
  intro h
  unfold ForkState.IsInitialBlockDownload at h
  split at h
  · cases h
  · generalize (if s.chainActive.Tip ≠ s.pindexLastBest then
        { s with pindexLastBest := s.chainActive.Tip, nLastUpdate := now.GetTime 0 }
      else s) = s₁ at h
    dsimp only at h
    split at h
    · split at h
      · cases h
      · cases h
    · cases h

/-- The check dereferences the base in vain exactly if it reads it and there is none. -/
theorem check_nullBase_iff : s.CheckForkWarningConditions cfg now = .error .bestForkBase ↔
    ∃ w, Warned cfg now s w ∧ w.readsForkBase cfg = true ∧ w.pindexBestForkBase = none := by
  unfold ForkState.CheckForkWarningConditions Warned
  cases hdownload : s.IsInitialBlockDownload cfg now with
  | error e =>
      refine iff_of_false (fun h => isInitialBlockDownload_ne cfg now s ?_) ?_
      · rw [error_bind, Except.error.injEq] at h
        rw [hdownload, h]
      · rintro ⟨w, ⟨s', hok, -⟩, -⟩
        cases hok
  | ok result =>
      obtain ⟨b, s₁⟩ := result
      cases b with
      | true =>
          refine iff_of_false (fun h => (nomatch h)) ?_
          rintro ⟨w, ⟨s', hok, -⟩, -⟩
          cases hok
      | false =>
          simp only [ok_bind, Except.ok.injEq, Prod.mk.injEq, true_and]
          cases hwarns : s₁.dropFork.warns with
          | error e =>
              refine iff_of_false (fun h => ?_) ?_
              · cases h
                unfold ForkState.warns at hwarns
                split at hwarns
                · cases hwarns
                · exact invalidAhead_ne _ hwarns
              · rintro ⟨w, ⟨s', rfl, rfl, hok⟩, -⟩
                rw [hwarns] at hok
                cases hok
          | ok warns =>
              cases warns with
              | false =>
                  refine iff_of_false (fun h => (nomatch h)) ?_
                  rintro ⟨w, ⟨s', rfl, rfl, hok⟩, -⟩
                  rw [hwarns] at hok
                  cases hok
              | true =>
                  have hwarn : s₁.dropFork.warn cfg = .error .bestForkBase ↔
                      s₁.dropFork.readsForkBase cfg = true ∧
                        s₁.dropFork.pindexBestForkBase = none := by
                    unfold ForkState.warn
                    split
                    · next h => exact iff_of_true rfl h
                    · next h =>
                        split
                        · exact iff_of_false (fun h => (nomatch h)) h
                        · exact iff_of_false (fun h => (nomatch h)) h
                  simp only [ok_bind, if_true, Bool.false_eq_true, if_false]
                  rw [hwarn]
                  constructor
                  · exact fun h => ⟨_, ⟨_, rfl, rfl, hwarns⟩, h⟩
                  · rintro ⟨w, ⟨s', rfl, rfl, -⟩, h⟩
                    exact h

/-- The base is read rightly unless there is only an invalid chain to warn of. -/
theorem ForkInvariant.baseSafe_iff (h : ForkInvariant s) :
    BaseSafe cfg now s ↔ ¬ OnlyInvalid cfg now s := by
  constructor
  · intro hsafe honly
    obtain ⟨w, hwarned, htip, hreads, -⟩ := honly.warned
    obtain ⟨tip, -, hsome, -⟩ := hsafe w hwarned hreads
    rw [htip] at hsome
    cases hsome
  · rintro hnot w ⟨s', hdownload, rfl, hwarns⟩ hreads
    obtain ⟨nLastUpdate, pindexLastBest, rfl⟩ := isInitialBlockDownload_cases hdownload
    have hinv : ForkInvariant { s with nLastUpdate, pindexLastBest } := ⟨h.linked, h.path, h.fork⟩
    refine hinv.dropFork.fork fun htip => hnot ?_
    rw [ForkState.warns, if_neg (not_not.mpr htip), invalidAhead_dropFork] at hwarns
    rw [ForkState.readsForkBase, htip, dropFork_found, Option.isSome_none, Bool.or_false,
      Bool.and_eq_true, Bool.not_eq_true'] at hreads
    have hold : s.pindexBestForkTip = none ∨ s.forkIsOld = true :=
      (@dropFork_tip { s with nLastUpdate, pindexLastBest }).mp htip
    exact ⟨hreads.2, hreads.1, hold, hwarns, by rw [hdownload]; rfl⟩

end Invariant

/-- **The base of a fork is read without a fork** exactly when there is only an invalid chain
to warn of: in every run, whenever the warnings are checked, the base that is read is there
and an ancestor of the tip of the fork, unless a command is to be notified of an invalid
chain that is ahead while no fork has been found and no warning about one is out.  Then the
check dereferences a null pointer if there never was a fork.  The search for the base comes
to an end, at the last block that the new fork shares with the active chain. -/
theorem forkBase_read_iff {cfg : ForkConfig} {s : ForkState} (hrun : ForkRun cfg s) :
    (∀ (event : ForkEvent) (c : ForkState) (now : Moment), Allowed s event →
      s.note event = .ok (c, some now) →
        (BaseSafe cfg now c ↔ ¬ OnlyInvalid cfg now c) ∧
        (s.handle cfg event = .error .bestForkBase ↔
          OnlyInvalid cfg now c ∧ c.pindexBestForkBase = none)) ∧
    ∀ p < s.mapBlockIndex.length, ∃ xs ys, Branch s.mapBlockIndex.pprev xs ∧
      xs.getLast? = some p ∧ Path s.mapBlockIndex s.chainActive ys ∧
      (ys = [] → ∀ fuel, xs.length + 1 ≤ fuel →
        forkBase s.mapBlockIndex fuel (some p) s.chainActive.Tip = .ok none) ∧
      (ys ≠ [] → ∃ f, LastCommon xs ys f ∧ ∀ fuel, xs.length + ys.length ≤ fuel →
        forkBase s.mapBlockIndex fuel (some p) s.chainActive.Tip = .ok xs[f]?) := by
  have hinv := hrun.invariant
  refine ⟨fun event c now hallowed hnote => ?_, fun p hp => ?_⟩
  · have hc := hinv.note hallowed hnote
    have hhandle : s.handle cfg event = c.CheckForkWarningConditions cfg now := by
      rw [ForkState.handle, hnote, ok_bind]
    refine ⟨hc.baseSafe_iff, ?_⟩
    rw [hhandle, check_nullBase_iff]
    constructor
    · rintro ⟨w, hwarned, hreads, hbase⟩
      have honly : OnlyInvalid cfg now c := by
        by_contra hnot
        obtain ⟨-, base, -, hsome, -⟩ := hc.baseSafe_iff.mpr hnot w hwarned hreads
        rw [hbase] at hsome
        cases hsome
      obtain ⟨s', hdownload, rfl, -⟩ := hwarned
      obtain ⟨nLastUpdate, pindexLastBest, rfl⟩ := isInitialBlockDownload_cases hdownload
      rw [dropFork_base] at hbase
      exact ⟨honly, hbase⟩
    · rintro ⟨honly, hbase⟩
      obtain ⟨w, hwarned, -, hreads, hkept⟩ := honly.warned
      exact ⟨w, hwarned, hreads, hkept.trans hbase⟩
  · obtain ⟨ys, hpath⟩ := hinv.path
    obtain ⟨xs, hxs, hlast, hknown⟩ := hinv.linked.exists_branch hp
    have hne : xs ≠ [] := by
      rintro rfl
      cases hlast
    have hpos := List.length_pos_of_ne_nil hne
    have hplace : xs[xs.length - 1]? = some p := by rwa [← List.getLast?_eq_getElem?]
    refine ⟨xs, ys, hxs, hlast, hpath, ?_, fun hys => ?_⟩
    · rintro rfl fuel hfuel
      rw [hpath.tip_eq, ← hplace]
      exact forkBase_none hinv.linked hxs hknown (by omega) (by omega)
    · have hysPos := List.length_pos_of_ne_nil hys
      -- Both branches start at the only root.
      have hroot : ∀ {zs : List Ptr}, Branch s.mapBlockIndex.pprev zs → 0 < zs.length →
          (∀ q ∈ zs, q < s.mapBlockIndex.length) → zs[0]? = some 0 := by
        intro zs hzs hlt hzsKnown
        obtain ⟨q, qindex, hq⟩ := exists_at hinv.linked hzs hzsKnown hlt
        have hnone := hzs.parent_zero hq.place
        rw [pprev_of_getElem? hq.entry] at hnone
        rw [hq.place, (hinv.linked.root hq.entry hnone).1]
      obtain ⟨f, hf⟩ := exists_lastCommon (hroot hxs hpos hknown)
        (hroot hpath.branch hysPos hpath.known)
      have hfys : f < ys.length := by
        have hcommon := hf.eq.symm.trans (List.getElem?_eq_getElem hf.lt)
        exact (List.getElem?_eq_some_iff.mp hcommon).1
      have hflt := hf.lt
      refine ⟨f, hf, fun fuel hfuel => ?_⟩
      rw [hpath.tip_eq, List.getLast?_eq_getElem?, ← hplace]
      exact forkBase_spec hinv.linked hxs hpath.branch hknown hpath.known hf (by omega)
        (by omega) (by omega) (by omega) (by omega)

/-! ### An invalid chain and nothing else -/

/-- The genesis block and an invalid block with much work. -/
def invalidTree : BlockTree :=
  [{ (default : CBlockIndex) with nChainWork := 1 },
   { (default : CBlockIndex) with pprev := some 0, nHeight := 1, nChainWork := 100 }]

def genesisChain : CChain :=
  { CChain.empty with vChain := [some 0] }

/-- The node follows the genesis block alone. -/
def followingGenesis : ForkEvent := .move invalidTree genesisChain none 0 (some 0)

def quietMoment : Moment :=
  { fImporting := false, fReindex := false, GetTime := fun _ => 1400000000 }

def notifying : ForkConfig := { nTotalBlocksEstimate := 0, fAlertNotify := true }

theorem followingGenesis_allowed : Allowed .initial followingGenesis := by
  have hnil : WellLinked [] := ⟨fun h => (nomatch h), fun h => (nomatch h)⟩
  have hone : WellLinked (invalidTree.take 1) := hnil.append ⟨rfl, rfl⟩
  refine ⟨List.nil_prefix, hone.append ⟨_, rfl, rfl⟩, [0], rfl, Branch.concat .nil rfl, ?_⟩
  decide

theorem forkBase_read_iff_initial :
    ¬ ForkState.initial.handle notifying (.newTip quietMoment) = .error .bestForkBase := by
  rw [((@forkBase_read_iff notifying _ .initial).1 (.newTip quietMoment) _ quietMoment
    trivial rfl).2]
  exact fun h => absurd h.1.ahead (fun hahead => (nomatch Except.ok.inj hahead))

/-- An invalid chain is found while no fork has been: the base is dereferenced in vain. -/
theorem invalidChain_reads_nullBase :
    ¬ ∀ (cfg : ForkConfig) (s : ForkState) (event : ForkEvent), ForkRun cfg s →
      Allowed s event → s.handle cfg event ≠ .error .bestForkBase := by
  intro h
  have hrun : ForkRun notifying _ := .step .initial followingGenesis_allowed rfl
  exact h notifying _ (.invalidChainFound quietMoment 1) hrun Nat.one_lt_two rfl

end Ziftrcoin.Spec
