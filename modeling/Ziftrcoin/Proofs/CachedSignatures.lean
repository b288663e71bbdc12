/-
Module: Ziftrcoin.Proofs.CachedSignatures
Purpose: What the signature cache holds and what the calls return in every interleaving.
Trusted boundary: none
Main exports: SignaturesSound, SigRun.verdicts
-/
import Ziftrcoin.Proofs.SmallNetwork
import Ziftrcoin.Spec.SignatureCache

namespace Ziftrcoin.Spec

/-! ### The cache -/

/-- The order of `setValid`. -/
abbrev SigData.NotAfter (a b : SigData) : Prop := a.key ≤ b.key

instance : Std.Total SigData.NotAfter := ⟨fun a b => le_total a.key b.key⟩

instance : IsTrans SigData SigData.NotAfter := ⟨fun _ _ _ => le_trans⟩

/-- The cache is a set in order, of valid signatures by valid keys. -/
structure SignaturesSound (crypto : Crypto) (cache : CSignatureCache) : Prop where
  ordered : cache.setValid.Pairwise SigData.NotAfter
  nodup : cache.setValid.Nodup
  valid : ∀ k ∈ cache.setValid, CheckRawSig crypto k.vchSig k.pubKey k.hash = true

namespace CSignatureCache

variable {crypto : Crypto} {cache : CSignatureCache} {nMaxCacheSize : ℤ}

theorem evict_sublist (cache : CSignatureCache) (randomHash : uint256) :
    (cache.evict randomHash).setValid.Sublist cache.setValid := by
  unfold evict
  split
  · exact List.Sublist.refl _
  · exact List.erase_sublist

/-- A round of the loop takes out an entry, unless there is none. -/
theorem length_evict (cache : CSignatureCache) (randomHash : uint256) :
    (cache.evict randomHash).setValid.length = cache.setValid.length - 1 := by
  unfold evict
  cases hvictim : cache.victim randomHash with
  | none =>
      have hnil : cache.setValid = [] := by
        unfold victim at hvictim
        rw [Option.or_eq_none_iff] at hvictim
        exact List.head?_eq_none_iff.mp hvictim.2
      simp [hnil]
  | some it =>
      have hmem : it ∈ cache.setValid := by
        unfold victim at hvictim
        rw [Option.or_eq_some_iff] at hvictim
        rcases hvictim with hfound | ⟨-, hhead⟩
        · exact List.mem_of_find?_eq_some hfound
        · exact List.mem_of_head? hhead
      exact List.length_erase_of_mem hmem

theorem trim_sublist (fuel : ℕ) (rand : ℕ → uint256) (cache : CSignatureCache) :
    (cache.trim nMaxCacheSize fuel rand).setValid.Sublist cache.setValid := by
  induction fuel generalizing rand cache with
  | zero => exact List.Sublist.refl _
  | succ fuel ih =>
      rw [trim]
      split
      · exact (ih _ _).trans (evict_sublist cache (rand 0))
      · exact List.Sublist.refl _

/-- The loop ends: there are no more entries than rounds. -/
theorem length_trim (hmax : 0 < nMaxCacheSize) (fuel : ℕ) (rand : ℕ → uint256)
    (cache : CSignatureCache) (hfuel : cache.setValid.length ≤ fuel) :
    ((cache.trim nMaxCacheSize fuel rand).setValid.length : ℤ) ≤ nMaxCacheSize := by
  induction fuel generalizing rand cache with
  | zero =>
      rw [trim]
      omega
  | succ fuel ih =>
      rw [trim]
      split
      · refine ih _ _ ?_
        rw [length_evict]
        omega
      · omega

end CSignatureCache

theorem SignaturesSound.sublist {crypto : Crypto} {cache cache' : CSignatureCache}
    (h : SignaturesSound crypto cache) (hsub : cache'.setValid.Sublist cache.setValid) :
    SignaturesSound crypto cache' :=
  ⟨h.ordered.sublist hsub, h.nodup.sublist hsub, fun k hk => h.valid k (hsub.subset hk)⟩

theorem SignaturesSound.insert {crypto : Crypto} {cache : CSignatureCache} {k : SigData}
    (h : SignaturesSound crypto cache)
    (hvalid : CheckRawSig crypto k.vchSig k.pubKey k.hash = true) :
    SignaturesSound crypto (cache.insert k) := by
  unfold CSignatureCache.insert
  split
  · exact h
  · next hnew =>
      have hperm := List.perm_orderedInsert SigData.NotAfter k cache.setValid
      refine ⟨h.ordered.orderedInsert k _, ?_, fun a ha => ?_⟩
      · exact hperm.nodup_iff.mpr (List.nodup_cons.mpr ⟨hnew, h.nodup⟩)
      · rcases List.mem_cons.mp (hperm.mem_iff.mp ha) with rfl | hold
        · exact hvalid
        · exact h.valid a hold

/-- `Set` keeps the cache sound, and one entry above the limit at most. -/
theorem SignaturesSound.set {crypto : Crypto} {cache : CSignatureCache} {k : SigData}
    (h : SignaturesSound crypto cache)
    (hvalid : CheckRawSig crypto k.vchSig k.pubKey k.hash = true) (nMaxCacheSize : ℤ)
    (rand : ℕ → uint256) : SignaturesSound crypto (cache.Set nMaxCacheSize rand k) := by
  unfold CSignatureCache.Set
  split
  · exact h
  · exact (h.sublist (CSignatureCache.trim_sublist _ rand cache)).insert hvalid

theorem CSignatureCache.length_insert_le (cache : CSignatureCache) (k : SigData) :
    (cache.insert k).setValid.length ≤ cache.setValid.length + 1 := by
  unfold CSignatureCache.insert
  split
  · omega
  · dsimp only
    rw [List.orderedInsert_length]

/-- The size that the cache can have. -/
def CSignatureCache.Fits (nMaxCacheSize : ℤ) (cache : CSignatureCache) : Prop :=
  (cache.setValid.length : ℤ) ≤ if nMaxCacheSize ≤ 0 then 0 else nMaxCacheSize + 1

theorem CSignatureCache.Fits.set {cache : CSignatureCache} {nMaxCacheSize : ℤ}
    (h : cache.Fits nMaxCacheSize) (rand : ℕ → uint256) (k : SigData) :
    (cache.Set nMaxCacheSize rand k).Fits nMaxCacheSize := by
  unfold CSignatureCache.Set
  split
  · exact h
  · next hmax =>
      have htrim := CSignatureCache.length_trim (lt_of_not_ge hmax) _ rand cache (le_refl _)
      have hinsert := CSignatureCache.length_insert_le
        (cache.trim nMaxCacheSize cache.setValid.length rand) k
      unfold CSignatureCache.Fits
      rw [if_neg hmax]
      omega

/-! ### The calls -/

/-- What the call would return without the cache. -/
def SigCall.verdict (crypto : Crypto) (call : SigCall) : Bool :=
  CheckRawSig crypto call.vchSig call.vchPubKey call.sighash

/-- What a call that has come so far has found out. -/
def SigCall.Knows (crypto : Crypto) (call : SigCall) : SigPhase → Prop
  | .get => True
  | .verify => pubKeyIsValid call.vchPubKey = true
  | .set => call.verdict crypto = true

/-- The cache is sound and within its size, and the calls know what they have found. -/
structure SigInvariant (crypto : Crypto) (nMaxCacheSize : ℤ) (s : SigState) : Prop where
  sound : SignaturesSound crypto s.signatureCache
  fits : s.signatureCache.Fits nMaxCacheSize
  active : ∀ p ∈ s.active, p.1.Knows crypto p.2
  returned : ∀ p ∈ s.returned, p.2 = p.1.verdict crypto

/-- What one advance makes of the cache and of the call. -/
structure Advanced (crypto : Crypto) (nMaxCacheSize : ℤ) (call : SigCall)
    (r : CSignatureCache × SigOutcome) : Prop where
  sound : SignaturesSound crypto r.1
  fits : r.1.Fits nMaxCacheSize
  goesOn : ∀ phase, r.2 = .goesOn phase → call.Knows crypto phase
  returns : ∀ fValid, r.2 = .returns fValid → fValid = call.verdict crypto

theorem SigCall.advance_spec {crypto : Crypto} {nMaxCacheSize : ℤ} {cache : CSignatureCache}
    (rand : ℕ → uint256) {call : SigCall} {phase : SigPhase}
    (hsound : SignaturesSound crypto cache) (hfits : cache.Fits nMaxCacheSize)
    (hknows : call.Knows crypto phase) :
    Advanced crypto nMaxCacheSize call
      (call.advance crypto nMaxCacheSize rand cache phase) := by
  have hstop : ∀ {fValid : Bool}, fValid = call.verdict crypto →
      Advanced crypto nMaxCacheSize call (cache, .returns fValid) := fun heq =>
    ⟨hsound, hfits, fun _ h => (nomatch h), fun _ h => SigOutcome.returns.inj h ▸ heq⟩
  have hgo : ∀ {phase' : SigPhase}, call.Knows crypto phase' →
      Advanced crypto nMaxCacheSize call (cache, .goesOn phase') := fun hnext =>
    ⟨hsound, hfits, fun _ h => SigOutcome.goesOn.inj h ▸ hnext, fun _ h => (nomatch h)⟩
  cases phase with
  | get =>
      rw [SigCall.advance]
      split
      · next hinvalid => exact hstop (by simp [SigCall.verdict, CheckRawSig, hinvalid])
      · next hkey =>
          split
          · next hhit =>
              -- A hit is a verification that some call has made before.
              refine hstop (hsound.valid call.data ?_).symm
              simpa [CSignatureCache.Get] using hhit
          · rw [Bool.not_eq_false] at hkey
            exact hgo hkey
  | verify =>
      have hkey : pubKeyIsValid call.vchPubKey = true := hknows
      rw [SigCall.advance]
      split
      · next hbad => exact hstop (by simp [SigCall.verdict, CheckRawSig, hbad])
      · next hgood =>
          rw [Bool.not_eq_false] at hgood
          have hverdict : call.verdict crypto = true := by
            simp [SigCall.verdict, CheckRawSig, hkey, hgood]
          split
          · exact hstop hverdict.symm
          · exact hgo hverdict
  | set =>
      have hverdict : call.verdict crypto = true := hknows
      refine ⟨hsound.set (k := call.data) hverdict nMaxCacheSize rand, hfits.set rand _,
        fun _ h => (nomatch h), fun _ h => ?_⟩
      rw [← SigOutcome.returns.inj h, hverdict]

theorem SigInvariant.step {crypto : Crypto} {nMaxCacheSize : ℤ} {s s' : SigState}
    (h : SigInvariant crypto nMaxCacheSize s) (hstep : SigStep crypto nMaxCacheSize s s') :
    SigInvariant crypto nMaxCacheSize s' := by
  cases hstep with
  | call call =>
      refine ⟨h.sound, h.fits, ?_, h.returned⟩
      rw [List.forall_mem_cons]
      exact ⟨trivial, h.active⟩
  | advance rand heq =>
      rename_i before after call phase
      have hactive := h.active
      rw [heq, List.forall_mem_append, List.forall_mem_cons] at hactive
      obtain ⟨hbefore, hcall, hafter⟩ := hactive
      have hspec := SigCall.advance_spec rand h.sound h.fits hcall
      generalize call.advance crypto nMaxCacheSize rand s.signatureCache phase = r at hspec
      obtain ⟨cache, outcome⟩ := r
      cases outcome with
      | goesOn phase' =>
          refine ⟨hspec.sound, hspec.fits, ?_, h.returned⟩
          rw [SigState.advanced, List.forall_mem_append, List.forall_mem_cons]
          exact ⟨hbefore, hspec.goesOn phase' rfl, hafter⟩
      | returns fValid =>
          refine ⟨hspec.sound, hspec.fits, ?_, ?_⟩
          · rw [SigState.advanced, List.forall_mem_append]
            exact ⟨hbefore, hafter⟩
          · rw [SigState.advanced, List.forall_mem_cons]
            exact ⟨hspec.returns fValid rfl, h.returned⟩

theorem sigInvariant_new (crypto : Crypto) (nMaxCacheSize : ℤ) :
    SigInvariant crypto nMaxCacheSize .new := by
  refine ⟨⟨.nil, .nil, by simp [SigState.new, CSignatureCache.empty]⟩, ?_,
    by simp [SigState.new], by simp [SigState.new]⟩
  unfold CSignatureCache.Fits
  split
  · exact le_refl 0
  · change (0 : ℤ) ≤ nMaxCacheSize + 1
    omega

/-- **The cache changes no verdict.**  Whatever calls any number of threads make, however
they interleave and whatever is evicted, each call returns what it would return without the
cache, and the cache is an ordered set of valid signatures; it holds one entry more than
`-maxsigcachesize` at most, and none if that is not positive. -/
theorem SigRun.verdicts {crypto : Crypto} {nMaxCacheSize : ℤ} {s : SigState}
    (h : SigRun crypto nMaxCacheSize s) :
    (∀ p ∈ s.returned, p.2 = CheckRawSig crypto p.1.vchSig p.1.vchPubKey p.1.sighash) ∧
      SignaturesSound crypto s.signatureCache ∧ s.signatureCache.Fits nMaxCacheSize := by
  have hinv : SigInvariant crypto nMaxCacheSize s := by
    induction h with
    | refl => exact sigInvariant_new crypto nMaxCacheSize
    | tail _ hstep ih => exact ih.step hstep
  exact ⟨hinv.returned, hinv.sound, hinv.fits⟩

/-- A call whose key could be one. -/
def cachedCall : SigCall :=
  { vchSig := [1], vchPubKey := 2 :: List.replicate 32 0, sighash := 7, fNoCache := false }

/-- Two calls alike under way, of which one puts its signature in the cache before the other
looks for it. -/
def cachedState : SigState :=
  { signatureCache := { setValid := [cachedCall.data] }, active := [],
    returned := [(cachedCall, true), (cachedCall, true)] }

theorem sigRun_cachedState : SigRun smallCrypto 1 cachedState := by
  have hrun : SigRun smallCrypto 1 .new := .refl
  have h₁ := hrun.tail (.call cachedCall)
  have h₂ := h₁.tail (.call cachedCall)
  have hfirst : ∀ {s : SigState} {after : List (SigCall × SigPhase)} {phase : SigPhase},
      s.active = [] ++ (cachedCall, phase) :: after →
      SigStep smallCrypto 1 s (s.advanced [] after cachedCall
        (cachedCall.advance smallCrypto 1 (fun _ => 0) s.signatureCache phase)) :=
    fun heq => .advance (fun _ => 0) heq
  have h₃ := h₂.tail (hfirst rfl)
  have h₄ := h₃.tail (hfirst rfl)
  have h₅ := h₄.tail (hfirst rfl)
  have h₆ := h₅.tail (hfirst rfl)
  exact h₆

theorem verdicts_cachedState :
    (∀ p ∈ cachedState.returned,
      p.2 = CheckRawSig smallCrypto p.1.vchSig p.1.vchPubKey p.1.sighash) ∧
      SignaturesSound smallCrypto cachedState.signatureCache ∧
      cachedState.signatureCache.Fits 1 :=
  SigRun.verdicts sigRun_cachedState

end Ziftrcoin.Spec
