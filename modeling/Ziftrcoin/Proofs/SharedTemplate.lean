/-
Module: Ziftrcoin.Proofs.SharedTemplate
Purpose: What the coinbase of a block made of a solution claims, when one
  template serves requests with and without a proof of knowledge.
Trusted boundary: none
Main exports: GetworkRun, submitWork_reward
-/
import Ziftrcoin.Proofs.Knowledge
import Ziftrcoin.Proofs.Supply
import Ziftrcoin.Spec.Miner

namespace Ziftrcoin.Spec

open Ziftrcoin.Lib
open Ziftrcoin.Lib.Outcome

/-! ### Runs -/

/-- Requests, exceptions and submissions in any order, on one tip.  `works` are
the blocks handed out and the mode each was asked for; every request for which
work is handed out satisfies `C`. -/
inductive GetworkRun (cfg : Config) (tip : MiningTip) (fees : List CTransaction → Int)
    (C : WorkRequest → GetworkState → Prop) : List (CBlock × Bool) → GetworkState → Prop
  | start {st : GetworkState} (h : st.pindexPrev ≠ some tip.p) :
      GetworkRun cfg tip fees C [] st
  | request {works : List (CBlock × Bool)} {st st' : GetworkState} {r : WorkRequest}
      {block : CBlock} (h : GetworkRun cfg tip fees C works st) (condition : C r st)
      (call : getwork cfg tip fees r st = .ok (some block, st')) :
      GetworkRun cfg tip fees C (works ++ [(block, r.fGetPoKWork st)]) st'
  | exception {works : List (CBlock × Bool)} {st st' : GetworkState} {r : WorkRequest}
      (h : GetworkRun cfg tip fees C works st)
      (call : getwork cfg tip fees r st = .ok (none, st')) :
      GetworkRun cfg tip fees C works st'
  | submission {works : List (CBlock × Bool)} {st : GetworkState} (data : CBlockHeader)
      (h : GetworkRun cfg tip fees C works st) :
      GetworkRun cfg tip fees C works (submitWork cfg.crypto data st).2

/-- Work without a proof of knowledge is not made of a template that an earlier
request with one has left. -/
def ServedInKind (tip : MiningTip) (r : WorkRequest) (st : GetworkState) : Prop :=
  r.fGetPoKWork st = true ∨ needsTemplate tip r st = true ∨
    ∀ pblocktemplate, st.vNewBlockTemplate.getLast? = some pblocktemplate →
      pblocktemplate.fUsePoK = false

/-- What the coinbase claims. -/
def coinbaseValue (block : CBlock) : Int :=
  ((block.vtx.headD default).vout.map CTxOut.nValue).sum

/-! ### Coinbase scripts -/

section CoinbaseScript

variable (block : CBlock) (scriptSig scriptSig' : CScript)

theorem vtx_setCoinbaseScript_twice {block' : CBlock}
    (h : block'.vtx = (block.setCoinbaseScript scriptSig).vtx) :
    (block'.setCoinbaseScript scriptSig').vtx =
      (block.setCoinbaseScript scriptSig').vtx := by
  unfold CBlock.setCoinbaseScript at h ⊢
  dsimp only at h ⊢
  rw [h]
  cases block.vtx with
  | nil => rfl
  | cons tx txs =>
      simp only [List.modifyHead_cons]
      cases tx.vin with
      | nil => rfl
      | cons txin rest => rfl

theorem vtx_setCoinbaseScript_self :
    (block.setCoinbaseScript
      ((block.vtx.headD default).vin.headD default).scriptSig).vtx = block.vtx := by
  unfold CBlock.setCoinbaseScript
  dsimp only
  cases hvtx : block.vtx with
  | nil => rfl
  | cons tx txs =>
      obtain ⟨nVersion, vin, vout, nLockTime⟩ := tx
      cases vin with
      | nil => rfl
      | cons txin rest => rfl

theorem coinbaseValue_setCoinbaseScript :
    coinbaseValue (block.setCoinbaseScript scriptSig) = coinbaseValue block := by
  unfold coinbaseValue CBlock.setCoinbaseScript
  dsimp only
  cases block.vtx with
  | nil => rfl
  | cons tx txs => rfl

theorem tail_setCoinbaseScript :
    (block.setCoinbaseScript scriptSig).vtx.tail = block.vtx.tail := by
  unfold CBlock.setCoinbaseScript
  dsimp only
  cases block.vtx with
  | nil => rfl
  | cons tx txs => rfl

end CoinbaseScript

theorem isPoKBlock_setPoKFlag (header : CBlockHeader) (fPoK : Bool) :
    (header.SetPoKFlag fPoK).IsPoKBlock = fPoK := by
  unfold CBlockHeader.IsPoKBlock CBlockHeader.SetPoKFlag
  cases fPoK with
  | false =>
      have hzero : header.nVersion &&& ~~~POK_BOOL_MASK &&& POK_BOOL_MASK = 0#32 := by
        rw [BitVec.and_assoc]
        have hnone : ~~~POK_BOOL_MASK &&& POK_BOOL_MASK = 0#32 := by decide
        rw [hnone, BitVec.and_zero]
      simp [hzero]
  | true =>
      have hmask : (header.nVersion &&& ~~~POK_BOOL_MASK ||| POK_BOOL_MASK) &&&
          POK_BOOL_MASK = POK_BOOL_MASK := by
        ext i
        simp only [BitVec.getElem_and, BitVec.getElem_or, BitVec.getElem_not]
        cases header.nVersion[i] <;> cases POK_BOOL_MASK[i] <;> rfl
      simp only [if_true, hmask]
      decide

/-! ### Rewards -/

/-- The bonus of a proof of knowledge, as `GetBlockValue` computes it. -/
structure PoKBonus (cfg : Config) (nHeight : Nat) : Prop where
  nonneg : 0 ≤ cfg.GetBlockReward nHeight false
  bonus : cfg.GetBlockReward nHeight true =
    (cfg.GetBlockReward nHeight false * 105).tdiv 100

/-- The block claims the reward of a mode. -/
def Claims (cfg : Config) (tip : MiningTip) (fees : List CTransaction → Int)
    (block : CBlock) (fPoK : Bool) : Prop :=
  coinbaseValue block =
    cfg.GetBlockValue (tip.pindexPrev.nHeight + 1) (fees block.vtx.tail) fPoK

/-- The fees are amounts, also together with the reward. -/
def FeesInRange (cfg : Config) (tip : MiningTip) (nFees : Int) : Prop :=
  0 ≤ nFees ∧ cfg.GetBlockReward (tip.pindexPrev.nHeight + 1) true + nFees ≤
    MAX_MONEY_SATOSHIS

theorem getBlockValue_bonus {cfg : Config} {tip : MiningTip}
    (hbonus : PoKBonus cfg (tip.pindexPrev.nHeight + 1)) {nFees : Int}
    (hfees : FeesInRange cfg tip nFees) :
    cfg.GetBlockValue (tip.pindexPrev.nHeight + 1) nFees false ≤
      cfg.GetBlockValue (tip.pindexPrev.nHeight + 1) nFees true := by
  have hmax : MAX_MONEY_SATOSHIS = 1200000000000000 := by decide
  have hnonneg := hbonus.nonneg
  have hmore : cfg.GetBlockReward (tip.pindexPrev.nHeight + 1) false ≤
      cfg.GetBlockReward (tip.pindexPrev.nHeight + 1) true := by
    rw [hbonus.bonus, Int.tdiv_eq_ediv_of_nonneg (by omega)]
    omega
  obtain ⟨hlow, hhigh⟩ := hfees
  unfold Config.GetBlockValue
  rw [if_neg (Nat.succ_ne_zero _), int64_eq_self (by omega) (by omega),
    int64_eq_self (by omega) (by omega)]
  omega

/-! ### What a call keeps -/

section Kept

variable {cfg : Config} {tip : MiningTip} {fees : List CTransaction → Int}
  {works : List (CBlock × Bool)} {st st' : GetworkState} {r : WorkRequest}

/-- Every template claims the reward of the mode it was made for, and every
entry of the map leads to a list of transactions that has been handed out. -/
structure Clean (cfg : Config) (tip : MiningTip) (fees : List CTransaction → Int)
    (works : List (CBlock × Bool)) (st : GetworkState) : Prop where
  templates : ∀ pblocktemplate ∈ st.vNewBlockTemplate,
    Claims cfg tip fees pblocktemplate.block pblocktemplate.fUsePoK
  entries : ∀ {root : uint256} {i : Nat} {scriptSig : CScript},
    st.mapNewBlock root = some (i, scriptSig) →
    ∃ pblocktemplate, st.vNewBlockTemplate[i]? = some pblocktemplate ∧
      CBlock.merkleRootOf cfg.crypto
        (pblocktemplate.block.setCoinbaseScript scriptSig).vtx = root ∧
      ∃ w ∈ works, w.1.vtx = (pblocktemplate.block.setCoinbaseScript scriptSig).vtx

/-- A block that was handed out claims the reward of some mode, which is no
better than the mode it was asked for. -/
def WorkInKind (cfg : Config) (tip : MiningTip) (fees : List CTransaction → Int)
    (w : CBlock × Bool) : Prop :=
  w.1.hashMerkleRoot = CBlock.merkleRootOf cfg.crypto w.1.vtx ∧
    ∃ fPoK, Claims cfg tip fees w.1 fPoK ∧ (fPoK = true → w.2 = true)

/-- The invariant of a run. -/
structure Kept (cfg : Config) (tip : MiningTip) (fees : List CTransaction → Int)
    (works : List (CBlock × Bool)) (st : GetworkState) : Prop where
  inKind : ∀ w ∈ works, WorkInKind cfg tip fees w
  clean : works ≠ [] ∨ st.pindexPrev = some tip.p → Clean cfg tip fees works st

theorem updateTime_ok {nAdjustedTime : Int} {block block' : CBlock}
    (h : UpdateTime cfg tip nAdjustedTime block = .ok block') : block'.vtx = block.vtx := by
  unfold UpdateTime at h
  split at h
  · obtain ⟨nBits, _, h⟩ := bind_eq_ok.mp h
    injection h with h
    rw [← h]
  · injection h with h
    rw [← h]

theorem newTemplate_ok {nAdjustedTime : Int} {scriptPubKey : CScript}
    {vtx : List CTransaction} {fUsePoK : Bool} {pblocktemplate : CBlockTemplate}
    (h : newTemplate cfg tip nAdjustedTime scriptPubKey vtx (fees vtx) fUsePoK =
      .ok pblocktemplate) :
    pblocktemplate.fUsePoK = fUsePoK ∧
      Claims cfg tip fees pblocktemplate.block fUsePoK := by
  unfold newTemplate at h
  obtain ⟨block, hblock, h⟩ := bind_eq_ok.mp h
  obtain ⟨nBits, _, h⟩ := bind_eq_ok.mp h
  injection h with h
  have hvtx := updateTime_ok hblock
  rw [← h]
  refine ⟨rfl, ?_⟩
  unfold Claims coinbaseValue
  dsimp only
  rw [hvtx]
  exact Int.add_zero _

theorem Clean.dropObsolete (h : Kept cfg tip fees works st) :
    Clean cfg tip fees works (dropObsolete tip st) := by
  unfold Spec.dropObsolete
  by_cases htip : st.pindexPrev = some tip.p
  · rw [if_neg (not_not.mpr htip)]
    exact h.clean (.inr htip)
  · rw [if_pos htip]
    constructor
    · intro pblocktemplate hmem
      exact absurd hmem List.not_mem_nil
    · intro root i scriptSig hentry
      cases hentry

/-- Another template changes nothing for the entries of the map. -/
theorem Clean.append (h : Clean cfg tip fees works st) {pblocktemplate : CBlockTemplate}
    (hclaims : Claims cfg tip fees pblocktemplate.block pblocktemplate.fUsePoK)
    (htemplates : st'.vNewBlockTemplate = st.vNewBlockTemplate ++ [pblocktemplate])
    (hmap : st'.mapNewBlock = st.mapNewBlock) : Clean cfg tip fees works st' := by
  constructor
  · intro t hmem
    rw [htemplates] at hmem
    rcases List.mem_append.mp hmem with hmem | hmem
    · exact h.templates t hmem
    · rw [List.mem_singleton.mp hmem]
      exact hclaims
  · intro root i scriptSig hentry
    rw [hmap] at hentry
    obtain ⟨t, ht, hrest⟩ := h.entries hentry
    refine ⟨t, ?_, hrest⟩
    rw [htemplates, List.getElem?_append_left (List.getElem?_eq_some_iff.mp ht).1]
    exact ht

/-- What `refreshTemplate` leaves behind: a template in use for the tip, or an
exception. -/
theorem refreshTemplate_ok (h : Kept cfg tip fees works st) {fReady : Bool}
    (hcall : refreshTemplate cfg tip fees r st = .ok (fReady, st')) :
    (fReady = true → Clean cfg tip fees works st' ∧ st'.pindexPrev = some tip.p ∧
      (ServedInKind tip r st → ∀ pblocktemplate,
        st'.vNewBlockTemplate.getLast? = some pblocktemplate →
        pblocktemplate.fUsePoK = true → r.fGetPoKWork st = true)) ∧
      (fReady = false → Clean cfg tip fees works st' ∧ st'.pindexPrev = none) := by
  unfold refreshTemplate at hcall
  by_cases hneeds : needsTemplate tip r st = true
  · rw [if_pos hneeds] at hcall
    have hdrop := Clean.dropObsolete h
    cases hcollected : r.collected with
    | none =>
        simp only [hcollected, Except.ok.injEq, Prod.mk.injEq] at hcall
        obtain ⟨rfl, rfl⟩ := hcall
        refine ⟨(fun hready => nomatch hready), fun _ => ⟨?_, rfl⟩⟩
        exact ⟨hdrop.templates, hdrop.entries⟩
    | some vtx =>
        simp only [hcollected, bind_eq_ok, pure_eq_ok, Except.ok.injEq,
          Prod.mk.injEq] at hcall
        obtain ⟨pblocktemplate, hnew, rfl, rfl⟩ := hcall
        obtain ⟨hmode, hclaims⟩ := newTemplate_ok hnew
        refine ⟨fun _ => ⟨?_, rfl, ?_⟩, fun hready => nomatch hready⟩
        · exact hdrop.append (hmode.symm ▸ hclaims) rfl rfl
        · intro _ t hlast hpok
          rw [List.getLast?_concat, Option.some.injEq] at hlast
          rw [← hlast, hmode] at hpok
          exact hpok
  · rw [if_neg hneeds, Except.ok.injEq, Prod.mk.injEq] at hcall
    obtain ⟨rfl, rfl⟩ := hcall
    have htip : st.pindexPrev = some tip.p := by
      unfold needsTemplate at hneeds
      simp only [Bool.or_eq_true, not_or, bne_iff_ne, ne_eq, not_not] at hneeds
      exact hneeds.1
    refine ⟨fun _ => ⟨h.clean (.inr htip), htip, ?_⟩, fun hready => nomatch hready⟩
    intro hserved t hlast hpok
    rcases hserved with hserved | hserved | hserved
    · exact hserved
    · exact absurd hserved hneeds
    · exact absurd (hserved t hlast) (by rw [hpok]; decide)

theorem incrementExtraNonce_block (crypto : Crypto) (nHeight : Nat) (m : Miner) :
    ∃ scriptSig, (IncrementExtraNonce crypto nHeight m).block =
      (m.block.setCoinbaseScript scriptSig).withMerkleRoot crypto := ⟨_, rfl⟩

/-- Bringing a template up to date changes nothing but its coinbase script. -/
theorem handOut_ok {fGetPoKWork : Bool} {nAdjustedTime : Int} {block : Option CBlock}
    (hcall : handOut cfg tip fGetPoKWork nAdjustedTime st = .ok (block, st')) :
    (block = none ∧ st' = st) ∨
      ∃ pblocktemplate handed scriptSig,
        st.vNewBlockTemplate.getLast? = some pblocktemplate ∧ block = some handed ∧
        handed.vtx = (pblocktemplate.block.setCoinbaseScript scriptSig).vtx ∧
        (handed.setCoinbaseScript
          ((handed.vtx.headD default).vin.headD default).scriptSig).vtx = handed.vtx ∧
        handed.hashMerkleRoot = CBlock.merkleRootOf cfg.crypto handed.vtx ∧
        handed.IsPoKBlock = fGetPoKWork ∧ st'.pindexPrev = st.pindexPrev ∧
        st'.vNewBlockTemplate = st.vNewBlockTemplate.set (st.vNewBlockTemplate.length - 1)
          { pblocktemplate with block := handed } ∧
        st'.mapNewBlock = Function.update st.mapNewBlock handed.hashMerkleRoot
          (some (st.vNewBlockTemplate.length - 1,
            ((handed.vtx.headD default).vin.headD default).scriptSig)) := by
  unfold handOut at hcall
  cases hlast : st.vNewBlockTemplate.getLast? with
  | none =>
      simp only [hlast, Except.ok.injEq, Prod.mk.injEq] at hcall
      exact .inl ⟨hcall.1.symm, hcall.2.symm⟩
  | some pblocktemplate =>
      simp only [hlast, bind_eq_ok, pure_eq_ok, Except.ok.injEq, Prod.mk.injEq] at hcall
      obtain ⟨updated, hupdated, rfl, rfl⟩ := hcall
      have hvtx := updateTime_ok hupdated
      obtain ⟨scriptSig, hblock⟩ := incrementExtraNonce_block cfg.crypto
        (tip.pindexPrev.nHeight + 1)
        { block := startOver fGetPoKWork updated, mapTxSerialized := fun _ => none,
          nExtraNonce := st.nExtraNonce, hashPrevBlock := st.hashPrevBlock }
      refine .inr ⟨pblocktemplate, _, scriptSig, rfl, rfl, ?_, vtx_setCoinbaseScript_self _,
        ?_, ?_, rfl, rfl, rfl⟩
      · rw [hblock]
        exact congrArg (fun vtx => vtx.modifyHead fun tx =>
          { tx with vin := tx.vin.modifyHead fun txin => { txin with scriptSig } }) hvtx
      · rw [hblock]
        rfl
      · rw [hblock]
        exact isPoKBlock_setPoKFlag _ fGetPoKWork

theorem Claims.congr {block block' : CBlock} {fPoK : Bool}
    (h : Claims cfg tip fees block fPoK) (hvtx : block'.vtx = block.vtx) :
    Claims cfg tip fees block' fPoK := by
  unfold Claims coinbaseValue at h ⊢
  rw [hvtx]
  exact h

theorem Claims.setCoinbaseScript {block : CBlock} {fPoK : Bool}
    (h : Claims cfg tip fees block fPoK) (scriptSig : CScript) :
    Claims cfg tip fees (block.setCoinbaseScript scriptSig) fPoK := by
  unfold Claims at h ⊢
  rw [coinbaseValue_setCoinbaseScript, tail_setCoinbaseScript]
  exact h

/-- A change of a template's coinbase script is not seen through the map. -/
theorem Clean.set (h : Clean cfg tip fees works st) {i : Nat}
    {pblocktemplate : CBlockTemplate}
    (hi : st.vNewBlockTemplate[i]? = some pblocktemplate) {block : CBlock}
    {scriptSig : CScript}
    (hvtx : block.vtx = (pblocktemplate.block.setCoinbaseScript scriptSig).vtx)
    (htemplates : st'.vNewBlockTemplate =
      st.vNewBlockTemplate.set i { pblocktemplate with block })
    (hmap : st'.mapNewBlock = st.mapNewBlock) : Clean cfg tip fees works st' := by
  constructor
  · intro t hmem
    rw [htemplates] at hmem
    rcases List.mem_or_eq_of_mem_set hmem with hmem | rfl
    · exact h.templates t hmem
    · have hclaims := h.templates pblocktemplate (List.mem_of_getElem? hi)
      exact (hclaims.setCoinbaseScript scriptSig).congr hvtx
  · intro root j scriptSig' hentry
    rw [hmap] at hentry
    obtain ⟨t, ht, hrest⟩ := h.entries hentry
    rw [htemplates]
    by_cases hij : i = j
    · subst hij
      obtain rfl : pblocktemplate = t := Option.some.inj (hi.symm.trans ht)
      refine ⟨{ pblocktemplate with block }, ?_, ?_⟩
      · rw [List.getElem?_set_self (List.getElem?_eq_some_iff.mp hi).1]
      · dsimp only
        rw [vtx_setCoinbaseScript_twice _ scriptSig scriptSig' hvtx]
        exact hrest
    · exact ⟨t, by rw [List.getElem?_set_ne hij]; exact ht, hrest⟩

/-- The invariant survives a request. -/
theorem Kept.request (h : Kept cfg tip fees works st) {block : CBlock}
    (hserved : ServedInKind tip r st)
    (hcall : getwork cfg tip fees r st = .ok (some block, st')) :
    Kept cfg tip fees (works ++ [(block, r.fGetPoKWork st)]) st' := by
  unfold getwork at hcall
  obtain ⟨⟨fReady, st₁⟩, hrefresh, hcall⟩ := bind_eq_ok.mp hcall
  have hspec := refreshTemplate_ok h hrefresh
  dsimp only at hcall
  cases fReady with
  | false =>
      rw [if_neg (by decide)] at hcall
      injection hcall with hcall
      injection hcall with hnone _
      cases hnone
  | true =>
      rw [if_pos rfl] at hcall
      obtain ⟨hclean, htip, hmode⟩ := hspec.1 rfl
      obtain ⟨hnone, _⟩ | ⟨pblocktemplate, handed, scriptSig, hlast, heq, hvtx, hself, hroot,
        hflag, hprev, htemplates, hmap⟩ := handOut_ok hcall
      · cases hnone
      injection heq with heq
      subst heq
      have hi : st₁.vNewBlockTemplate[st₁.vNewBlockTemplate.length - 1]? =
          some pblocktemplate := by rw [← List.getLast?_eq_getElem?, hlast]
      have hclaims := hclean.templates pblocktemplate (List.mem_of_getLast? hlast)
      have hkind : WorkInKind cfg tip fees (block, r.fGetPoKWork st) :=
        ⟨hroot, pblocktemplate.fUsePoK, (hclaims.setCoinbaseScript scriptSig).congr hvtx,
          hmode hserved pblocktemplate hlast⟩
      have hset : Clean cfg tip fees works
          { st' with mapNewBlock := st₁.mapNewBlock } :=
        hclean.set hi hvtx htemplates rfl
      refine ⟨fun w hw => ?_, fun _ => ⟨hset.templates, fun {root i script} hentry => ?_⟩⟩
      · rcases List.mem_append.mp hw with hw | hw
        · exact h.inKind w hw
        · rw [List.mem_singleton.mp hw]
          exact hkind
      · rw [hmap] at hentry
        by_cases hkey : root = block.hashMerkleRoot
        · rw [hkey, Function.update_self, Option.some.injEq, Prod.mk.injEq] at hentry
          obtain ⟨rfl, rfl⟩ := hentry
          refine ⟨{ pblocktemplate with block := block }, ?_, ?_, (block, r.fGetPoKWork st),
            List.mem_append_right _ (List.mem_singleton_self _), hself.symm⟩
          · rw [htemplates, List.getElem?_set_self (List.getElem?_eq_some_iff.mp hi).1]
          · dsimp only
            rw [hself, hkey, hroot]
        · rw [Function.update_of_ne hkey] at hentry
          obtain ⟨t, ht, hroot', w, hw, hlist⟩ := hset.entries hentry
          exact ⟨t, ht, hroot', w, List.mem_append_left _ hw, hlist⟩

theorem Kept.exception (h : Kept cfg tip fees works st)
    (hcall : getwork cfg tip fees r st = .ok (none, st')) :
    Kept cfg tip fees works st' := by
  unfold getwork at hcall
  obtain ⟨⟨fReady, st₁⟩, hrefresh, hcall⟩ := bind_eq_ok.mp hcall
  have hspec := refreshTemplate_ok h hrefresh
  dsimp only at hcall
  cases fReady with
  | false =>
      rw [if_neg (by decide)] at hcall
      injection hcall with hcall
      injection hcall with _ hst
      rw [← hst]
      exact ⟨h.inKind, fun _ => (hspec.2 rfl).1⟩
  | true =>
      rw [if_pos rfl] at hcall
      obtain ⟨_, hst⟩ | ⟨_, _, _, _, heq, _⟩ := handOut_ok hcall
      · rw [hst]
        exact ⟨h.inKind, fun _ => (hspec.1 rfl).1⟩
      · cases heq

/-- What `submitWork` makes of an entry of the map. -/
theorem submitWork_some {c : Crypto} {data : CBlockHeader} {i : Nat}
    {scriptSig : CScript} {pblocktemplate : CBlockTemplate}
    (hentry : st.mapNewBlock data.hashMerkleRoot = some (i, scriptSig))
    (hi : st.vNewBlockTemplate[i]? = some pblocktemplate) :
    ∃ block, submitWork c data st = (some block, { st with
        vNewBlockTemplate := st.vNewBlockTemplate.set i { pblocktemplate with block } }) ∧
      block.vtx = (pblocktemplate.block.setCoinbaseScript scriptSig).vtx ∧
      block.IsPoKBlock = data.IsPoKBlock := by
  unfold submitWork
  rw [hentry]
  dsimp only
  rw [hi]
  refine ⟨_, rfl, rfl, ?_⟩
  exact (isPoKBlock_setPoK _ _).trans (isPoKBlock_setPoKFlag _ _)

theorem Kept.submission (h : Kept cfg tip fees works st) (data : CBlockHeader) :
    Kept cfg tip fees works (submitWork cfg.crypto data st).2 := by
  cases hentry : st.mapNewBlock data.hashMerkleRoot with
  | none =>
      unfold submitWork
      rw [hentry]
      exact h
  | some entry =>
      obtain ⟨i, scriptSig⟩ := entry
      cases hi : st.vNewBlockTemplate[i]? with
      | none =>
          unfold submitWork
          rw [hentry]
          dsimp only
          rw [hi]
          exact h
      | some pblocktemplate =>
          obtain ⟨block, hsubmit, hvtx, _⟩ := submitWork_some (c := cfg.crypto) hentry hi
          rw [hsubmit]
          exact ⟨h.inKind, fun hcond => (h.clean hcond).set hi hvtx rfl rfl⟩

/-- Every run keeps the invariant. -/
theorem GetworkRun.kept (hrun : GetworkRun cfg tip fees (ServedInKind tip) works st) :
    Kept cfg tip fees works st := by
  induction hrun with
  | start hstart =>
      refine ⟨fun w hw => absurd hw List.not_mem_nil, ?_⟩
      rintro (hne | htip)
      · exact absurd rfl hne
      · exact absurd htip hstart
  | request _ condition call ih => exact ih.request condition call
  | exception _ call ih => exact ih.exception call
  | submission data _ ih => exact ih.submission data

end Kept

/-! ### The reward of a solution -/

/-- As long as work without a proof of knowledge is not made of a template for
one with, whatever is put together from a solution claims no more than its own
mode allows.  Merkle roots identify the lists of transactions handed out. -/
theorem submitWork_reward {cfg : Config} {tip : MiningTip}
    {fees : List CTransaction → Int} {works : List (CBlock × Bool)} {st st' : GetworkState}
    {w : CBlock × Bool} {data : CBlockHeader} {block : CBlock}
    (hbonus : PoKBonus cfg (tip.pindexPrev.nHeight + 1))
    (hrun : GetworkRun cfg tip fees (ServedInKind tip) works st)
    (hfees : ∀ w ∈ works, FeesInRange cfg tip (fees w.1.vtx.tail))
    (hroots : Set.InjOn (CBlock.merkleRootOf cfg.crypto) {vtx | ∃ w ∈ works, w.1.vtx = vtx})
    (hw : w ∈ works) (hroot : data.hashMerkleRoot = w.1.hashMerkleRoot)
    (hflag : data.IsPoKBlock = w.2)
    (hsubmit : submitWork cfg.crypto data st = (some block, st')) :
    coinbaseValue block ≤ cfg.GetBlockValue (tip.pindexPrev.nHeight + 1)
      (fees block.vtx.tail) block.IsPoKBlock := by
  have hkept := hrun.kept
  obtain ⟨hroot', fPoK, hclaims, hmode⟩ := hkept.inKind w hw
  have hne : works ≠ [] := List.ne_nil_of_mem hw
  have hclean := hkept.clean (.inl hne)
  cases hentry : st.mapNewBlock data.hashMerkleRoot with
  | none =>
      unfold submitWork at hsubmit
      rw [hentry] at hsubmit
      injection hsubmit with hnone _
      cases hnone
  | some entry =>
      obtain ⟨i, scriptSig⟩ := entry
      obtain ⟨pblocktemplate, hi, hmerkle, v, hv, hlist⟩ := hclean.entries hentry
      obtain ⟨block', hsome, hvtx, hpok⟩ := submitWork_some hentry hi
      rw [hsome] at hsubmit
      injection hsubmit with heq _
      injection heq with heq
      subst heq
      -- The root brings back the list that was handed out with it.
      have hsame : block'.vtx = w.1.vtx := by
        refine hroots ⟨v, hv, ?_⟩ ⟨w, hw, rfl⟩ ?_
        · rw [hvtx, hlist]
        · rw [hvtx, hmerkle, hroot, hroot']
      have hvalue := hclaims.congr hsame
      unfold Claims at hvalue
      rw [hvalue, hpok, hflag]
      have hrange := hfees w hw
      rw [← hsame] at hrange
      cases hfPoK : fPoK with
      | true => rw [hmode hfPoK]
      | false =>
          cases hmode' : w.2 with
          | false => exact le_refl _
          | true => exact getBlockValue_bonus hbonus hrange

/-! ### Two requests -/

section TwoRequests

variable (cfg : Config) (tip : MiningTip) (fees : List CTransaction → Int)

/-- The request hands out work. -/
def handsOut (r : WorkRequest) (st : GetworkState) : Bool :=
  match getwork cfg tip fees r st with
  | .ok (some _, _) => true
  | _ => false

/-- The block handed out, and the state left. -/
def workOf (r : WorkRequest) (st : GetworkState) : CBlock × GetworkState :=
  match getwork cfg tip fees r st with
  | .ok (some block, st') => (block, st')
  | _ => (default, st)

theorem getwork_eq_workOf {r : WorkRequest} {st : GetworkState}
    (h : handsOut cfg tip fees r st = true) :
    getwork cfg tip fees r st =
      .ok (some (workOf cfg tip fees r st).1, (workOf cfg tip fees r st).2) := by
  unfold handsOut at h
  unfold workOf
  cases hcall : getwork cfg tip fees r st with
  | error e => simp [hcall] at h
  | ok result =>
      obtain ⟨block, st'⟩ := result
      cases block with
      | none => simp [hcall] at h
      | some block => rfl

end TwoRequests

/-- A network that pays five per cent more for a proof of knowledge.  Its hashes
tell coinbases with different extra nonces apart. -/
def bonusNet : Config :=
  { smallNet (smallGenesis [⟨50, anyoneCanSpend⟩]) with
    crypto := { smallCrypto with Hash := fun bs => readLE bs % (2 ^ 256 - 189) }
    GetBlockReward := fun _ fUsesPoK => if fUsesPoK then 52 else 50 }

theorem pokBonus_bonusNet (nHeight : Nat) : PoKBonus bonusNet nHeight where
  nonneg := show (0 : Int) ≤ 50 by decide
  bonus := show (52 : Int) = (50 * 105 : Int).tdiv 100 by decide

/-- The genesis block is the tip. -/
def bonusTip : MiningTip :=
  let genesis : CBlockIndex :=
    { (default : CBlockIndex) with
      hash := hashOfNonce 1, nTime := 1400000000, nBits := GetCompact smallLimit }
  { tree := [genesis], p := 0, pindexPrev := genesis }

/-- The statics of `getwork` before the first call. -/
def noWork : GetworkState :=
  { fUsePoK := false
    pindexPrev := none
    nTransactionsUpdatedLast := 0
    nStart := 0
    vNewBlockTemplate := []
    mapNewBlock := fun _ => none
    nExtraNonce := 0
    hashPrevBlock := 0 }

/-- A request in one of the modes, while the pool is empty. -/
def requestFor (fPoK : Bool) : WorkRequest :=
  { arg := some fPoK
    nTransactionsUpdated := 0
    nTime := 1400000100
    nAdjustedTime := 1400000100
    scriptPubKey := anyoneCanSpend
    collected := some [] }

def noFees : List CTransaction → Int := fun _ => 0

/-- The work of a first request. -/
def firstWork (fPoK : Bool) : CBlock × GetworkState :=
  workOf bonusNet bonusTip noFees (requestFor fPoK) noWork

/-- The work of a second request, without a proof of knowledge. -/
def secondWork (fPoK : Bool) : CBlock × GetworkState :=
  workOf bonusNet bonusTip noFees (requestFor false) (firstWork fPoK).2

theorem getworkRun_secondWork {C : WorkRequest → GetworkState → Prop} {fPoK : Bool}
    (hfirst : C (requestFor fPoK) noWork)
    (hsecond : C (requestFor false) (firstWork fPoK).2) :
    GetworkRun bonusNet bonusTip noFees C
      [((firstWork fPoK).1, fPoK), ((secondWork fPoK).1, false)] (secondWork fPoK).2 := by
  have hstart : GetworkRun bonusNet bonusTip noFees C [] noWork := .start (by decide)
  have hfirstCall : handsOut bonusNet bonusTip noFees (requestFor fPoK) noWork = true := by
    cases fPoK <;> decide +kernel
  have hsecondCall : handsOut bonusNet bonusTip noFees (requestFor false)
      (firstWork fPoK).2 = true := by
    cases fPoK <;> decide +kernel
  exact (hstart.request hfirst (getwork_eq_workOf _ _ _ hfirstCall)).request hsecond
    (getwork_eq_workOf _ _ _ hsecondCall)

/-- A solution of the second work. -/
def secondSolution (fPoK : Bool) : CBlockHeader :=
  { (secondWork fPoK).1.toCBlockHeader with nNonce := 7 }

/-- A request with a proof of knowledge, then one without: the solution of the
second claims the reward of the first. -/
theorem secondSolution_overpaid :
    PoKBonus bonusNet (bonusTip.pindexPrev.nHeight + 1) ∧
      GetworkRun bonusNet bonusTip noFees (fun _ _ => True)
        [((firstWork true).1, true), ((secondWork true).1, false)] (secondWork true).2 ∧
      (secondSolution true).hashMerkleRoot = (secondWork true).1.hashMerkleRoot ∧
      (secondSolution true).IsPoKBlock = false ∧
      (secondSolution true).CheckProofOfWork bonusNet.crypto bonusNet.ProofOfWorkLimit =
        true ∧
      ((submitWork bonusNet.crypto (secondSolution true) (secondWork true).2).1.any
        fun block => decide (bonusNet.GetBlockValue (bonusTip.pindexPrev.nHeight + 1)
          (noFees block.vtx.tail) block.IsPoKBlock < coinbaseValue block)) = true := by
  refine ⟨pokBonus_bonusNet _, getworkRun_secondWork trivial trivial, ?_, ?_, ?_, ?_⟩
  · decide +kernel
  · decide +kernel
  · decide +kernel
  · decide +kernel

theorem servedInKind_first : ServedInKind bonusTip (requestFor false) noWork :=
  .inr (.inl (by decide))

theorem servedInKind_second :
    ServedInKind bonusTip (requestFor false) (firstWork false).2 := by
  refine .inr (.inr fun pblocktemplate hlast => ?_)
  have hall : ((firstWork false).2.vNewBlockTemplate.all
      fun pblocktemplate => !pblocktemplate.fUsePoK) = true := by
    decide +kernel
  have := List.all_eq_true.mp hall pblocktemplate (List.mem_of_getLast? hlast)
  simpa using this

/-- Two requests without a proof of knowledge. -/
theorem secondSolution_fair :
    ((submitWork bonusNet.crypto (secondSolution false) (secondWork false).2).1.any
      fun block => decide (coinbaseValue block ≤
        bonusNet.GetBlockValue (bonusTip.pindexPrev.nHeight + 1) (noFees block.vtx.tail)
          block.IsPoKBlock)) = true := by
  have hrun := getworkRun_secondWork servedInKind_first servedInKind_second
  have hroots : Set.InjOn (CBlock.merkleRootOf bonusNet.crypto)
      {vtx | ∃ w ∈ [((firstWork false).1, false), ((secondWork false).1, false)],
        w.1.vtx = vtx} := by
    rintro vtx ⟨w, hw, rfl⟩ vtx' ⟨w', hw', rfl⟩ hroot
    have hne : CBlock.merkleRootOf bonusNet.crypto (firstWork false).1.vtx ≠
        CBlock.merkleRootOf bonusNet.crypto (secondWork false).1.vtx := by
      decide +kernel
    simp only [List.mem_cons, List.not_mem_nil, or_false] at hw hw'
    rcases hw with rfl | rfl <;> rcases hw' with rfl | rfl
    · rfl
    · exact absurd hroot hne
    · exact absurd hroot.symm hne
    · rfl
  have hfees : ∀ w ∈ [((firstWork false).1, false), ((secondWork false).1, false)],
      FeesInRange bonusNet bonusTip (noFees w.1.vtx.tail) :=
    fun _ _ => ⟨le_refl _, show (52 + 0 : Int) ≤ MAX_MONEY_SATOSHIS by decide⟩
  cases hsubmit : submitWork bonusNet.crypto (secondSolution false) (secondWork false).2 with
  | mk result st' =>
      have hsome : (submitWork bonusNet.crypto (secondSolution false)
          (secondWork false).2).1.isSome = true := by
        decide +kernel
      rw [hsubmit] at hsome
      obtain ⟨block, rfl⟩ := Option.isSome_iff_exists.mp hsome
      simp only [Option.any_some, decide_eq_true_eq]
      refine submitWork_reward (pokBonus_bonusNet _) hrun hfees hroots
        (w := ((secondWork false).1, false)) (by simp) ?_ ?_ hsubmit
      · decide +kernel
      · decide +kernel

end Ziftrcoin.Spec
