/-
Module: Ziftrcoin.Proofs.Txids
Purpose: Along a chain no transaction comes twice: coinbases tell their height,
  and an input of another transaction is spent once.
Trusted boundary: none
Main exports: pushScriptNum_prefixFree, txids_nodup
-/
import Mathlib.Data.List.Count
import Ziftrcoin.Proofs.LockTime
import Ziftrcoin.Proofs.LongChain
import Ziftrcoin.Proofs.Supply

namespace Ziftrcoin.Spec

open Ziftrcoin.Lib
open Ziftrcoin.Lib.Outcome

/-! ### Pushed heights -/

theorem readLE_absBytes (fuel absvalue : ℕ) :
    readLE (CScriptNum.absBytes fuel absvalue) = absvalue % 256 ^ fuel := by
  induction fuel generalizing absvalue with
  | zero => rw [CScriptNum.absBytes, readLE, Nat.pow_zero, Nat.mod_one]
  | succ fuel ih =>
      cases absvalue with
      | zero => rw [CScriptNum.absBytes, readLE, Nat.zero_mod]
      | succ absvalue =>
          rw [CScriptNum.absBytes, readLE, ih, Nat.pow_succ', Nat.mod_mul]
          rfl

/-- A number that is not negative can be read off its bytes. -/
theorem readLE_serialize {n : ℕ} (hn : n < 2 ^ 64) :
    readLE (CScriptNum.serialize n) = n := by
  have habs : readLE (CScriptNum.absBytes 8 n) = n := by
    rw [readLE_absBytes]
    exact Nat.mod_eq_of_lt hn
  unfold CScriptNum.serialize
  split
  · next hzero => exact (Int.natCast_eq_zero.mp hzero).symm
  · have hneg : ¬((n : ℤ) < 0) := by omega
    simp only [Int.natAbs_natCast, if_neg hneg]
    split
    · rw [readLE_append, habs]
      simp [readLE]
    · exact habs

/-- The length comes first, so a push is not the start of another one. -/
theorem pushData_prefixFree {b b' : valtype} (hb : b.length < OP_PUSHDATA1)
    (hb' : b'.length < OP_PUSHDATA1) (h : pushData b <+: pushData b') : b = b' := by
  have hmax : OP_PUSHDATA1 = 76 := rfl
  unfold pushData at h
  rw [if_pos hb, if_pos hb'] at h
  obtain ⟨hlen, hrest⟩ := List.cons_prefix_cons.mp h
  have hval := congrArg UInt8.toNat hlen
  rw [UInt8.toNat_ofNat', UInt8.toNat_ofNat'] at hval
  have hlength : b.length = b'.length := by omega
  have hpre : b <+: b' := hrest
  exact hpre.eq_of_length hlength

/-- The pushes of heights are prefix-free. -/
theorem pushScriptNum_prefixFree {m n : ℕ} (hm : m < 2 ^ 64) (hn : n < 2 ^ 64)
    (h : pushScriptNum m <+: pushScriptNum n) : m = n := by
  have hshort : ∀ value, (CScriptNum.serialize value).length < OP_PUSHDATA1 :=
    fun value => (length_serialize_scriptNum value).trans_lt (by decide)
  have heq := pushData_prefixFree (hshort m) (hshort n) h
  rw [← readLE_serialize hm, ← readLE_serialize hn, heq]

/-! ### Coinbases -/

/-- The first input of a coinbase starts with a height. -/
def StartsWithHeight (tx : CTransaction) (nHeight : ℕ) : Prop :=
  ∃ txin, tx.vin[0]? = some txin ∧ pushScriptNum nHeight <+: txin.scriptSig

theorem StartsWithHeight.unique {tx : CTransaction} {m n : ℕ} (hm : m < 2 ^ 64)
    (hn : n < 2 ^ 64) (h : StartsWithHeight tx m) (h' : StartsWithHeight tx n) :
    m = n := by
  obtain ⟨txin, hin, hpush⟩ := h
  obtain ⟨txin', hin', hpush'⟩ := h'
  rw [hin] at hin'
  cases hin'
  rcases List.prefix_or_prefix_of_prefix hpush hpush' with hpre | hpre
  · exact pushScriptNum_prefixFree hm hn hpre
  · exact (pushScriptNum_prefixFree hn hm hpre).symm

theorem coinbaseHeightOk_true {block : CBlock} {nHeight : ℕ}
    (h : coinbaseHeightOk block nHeight = .ok true) :
    ∃ coinbase, block.vtx[0]? = some coinbase ∧ StartsWithHeight coinbase nHeight := by
  unfold coinbaseHeightOk at h
  simp only [bind_eq_ok, pure_eq_ok, Except.ok.injEq, get_eq_ok] at h
  obtain ⟨coinbase, hcoinbase, txin, hin, hpre⟩ := h
  exact ⟨coinbase, hcoinbase, txin, hin, List.isPrefixOf_iff_prefix.mp hpre⟩

/-- `AcceptBlock` accepted the block as one of that height, in a node that knows
the genesis block. -/
def AcceptedAt (cfg : Config) (block : CBlock) (nHeight : ℕ) : Prop :=
  ∃ (stored : CBlock) (fuel : ℕ) (s s' : NodeState), block = stored.readBack ∧
    (s.mapBlockIndex.find cfg.HashGenesisBlock).isSome = true ∧
    AcceptBlock cfg fuel stored s = .done () s' ∧
    (newEntry cfg s stored 0 0).nHeight = nHeight

theorem AcceptedAt.startsWithHeight {cfg : Config} {block : CBlock} {nHeight : ℕ}
    (h : AcceptedAt cfg block nHeight) :
    ∃ coinbase, block.vtx[0]? = some coinbase ∧ StartsWithHeight coinbase nHeight := by
  obtain ⟨stored, fuel, s, s', hstored, hgenesis, haccept, hheight⟩ := h
  obtain ⟨pPrev, hfits⟩ := acceptChecks_ok (acceptBlock_checked hgenesis haccept)
  have hok := hfits.coinbase
  rw [hheight] at hok
  rw [hstored]
  exact coinbaseHeightOk_true hok

/-- Only the first transaction of a block is a coinbase. -/
theorem BlockChecked.filter_isCoinBase {cfg : Config} {block : CBlock}
    {coinbase : CTransaction} {txs : List CTransaction}
    (h : BlockChecked cfg block coinbase txs) :
    block.vtx.filter CTransaction.IsCoinBase = [coinbase] := by
  rw [h.vtx_eq, List.filter_cons_of_pos h.isCoinBase, List.filter_eq_nil_iff.mpr]
  intro tx htx
  rw [h.notCoinBase tx htx]
  exact Bool.false_ne_true

/-! ### Histories -/

/-- An output that is there was put there by a transaction of its hash. -/
theorem Ran.created {crypto : Crypto} {txs : List CTransaction} {fFlushed : Bool}
    {view : CCoinsViewCache} (h : Ran crypto txs fFlushed view) {o : COutPoint}
    (havail : view.available o = true) :
    ∃ (k : ℕ) (tx : CTransaction), k < txs.length ∧ txs[k]? = some tx ∧
      tx.GetHash crypto = o.hash := by
  induction h with
  | start => cases havail
  | @transaction txs _ _ _ tx _ _ before fresh _ update ih =>
      by_cases hhash : o.hash = tx.GetHash crypto
      · exact ⟨txs.length, tx, by simp, by simp, hhash.symm⟩
      · rw [available_updateCoins update hhash] at havail
        obtain ⟨k, tx', hk, htx', hcreated⟩ := ih havail.1
        refine ⟨k, tx', ?_, ?_, hcreated⟩
        · rw [List.length_append]
          omega
        · rw [List.getElem?_append_left hk, htx']
  | best before _ ih => exact ih havail
  | flush before ih =>
      rw [available_flush] at havail
      exact ih havail

/-- A transaction that spends comes after the one that made what it spends. -/
theorem Ran.created_before {crypto : Crypto} {txs : List CTransaction} {fFlushed : Bool}
    {view : CCoinsViewCache} (h : Ran crypto txs fFlushed view) {i : ℕ}
    {tx : CTransaction} {o : COutPoint} (hi : txs[i]? = some tx) (hspends : Spends tx o) :
    ∃ (k : ℕ) (tx' : CTransaction), k < i ∧ txs[k]? = some tx' ∧
      tx'.GetHash crypto = o.hash := by
  obtain ⟨_, view₁, _, _, _, hran, hupdate⟩ := h.take_of_getElem? hi
  obtain ⟨k, tx', hk, htx', hcreated⟩ := hran.created (available_of_spends hupdate hspends)
  rw [List.length_take] at hk
  rw [List.getElem?_take_of_lt (by omega)] at htx'
  exact ⟨k, tx', by omega, htx', hcreated⟩

/-! ### Chains -/

namespace Connects

variable {cfg : Config} {blocks : List ConnectedBlock} {fFlushed : Bool}
  {view : CCoinsViewCache}

theorem heights (h : Connects cfg blocks fFlushed view) :
    blocks.map (fun b => b.ctx.nHeight) = List.range blocks.length := by
  induction h with
  | genesis nHeight => simp [nHeight]
  | connect _ nHeight _ _ ih =>
      rw [List.map_append, ih, List.length_append, List.length_singleton, List.range_succ,
        List.map_singleton, nHeight]
  | flush _ ih => exact ih

theorem checked (h : Connects cfg blocks fFlushed view) :
    ∀ b ∈ blocks, ∃ coinbase txs, BlockChecked cfg b.block coinbase txs := by
  induction h with
  | genesis _ connects =>
      intro b hb
      rw [List.mem_singleton.mp hb]
      obtain ⟨coinbase, txs, _, hblock, _⟩ := connectBlock_views connects
      exact ⟨coinbase, txs, hblock⟩
  | connect _ _ _ connects ih =>
      intro b hb
      rcases List.mem_append.mp hb with hb | hb
      · exact ih b hb
      · rw [List.mem_singleton.mp hb]
        obtain ⟨coinbase, txs, _, hblock, _⟩ := connectBlock_views connects
        exact ⟨coinbase, txs, hblock⟩
  | flush _ ih => exact ih

/-- The first block is the genesis block, at height zero. -/
theorem cons_genesis (h : Connects cfg blocks fFlushed view) :
    ∃ genesis rest, blocks = genesis :: rest ∧ genesis.block = cfg.GenesisBlock ∧
      genesis.ctx.nHeight = 0 := by
  induction h with
  | genesis nHeight => exact ⟨_, [], rfl, rfl, nHeight⟩
  | connect _ _ _ _ ih =>
      obtain ⟨genesis, rest, hcons, hgenesis⟩ := ih
      exact ⟨genesis, rest ++ [_], by rw [hcons, List.cons_append], hgenesis⟩
  | flush _ ih => exact ih

/-- Blocks of different heights have different coinbases. -/
theorem coinbases_nodup (h : Connects cfg blocks fFlushed view)
    (hstarts : ∀ b ∈ blocks, ∃ coinbase, b.block.vtx[0]? = some coinbase ∧
      StartsWithHeight coinbase b.ctx.nHeight) (hlength : blocks.length ≤ 2 ^ 31) :
    ((transactions blocks).filter CTransaction.IsCoinBase).Nodup := by
  have hfilter : (transactions blocks).filter CTransaction.IsCoinBase =
      blocks.map fun b => b.block.vtx.headD default := by
    unfold transactions
    rw [List.filter_flatMap, List.map_eq_flatMap]
    apply List.flatMap_congr
    intro b hb
    obtain ⟨coinbase, txs, hblock⟩ := h.checked b hb
    rw [hblock.filter_isCoinBase, hblock.vtx_eq]
    rfl
  have hheights : (blocks.map fun b => b.ctx.nHeight).Nodup := by
    rw [h.heights]
    exact List.nodup_range
  have hsmall : ∀ b ∈ blocks, b.ctx.nHeight < 2 ^ 64 := by
    intro b hb
    have hmem := List.mem_map_of_mem (f := fun b : ConnectedBlock => b.ctx.nHeight) hb
    rw [h.heights, List.mem_range] at hmem
    omega
  rw [hfilter]
  apply List.Nodup.map_on _ hheights.of_map
  intro b hb b' hb' hcoinbase
  have hhead : ∀ {c : ConnectedBlock} {coinbase : CTransaction},
      c.block.vtx[0]? = some coinbase → c.block.vtx.headD default = coinbase := by
    intro c coinbase hc
    rw [List.headD_eq_head?_getD, List.head?_eq_getElem?, hc, Option.getD_some]
  obtain ⟨coinbase, hfirst, hstart⟩ := hstarts b hb
  obtain ⟨coinbase', hfirst', hstart'⟩ := hstarts b' hb'
  rw [hhead hfirst, hhead hfirst'] at hcoinbase
  subst hcoinbase
  exact List.inj_on_of_nodup_map hheights hb hb'
    (hstart.unique (hsmall b hb) (hsmall b' hb') hstart')

theorem mem_checked (h : Connects cfg blocks fFlushed view) {tx : CTransaction}
    (htx : tx ∈ transactions blocks) : CheckTransaction tx = .ok () := by
  obtain ⟨b, hb, htx⟩ := List.mem_flatMap.mp htx
  obtain ⟨_, _, hblock⟩ := h.checked b hb
  exact hblock.checked tx htx

end Connects

/-- What satisfies a predicate comes once if the filtered list has it once. -/
theorem eq_of_filter_nodup {α : Type} {p : α → Bool} {xs : List α}
    (h : (xs.filter p).Nodup) {i j : ℕ} {x : α} (hij : i < j) (hi : xs[i]? = some x)
    (hj : xs[j]? = some x) : p x = false := by
  by_contra hx
  rw [Bool.not_eq_false] at hx
  obtain ⟨hjlt, hjx⟩ := List.getElem?_eq_some_iff.mp hj
  obtain ⟨hilt, hix⟩ := List.getElem?_eq_some_iff.mp hi
  have hpair : [x, x].Sublist xs := by
    rw [← List.duplicate_iff_sublist, List.duplicate_iff_exists_distinct_get]
    exact ⟨⟨i, hilt⟩, ⟨j, hjlt⟩, hij, hix.symm, hjx.symm⟩
  have hfiltered := hpair.filter p
  rw [List.filter_cons_of_pos hx, List.filter_cons_of_pos hx, List.filter_nil] at hfiltered
  have hnodup := hfiltered.nodup h
  simp at hnodup

/-- Along every chain of blocks that `AcceptBlock` accepts and `ConnectBlock`
connects, with the view flushed at any time, all transactions have different
hashes, those of the genesis block included.  Different transactions of the
chain are taken to have different hashes, and the genesis coinbase starts with
height zero. -/
theorem txids_nodup {cfg : Config} {blocks : List ConnectedBlock} {fFlushed : Bool}
    {view : CCoinsViewCache} (h : Connects cfg blocks fFlushed view)
    (haccepted : ∀ b ∈ blocks.tail, AcceptedAt cfg b.block b.ctx.nHeight)
    (hgenesis : coinbaseHeightOk cfg.GenesisBlock 0 = .ok true)
    (hlength : blocks.length ≤ 2 ^ 31)
    (hhash : Set.InjOn (CTransaction.GetHash cfg.crypto) {tx | tx ∈ transactions blocks}) :
    ((transactions blocks).map (CTransaction.GetHash cfg.crypto)).Nodup ∧
      ∀ m n : ℕ, m < 2 ^ 31 → n < 2 ^ 31 → pushScriptNum m <+: pushScriptNum n →
        m = n := by
  have hstarts : ∀ b ∈ blocks, ∃ coinbase, b.block.vtx[0]? = some coinbase ∧
      StartsWithHeight coinbase b.ctx.nHeight := by
    obtain ⟨genesis, rest, rfl, hfirst, hzero⟩ := h.cons_genesis
    intro b hb
    rcases List.mem_cons.mp hb with rfl | hb
    · rw [hfirst, hzero]
      exact coinbaseHeightOk_true hgenesis
    · exact (haccepted b hb).startsWithHeight
  have hcoinbases := h.coinbases_nodup hstarts hlength
  -- The second of two equal transactions is the last one that is known.
  have hdistinct : ∀ (j i : ℕ) (tx tx' : CTransaction), i < j →
      (transactions blocks)[i]? = some tx → (transactions blocks)[j]? = some tx' →
      tx.GetHash cfg.crypto ≠ tx'.GetHash cfg.crypto := by
    intro j
    induction j using Nat.strongRecOn with
    | _ j ih =>
        intro i tx tx' hij hi hj heq
        have hsame : tx = tx' :=
          hhash (List.mem_of_getElem? hi) (List.mem_of_getElem? hj) heq
        subst hsame
        have hcb := eq_of_filter_nodup hcoinbases hij hi hj
        have hvin := (checkTransaction_ok (h.mem_checked (List.mem_of_getElem? hi))).1
        obtain ⟨txin, vin, hcons⟩ := List.exists_cons_of_ne_nil hvin
        have hspends : Spends tx txin.prevout := by
          refine ⟨hcb, ?_⟩
          rw [hcons]
          exact List.mem_cons_self
        -- What it spends was made before the first and again before the second.
        obtain ⟨k, tx₁, hki, hk, hmade⟩ := h.ran.created_before hi hspends
        obtain ⟨l, tx₂, hil, hlj, hl, hmade'⟩ := h.ran.respent hij hi hj hspends hspends
        exact ih l hlj k tx₁ tx₂ (by omega) hk hl (hmade.trans hmade'.symm)
  refine ⟨?_, fun m n hm hn hpre =>
    pushScriptNum_prefixFree (by omega) (by omega) hpre⟩
  rw [List.nodup_iff_getElem?_ne_getElem?]
  intro i j hij hj heq
  rw [List.length_map] at hj
  rw [List.getElem?_map, List.getElem?_map, List.getElem?_eq_getElem hj,
    List.getElem?_eq_getElem (hij.trans hj)] at heq
  exact hdistinct j i _ _ hij (List.getElem?_eq_getElem (hij.trans hj))
    (List.getElem?_eq_getElem hj) (Option.some.inj heq)

theorem acceptedAt_coinbaseBlock : AcceptedAt zeroNet coinbaseBlock 1 := by
  have haccept : returned
      (AcceptBlock zeroNet 3 (coinbaseBlock.BuildMerkleTree zeroNet.crypto))
      (started zeroNet fun _ => quiet) = true := by
    decide +kernel
  refine ⟨coinbaseBlock.BuildMerkleTree zeroNet.crypto, 3, _, _, rfl, ?_,
    eq_done_of_returned haccept, ?_⟩
  · decide +kernel
  · decide +kernel

/-- A chain of two blocks. -/
theorem txids_nodup_coinbaseBlock :
    ∃ blocks view, Connects zeroNet blocks false view ∧ blocks.length = 2 ∧
      ((transactions blocks).map (CTransaction.GetHash zeroNet.crypto)).Nodup := by
  obtain ⟨view, view', vtxundo, _, ⟨undo, hstart⟩, hconnect, _⟩ :=
    zeroConnect_ok coinbaseBlock (by decide +kernel)
  have hgenesis := Connects.genesis rfl hstart
  have hrun := hgenesis.connect rfl (by decide +kernel) hconnect
  have htxs : ∀ txs, txs = zeroNet.GenesisBlock.vtx ++ coinbaseBlock.vtx →
      Set.InjOn (CTransaction.GetHash zeroNet.crypto) {tx | tx ∈ txs} := by
    rintro txs rfl
    have hall : ∀ tx ∈ zeroNet.GenesisBlock.vtx ++ coinbaseBlock.vtx,
        ∀ tx' ∈ zeroNet.GenesisBlock.vtx ++ coinbaseBlock.vtx,
        tx.GetHash zeroNet.crypto = tx'.GetHash zeroNet.crypto → tx = tx' := by
      decide +kernel
    exact fun tx htx tx' htx' heq => hall tx htx tx' htx' heq
  have hlength : (2 : ℕ) ≤ 2 ^ 31 := by decide
  refine ⟨_, view', hrun, rfl, (txids_nodup hrun ?_ (by decide +kernel) hlength
    (htxs _ rfl)).1⟩
  intro b hb
  have hb := List.mem_singleton.mp hb
  rw [hb]
  exact acceptedAt_coinbaseBlock

end Ziftrcoin.Spec
