/-
Module: Ziftrcoin.Proofs.LongChain
Purpose: Chains of any length on the small network: blocks that hold nothing
  but a coinbase, their hashes, sizes and checks.
Trusted boundary: none
Main exports: lineBlock, checkPOW_smallBlock
-/
import Ziftrcoin.Proofs.Connecting
import Ziftrcoin.Proofs.SmallNetwork

namespace Ziftrcoin.Spec

open Ziftrcoin.Lib
open Ziftrcoin.Lib.Outcome

/-! ### Bytes -/

theorem length_absBytes (fuel absvalue : Nat) :
    (CScriptNum.absBytes fuel absvalue).length ≤ fuel := by
  induction fuel generalizing absvalue with
  | zero => exact Nat.le_refl 0
  | succ fuel ih =>
      cases absvalue with
      | zero => exact Nat.zero_le _
      | succ absvalue => exact Nat.succ_le_succ (ih _)

theorem length_serialize_scriptNum (value : Int) :
    (CScriptNum.serialize value).length ≤ 9 := by
  have hbytes := length_absBytes 8 value.natAbs
  unfold CScriptNum.serialize
  split
  · exact Nat.zero_le 9
  · dsimp only
    split
    · rw [List.length_append, List.length_singleton]
      omega
    · split
      · rw [List.length_append, List.length_dropLast, List.length_singleton]
        omega
      · exact hbytes.trans (by decide)

/-- A number is pushed with a byte for its length. -/
theorem length_pushScriptNum (value : Int) :
    1 ≤ (pushScriptNum value).length ∧ (pushScriptNum value).length ≤ 10 := by
  have hlen := length_serialize_scriptNum value
  unfold pushScriptNum pushData
  rw [if_pos (hlen.trans_lt (by decide)), List.length_append, leBytes_length]
  omega

/-! ### Headers -/

theorem hashZR5_small (header : CBlockHeader) :
    smallCrypto.HashZR5 header.serialize = header.nNonce % 2 ^ 32 * 2 ^ 32 := by
  have hdrop : header.serialize.drop 76 = leBytes 4 header.nNonce := by
    unfold CBlockHeader.serialize
    exact List.drop_left' (by simp only [List.length_append, leBytes_length])
  have hpow : 256 ^ 4 = 2 ^ 32 := by decide
  show readLE (header.serialize.drop 76) * 2 ^ 32 = _
  rw [hdrop, readLE_leBytes, hpow]

theorem getHash_small {header : CBlockHeader} (h : header.nNonce < 2 ^ 32) :
    header.GetHash smallCrypto = hashOfNonce header.nNonce := by
  unfold CBlockHeader.GetHash hashOfNonce
  rw [hashZR5_small, Nat.mod_eq_of_lt h, Nat.mod_eq_of_lt (by omega)]

/-- Without the flag, the proof of knowledge is zero. -/
theorem calculatePoK_small {block : CBlock} (h : block.IsPoKBlock = false) :
    block.CalculatePoK smallCrypto = .ok 0 := by
  unfold CBlock.CalculatePoK
  rw [if_pos h]
  have hword : ∀ header : CBlockHeader,
      CBlock.getinnerint (smallCrypto.HashZR5 header.serialize) 0 = 0 := by
    intro header
    unfold CBlock.getinnerint
    rw [hashZR5_small, Nat.mul_zero, Nat.pow_zero, Nat.div_one, Nat.mul_mod_left]
  rw [hword]
  rfl

theorem isPoKBlock_smallBlock (nNonce nHeight : Nat) (hashPrevBlock : uint256)
    (vtx : List CTransaction) :
    (smallBlock nNonce nHeight hashPrevBlock vtx).IsPoKBlock = false := by
  have hversion : (smallBlock nNonce nHeight hashPrevBlock vtx).nVersion = 1 := rfl
  rw [CBlockHeader.IsPoKBlock, hversion]
  decide

theorem setPoK_smallBlock (nNonce nHeight : Nat) (hashPrevBlock : uint256)
    (vtx : List CTransaction) :
    (smallBlock nNonce nHeight hashPrevBlock vtx).SetPoK 0 =
      smallBlock nNonce nHeight hashPrevBlock vtx := by
  have hversion : ((1 : BitVec 32) &&& ~~~POK_DATA_MASK) ||| (POK_DATA_MASK &&& 0) = 1 := by
    decide
  exact congrArg (fun nVersion : BitVec 32 =>
    { smallBlock nNonce nHeight hashPrevBlock vtx with nVersion := nVersion }) hversion

theorem getHash_smallBlock {nNonce : Nat} (h : nNonce < 2 ^ 32) (nHeight : Nat)
    (hashPrevBlock : uint256) (vtx : List CTransaction) :
    (smallBlock nNonce nHeight hashPrevBlock vtx).GetHash smallCrypto =
      hashOfNonce nNonce :=
  getHash_small h

theorem checkPOW_smallBlock (genesis : CBlock) {nNonce : Nat} (h : nNonce < 2 ^ 32)
    (nHeight : Nat) (hashPrevBlock : uint256) (vtx : List CTransaction) :
    checkPOW (smallNet genesis) (smallBlock nNonce nHeight hashPrevBlock vtx) true =
      .ok true := by
  have hcrypto : (smallNet genesis).crypto = smallCrypto := rfl
  have hlimit : (smallNet genesis).ProofOfWorkLimit = smallLimit := rfl
  have hbits : (smallBlock nNonce nHeight hashPrevBlock vtx).nBits =
      GetCompact smallLimit := rfl
  have htarget : SetCompact (GetCompact smallLimit) = 0x7fffff * 2 ^ 232 := by
    decide +kernel
  have hwork : (smallBlock nNonce nHeight hashPrevBlock vtx).toCBlockHeader.CheckProofOfWork
      smallCrypto smallLimit = true := by
    have hhash := getHash_smallBlock h nHeight hashPrevBlock vtx
    unfold CBlock.GetHash at hhash
    unfold CBlockHeader.CheckProofOfWork
    rw [hbits, hhash, htarget, if_neg (by decide), decide_eq_true_eq]
    unfold hashOfNonce
    omega
  have hversion : (smallBlock nNonce nHeight hashPrevBlock vtx).nVersion = 1 := rfl
  unfold checkPOW CBlock.CheckProofOfWork
  rw [if_pos rfl, hcrypto, hlimit, hwork,
    calculatePoK_small (isPoKBlock_smallBlock nNonce nHeight hashPrevBlock vtx)]
  unfold CBlockHeader.GetPoK
  rw [hversion]
  rfl

/-! ### Coinbases -/

theorem serialize_coinbaseTx (nVersion : Int) (nHeight : Nat) (vout : List CTxOut) :
    (coinbaseTx nVersion nHeight vout).serialize =
      leInt32 nVersion ++ ((1 :: List.replicate 27 0) ++ (List.replicate 5 0 ++
        leBytes 4 UINT_MAX ++ serializeBytes (pushScriptNum nHeight ++ [0]) ++
        leBytes 4 UINT_MAX ++ serializeVector CTxOut.serialize vout ++ leBytes 4 0)) := by
  have hcount : writeCompactSize 1 = [1] := rfl
  have hhash : leBytes 32 0 = List.replicate 27 0 ++ List.replicate 5 0 := by decide
  unfold CTransaction.serialize serializeVector coinbaseTx
  rw [List.flatMap_singleton, List.length_singleton, hcount]
  unfold CTxIn.serialize COutPoint.serialize
  rw [hhash]
  simp only [List.append_assoc, List.cons_append, List.nil_append]

/-- The version of a coinbase is what its hash shows. -/
theorem getHash_coinbaseTx {nVersion : Nat} (h : nVersion < 2 ^ 32) (nHeight : Nat)
    (vout : List CTxOut) :
    (coinbaseTx nVersion nHeight vout).GetHash smallCrypto = nVersion + 2 ^ 32 := by
  have hversion : ((nVersion : Int) % 2 ^ 32).toNat = nVersion := by omega
  have htake : (coinbaseTx nVersion nHeight vout).serialize.take 32 =
      leInt32 nVersion ++ (1 :: List.replicate 27 0) := by
    rw [serialize_coinbaseTx, ← List.append_assoc]
    apply List.take_left'
    unfold leInt32
    rw [List.length_append, leBytes_length, List.length_cons, List.length_replicate]
  have hone : readLE (1 :: List.replicate 27 0) = 1 := by decide
  have hpow : 256 ^ 4 = 2 ^ 32 := by decide
  unfold leInt32 at htake
  unfold CTransaction.GetHash smallCrypto
  dsimp only
  rw [htake, hversion, readLE_append, hone, readLE_leBytes, leBytes_length,
    hpow, Nat.mod_eq_of_lt h, Nat.mul_one]

theorem isCoinBase_coinbaseTx (nVersion : Int) (nHeight : Nat) (vout : List CTxOut) :
    (coinbaseTx nVersion nHeight vout).IsCoinBase = true := by
  unfold CTransaction.IsCoinBase coinbaseTx
  simp [COutPoint.IsNull]

/-- The size of a coinbase: fifty-one bytes, the height and the outputs. -/
theorem size_coinbaseTx (nVersion : Int) (nHeight : Nat) (vout : List CTxOut) :
    (coinbaseTx nVersion nHeight vout).GetSerializeSize =
      51 + (pushScriptNum nHeight).length + (serializeVector CTxOut.serialize vout).length := by
  have hpush := length_pushScriptNum (nHeight : Int)
  have hscript : (serializeBytes (pushScriptNum nHeight ++ [0])).length =
      2 + (pushScriptNum nHeight).length := by
    unfold serializeBytes writeCompactSize
    rw [List.length_append, List.length_append, List.length_singleton, if_pos (by omega),
      leBytes_length]
    omega
  unfold CTransaction.GetSerializeSize
  rw [serialize_coinbaseTx]
  unfold leInt32
  simp only [List.length_append, List.length_cons, List.length_replicate, leBytes_length,
    hscript]
  omega

theorem checkTransaction_coinbaseTx (nVersion : Int) (nHeight : Nat) {vout : List CTxOut}
    (hne : vout ≠ []) (hcheck : checkOutputs 0 vout = .ok ())
    (hsize : (coinbaseTx nVersion nHeight vout).GetSerializeSize ≤ MIN_MAX_BLOCK_SIZE) :
    CheckTransaction (coinbaseTx nVersion nHeight vout) = .ok () := by
  have hpush := length_pushScriptNum (nHeight : Int)
  have hins : checkTxIns true [] (coinbaseTx nVersion nHeight vout).vin = .ok () := by
    unfold coinbaseTx
    have hnull : (COutPoint.IsNull ⟨0, UINT_MAX⟩) = true := rfl
    have hlen : ¬ ((pushScriptNum nHeight ++ [0]).length < MIN_COINBASE_SCRIPTSIG_SIZE ∨
        MAX_COINBASE_SCRIPTSIG_SIZE < (pushScriptNum nHeight ++ [0]).length) := by
      unfold MIN_COINBASE_SCRIPTSIG_SIZE MAX_COINBASE_SCRIPTSIG_SIZE
      rw [List.length_append, List.length_singleton]
      omega
    simp only [checkTxIns, hnull, Bool.true_eq_false, if_true, if_false, hlen]
  unfold CheckTransaction
  have hvin : (coinbaseTx nVersion nHeight vout).vin ≠ [] := List.cons_ne_nil _ _
  have hvout : (coinbaseTx nVersion nHeight vout).vout = vout := rfl
  rw [if_neg hvin, hvout, if_neg hne, if_neg (Nat.not_lt.mpr hsize), hcheck,
    isCoinBase_coinbaseTx, hins]
  rfl

/-! ### Signature operations -/

theorem sigOpsFrom_le (lastOpcode : Nat) (ops : List (Nat × valtype)) :
    sigOpsFrom lastOpcode ops ≤ 20 * ops.length := by
  induction ops generalizing lastOpcode with
  | nil => exact Nat.le_refl 0
  | cons op ops ih =>
      obtain ⟨opcode, data⟩ := op
      have hrest := ih opcode
      have hdecode : OP_1 ≤ lastOpcode ∧ lastOpcode ≤ OP_16 → DecodeOP_N lastOpcode ≤ 20 := by
        unfold DecodeOP_N OP_1 OP_16
        intro h
        split <;> omega
      rw [sigOpsFrom, List.length_cons]
      split
      · omega
      · split
        · split
          · next h =>
              have := hdecode h
              omega
          · omega
        · omega

theorem length_getOps (fuel : Nat) (script : CScript) :
    (getOps fuel script).1.length ≤ fuel := by
  induction fuel generalizing script with
  | zero =>
      cases script with
      | nil => exact Nat.le_refl 0
      | cons b script => exact Nat.le_refl 0
  | succ fuel ih =>
      cases script with
      | nil => exact Nat.zero_le _
      | cons b script =>
          rw [getOps]
          · cases getOp (b :: script) with
            | none => exact Nat.zero_le _
            | some op => exact Nat.succ_le_succ (ih op.2.2)
          · exact List.cons_ne_nil b script

theorem sigOpCount_le (script : CScript) :
    script.GetSigOpCount ≤ 20 * script.length :=
  (sigOpsFrom_le _ _).trans (Nat.mul_le_mul_left 20 (length_getOps _ _))

/-- The signature operations of a coinbase are those of its outputs and a few
more that its script can hold. -/
theorem sigOpCount_coinbaseTx (nVersion : Int) (nHeight : Nat) (vout : List CTxOut) :
    (vout.map fun txout => txout.scriptPubKey.GetSigOpCount).sum ≤
        GetSigOpCount (coinbaseTx nVersion nHeight vout) ∧
      GetSigOpCount (coinbaseTx nVersion nHeight vout) ≤
        221 + (vout.map fun txout => txout.scriptPubKey.GetSigOpCount).sum := by
  have hpush := length_pushScriptNum (nHeight : Int)
  have hscript := sigOpCount_le (pushScriptNum nHeight ++ [0])
  rw [List.length_append, List.length_singleton] at hscript
  have hvin : ((coinbaseTx nVersion nHeight vout).vin.map
      fun txin => txin.scriptSig.GetSigOpCount).sum =
      (CScript.GetSigOpCount (pushScriptNum nHeight ++ [0])) :=
    List.sum_singleton
  unfold GetSigOpCount
  rw [isCoinBase_coinbaseTx, if_pos rfl, hvin]
  have hvout : (coinbaseTx nVersion nHeight vout).vout = vout := rfl
  rw [hvout]
  omega

/-! ### Blocks with a coinbase only -/

theorem merkleRoot_eq {vtx : List CTransaction} (h : vtx ≠ []) :
    (merkleTree smallCrypto vtx.length (vtx.map (CTransaction.GetHash smallCrypto))).getLast? =
      some (merkleRoot vtx) := by
  obtain ⟨upper, htree⟩ := merkleTree_prefix smallCrypto vtx.length
    (vtx.map (CTransaction.GetHash smallCrypto))
  unfold merkleRoot
  rw [htree, List.getLastD_eq_getLast?]
  obtain ⟨tx, txs, rfl⟩ := List.exists_cons_of_ne_nil h
  rw [List.map_cons, List.cons_append, List.getLast?_cons, Option.getD_some]

theorem size_smallBlock (nNonce nHeight : Nat) (hashPrevBlock : uint256) (tx : CTransaction) :
    (smallBlock nNonce nHeight hashPrevBlock [tx]).GetSerializeSize =
      81 + tx.GetSerializeSize := by
  have hcount : (writeCompactSize 1).length = 1 := rfl
  have hvtx : (smallBlock nNonce nHeight hashPrevBlock [tx]).vtx = [tx] := rfl
  unfold CBlock.GetSerializeSize CBlock.serialize CBlockHeader.serialize serializeVector
    CTransaction.GetSerializeSize
  rw [hvtx, List.flatMap_singleton]
  simp only [List.length_append, leBytes_length, List.length_singleton, hcount]
  omega

/-- The block number `i` of a chain whose coinbases have the given outputs. -/
def lineBlock (outs : Nat → List CTxOut) (i : Nat) : CBlock :=
  smallBlock (i + 1) i (if i = 0 then 0 else hashOfNonce i) [coinbaseTx (i + 1) i (outs i)]

theorem getHash_lineBlock (outs : Nat → List CTxOut) {i : Nat} (h : i + 1 < 2 ^ 32) :
    (lineBlock outs i).GetHash smallCrypto = hashOfNonce (i + 1) :=
  getHash_smallBlock h _ _ _

theorem prev_lineBlock (outs : Nat → List CTxOut) {i : Nat} (h : i + 1 < 2 ^ 32) :
    (lineBlock outs (i + 1)).hashPrevBlock = (lineBlock outs i).GetHash smallCrypto := by
  have hprev : (lineBlock outs (i + 1)).hashPrevBlock =
      if i + 1 = 0 then 0 else hashOfNonce (i + 1) := rfl
  rw [getHash_lineBlock outs h, hprev, if_neg (Nat.succ_ne_zero i)]

theorem size_lineBlock (outs : Nat → List CTxOut) (i : Nat) :
    (lineBlock outs i).GetSerializeSize = 132 + (pushScriptNum i).length +
      (serializeVector CTxOut.serialize (outs i)).length := by
  unfold lineBlock
  rw [size_smallBlock, size_coinbaseTx]
  omega

/-- What the outputs of a chain have to satisfy so that its blocks are checked. -/
structure PlainOutputs (vout : List CTxOut) : Prop where
  ne_nil : vout ≠ []
  checked : checkOutputs 0 vout = .ok ()
  size : (serializeVector CTxOut.serialize vout).length + 142 ≤ MIN_MAX_BLOCK_SIZE

theorem blockChecked_coinbase (genesis : CBlock) {vout : List CTxOut} (h : PlainOutputs vout)
    (nNonce nHeight : Nat) (hashPrevBlock : uint256) (nVersion : Int) :
    BlockChecked (smallNet genesis)
      (smallBlock nNonce nHeight hashPrevBlock [coinbaseTx nVersion nHeight vout])
      (coinbaseTx nVersion nHeight vout) [] where
  vtx_eq := rfl
  isCoinBase := isCoinBase_coinbaseTx _ _ _
  notCoinBase := fun tx hmem => absurd hmem List.not_mem_nil
  checked := by
    intro tx hmem
    have heq : tx = coinbaseTx nVersion nHeight vout := List.mem_singleton.mp hmem
    rw [heq]
    apply checkTransaction_coinbaseTx nVersion nHeight h.ne_nil h.checked
    have hpush := length_pushScriptNum (nHeight : Int)
    have hsize := h.size
    rw [size_coinbaseTx]
    omega
  nodup := List.nodup_singleton _

/-- A block with a coinbase only is checked while it fits the limit. -/
theorem checkBlock_coinbase (genesis : CBlock) {vout : List CTxOut} (h : PlainOutputs vout)
    {nNonce : Nat} (hnonce : nNonce < 2 ^ 32) (nHeight : Nat) (hashPrevBlock : uint256)
    (nVersion : Int) {nAdjustedTime : Int} {nMaxBlockSize : Nat}
    (hlimit : MIN_MAX_BLOCK_SIZE ≤ nMaxBlockSize)
    (htime : (1400000000 + 60 * nHeight : Int) ≤ nAdjustedTime)
    (hops : 221 + (vout.map fun txout => txout.scriptPubKey.GetSigOpCount).sum ≤
      MaxBlockSizeToSigOps nMaxBlockSize) :
    CheckBlock (smallNet genesis) nAdjustedTime
        (smallBlock nNonce nHeight hashPrevBlock [coinbaseTx nVersion nHeight vout])
        nMaxBlockSize true true =
      .ok ((smallBlock nNonce nHeight hashPrevBlock
        [coinbaseTx nVersion nHeight vout]).BuildMerkleTree smallCrypto) := by
  have hpush := length_pushScriptNum (nHeight : Int)
  have hsize := h.size
  apply checkBlock_eq_ok (blockChecked_coinbase genesis h nNonce nHeight hashPrevBlock nVersion)
  · exact le_trans (show 1 ≤ MIN_MAX_BLOCK_SIZE by decide) hlimit
  · rw [size_smallBlock, size_coinbaseTx]
    omega
  · exact checkPOW_smallBlock genesis hnonce nHeight hashPrevBlock _
  · have hnTime : (smallBlock nNonce nHeight hashPrevBlock
        [coinbaseTx nVersion nHeight vout]).nTime = 1400000000 + 60 * nHeight := rfl
    have hoffset : 0 ≤ MAX_BLOCK_TIME_OFFSET := by decide
    rw [hnTime]
    omega
  · have hcount := (sigOpCount_coinbaseTx nVersion nHeight vout).2
    have hsum : ((smallBlock nNonce nHeight hashPrevBlock
        [coinbaseTx nVersion nHeight vout]).vtx.map GetSigOpCount).sum =
        GetSigOpCount (coinbaseTx nVersion nHeight vout) := List.sum_singleton
    rw [hsum]
    omega
  · exact merkleRoot_eq (List.cons_ne_nil _ _)

end Ziftrcoin.Spec
