/-
Module: Ziftrcoin.Proofs.NetworkFormat
Purpose: The network format of transactions and blocks: what is written is read
  back, and only what is written is read.
Trusted boundary: none
Main exports: decodes_readCompactSize, networkFormat_bijective
-/
import Ziftrcoin.Spec.Serialize

namespace Ziftrcoin.Spec

open Ziftrcoin.Lib

/-! ### Integers -/

theorem leBytes_readLE (bs : valtype) : leBytes bs.length (readLE bs) = bs := by
  induction bs with
  | nil => rfl
  | cons b bs ih =>
      have hb : b.toNat < 256 := b.toNat_lt
      have hhead : UInt8.ofNat (readLE (b :: bs)) = b := by
        apply UInt8.toNat.inj
        rw [UInt8.toNat_ofNat', readLE]
        omega
      have htail : readLE (b :: bs) / 256 = readLE bs := by
        rw [readLE]
        omega
      rw [List.length_cons, leBytes, hhead, htail, ih]

theorem readLE_lt (bs : valtype) : readLE bs < 256 ^ bs.length := by
  induction bs with
  | nil => decide
  | cons b bs ih =>
      have hb : b.toNat < 256 := b.toNat_lt
      rw [List.length_cons, readLE, Nat.pow_succ]
      omega

theorem decodes_readUInt (width : ℕ) :
    Decodes (· < 256 ^ width) (leBytes width) (readUInt width) := by
  refine Decodes.bind_pure (leBytes width) (Decodes.take _ width) ?_ ?_
  · rintro bs rfl
    exact ⟨readLE_lt bs, leBytes_readLE bs⟩
  · intro n hn
    refine ⟨leBytes_length width n, ?_⟩
    rw [readLE_leBytes, Nat.mod_eq_of_lt hn]

theorem readUInt_run {width n : ℕ} (hn : n < 256 ^ width) (rest : valtype) :
    readUInt width (leBytes width n ++ rest) = .ok (n, rest) :=
  (decodes_readUInt width).roundTrips n hn rest

/-- A signed integer travels as its residue. -/
theorem decodes_signed {width modulus half : ℕ} (hwidth : 256 ^ width = modulus)
    (hmodulus : modulus = 2 * half) (hpos : 0 < half) :
    Decodes (fun n : ℤ => -(half : ℤ) ≤ n ∧ n < half)
      (fun n => leBytes width (n % modulus).toNat)
      (do return Int.bmod (← readUInt width) modulus) := by
  refine Decodes.bind_pure (fun n : ℤ => (n % modulus).toNat) (decodes_readUInt width) ?_ ?_
  · intro n hn
    have hlo := @Int.le_bmod n modulus (by omega)
    have hhi := @Int.bmod_lt n modulus (by omega)
    refine ⟨by omega, ?_⟩
    have hlt : n < modulus := hwidth ▸ hn
    rw [Int.bmod_emod, Int.emod_eq_of_lt (by omega) (by omega), Int.toNat_natCast]
  · rintro n ⟨hlo, hhi⟩
    have hnonneg := Int.emod_nonneg n (b := (modulus : ℤ)) (by omega)
    have hlt := Int.emod_lt_of_pos n (b := (modulus : ℤ)) (by omega)
    refine ⟨by omega, ?_⟩
    rw [Int.toNat_of_nonneg hnonneg, Int.emod_bmod]
    exact Int.bmod_eq_of_le (by omega) (by omega)

theorem decodes_readInt32 :
    Decodes (fun n : ℤ => -2 ^ 31 ≤ n ∧ n < 2 ^ 31) leInt32 readInt32 := by
  have h := @decodes_signed 4 (2 ^ 32) (2 ^ 31) (by decide) (by decide) (by decide)
  exact_mod_cast h

theorem decodes_readInt64 :
    Decodes (fun n : ℤ => -2 ^ 63 ≤ n ∧ n < 2 ^ 63) leInt64 readInt64 := by
  have h := @decodes_signed 8 (2 ^ 64) (2 ^ 63) (by decide) (by decide) (by decide)
  exact_mod_cast h

/-- A count is read back. -/
theorem readInt32_run {n : ℤ} (hn : 0 ≤ n ∧ n < 2 ^ 31) (rest : valtype) :
    readInt32 (leInt32 n ++ rest) = .ok (n, rest) :=
  decodes_readInt32.roundTrips n ⟨by omega, hn.2⟩ rest

/-! ### Sizes of vectors -/

theorem decodes_readWideSize (width least : ℕ) :
    Decodes (fun n => n < 256 ^ width ∧ ¬ n < least) (leBytes width)
      (readWideSize width least) :=
  (decodes_readUInt width).restrict

/-- The first byte of a size, and the sizes that begin with it. -/
def sizeTag (nSize : ℕ) : ℕ :=
  if nSize < 253 then nSize
  else if nSize ≤ 0xffff then 253
  else if nSize ≤ 0xffffffff then 254
  else 255

/-- The bytes of a size behind the first. -/
def sizeTail (nSize : ℕ) : valtype :=
  if nSize < 253 then []
  else if nSize ≤ 0xffff then leBytes 2 nSize
  else if nSize ≤ 0xffffffff then leBytes 4 nSize
  else leBytes 8 nSize

theorem writeCompactSize_eq (nSize : ℕ) :
    writeCompactSize nSize = leBytes 1 (sizeTag nSize) ++ sizeTail nSize := by
  unfold writeCompactSize sizeTag sizeTail
  split_ifs <;> simp [leBytes]

theorem decodes_readSizeFrom {chSize : ℕ} (hch : chSize < 256) :
    Decodes (fun n => n < 2 ^ 64 ∧ sizeTag n = chSize) sizeTail (readSizeFrom chSize) := by
  unfold readSizeFrom
  split_ifs with h1 h2 h3
  · refine (Decodes.pure chSize).congr ?_ ?_ <;> intro n
    · unfold sizeTag
      split_ifs <;> omega
    · rintro rfl
      rw [sizeTail, if_pos h1]
  · refine (decodes_readWideSize 2 253).congr ?_ ?_ <;> intro n
    · unfold sizeTag
      split_ifs <;> omega
    · unfold sizeTail
      split_ifs <;> first | exact fun _ => rfl | omega
  · refine (decodes_readWideSize 4 0x10000).congr ?_ ?_ <;> intro n
    · unfold sizeTag
      split_ifs <;> omega
    · unfold sizeTail
      split_ifs <;> first | exact fun _ => rfl | omega
  · refine (decodes_readWideSize 8 0x100000000).congr ?_ ?_ <;> intro n
    · unfold sizeTag
      split_ifs <;> omega
    · unfold sizeTail
      split_ifs <;> first | exact fun _ => rfl | omega

/-- A size as it is read, before it is compared with `MAX_SIZE`. -/
theorem decodes_readSize :
    Decodes (fun n => n < 2 ^ 64) writeCompactSize (do readSizeFrom (← readUInt 1)) := by
  refine (Decodes.bind sizeTag (decodes_readUInt 1) ?_ fun chSize hch => ?_).congr
    (fun _ => Iff.rfl) fun n _ => (writeCompactSize_eq n).symm
  · intro n _
    unfold sizeTag
    split_ifs <;> omega
  · exact decodes_readSizeFrom (by omega)

theorem readCompactSize_eq :
    ReadCompactSize = (do readSizeFrom (← readUInt 1)) >>= fun nSizeRet =>
      if MAX_SIZE < nSizeRet then Reader.fail "ReadCompactSize() : size too large"
      else pure nSizeRet := by
  simp [ReadCompactSize]

theorem decodes_readCompactSize :
    Decodes (· ≤ MAX_SIZE) writeCompactSize ReadCompactSize := by
  rw [readCompactSize_eq]
  refine decodes_readSize.restrict.congr (fun n => ?_) fun _ _ => rfl
  unfold MAX_SIZE
  omega

theorem decodes_unserializeBytes :
    Decodes (fun v => v.length ≤ MAX_SIZE) serializeBytes unserializeBytes := by
  have hreads (n : ℕ) : Decodes (fun v : valtype => v.length = n ∧ True) id (readData n) :=
    (Decodes.take _ n).congr (fun _ => (and_iff_left trivial).symm) fun _ _ => rfl
  refine (Decodes.counted decodes_readCompactSize (Reader.take_divides _) hreads _).congr ?_
    fun _ _ => rfl
  exact fun v => and_iff_left trivial

theorem decodes_unserializeVector {α : Type} {Valid : α → Prop} {serialize : α → valtype}
    {unserialize : Stream α} (h : Decodes Valid serialize unserialize) {sizeofT : ℕ}
    (hpos : 0 < 5000000 / sizeofT) :
    Decodes (fun v => v.length ≤ MAX_SIZE ∧ ∀ a ∈ v, Valid a) (serializeVector serialize)
      (unserializeVector sizeofT hpos unserialize) :=
  Decodes.counted decodes_readCompactSize (Reader.many_divides _) h.many hpos

/-! ### Transactions -/

theorem decodes_outPoint :
    Decodes COutPoint.InRange COutPoint.serialize COutPoint.Unserialize := by
  refine Decodes.bind COutPoint.hash (decodes_readUInt 32) ?_ fun hash hhash => ?_
  · exact fun outpoint h => h.1
  refine Decodes.bind_pure COutPoint.n (decodes_readUInt 4) ?_ ?_
  · exact fun n hn => ⟨⟨⟨hhash, hn⟩, rfl⟩, rfl⟩
  · rintro outpoint ⟨h, rfl⟩
    exact ⟨h.2, rfl⟩

theorem decodes_txIn : Decodes CTxIn.InRange CTxIn.serialize CTxIn.Unserialize := by
  have hfields : Decodes CTxIn.InRange
      (fun txin => txin.prevout.serialize ++
        (serializeBytes txin.scriptSig ++ leBytes 4 txin.nSequence))
      CTxIn.Unserialize := by
    refine Decodes.bind CTxIn.prevout decodes_outPoint ?_ fun prevout hprevout => ?_
    · exact fun txin h => h.1
    refine Decodes.bind CTxIn.scriptSig decodes_unserializeBytes ?_ fun scriptSig hsig => ?_
    · exact fun txin h => h.1.2.1
    refine Decodes.bind_pure CTxIn.nSequence (decodes_readUInt 4) ?_ ?_
    · exact fun n hn => ⟨⟨⟨⟨hprevout, hsig, hn⟩, rfl⟩, rfl⟩, rfl⟩
    · rintro txin ⟨⟨h, rfl⟩, rfl⟩
      exact ⟨h.2.2, rfl⟩
  exact hfields.congr (fun _ => Iff.rfl) fun txin _ => (List.append_assoc _ _ _).symm

theorem decodes_txOut : Decodes CTxOut.InRange CTxOut.serialize CTxOut.Unserialize := by
  refine Decodes.bind CTxOut.nValue decodes_readInt64 ?_ fun nValue hvalue => ?_
  · exact fun txout h => h.1
  refine Decodes.bind_pure CTxOut.scriptPubKey decodes_unserializeBytes ?_ ?_
  · exact fun script hscript => ⟨⟨⟨hvalue, hscript⟩, rfl⟩, rfl⟩
  · rintro txout ⟨h, rfl⟩
    exact ⟨h.2, rfl⟩

theorem decodes_transaction :
    Decodes CTransaction.InRange CTransaction.serialize CTransaction.Unserialize := by
  have hfields : Decodes CTransaction.InRange
      (fun tx => leInt32 tx.nVersion ++ (serializeVector CTxIn.serialize tx.vin ++
        (serializeVector CTxOut.serialize tx.vout ++ leBytes 4 tx.nLockTime)))
      CTransaction.Unserialize := by
    refine Decodes.bind CTransaction.nVersion decodes_readInt32 ?_ fun nVersion hversion => ?_
    · exact fun tx h => h.1
    refine Decodes.bind CTransaction.vin (decodes_unserializeVector decodes_txIn _) ?_
      fun vin hvin => ?_
    · exact fun tx h => h.1.2.1
    refine Decodes.bind CTransaction.vout (decodes_unserializeVector decodes_txOut _) ?_
      fun vout hvout => ?_
    · exact fun tx h => h.1.1.2.2.1
    refine Decodes.bind_pure CTransaction.nLockTime (decodes_readUInt 4) ?_ ?_
    · exact fun n hn => ⟨⟨⟨⟨⟨hversion, hvin, hvout, hn⟩, rfl⟩, rfl⟩, rfl⟩, rfl⟩
    · rintro tx ⟨⟨⟨h, rfl⟩, rfl⟩, rfl⟩
      exact ⟨h.2.2.2, rfl⟩
  refine hfields.congr (fun _ => Iff.rfl) fun tx _ => ?_
  simp only [CTransaction.serialize, List.append_assoc]

/-! ### Blocks -/

theorem decodes_header :
    Decodes CBlockHeader.InRange CBlockHeader.serialize CBlockHeader.Unserialize := by
  have hfields : Decodes CBlockHeader.InRange
      (fun header => leBytes 4 header.nVersion.toNat ++ (leBytes 32 header.hashPrevBlock ++
        (leBytes 32 header.hashMerkleRoot ++ (leBytes 4 header.nTime ++
          (leBytes 4 header.nBits ++ leBytes 4 header.nNonce)))))
      CBlockHeader.Unserialize := by
    refine Decodes.bind (fun header : CBlockHeader => header.nVersion.toNat) (decodes_readUInt 4) ?_
      fun nVersion hversion => ?_
    · exact fun header _ => header.nVersion.isLt
    refine Decodes.bind CBlockHeader.hashPrevBlock (decodes_readUInt 32) ?_ fun _ hprev => ?_
    · exact fun header h => h.1.1
    refine Decodes.bind CBlockHeader.hashMerkleRoot (decodes_readUInt 32) ?_ fun _ hroot => ?_
    · exact fun header h => h.1.1.2.1
    refine Decodes.bind CBlockHeader.nTime (decodes_readUInt 4) ?_ fun _ htime => ?_
    · exact fun header h => h.1.1.1.2.2.1
    refine Decodes.bind CBlockHeader.nBits (decodes_readUInt 4) ?_ fun _ hbits => ?_
    · exact fun header h => h.1.1.1.1.2.2.2.1
    refine Decodes.bind_pure CBlockHeader.nNonce (decodes_readUInt 4) ?_ ?_
    · intro n hn
      exact ⟨⟨⟨⟨⟨⟨⟨hprev, hroot, htime, hbits, hn⟩, Nat.mod_eq_of_lt hversion⟩, rfl⟩, rfl⟩,
        rfl⟩, rfl⟩, rfl⟩
    · rintro header ⟨⟨⟨⟨⟨h, rfl⟩, rfl⟩, rfl⟩, rfl⟩, rfl⟩
      refine ⟨h.2.2.2.2, ?_⟩
      rw [BitVec.ofNat_toNat, BitVec.setWidth_eq]
  refine hfields.congr (fun _ => Iff.rfl) fun header _ => ?_
  simp only [CBlockHeader.serialize, List.append_assoc]

/-- A block that has been read has no Merkle tree yet. -/
theorem decodes_block :
    Decodes (fun block => block.InRange ∧ block.vMerkleTree = []) CBlock.serialize
      CBlock.Unserialize := by
  refine Decodes.bind CBlock.toCBlockHeader decodes_header ?_ fun header hheader => ?_
  · exact fun block h => h.1.1
  refine Decodes.bind_pure CBlock.vtx (decodes_unserializeVector decodes_transaction _) ?_ ?_
  · exact fun vtx hvtx => ⟨⟨⟨⟨hheader, hvtx⟩, rfl⟩, rfl⟩, rfl⟩
  · rintro block ⟨⟨h, hmerkle⟩, rfl⟩
    refine ⟨h.2, ?_⟩
    rw [← hmerkle]

/-! ### Sizes -/

theorem uint32_add_left (a b : ℕ) : uint32 (uint32 a + b) = uint32 (a + b) :=
  Nat.mod_add_mod a _ b

theorem uint32_add_right (a b : ℕ) : uint32 (a + uint32 b) = uint32 (a + b) :=
  Nat.add_mod_mod a b _

theorem writeCompactSize_length (nSize : ℕ) :
    (writeCompactSize nSize).length = GetSizeOfCompactSize nSize := by
  unfold writeCompactSize GetSizeOfCompactSize
  split_ifs <;> simp

theorem sizeOfBytes_eq (v : valtype) : sizeOfBytes v = uint32 (serializeBytes v).length := by
  rw [sizeOfBytes, serializeBytes, List.length_append, writeCompactSize_length]

/-- The loop over a vector adds the sizes of its elements. -/
theorem foldl_size {α : Type} {size : α → ℕ} {serialize : α → valtype}
    (h : ∀ a, size a = uint32 (serialize a).length) (v : List α) (nSize : ℕ) :
    v.foldl (fun nSize a => uint32 (nSize + size a)) (uint32 nSize) =
      uint32 (nSize + (v.flatMap serialize).length) := by
  induction v generalizing nSize with
  | nil => rfl
  | cons a v ih =>
      rw [List.foldl_cons, h, uint32_add_left, uint32_add_right, ih, List.flatMap_cons,
        List.length_append, Nat.add_assoc]

theorem sizeOfVector_eq {α : Type} {size : α → ℕ} {serialize : α → valtype}
    (h : ∀ a, size a = uint32 (serialize a).length) (v : List α) :
    sizeOfVector size v = uint32 (serializeVector serialize v).length := by
  have hsize : GetSizeOfCompactSize v.length = uint32 (GetSizeOfCompactSize v.length) := by
    unfold GetSizeOfCompactSize
    split_ifs <;> rfl
  rw [sizeOfVector, hsize, foldl_size h, serializeVector, List.length_append,
    writeCompactSize_length]

theorem sumSerializeSize_txIn (txin : CTxIn) :
    txin.sumSerializeSize = uint32 txin.serialize.length := by
  simp only [CTxIn.sumSerializeSize, COutPoint.sumSerializeSize, CTxIn.serialize,
    COutPoint.serialize, List.length_append, leBytes_length, sizeOfBytes_eq, uint32_add_left,
    uint32_add_right]

theorem sumSerializeSize_txOut (txout : CTxOut) :
    txout.sumSerializeSize = uint32 txout.serialize.length := by
  simp only [CTxOut.sumSerializeSize, CTxOut.serialize, leInt64, List.length_append,
    leBytes_length, sizeOfBytes_eq, uint32_add_right]

theorem sumSerializeSize_transaction (tx : CTransaction) :
    tx.sumSerializeSize = uint32 tx.serialize.length := by
  simp only [CTransaction.sumSerializeSize, CTransaction.serialize, leInt32,
    List.length_append, leBytes_length, sizeOfVector_eq sumSerializeSize_txIn,
    sizeOfVector_eq sumSerializeSize_txOut, uint32_add_left, uint32_add_right]

theorem sumSerializeSize_block (block : CBlock) :
    block.sumSerializeSize = uint32 block.serialize.length := by
  simp only [CBlock.sumSerializeSize, CBlockHeader.sumSerializeSize, CBlock.serialize,
    CBlockHeader.serialize, List.length_append, leBytes_length,
    sizeOfVector_eq sumSerializeSize_transaction, uint32_add_right]

/-! ### The format as a whole -/

/-- The network format is a bijection between the transactions, or blocks, whose
vectors may be read and their encodings: an encoding is read back whatever
follows it, and whatever is read is the encoding of what it is read as.
`GetSerializeSize` knows the length of an encoding modulo 2^32. -/
theorem networkFormat_bijective :
    (∀ tx : CTransaction, tx.InRange → ∀ rest,
      CTransaction.Unserialize (tx.serialize ++ rest) = .ok (tx, rest)) ∧
    (∀ block : CBlock, block.InRange → ∀ rest,
      CBlock.Unserialize (block.serialize ++ rest) = .ok (block.readBack, rest)) ∧
    (∀ tx : CTransaction, tx.sumSerializeSize = tx.serialize.length % 2 ^ 32) ∧
    (∀ block : CBlock, block.sumSerializeSize = block.serialize.length % 2 ^ 32) ∧
    (∀ bs tx rest, CTransaction.Unserialize bs = .ok (tx, rest) →
      tx.InRange ∧ bs = tx.serialize ++ rest) ∧
    (∀ bs block rest, CBlock.Unserialize bs = .ok (block, rest) →
      block.InRange ∧ bs = block.serialize ++ rest) ∧
    (∀ code code' tx, CTransaction.Unserialize code = .ok (tx, []) →
      CTransaction.Unserialize code' = .ok (tx, []) → code = code') := by
  refine ⟨decodes_transaction.roundTrips, fun block hblock rest => ?_,
    sumSerializeSize_transaction, sumSerializeSize_block, decodes_transaction.canonical,
    fun bs block rest hread => ?_, fun code code' tx hread hread' => ?_⟩
  · exact decodes_block.roundTrips block.readBack ⟨hblock, rfl⟩ rest
  · obtain ⟨⟨hrange, -⟩, hbs⟩ := decodes_block.canonical bs block rest hread
    exact ⟨hrange, hbs⟩
  · obtain ⟨bytes, hcode, hcode'⟩ := decodes_transaction.canonical.same_encoding hread hread'
    rw [hcode, hcode']

/-- A transaction without inputs and outputs. -/
def tenByteTransaction : CTransaction := { nVersion := 1, vin := [], vout := [], nLockTime := 0 }

theorem networkFormat_bijective_tenBytes :
    CTransaction.Unserialize (tenByteTransaction.serialize ++ [7]) =
      .ok (tenByteTransaction, [7]) :=
  networkFormat_bijective.1 tenByteTransaction
    (by simp [CTransaction.InRange, tenByteTransaction]) [7]

/-- An input whose script is as long as a vector may be. -/
def longInput : CTxIn :=
  { prevout := { hash := 0, n := UINT_MAX }, scriptSig := List.replicate MAX_SIZE 0,
    nSequence := UINT_MAX }

/-- A transaction whose scripts together have `2 ^ 32` bytes. -/
def longTransaction : CTransaction :=
  { nVersion := 1, vin := List.replicate 128 longInput, vout := [], nLockTime := 0 }

theorem length_scriptSig_longInput : longInput.scriptSig.length = MAX_SIZE :=
  List.length_replicate

theorem length_serialize_longInput : longInput.serialize.length = 45 + MAX_SIZE := by
  have hsize : GetSizeOfCompactSize MAX_SIZE = 5 := by decide
  rw [CTxIn.serialize, COutPoint.serialize, serializeBytes]
  simp only [List.length_append, leBytes_length, writeCompactSize_length,
    length_scriptSig_longInput, hsize]
  omega

theorem length_serialize_longTransaction :
    longTransaction.serialize.length = 2 ^ 32 + 5770 := by
  have hinputs : (List.replicate 128 longInput).flatMap CTxIn.serialize =
      (List.replicate 128 longInput.serialize).flatten := by
    rw [List.flatMap_def, List.map_replicate]
  have hsize : GetSizeOfCompactSize 128 = 1 := by decide
  have hempty : GetSizeOfCompactSize 0 = 1 := by decide
  rw [CTransaction.serialize, leInt32, serializeVector, serializeVector, longTransaction, hinputs]
  simp only [List.length_append, leBytes_length, writeCompactSize_length, List.length_flatten,
    List.map_replicate, List.sum_replicate_nat, List.length_replicate, List.flatMap_nil,
    List.length_nil, length_serialize_longInput, hsize, hempty, MAX_SIZE]
  omega


theorem inRange_longTransaction : longTransaction.InRange := by
  have hinput : longInput.InRange := by
    refine ⟨⟨by decide, by decide⟩, ?_, by decide⟩
    rw [length_scriptSig_longInput]
  refine ⟨⟨by decide, by decide⟩, ⟨?_, fun txin htxin => ?_⟩,
    ⟨by decide, by simp [longTransaction]⟩, by decide⟩
  · rw [longTransaction, List.length_replicate]
    decide
  · rw [List.eq_of_mem_replicate htxin]
    exact hinput

/-- `GetSerializeSize` is the number of bytes that are read only for an encoding
whose length is an `unsigned int`. -/
theorem length_lt_of_consumes_sumSerializeSize {tx : CTransaction} (htx : tx.InRange)
    {rest : valtype} (hconsumes : CTransaction.Unserialize (tx.serialize ++ rest) =
      .ok (tx, (tx.serialize ++ rest).drop tx.sumSerializeSize)) :
    tx.serialize.length < 2 ^ 32 := by
  have hread := decodes_transaction.roundTrips tx htx rest
  have hdrop := (Prod.mk.inj (Except.ok.inj (hread.symm.trans hconsumes))).2
  have hlength := congrArg List.length hdrop
  rw [List.length_drop, List.length_append] at hlength
  have hsize := sumSerializeSize_transaction tx
  have hpos := four_le_serialize_length tx
  have hlt : uint32 tx.serialize.length < 2 ^ 32 := Nat.mod_lt _ (by omega)
  omega

/-- The scripts of a transaction can have `2 ^ 32` bytes together, and
`GetSerializeSize`, an `unsigned int`, then counts the others only. -/
theorem not_consumes_sumSerializeSize :
    ¬ ∀ tx : CTransaction, tx.InRange → ∀ rest,
      CTransaction.Unserialize (tx.serialize ++ rest) =
        .ok (tx, (tx.serialize ++ rest).drop tx.sumSerializeSize) := by
  intro h
  have hlt := length_lt_of_consumes_sumSerializeSize inRange_longTransaction
    (h longTransaction inRange_longTransaction [])
  rw [length_serialize_longTransaction] at hlt
  omega

end Ziftrcoin.Spec
