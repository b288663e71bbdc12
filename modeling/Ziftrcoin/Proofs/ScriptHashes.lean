/-
Module: Ziftrcoin.Proofs.ScriptHashes
Purpose: The scripts that compare a hash: how the solver and the evaluation recognise
  them, where the two agree, and why the assertion about the redeem script holds.
Trusted boundary: none
Main exports: hashScript, scriptHash_agrees_iff
-/
import Ziftrcoin.Proofs.TemplateShapes

namespace Ziftrcoin.Spec

/-! ### Shapes -/

/-- `OP_HASH160 <hash> OP_EQUAL`, for the bytes that push the hash. -/
def hashScript (push : CScript) : CScript :=
  UInt8.ofNat OP_HASH160 :: push ++ [UInt8.ofNat OP_EQUAL]

theorem matches_hashScript_iff {s : CScript} {sols : List valtype} :
    MatchesTemplate (baseTemplate .TX_SCRIPTHASH) s sols ↔ ∃ opcode hash push,
      Instruction opcode hash push ∧ hash.length = 20 ∧ s = hashScript push ∧ sols = [hash] := by
  rw [baseTemplate, matchesTemplate_plain_iff (by decide)]
  constructor
  · rintro ⟨rest, rfl, h⟩
    obtain ⟨opcode, hash, push, rest, more, hinstr, hlen, rfl, hmore, rfl⟩ :=
      matchesTemplate_hash_iff.mp h
    obtain ⟨rest', rfl, hnil⟩ := (matchesTemplate_plain_iff (by decide)).mp hmore
    cases hnil
    exact ⟨opcode, hash, push, hinstr, hlen, rfl, rfl⟩
  · rintro ⟨opcode, hash, push, hinstr, hlen, rfl, rfl⟩
    exact ⟨_, rfl, matchesTemplate_hash_iff.mpr ⟨opcode, hash, push, _, [], hinstr, hlen, rfl,
      (matchesTemplate_plain_iff (by decide)).mpr ⟨[], rfl, .nil⟩, rfl⟩⟩

/-- The solver finds a script hash however the hash is pushed. -/
theorem solver_scriptHash_iff {s : CScript} {sols : List valtype} :
    Solver s = some (.TX_SCRIPTHASH, sols) ↔ ∃ opcode hash push,
      Instruction opcode hash push ∧ hash.length = 20 ∧ s = hashScript push ∧ sols = [hash] := by
  rw [solver_iff (by decide), ← matches_hashScript_iff]
  constructor
  · rintro ⟨tplate, hmem, h, -⟩
    have htemplate : tplate = baseTemplate .TX_SCRIPTHASH :=
      mTemplates_eq hmem txnouttype.noConfusion
    exact htemplate ▸ h
  · exact fun h => ⟨_, by decide, h, fun hmulti => by cases hmulti⟩

theorem solver_delayedScriptHash_iff {s : CScript} {sols : List valtype} :
    Solver s = some (.TX_DELAYEDSCRIPTHASH, sols) ↔ ∃ p opcode hash push, p.length ≤ 5 ∧
      Instruction opcode hash push ∧ hash.length = 20 ∧ s = delayedBy p (hashScript push) ∧
        sols = [p, hash] := by
  rw [solver_iff (by decide)]
  constructor
  · rintro ⟨tplate, hmem, h, -⟩
    obtain ⟨p, script, more, hp, rfl, hmore, rfl⟩ := (delayed_shape hmem rfl).mp h
    obtain ⟨opcode, hash, push, hinstr, hlen, rfl, rfl⟩ := matches_hashScript_iff.mp hmore
    exact ⟨p, opcode, hash, push, hp, hinstr, hlen, rfl, rfl⟩
  · rintro ⟨p, opcode, hash, push, hp, hinstr, hlen, rfl, rfl⟩
    refine ⟨[OP_SCRIPTNUMBER, OP_CHECKLOCKTIMEVERIFY] ++ baseTemplate .TX_SCRIPTHASH, by decide,
      ?_, fun hmulti => by cases hmulti⟩
    exact matchesTemplate_delayed_iff.mpr ⟨p, _, _, hp, rfl,
      matches_hashScript_iff.mpr ⟨opcode, hash, push, hinstr, hlen, rfl, rfl⟩, rfl⟩

/-- The fast test is for a hash that is pushed directly. -/
theorem fastTest_iff (s : CScript) :
    (s.length == 23 && (s.getD 0 0).toNat == OP_HASH160 && s.getD 1 0 == 0x14 &&
      (s.getD 22 0).toNat == OP_EQUAL) = true ↔
        ∃ hash : valtype, hash.length = 20 ∧ s = hashScript (0x14 :: hash) := by
  simp only [Bool.and_eq_true, beq_iff_eq]
  constructor
  · rintro ⟨⟨⟨hlen, hfirst⟩, hsecond⟩, hlast⟩
    rcases s with _ | ⟨a, _ | ⟨b, rest⟩⟩
    · cases hlen
    · cases hlen
    rcases List.eq_nil_or_concat rest with rfl | ⟨hash, z, rfl⟩
    · cases hlen
    have hhash : hash.length = 20 := by simpa using hlen
    have hfirst' : a = UInt8.ofNat OP_HASH160 := UInt8.toNat_inj.mp hfirst
    have hsecond' : b = 0x14 := hsecond
    have hz : (a :: b :: (hash ++ [z])).getD 22 0 = z := by
      simp [List.getD_eq_getElem?_getD, hhash]
    rw [List.concat_eq_append, hz] at hlast
    have hlast' : z = UInt8.ofNat OP_EQUAL := UInt8.toNat_inj.mp hlast
    refine ⟨hash, hhash, ?_⟩
    rw [hfirst', hsecond', hlast', List.concat_eq_append]
    rfl
  · rintro ⟨hash, hlen, rfl⟩
    refine ⟨⟨⟨?_, rfl⟩, rfl⟩, ?_⟩
    · simp [hashScript, hlen]
    · simp [hashScript, List.getD_eq_getElem?_getD, hlen]
      decide

theorem isPayToScriptHash_iff {s : CScript} :
    s.IsPayToScriptHash = true ↔
      (∃ hash : valtype, hash.length = 20 ∧ s = hashScript (0x14 :: hash)) ∨
        ∃ sols, Solver s = some (.TX_DELAYEDSCRIPTHASH, sols) := by
  unfold CScript.IsPayToScriptHash
  rw [Bool.or_eq_true, fastTest_iff]
  refine or_congr_right ?_
  cases hsolver : Solver s with
  | none => simp
  | some x =>
      obtain ⟨type, sols⟩ := x
      simp only [beq_iff_eq, Option.some.injEq, Prod.mk.injEq]
      exact ⟨fun h => ⟨sols, h, rfl⟩, fun ⟨_, h, _⟩ => h⟩

/-! ### Where the solver and the evaluation agree -/

/-- The hash is pushed in a longer form than needed. -/
def LongHashScript (s : CScript) : Prop :=
  ∃ opcode hash push, Instruction opcode hash push ∧ hash.length = 20 ∧
    OP_PUSHDATA1 ≤ opcode ∧ s = hashScript push

/-- A push of a hash that is in no longer form than needed. -/
theorem direct_hash {opcode : ℕ} {hash : valtype} {push : CScript}
    (hinstr : Instruction opcode hash push) (hlen : hash.length = 20)
    (hop : opcode < OP_PUSHDATA1) : push = 0x14 :: hash := by
  obtain ⟨-, rfl⟩ := hinstr.direct_inv hop
  rw [hlen]
  rfl

theorem instruction_hash {hash : valtype} (hlen : hash.length = 20) :
    Instruction 20 hash (0x14 :: hash) := by
  have hinstr := @Instruction.direct hash (by rw [hlen]; decide)
  rw [hlen] at hinstr
  exact hinstr

theorem hashScript_injective {push push' : CScript} (h : hashScript push = hashScript push') :
    push = push' := List.append_cancel_right (List.cons.inj h).2

/-- One pushed hash has one form. -/
theorem Instruction.opcode_unique {opcode opcode' : ℕ} {vch vch' : valtype} {bytes : CScript}
    (h : Instruction opcode vch bytes) (h' : Instruction opcode' vch' bytes) :
    opcode = opcode' ∧ vch = vch' := by
  have hread := h.getOp_append []
  rw [h'.getOp_append [], Option.some.injEq] at hread
  simp only [Prod.mk.injEq] at hread
  exact ⟨hread.1.symm, hread.2.1.symm⟩

/-- A hash in its shortest form is no hash in a longer form. -/
theorem not_longHashScript {hash : valtype} (hlen : hash.length = 20) :
    ¬ LongHashScript (hashScript (0x14 :: hash)) := by
  rintro ⟨opcode, hash', push, hinstr, -, hop, heq⟩
  rw [← hashScript_injective heq] at hinstr
  rw [(hinstr.opcode_unique (instruction_hash hlen)).1] at hop
  exact absurd hop (by decide)

/-- The solver and the evaluation take the same scripts for script hashes. -/
def ClassifiesAlike (s : CScript) : Prop :=
  (∃ type sols, Solver s = some (type, sols) ∧ type.undelayed = .TX_SCRIPTHASH) ↔
    s.IsPayToScriptHash = true

/-- What the solver takes for a script hash is spent only with a redeem script that
succeeds on the rest of the stack. -/
def SpentThroughRedeem (s : CScript) : Prop :=
  ∀ (ctx : ScriptContext) (scriptSig : CScript), ctx.flags.P2SH = true →
    (∃ type sols, Solver s = some (type, sols) ∧ type.undelayed = .TX_SCRIPTHASH) →
    VerifyScript ctx scriptSig s = .ok true →
    ∃ pubKeySerialized stack out, EvalScript ctx [] scriptSig = some (pubKeySerialized :: stack) ∧
      EvalScript ctx stack pubKeySerialized = some out ∧ topIsTrue out = true

theorem undelayed_eq_scriptHash {type : txnouttype} (h : type.undelayed = .TX_SCRIPTHASH) :
    type = .TX_SCRIPTHASH ∨ type = .TX_DELAYEDSCRIPTHASH := by
  cases type <;> simp [txnouttype.undelayed] at h ⊢

/-- The classifications differ exactly for hashes in a longer form. -/
theorem classifiesAlike_iff (s : CScript) : ClassifiesAlike s ↔ ¬ LongHashScript s := by
  unfold ClassifiesAlike
  rw [isPayToScriptHash_iff]
  constructor
  · rintro hiff ⟨opcode, hash, push, hinstr, hlen, hop, rfl⟩
    have hsolver := solver_scriptHash_iff.mpr ⟨opcode, hash, push, hinstr, hlen, rfl, rfl⟩
    rcases hiff.mp ⟨_, _, hsolver, rfl⟩ with ⟨hash', hlen', heq⟩ | ⟨sols, hdelayed⟩
    · exact not_longHashScript hlen' ⟨opcode, hash, push, hinstr, hlen, hop, heq.symm⟩
    · rw [hsolver] at hdelayed
      cases hdelayed
  · intro hshort
    constructor
    · rintro ⟨type, sols, hsolver, hkind⟩
      rcases undelayed_eq_scriptHash hkind with rfl | rfl
      · obtain ⟨opcode, hash, push, hinstr, hlen, rfl, rfl⟩ := solver_scriptHash_iff.mp hsolver
        have hop : opcode < OP_PUSHDATA1 := by
          by_contra hlong
          exact hshort ⟨opcode, hash, push, hinstr, hlen, Nat.le_of_not_lt hlong, rfl⟩
        exact .inl ⟨hash, hlen, by rw [direct_hash hinstr hlen hop]⟩
      · exact .inr ⟨sols, hsolver⟩
    · rintro (⟨hash, hlen, rfl⟩ | ⟨sols, hsolver⟩)
      · exact ⟨.TX_SCRIPTHASH, [hash],
          solver_scriptHash_iff.mpr ⟨20, hash, _, instruction_hash hlen, hlen, rfl, rfl⟩, rfl⟩
      · exact ⟨_, sols, hsolver, rfl⟩

/-- A script hash of the evaluation is spent through its redeem script. -/
theorem redeem_of_verifyScript {ctx : ScriptContext} {scriptSig s : CScript}
    (hP2SH : ctx.flags.P2SH = true) (hhash : s.IsPayToScriptHash = true)
    (h : VerifyScript ctx scriptSig s = .ok true) :
    ∃ pubKeySerialized stack out, EvalScript ctx [] scriptSig = some (pubKeySerialized :: stack) ∧
      EvalScript ctx stack pubKeySerialized = some out ∧ topIsTrue out = true := by
  obtain ⟨stackCopy, -, hsig, -, -, hredeem⟩ := verifyScript_iff.mp h
  obtain ⟨-, pubKeySerialized, rest, out, rfl, hout, htop⟩ := hredeem hP2SH hhash
  exact ⟨pubKeySerialized, rest, out, hsig, hout, htop⟩

/-- **The solver and the evaluation agree on script hashes** exactly apart from hashes
that are pushed in a longer form than needed: what the solver takes for a script hash is
then evaluated as one, and is spent only through its redeem script. -/
theorem scriptHash_agrees_iff (s : CScript) :
    ClassifiesAlike s ∧ SpentThroughRedeem s ↔ ¬ LongHashScript s := by
  rw [classifiesAlike_iff]
  refine and_iff_left_of_imp fun hshort ctx scriptSig hP2SH hsolver hverify => ?_
  exact redeem_of_verifyScript hP2SH (((classifiesAlike_iff s).mpr hshort).mp hsolver) hverify

/-- The hash of twenty zeros, pushed with `OP_PUSHDATA1`. -/
theorem longHashScript_disagrees :
    ¬ ∀ s : CScript, ClassifiesAlike s ∧ SpentThroughRedeem s := by
  intro h
  have hlong : LongHashScript (hashScript (0x4c :: 0x14 :: List.replicate 20 0)) :=
    ⟨OP_PUSHDATA1, List.replicate 20 0, _, .sized (.inl ⟨rfl, rfl⟩) (by decide), rfl, le_rfl, rfl⟩
  exact (classifiesAlike_iff _).mp (h _).1 hlong

end Ziftrcoin.Spec
