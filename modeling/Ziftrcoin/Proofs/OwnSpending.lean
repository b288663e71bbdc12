/-
Module: Ziftrcoin.Proofs.OwnSpending
Purpose: Which of the wallet's own scripts it can sign for: all but those with a
  delayed multisig script, a script hash behind a script hash, or a delay in a redeem
  script that the script itself does not put into effect.
Trusted boundary: none
Main exports: KeysOwned, mine_signed_iff
-/
import Ziftrcoin.Proofs.OwnSignatures
import Ziftrcoin.Proofs.Signing

namespace Ziftrcoin.Spec

/-! ### Own scripts -/

/-- The keys of a script with such solutions, without the delay, are all there. -/
def KeysOwned (crypto : Crypto) (keystore : CKeyStore) (type : txnouttype)
    (sols : List valtype) : Prop :=
  match type.undelayed with
  | .TX_PUBKEY => keystore.HaveKey (keyIDOf crypto (sols.headD [])) = true
  | .TX_PUBKEYHASH => keystore.HaveKey (sols.headD []) = true
  | .TX_MULTISIG =>
      ∀ key ∈ (sols.drop 1).dropLast, keystore.HaveKey (keyIDOf crypto key) = true
  | _ => False

section Scripts

variable {crypto : Crypto} {keystore : CKeyStore} {hash : uint256} {type : txnouttype}
  {r s script pc : CScript} {sols : List valtype} {ctx : ScriptContext}

theorem keysOwned_of_isMine {fuel : ℕ} (hmine : IsMine crypto keystore fuel s = some true)
    (hsolver : Solver s = some (type, sols)) (hplain : type.undelayed ≠ .TX_SCRIPTHASH) :
    KeysOwned crypto keystore type (undelayedSolutions type sols) := by
  cases fuel with
  | zero => cases hmine
  | succ fuel =>
      unfold IsMine at hmine
      simp only [hsolver] at hmine
      unfold KeysOwned
      cases htype : type.undelayed <;> simp only [htype] at hmine hplain ⊢
      case TX_PUBKEY => exact Option.some.inj hmine
      case TX_PUBKEYHASH => exact Option.some.inj hmine
      case TX_SCRIPTHASH => exact absurd rfl hplain
      case TX_MULTISIG =>
        have hall := beq_iff_eq.mp (Option.some.inj hmine)
        exact List.countP_eq_length.mp hall
      all_goals cases Option.some.inj hmine

/-- An own script hash has its redeem script in the key store, and that is an own script. -/
theorem redeem_of_isMine {fuel : ℕ} (hmine : IsMine crypto keystore fuel s = some true)
    (hsolver : Solver s = some (type, sols)) (htype : type.undelayed = .TX_SCRIPTHASH) :
    ∃ subscript subtype subsols,
      keystore.GetCScript ((undelayedSolutions type sols).headD []) = some subscript ∧
        Solver subscript = some (subtype, subsols) ∧
        (subtype.undelayed ≠ .TX_SCRIPTHASH →
          KeysOwned crypto keystore subtype (undelayedSolutions subtype subsols)) := by
  cases fuel with
  | zero => cases hmine
  | succ fuel =>
      unfold IsMine at hmine
      simp only [hsolver, htype] at hmine
      cases hscript : keystore.GetCScript ((undelayedSolutions type sols).headD []) with
      | none =>
          simp only [hscript, Option.some.injEq, Bool.false_eq_true] at hmine
      | some subscript =>
          simp only [hscript] at hmine
          cases hsub : Solver subscript with
          | none =>
              cases fuel with
              | zero => cases hmine
              | succ fuel => simp [IsMine, hsub] at hmine
          | some solved =>
              obtain ⟨subtype, subsols⟩ := solved
              exact ⟨subscript, subtype, subsols, rfl, hsub, keysOwned_of_isMine hmine hsub⟩

theorem KeysOwned.baseType (h : KeysOwned crypto keystore type sols) :
    type.undelayed = .TX_PUBKEY ∨ type.undelayed = .TX_PUBKEYHASH ∨
      type.undelayed = .TX_MULTISIG := by
  unfold KeysOwned at h
  cases htype : type.undelayed <;> simp only [htype] at h <;> simp

/-- A solved script is a template, or one behind a delay. -/
theorem solver_shape (hsolver : Solver r = some (type, sols)) (hnull : type ≠ .TX_NULL_DATA) :
    (type.undelayed = .TX_MULTISIG → multisigOk type sols = true) ∧
      ((type.isDelayed = false ∧ type.undelayed = type ∧ undelayedSolutions type sols = sols ∧
          MatchesTemplate (baseTemplate type.undelayed) r sols) ∨
        (type.isDelayed = true ∧ ∃ p script, p.length ≤ 5 ∧ r = delayedBy p script ∧
          sols = p :: undelayedSolutions type sols ∧
          MatchesTemplate (baseTemplate type.undelayed) script
            (undelayedSolutions type sols))) := by
  obtain ⟨tplate, hmem, hmatch, hok⟩ := (solver_iff hnull).mp hsolver
  refine ⟨hok, ?_⟩
  cases hdelayed : type.isDelayed with
  | false =>
      have htemplate := mTemplates_eq hmem hnull
      simp only [hdelayed, Bool.false_eq_true, if_false, List.nil_append] at htemplate
      have hself := (mem_mTemplates_plain _ hmem hnull).2.2 hdelayed
      refine .inl ⟨rfl, hself, if_neg (by simp [hdelayed]), ?_⟩
      rw [← htemplate]
      exact hmatch
  | true =>
      obtain ⟨p, script, more, hp, rfl, hmore, rfl⟩ := (delayed_shape hmem hdelayed).mp hmatch
      have hmore' : undelayedSolutions type (p :: more) = more := if_pos hdelayed
      exact .inr ⟨rfl, p, script, hp, rfl, by rw [hmore'], by rw [hmore']; exact hmore⟩

theorem getDelay_plain (hsolver : Solver r = some (type, sols)) (hplain : type.isDelayed = false) :
    r.GetDelay = none := by
  unfold CScript.GetDelay
  simp [hsolver, hplain]

theorem getDelay_delayed {p : valtype} {more : List valtype}
    (hsolver : Solver r = some (type, p :: more)) (hdelayed : type.isDelayed = true)
    (hp : p.length ≤ 5) :
    ∃ d, CScriptNum.ofVch p 5 = some d ∧ r.GetDelay = some d := by
  refine ⟨CScriptNum.setVch p, if_neg (by omega), ?_⟩
  unfold CScript.GetDelay
  simp only [hsolver, hdelayed, if_true, List.headD_cons]
  exact if_neg (by omega)

theorem smallData_not_mem (type : txnouttype) : OP_SMALLDATA ∉ baseTemplate type := by
  cases type <;> decide

theorem pushesOnly_template (hmatch : MatchesTemplate (baseTemplate type) script sols) :
    PushesOnly script sols := by
  intro op hmem
  refine (matchesTemplate_data hmatch (smallData_not_mem type) op hmem).imp_left fun hnil => ?_
  rw [hnil]
  exact Nat.zero_le _

theorem pushesOnly_delayedBy {p : valtype} (hp : p.length ≤ 5) (h : PushesOnly script sols) :
    PushesOnly (delayedBy p script) sols := by
  unfold PushesOnly
  rw [ops_of_getOp (getOp_delayedBy hp script), ops_of_getOp (getOp_lockTimeCheck script)]
  intro op hmem
  rcases List.mem_cons.mp hmem with rfl | hmem
  · exact .inl hp
  rcases List.mem_cons.mp hmem with rfl | hmem
  · exact .inl (Nat.zero_le _)
  · exact h op hmem

theorem KeysOwned.ne_nullData (h : KeysOwned crypto keystore type sols) :
    type ≠ .TX_NULL_DATA := by
  rintro rfl
  exact h

theorem pushedSize_le {items : List valtype} {bound : ℕ}
    (h : ∀ item ∈ items, item.length ≤ bound) :
    pushedSize items ≤ items.length * (bound + 5) := by
  induction items with
  | nil => exact Nat.zero_le _
  | cons item items ih =>
      have hitem := h item List.mem_cons_self
      have hrest := ih fun item hmem => h item (List.mem_cons_of_mem _ hmem)
      simp only [pushedSize, List.map_cons, List.sum_cons, List.length_cons,
        Nat.succ_mul] at hrest ⊢
      omega

/-- Solutions of own keys are short. -/
theorem KeysOwned.pushedSize_le (hkeys : OwnKeys crypto keystore)
    (hmatch : MatchesTemplate (baseTemplate type.undelayed) script sols)
    (h : KeysOwned crypto keystore type sols) (hcount : sols.length ≤ 19) :
    pushedSize sols ≤ 1400 := by
  have hall : ∀ item ∈ sols, item.length ≤ 65 := by
    rcases h.baseType with htype | htype | htype
    · rw [htype] at hmatch
      obtain ⟨vchPubKey, rfl⟩ := pubKey_shape hmatch
      unfold KeysOwned at h
      simp only [htype] at h
      intro item hitem
      rw [List.mem_singleton.mp hitem]
      exact (canonicalPubKey_shape (hkeys.key h).2).2.1
    · rw [htype] at hmatch
      obtain ⟨keyID, hlen, rfl⟩ := pubKeyHash_shape hmatch
      intro item hitem
      rw [List.mem_singleton.mp hitem]
      omega
    · rw [htype] at hmatch
      obtain ⟨m, n, keys, -, rfl⟩ := multisig_shape hmatch
      unfold KeysOwned at h
      simp only [htype, List.cons_append, List.drop_one, List.tail_cons,
        List.dropLast_concat] at h
      intro item hitem
      simp only [List.cons_append, List.mem_cons, List.mem_append, List.not_mem_nil,
        or_false] at hitem
      rcases hitem with rfl | hkey | rfl
      · simp
      · exact (canonicalPubKey_shape (hkeys.key (h item hkey)).2).2.1
      · simp
  have hle := Spec.pushedSize_le hall
  omega

/-! ### Opening own scripts -/

/-- A template with own keys, and what the key store makes for it. -/
theorem OwnKeys.opens (hkeys : OwnKeys crypto keystore)
    (hmatch : MatchesTemplate (baseTemplate type.undelayed) pc sols)
    (hcounted : type.undelayed = .TX_MULTISIG → multisigOk .TX_MULTISIG sols = true)
    (howned : KeysOwned crypto keystore type sols) (hash : uint256) :
    ∃ items, solveType crypto keystore type sols hash SIGHASH_ALL = some (pushAll items) ∧
      SmallItems items ∧ Opens crypto hash items pc sols ∧ sols.length ≤ 18 := by
  have hmine := howned
  unfold KeysOwned at hmine
  rcases howned.baseType with htype | htype | htype
  · rw [htype] at hmatch
    simp only [htype] at hmine
    obtain ⟨items, hsolve, hsmall, hopens⟩ := @OwnKeys.opens_pubKey _ _ hash _ _ _ hkeys htype
      hmatch hmine
    obtain ⟨vchPubKey, rfl⟩ := pubKey_shape hmatch
    exact ⟨items, hsolve, hsmall, hopens, by simp⟩
  · rw [htype] at hmatch
    simp only [htype] at hmine
    obtain ⟨items, hsolve, hsmall, hopens⟩ := @OwnKeys.opens_pubKeyHash _ _ hash _ _ _ hkeys htype
      hmatch hmine
    obtain ⟨keyID, -, rfl⟩ := pubKeyHash_shape hmatch
    exact ⟨items, hsolve, hsmall, hopens, by simp⟩
  · have hok := hcounted htype
    rw [htype] at hmatch
    simp only [htype] at hmine
    obtain ⟨m, n, keys, hscript, rfl⟩ := multisig_shape hmatch
    obtain ⟨-, hle, rfl⟩ := (multisigOk_plain hscript.2.1 hscript.2.2 keys).mp hok
    have hkeysEq : (([UInt8.ofNat m] :: keys ++ [[UInt8.ofNat keys.length]]).drop 1).dropLast =
        keys := by
      rw [List.cons_append, List.drop_one, List.tail_cons, List.dropLast_concat]
    rw [hkeysEq] at hmine
    obtain ⟨items, hsolve, hsmall, hopens⟩ := @OwnKeys.opens_multisig _ _ hash _ _ hkeys m keys
      htype hscript hle hmine
    have hk := hscript.2.2
    refine ⟨items, hsolve, hsmall, hopens, ?_⟩
    simp only [List.length_append, List.length_cons, List.length_nil]
    omega

/-- A script of own keys, apart from a delayed multisig one, is solved, and the items open
it once its delay has passed. -/
theorem evalScript_own (hkeys : OwnKeys crypto keystore)
    (hsolver : Solver r = some (type, sols))
    (howned : KeysOwned crypto keystore type (undelayedSolutions type sols))
    (hcounted : type ≠ .TX_DELAYEDMULTISIG) (hash : uint256) :
    ∃ items, solveType crypto keystore type (undelayedSolutions type sols) hash SIGHASH_ALL =
        some (pushAll items) ∧ SmallItems items ∧
      ∀ ctx : ScriptContext, ctx.crypto = crypto → ctx.flags = SCRIPT_VERIFY_P2SH_STRICTENC →
        SignatureHash crypto r ctx.txTo ctx.nIn SIGHASH_ALL = hash →
        (∀ d, r.GetDelay = some d → LockPasses ctx d) →
        EvalScript ctx items.reverse r = some [vchTrue] := by
  have htemplate : (baseTemplate type.undelayed).length ≤ 5 := by
    cases type <;> decide
  obtain ⟨hok, ⟨hplain, hself, hsols, hmatch⟩ | ⟨hdelayed, p, script, hp, rfl, hsols, hmatch⟩⟩ :=
    solver_shape hsolver howned.ne_nullData
  · have hmulti : type.undelayed = .TX_MULTISIG → multisigOk .TX_MULTISIG sols = true := by
      intro htype
      have hok' := hok htype
      rwa [← hself, htype] at hok'
    rw [hsols] at howned ⊢
    obtain ⟨items, hsolve, hsmall, hopens, hfew⟩ := hkeys.opens hmatch hmulti howned hash
    refine ⟨items, hsolve, hsmall, ?_⟩
    rintro ctx rfl hflags hhash -
    obtain ⟨n', hruns⟩ := hopens ctx r 0 rfl hflags hhash (Nat.zero_le _)
      (pushesOnly_template hmatch)
    refine evalScript_of_runsTo ?_ hruns
    have hlen := matchesTemplate_length hmatch (smallData_not_mem _)
    have hsize := howned.pushedSize_le hkeys hmatch (by omega)
    omega
  · have hmulti : type.undelayed = .TX_MULTISIG →
        multisigOk .TX_MULTISIG (undelayedSolutions type sols) = true := by
      intro htype
      exact absurd (@undelayed_injective type .TX_DELAYEDMULTISIG htype hdelayed) hcounted
    obtain ⟨items, hsolve, hsmall, hopens, hfew⟩ := hkeys.opens hmatch hmulti howned hash
    refine ⟨items, hsolve, hsmall, ?_⟩
    rintro ctx rfl hflags hhash hdelay
    rw [hsols] at hsolver
    obtain ⟨d, hd, hget⟩ := getDelay_delayed hsolver hdelayed hp
    obtain ⟨n', hruns⟩ := hopens ctx (delayedBy p script) 1 rfl hflags hhash (by decide)
      (pushesOnly_delayedBy hp (pushesOnly_template hmatch))
    have hroom : items.reverse.length < 1000 := by
      rw [List.length_reverse]
      exact hsmall.count.trans_lt (by decide)
    refine evalScript_of_runsTo ?_
      ((runsTo_delay hp hd (hdelay d hget) hroom (by decide)).trans hruns)
    have hlen := matchesTemplate_length hmatch (smallData_not_mem _)
    have hsize := howned.pushedSize_le hkeys hmatch (by omega)
    simp only [delayedBy, List.length_cons, List.length_append]
    omega

/-- The number of signatures is no number. -/
theorem execCheckMultiSig_noNumber {number top : valtype} {under rest : List valtype} {k n : ℕ}
    (hnumber : scriptNum number = some (k : ℤ)) (hk : k ≤ 16)
    (hdrop : under.drop k = top :: rest) (htop : scriptNum top = none) :
    execCheckMultiSig ctx OP_CHECKMULTISIG (standing pc script (number :: under) n) = none := by
  have hget : CScriptNum.getint (k : ℤ) = k := getint_of_le (by omega)
  simp only [execCheckMultiSig, standing, hnumber, Option.bind_some, hget, Int.toNat_natCast,
    hdrop, htop, Option.bind_none, ite_self]

/-- A delayed multisig script of own keys is solved if it asks for no more signatures than
it has keys, and the items do not open it: the number of keys that it pushes makes the
check take a signature for the number of signatures. -/
theorem evalScript_miscounted (hkeys : OwnKeys crypto keystore)
    (hsolver : Solver r = some (.TX_DELAYEDMULTISIG, sols))
    (howned : KeysOwned crypto keystore .TX_DELAYEDMULTISIG
      (undelayedSolutions .TX_DELAYEDMULTISIG sols)) (hash : uint256) :
    (if ((sols.getD 1 []).headD 0).toNat + 3 ≤ sols.length then
      ∃ items, solveType crypto keystore .TX_DELAYEDMULTISIG
          (undelayedSolutions .TX_DELAYEDMULTISIG sols) hash SIGHASH_ALL =
            some (pushAll items) ∧ SmallItems items ∧
        ∀ ctx : ScriptContext, EvalScript ctx items.reverse r = none
    else solveType crypto keystore .TX_DELAYEDMULTISIG
      (undelayedSolutions .TX_DELAYEDMULTISIG sols) hash SIGHASH_ALL = none) := by
  obtain ⟨hok, ⟨hplain, -⟩ | ⟨hdelayed, p, script, hp, rfl, hsols, hmatch⟩⟩ :=
    solver_shape hsolver (by decide)
  · cases hplain
  generalize hmore : undelayedSolutions .TX_DELAYEDMULTISIG sols = more at hsols hmatch howned ⊢
  obtain ⟨m, k, keys, hscript, rfl⟩ := multisig_shape hmatch
  subst hsols
  obtain ⟨hpos, hle, hk⟩ :=
    (multisigOk_delayed hscript.2.1 hscript.2.2 p keys).mp (hok rfl)
  have hmine : ∀ key ∈ keys, keystore.HaveKey (keyIDOf crypto key) = true := by
    have hall := howned
    simpa only [KeysOwned, txnouttype.undelayed, List.cons_append, List.drop_one, List.tail_cons,
      List.dropLast_concat] using hall
  obtain ⟨sigs, hsigs, hsign⟩ :=
    @OwnKeys.signN crypto keystore hash hkeys m k keys hscript.2.1 hmine
  have hlen : sigs.length = min m keys.length := by
    rw [hsigs.length_eq, List.length_take]
  have hrequired : (((p :: ([UInt8.ofNat m] :: keys ++ [[UInt8.ofNat k]])).getD 1 []).headD
      0).toNat = m := headD_byte hscript.2.1
  have hcount : (p :: ([UInt8.ofNat m] :: keys ++ [[UInt8.ofNat k]])).length =
      keys.length + 3 := by simp
  rw [hrequired, hcount]
  have hsolve : solveType crypto keystore .TX_DELAYEDMULTISIG
      ([UInt8.ofNat m] :: keys ++ [[UInt8.ofNat k]]) hash SIGHASH_ALL =
        if sigs.length = m then some (pushAll ([] :: sigs)) else none := by
    rw [← hsign]
    rfl
  rw [hsolve]
  split_ifs with henough hfull hfull
  · have hgood := goodSigs_canonical hsigs
    have hfewSigs : sigs.length ≤ 16 := hfull ▸ hscript.2.1
    refine ⟨[] :: sigs, rfl, smallItems_sigs hsigs hfewSigs, fun ctx => ?_⟩
    have hd : CScriptNum.ofVch p 5 = some (CScriptNum.setVch p) := if_neg (by omega)
    have hroom : ([] :: sigs).reverse.length ≤ 17 := by
      have := hscript.2.1
      rw [List.length_reverse, List.length_cons]
      omega
    by_cases hpasses : LockPasses ctx (CScriptNum.setVch p)
    swap
    · exact evalScript_delay_fails hp hd hpasses (by omega)
    have hfew := hscript.2.2
    obtain ⟨number, count, hnumber, -, hruns⟩ := @runsTo_multisig ctx script
      (delayedBy p script) ([] :: sigs).reverse 1 m k keys hscript (by omega)
    refine evalScript_none_of_runsTo
      ((runsTo_delay hp hd hpasses (by omega) (by decide)).trans hruns) (List.cons_ne_nil _ _) ?_
    rw [evalStep_op (getOp_byte (by decide) (by decide)) (by decide) (by decide) (by decide),
      execOp_checkMultiSig]
    obtain ⟨top, rest, htop⟩ : ∃ top rest, sigs.reverse = top :: rest := by
      refine List.exists_cons_of_ne_nil fun hnil => ?_
      have hzero := congrArg List.length hnil
      rw [List.length_reverse, List.length_nil] at hzero
      omega
    have hdrop : (keys.reverse ++ count :: ([] :: sigs).reverse).drop k =
        top :: (rest ++ [[]]) := by
      have hkeysLen : keys.reverse.length = keys.length := List.length_reverse
      rw [← hk, ← List.drop_drop, List.drop_left' hkeysLen, List.reverse_cons, htop]
      rfl
    have hnone : scriptNum top = none := by
      obtain ⟨_, hsig⟩ := hgood top (List.mem_reverse.mp (htop ▸ List.mem_cons_self))
      have hlong := (canonicalSignature_shape hsig.canonical).1
      exact if_pos (by omega)
    rw [execCheckMultiSig_noNumber hnumber hfew hdrop hnone, Option.bind_none]
  · omega
  · omega
  · rfl

/-! ### The signature script -/

theorem runsTo_pushAll {code : CScript} {items : List valtype} :
    ∀ {stack : List valtype} {n : ℕ}, (∀ item ∈ items, item.length ≤ MAX_SCRIPT_ELEMENT_SIZE) →
      stack.length + items.length < 1000 →
      RunsTo ctx (standing (pushAll items) code stack n)
        (standing [] code (items.reverse ++ stack) n) := by
  induction items with
  | nil => exact fun _ _ => .refl _ _
  | cons item items ih =>
      intro stack n hsize hroom
      rw [List.length_cons] at hroom
      have hitem := hsize item List.mem_cons_self
      have hlen : item.length < 2 ^ 32 := lt_of_le_of_lt hitem (by decide)
      obtain ⟨opcode, hpush, hop⟩ := getOp_pushData hlen (pushAll items)
      refine (runsTo_push hop hpush hitem (by omega)).trans ?_
      rw [List.reverse_cons, List.append_assoc]
      exact ih (fun item hmem => hsize item (List.mem_cons_of_mem _ hmem))
        (by rw [List.length_cons]; omega)

theorem length_pushAll_le (items : List valtype) : (pushAll items).length ≤ pushedSize items := by
  induction items with
  | nil => exact Nat.zero_le _
  | cons item items ih =>
      have hpush : (pushData item).length ≤ item.length + 5 := by
        unfold pushData
        split_ifs <;> simp only [List.length_append, List.length_cons, leBytes_length] <;> omega
      have hcons : pushAll (item :: items) = pushData item ++ pushAll items := rfl
      rw [hcons, List.length_append]
      simp only [pushedSize, List.map_cons, List.sum_cons] at ih ⊢
      omega

/-- A signature script of pushes leaves them on the stack. -/
theorem evalScript_items {items : List valtype} (hcount : items.length ≤ 18)
    (hsize : ∀ item ∈ items, item.length ≤ MAX_SCRIPT_ELEMENT_SIZE) :
    EvalScript ctx [] (pushAll items) = some items.reverse := by
  have hlen : (pushAll items).length ≤ 10000 := by
    have hle := pushedSize_le hsize
    have hscript := length_pushAll_le items
    simp only [MAX_SCRIPT_ELEMENT_SIZE] at hle
    have hmul : items.length * (520 + 5) ≤ 18 * 525 := Nat.mul_le_mul_right _ hcount
    omega
  have hruns := @runsTo_pushAll ctx (pushAll items) items [] 0 hsize
    (by rw [List.length_nil]; omega)
  rw [List.append_nil] at hruns
  exact evalScript_of_runsTo hlen hruns

theorem isPushOnly_pushAll {items : List valtype}
    (hsize : ∀ item ∈ items, item.length ≤ MAX_SCRIPT_ELEMENT_SIZE) :
    CScript.IsPushOnly (pushAll items) = true := by
  have hops : (ops (pushAll items)).2 = true ∧
      ∀ op ∈ (ops (pushAll items)).1, op.1 ≤ OP_16 := by
    induction items with
    | nil => exact ⟨rfl, fun _ hmem => absurd hmem List.not_mem_nil⟩
    | cons item items ih =>
        have hitem := hsize item List.mem_cons_self
        have hlen : item.length < 2 ^ 32 := lt_of_le_of_lt hitem (by decide)
        obtain ⟨opcode, hpush, hop⟩ := getOp_pushData hlen (pushAll items)
        obtain ⟨hend, hall⟩ := ih fun item hmem => hsize item (List.mem_cons_of_mem _ hmem)
        have hcons : pushAll (item :: items) = pushData item ++ pushAll items := rfl
        rw [hcons, ops_of_getOp hop]
        refine ⟨hend, fun op hmem => ?_⟩
        rcases List.mem_cons.mp hmem with rfl | hmem
        · exact hpush.trans (by decide)
        · exact hall op hmem
  unfold CScript.IsPushOnly
  rw [Bool.and_eq_true, List.all_eq_true]
  exact ⟨hops.1, fun op hmem => decide_eq_true (hops.2 op hmem)⟩

/-! ### The transaction -/

/-- A transaction with one input, as it is before it is signed. -/
structure Unsigned (tx : CTransaction) (txin : CTxIn) : Prop where
  vin : tx.vin = [txin]
  final : txin.nSequence = UINT_MAX
  nLockTime : tx.nLockTime = 0

variable {tx : CTransaction} {txin : CTxIn}

/-- The context in which a signature is tested. -/
def signedContext (crypto : Crypto) (s : CScript) (tx : CTransaction) (scriptSig : CScript) :
    ScriptContext :=
  ⟨crypto, (putDelay s tx 0).setScriptSig 0 scriptSig, 0, SCRIPT_VERIFY_P2SH_STRICTENC⟩

/-- A script without a delay puts no lock time into effect. -/
theorem not_lockPasses (htx : Unsigned tx txin) (hdelay : s.GetDelay = none) (scriptSig : CScript)
    (d : ℤ) : ¬ LockPasses (signedContext crypto s tx scriptSig) d := by
  rintro ⟨txin', hin, hfinal, -⟩
  simp only [signedContext, putDelay_none hdelay, CTransaction.getElem?_setScriptSig, htx.vin,
    List.getElem?_cons_zero, Option.map_some, if_true, Option.some.injEq] at hin
  rw [← hin] at hfinal
  simp [CTxIn.IsFinal, htx.final] at hfinal

/-- The delay of a script is the lock time. -/
theorem lockPasses_iff (htx : Unsigned tx txin) {d₁ : ℤ} (hdelay : s.GetDelay = some d₁)
    (hrange : 0 ≤ d₁ ∧ d₁ ≤ (UINT_MAX : ℤ)) (scriptSig : CScript) (d : ℤ) :
    LockPasses (signedContext crypto s tx scriptSig) d ↔
      0 ≤ d ∧ d ≤ d₁ ∧ (d < LOCKTIME_THRESHOLD ↔ d₁ < LOCKTIME_THRESHOLD) := by
  have hlock : (((putDelay s tx 0).setScriptSig 0 scriptSig).nLockTime : ℤ) = d₁ := by
    have hmax : ¬ (UINT_MAX : ℤ) < d₁ := by omega
    have hneg : ¬ d₁ < 0 := by omega
    have hold : (tx.unsetFinal 0).nLockTime = 0 := htx.nLockTime
    simp only [putDelay, hdelay, CTransaction.setScriptSig, lockTimeOfDelay, if_neg hmax,
      if_neg hneg, hold, Nat.max_zero]
    omega
  have hin : ((putDelay s tx 0).setScriptSig 0 scriptSig).vin[0]? =
      some { txin with scriptSig, nSequence := UINT_MAX - 1 } := by
    rw [CTransaction.getElem?_setScriptSig, getElem?_putDelay, htx.vin]
    simp [delayedSequence, hdelay, htx.final]
  unfold LockPasses
  simp only [signedContext, hin, hlock, Option.some.injEq, exists_eq_left']
  refine and_iff_right ?_
  simp [CTxIn.IsFinal, UINT_MAX]

/-! ### Testing the solution -/

/-- A script that is no script hash is its own test. -/
theorem verifyScript_itself {items : List valtype} {scriptSig : CScript}
    (hplain : s.IsPayToScriptHash = false)
    (hsig : EvalScript ctx [] scriptSig = some items) :
    VerifyScript ctx scriptSig s = .ok true ↔
      ∃ out, EvalScript ctx items s = some out ∧ topIsTrue out = true := by
  rw [verifyScript_iff]
  constructor
  · rintro ⟨stackCopy, out, hsig', hs, htop, -⟩
    rw [hsig, Option.some.injEq] at hsig'
    exact ⟨out, hsig' ▸ hs, htop⟩
  · rintro ⟨out, hs, htop⟩
    refine ⟨items, out, hsig, hs, htop, fun _ hhash => ?_⟩
    rw [hplain] at hhash
    cases hhash

/-- A script hash whose hash fits is tested by its redeem script. -/
theorem verifyScript_throughHash {items : List valtype} {scriptSig subscript : CScript}
    (hP2SH : ctx.flags.P2SH = true) (hhash : s.IsPayToScriptHash = true)
    (hpush : scriptSig.IsPushOnly = true)
    (hsig : EvalScript ctx [] scriptSig = some (subscript :: items))
    (hs : EvalScript ctx (subscript :: items) s = some (vchTrue :: items)) :
    VerifyScript ctx scriptSig s = .ok true ↔
      ∃ out, EvalScript ctx items subscript = some out ∧ topIsTrue out = true := by
  rw [verifyScript_iff]
  constructor
  · rintro ⟨stackCopy, -, hsig', -, -, hredeem⟩
    obtain ⟨-, pubKeySerialized, rest, out, rfl, hout, htop⟩ := hredeem hP2SH hhash
    rw [hsig, Option.some.injEq, List.cons.injEq] at hsig'
    obtain ⟨rfl, rfl⟩ := hsig'
    exact ⟨out, hout, htop⟩
  · rintro ⟨out, hout, htop⟩
    exact ⟨_, _, hsig, hs, rfl, fun _ _ => ⟨hpush, _, _, out, rfl, hout, htop⟩⟩

/-! ### Which own scripts can be signed for -/

/-- A redeem script can be signed for through a script: it is no script hash, it has no
delayed multisig script, and the script puts its delay into effect. -/
structure RedeemSignable (s subscript : CScript) (type : txnouttype) (sols : List valtype) :
    Prop where
  once : type.undelayed ≠ .TX_SCRIPTHASH
  counted : type = .TX_DELAYEDMULTISIG → s.IsPayToScriptHash = false ∧
    ((sols.getD 1 []).headD 0).toNat + 3 ≤ sols.length
  delay : s.IsPayToScriptHash = true → ∀ d, subscript.GetDelay = some d →
    ∃ d₁, s.GetDelay = some d₁ ∧ d ≤ d₁ ∧ (d < LOCKTIME_THRESHOLD ↔ d₁ < LOCKTIME_THRESHOLD)

/-- The wallet can sign for a script of its own. -/
structure Signable (keystore : CKeyStore) (s : CScript) (type : txnouttype)
    (sols : List valtype) : Prop where
  counted : type ≠ .TX_DELAYEDMULTISIG
  redeem : type.undelayed = .TX_SCRIPTHASH → ∀ subscript,
    keystore.GetCScript ((undelayedSolutions type sols).headD []) = some subscript →
    ∀ subtype subsols, Solver subscript = some (subtype, subsols) →
      RedeemSignable s subscript subtype subsols

/-- A delay in the range of a lock time. -/
def DelayInRange (s : CScript) : Prop :=
  ∀ d, s.GetDelay = some d → 0 ≤ d ∧ d ≤ (UINT_MAX : ℤ)

theorem signSignature_iff {scriptSig : CScript}
    (hsolve : solveInput crypto keystore s (putDelay s tx 0) 0 SIGHASH_ALL = some scriptSig) :
    (∃ tx', SignSignature crypto keystore s tx 0 SIGHASH_ALL = .ok (some tx')) ↔
      VerifyScript (signedContext crypto s tx scriptSig) scriptSig s = .ok true := by
  simp only [signSignature_ok, hsolve, Option.some.injEq, exists_eq_left']
  constructor
  · rintro ⟨tx', rfl, hverify⟩
    exact hverify
  · exact fun hverify => ⟨_, rfl, hverify⟩

theorem not_signed_of_unsolved
    (hsolve : solveInput crypto keystore s (putDelay s tx 0) 0 SIGHASH_ALL = none) :
    ¬ ∃ tx', SignSignature crypto keystore s tx 0 SIGHASH_ALL = .ok (some tx') := by
  rintro ⟨tx', hsign⟩
  obtain ⟨scriptSig, hsome, -⟩ := signSignature_ok.mp hsign
  rw [hsolve] at hsome
  cases hsome

/-- The delay of the script itself passes. -/
theorem lockPasses_own (htx : Unsigned tx txin) (hrange : DelayInRange s) (scriptSig : CScript) :
    ∀ d, s.GetDelay = some d → LockPasses (signedContext crypto s tx scriptSig) d := by
  intro d hdelay
  exact (lockPasses_iff htx hdelay (hrange d hdelay) scriptSig d).mpr
    ⟨(hrange d hdelay).1, le_rfl, Iff.rfl⟩

theorem not_payToScriptHash (hsolver : Solver s = some (type, sols))
    (hplain : type.undelayed ≠ .TX_SCRIPTHASH) : s.IsPayToScriptHash = false := by
  rw [Bool.eq_false_iff]
  intro hhash
  rcases isPayToScriptHash_iff.mp hhash with ⟨hash, hlen, rfl⟩ | ⟨sols', hdelayed⟩
  · have hsolved := solver_scriptHash_iff.mpr
      ⟨20, hash, 0x14 :: hash, instruction_hash hlen, hlen, rfl, rfl⟩
    rw [hsolver, Option.some.injEq, Prod.mk.injEq] at hsolved
    rw [hsolved.1] at hplain
    exact hplain rfl
  · rw [hsolver, Option.some.injEq, Prod.mk.injEq] at hdelayed
    rw [hdelayed.1] at hplain
    exact hplain rfl

theorem size_of_small {items : List valtype} (h : SmallItems items) :
    ∀ item ∈ items, item.length ≤ MAX_SCRIPT_ELEMENT_SIZE :=
  fun item hmem => (h.size item hmem).trans (by decide)

/-- A script of own keys. -/
theorem signed_keys_iff (hkeys : OwnKeys crypto keystore) (htx : Unsigned tx txin)
    (hsolver : Solver s = some (type, sols))
    (howned : KeysOwned crypto keystore type (undelayedSolutions type sols))
    (hrange : DelayInRange s) :
    (∃ tx', SignSignature crypto keystore s tx 0 SIGHASH_ALL = .ok (some tx')) ↔
      type ≠ .TX_DELAYEDMULTISIG := by
  have hplain : type.undelayed ≠ .TX_SCRIPTHASH := by
    rcases howned.baseType with htype | htype | htype <;> rw [htype] <;> decide
  have hnohash := not_payToScriptHash hsolver hplain
  have hinput : ∀ scriptSig, solveType crypto keystore type (undelayedSolutions type sols)
      (SignatureHash crypto s (putDelay s tx 0) 0 SIGHASH_ALL) SIGHASH_ALL = scriptSig →
      solveInput crypto keystore s (putDelay s tx 0) 0 SIGHASH_ALL = scriptSig := by
    rintro scriptSig hsolve
    unfold solveInput keyStoreSolver
    simp only [hsolver, hsolve]
    cases scriptSig with
    | none => rfl
    | some scriptSig => simp [hplain]
  have hhash : ∀ scriptSig, SignatureHash crypto s (signedContext crypto s tx scriptSig).txTo
      (signedContext crypto s tx scriptSig).nIn SIGHASH_ALL =
        SignatureHash crypto s (putDelay s tx 0) 0 SIGHASH_ALL :=
    fun scriptSig => signatureHash_setScriptSig crypto s _ 0 scriptSig SIGHASH_ALL
  by_cases hcounted : type = .TX_DELAYEDMULTISIG
  · subst hcounted
    refine iff_of_false ?_ (fun h => h rfl)
    have hcases := evalScript_miscounted hkeys hsolver howned
      (SignatureHash crypto s (putDelay s tx 0) 0 SIGHASH_ALL)
    split_ifs at hcases with henough
    · obtain ⟨items, hsolve, hsmall, hfails⟩ := hcases
      rw [signSignature_iff (hinput _ hsolve), verifyScript_itself hnohash
        (evalScript_items (hsmall.count.trans (by decide)) (size_of_small hsmall))]
      rintro ⟨out, hout, -⟩
      rw [hfails] at hout
      cases hout
    · exact not_signed_of_unsolved (hinput _ hcases)
  · refine iff_of_true ?_ hcounted
    obtain ⟨items, hsolve, hsmall, hopens⟩ := evalScript_own hkeys hsolver howned hcounted
      (SignatureHash crypto s (putDelay s tx 0) 0 SIGHASH_ALL)
    rw [signSignature_iff (hinput _ hsolve), verifyScript_itself hnohash
      (evalScript_items (hsmall.count.trans (by decide)) (size_of_small hsmall))]
    exact ⟨_, hopens _ rfl rfl (hhash _) (lockPasses_own htx hrange _), rfl⟩

/-! ### Script hashes -/

/-- A script hash accepts its redeem script. -/
theorem evalScript_hash {subscript : CScript} {items : List valtype}
    (hsolver : Solver s = some (type, sols)) (htype : type.undelayed = .TX_SCRIPTHASH)
    (hhash : ctx.crypto.Hash160 subscript = (undelayedSolutions type sols).headD [])
    (hdelay : ∀ d, s.GetDelay = some d → LockPasses ctx d) (hroom : items.length ≤ 17) :
    EvalScript ctx (subscript :: items) s = some (vchTrue :: items) := by
  have hnull : type ≠ .TX_NULL_DATA := by
    rintro rfl
    cases htype
  obtain ⟨-, ⟨hplain, -, hsols, hmatch⟩ | ⟨hdelayed, p, script, hp, rfl, hsols, hmatch⟩⟩ :=
    solver_shape hsolver hnull
  · rw [htype] at hmatch
    obtain ⟨opcode, hash, push, hinstr, hlen, rfl, rfl⟩ := matches_hashScript_iff.mp hmatch
    rw [hsols, List.headD_cons] at hhash
    refine evalScript_of_runsTo ?_ (runsTo_hashScript hinstr hlen hhash (by omega) (by decide))
    have hpush := hinstr.length_le
    simp only [hashScript, List.length_cons, List.length_append, List.length_nil]
    omega
  · rw [htype] at hmatch
    obtain ⟨opcode, hash, push, hinstr, hlen, rfl, hsolsEq⟩ := matches_hashScript_iff.mp hmatch
    rw [hsolsEq, List.headD_cons] at hhash
    rw [hsols] at hsolver
    obtain ⟨d, hd, hget⟩ := getDelay_delayed hsolver hdelayed hp
    refine evalScript_of_runsTo ?_
      ((runsTo_delay hp hd (hdelay d hget) (by rw [List.length_cons]; omega) (by decide)).trans
        (runsTo_hashScript hinstr hlen hhash (by omega) (by decide)))
    have hpush := hinstr.length_le
    simp only [delayedBy, hashScript, List.length_cons, List.length_append, List.length_nil]
    omega

/-- A delay that does not pass fails the script. -/
theorem evalScript_own_fails {d : ℤ} {stack : List valtype}
    (hsolver : Solver r = some (type, sols)) (hget : r.GetDelay = some d)
    (hfails : ¬ LockPasses ctx d) (hroom : stack.length ≤ 17) :
    EvalScript ctx stack r = none := by
  have hnull : type ≠ .TX_NULL_DATA := by
    rintro rfl
    rw [getDelay_plain hsolver rfl] at hget
    cases hget
  obtain ⟨-, ⟨hplain, -⟩ | ⟨hdelayed, p, script, hp, rfl, hsols, -⟩⟩ := solver_shape hsolver hnull
  · rw [getDelay_plain hsolver hplain] at hget
    cases hget
  · rw [hsols] at hsolver
    obtain ⟨d', hd, hget'⟩ := getDelay_delayed hsolver hdelayed hp
    rw [hget', Option.some.injEq] at hget
    rw [hget] at hd
    exact evalScript_delay_fails hp hd hfails (by omega)

/-- The signature script through a script hash. -/
theorem solveInput_hash {subscript : CScript} {subtype : txnouttype} {subsols : List valtype}
    (hsolver : Solver s = some (type, sols)) (htype : type.undelayed = .TX_SCRIPTHASH)
    (hscript : keystore.GetCScript ((undelayedSolutions type sols).headD []) = some subscript)
    (hsub : Solver subscript = some (subtype, subsols)) :
    solveInput crypto keystore s (putDelay s tx 0) 0 SIGHASH_ALL =
      if subtype.undelayed = .TX_SCRIPTHASH then none
      else (solveType crypto keystore subtype (undelayedSolutions subtype subsols)
        (SignatureHash crypto subscript (putDelay s tx 0) 0 SIGHASH_ALL) SIGHASH_ALL).map
          fun scriptSig => scriptSig ++ pushData subscript := by
  have houter : ∀ hash, keyStoreSolver crypto keystore s hash SIGHASH_ALL =
      some (subscript, type) := by
    intro hash
    unfold keyStoreSolver
    simp only [hsolver, solveType, htype, hscript]
  unfold solveInput
  simp only [houter, htype, if_true, signatureHash_setScriptSig]
  unfold keyStoreSolver
  simp only [hsub]
  cases solveType crypto keystore subtype (undelayedSolutions subtype subsols)
    (SignatureHash crypto subscript (putDelay s tx 0) 0 SIGHASH_ALL) SIGHASH_ALL with
  | none => simp
  | some scriptSig => rfl

/-- Once the redeem script is solved, it is tested if the script is recognised as a script
hash. -/
theorem signed_hash_tested (htx : Unsigned tx txin) {subscript : CScript}
    {items : List valtype} (hsolver : Solver s = some (type, sols))
    (htype : type.undelayed = .TX_SCRIPTHASH)
    (hid : crypto.Hash160 subscript = (undelayedSolutions type sols).headD [])
    (hsize : subscript.length ≤ MAX_SCRIPT_ELEMENT_SIZE) (hrange : DelayInRange s)
    (hsmall : SmallItems items)
    (hsolved : solveInput crypto keystore s (putDelay s tx 0) 0 SIGHASH_ALL =
      some (pushAll (items ++ [subscript]))) :
    (∃ tx', SignSignature crypto keystore s tx 0 SIGHASH_ALL = .ok (some tx')) ↔
      (s.IsPayToScriptHash = true →
        ∃ out, EvalScript (signedContext crypto s tx (pushAll (items ++ [subscript])))
          items.reverse subscript = some out ∧ topIsTrue out = true) := by
  have hall : ∀ item ∈ items ++ [subscript], item.length ≤ MAX_SCRIPT_ELEMENT_SIZE := by
    intro item hmem
    rcases List.mem_append.mp hmem with hmem | hmem
    · exact size_of_small hsmall item hmem
    · rw [List.mem_singleton.mp hmem]
      exact hsize
  have hcount := hsmall.count
  have hroom : (items ++ [subscript]).length ≤ 18 := by
    rw [List.length_append, List.length_singleton]
    omega
  have hsig : EvalScript (signedContext crypto s tx (pushAll (items ++ [subscript]))) []
      (pushAll (items ++ [subscript])) = some (subscript :: items.reverse) := by
    rw [evalScript_items hroom hall, List.reverse_concat]
  have hs : EvalScript (signedContext crypto s tx (pushAll (items ++ [subscript])))
      (subscript :: items.reverse) s = some (vchTrue :: items.reverse) :=
    evalScript_hash hsolver htype hid (lockPasses_own htx hrange _)
      (by rwa [List.length_reverse])
  rw [signSignature_iff hsolved]
  cases hhash : s.IsPayToScriptHash with
  | false =>
      rw [verifyScript_itself hhash hsig]
      exact iff_of_true ⟨_, hs, rfl⟩ fun h => absurd h Bool.false_ne_true
  | true =>
      rw [verifyScript_throughHash rfl hhash (isPushOnly_pushAll hall) hsig hs]
      exact ⟨fun h _ => h, fun h => h rfl⟩

/-- The delay of a redeem script passes if the script puts it into effect. -/
theorem lockPasses_redeem_iff (htx : Unsigned tx txin) {subscript : CScript}
    (hrange : DelayInRange s) (hsubrange : DelayInRange subscript) (scriptSig : CScript) {d : ℤ}
    (hget : subscript.GetDelay = some d) :
    LockPasses (signedContext crypto s tx scriptSig) d ↔ ∃ d₁, s.GetDelay = some d₁ ∧
      d ≤ d₁ ∧ (d < LOCKTIME_THRESHOLD ↔ d₁ < LOCKTIME_THRESHOLD) := by
  cases hdelay : s.GetDelay with
  | none => simpa using not_lockPasses htx hdelay scriptSig d
  | some d₁ =>
      rw [lockPasses_iff htx hdelay (hrange d₁ hdelay) scriptSig d]
      simp [(hsubrange d hget).1]

/-- A script hash with a redeem script of own keys. -/
theorem signed_hash_iff (hkeys : OwnKeys crypto keystore) (htx : Unsigned tx txin)
    {subscript : CScript} {subtype : txnouttype} {subsols : List valtype}
    (hsolver : Solver s = some (type, sols)) (htype : type.undelayed = .TX_SCRIPTHASH)
    (hscript : keystore.GetCScript ((undelayedSolutions type sols).headD []) = some subscript)
    (hsub : Solver subscript = some (subtype, subsols))
    (howned : subtype.undelayed ≠ .TX_SCRIPTHASH →
      KeysOwned crypto keystore subtype (undelayedSolutions subtype subsols))
    (hrange : DelayInRange s) (hsubrange : DelayInRange subscript) :
    (∃ tx', SignSignature crypto keystore s tx 0 SIGHASH_ALL = .ok (some tx')) ↔
      RedeemSignable s subscript subtype subsols := by
  have hinput := @solveInput_hash crypto keystore type s sols tx subscript subtype subsols hsolver
    htype hscript hsub
  by_cases honce : subtype.undelayed = .TX_SCRIPTHASH
  · rw [if_pos honce] at hinput
    exact iff_of_false (not_signed_of_unsolved hinput) fun h => h.once honce
  rw [if_neg honce] at hinput
  have howned := howned honce
  obtain ⟨hid, hsize⟩ := hkeys.script _ _ hscript
  have hsolved : ∀ items, solveType crypto keystore subtype (undelayedSolutions subtype subsols)
      (SignatureHash crypto subscript (putDelay s tx 0) 0 SIGHASH_ALL) SIGHASH_ALL =
        some (pushAll items) →
      solveInput crypto keystore s (putDelay s tx 0) 0 SIGHASH_ALL =
        some (pushAll (items ++ [subscript])) := by
    intro items hsolve
    rw [hinput, hsolve, Option.map_some, pushAll_append, pushAll_singleton]
  by_cases hcounted : subtype = .TX_DELAYEDMULTISIG
  · subst hcounted
    have hcases := evalScript_miscounted hkeys hsub howned
      (SignatureHash crypto subscript (putDelay s tx 0) 0 SIGHASH_ALL)
    split_ifs at hcases with henough
    · obtain ⟨items, hsolve, hsmall, hfails⟩ := hcases
      rw [signed_hash_tested htx hsolver htype hid hsize hrange hsmall (hsolved items hsolve)]
      constructor
      · intro h
        have hnohash : s.IsPayToScriptHash = false := by
          rw [Bool.eq_false_iff]
          intro hhash
          obtain ⟨out, hout, -⟩ := h hhash
          rw [hfails] at hout
          cases hout
        refine ⟨honce, fun _ => ⟨hnohash, henough⟩, fun hhash => ?_⟩
        rw [hnohash] at hhash
        cases hhash
      · intro h hhash
        rw [(h.counted rfl).1] at hhash
        cases hhash
    · refine iff_of_false (not_signed_of_unsolved ?_) fun h => henough (h.counted rfl).2
      rw [hinput, hcases, Option.map_none]
  · obtain ⟨items, hsolve, hsmall, hopens⟩ := evalScript_own hkeys hsub howned hcounted
      (SignatureHash crypto subscript (putDelay s tx 0) 0 SIGHASH_ALL)
    have hcount : items.reverse.length ≤ 17 := by
      rw [List.length_reverse]
      exact hsmall.count
    rw [signed_hash_tested htx hsolver htype hid hsize hrange hsmall (hsolved items hsolve)]
    constructor
    · intro h
      refine ⟨honce, fun heq => absurd heq hcounted, fun hhash d hget => ?_⟩
      have hpasses : LockPasses (signedContext crypto s tx (pushAll (items ++ [subscript]))) d ↔
          _ := lockPasses_redeem_iff htx hrange hsubrange _ hget
      refine hpasses.mp (by_contra fun hfails => ?_)
      obtain ⟨out, hout, -⟩ := h hhash
      rw [evalScript_own_fails hsub hget hfails hcount] at hout
      cases hout
    · intro h hhash
      refine ⟨_, hopens _ rfl rfl ?_ fun d hget => ?_, rfl⟩
      · exact signatureHash_setScriptSig crypto subscript _ 0 _ SIGHASH_ALL
      · exact (lockPasses_redeem_iff htx hrange hsubrange _ hget).mpr (h.delay hhash d hget)

end Scripts

/-- **The wallet signs for its own scripts** exactly if they are signable: a delayed
multisig script never is, a script hash is if its redeem script is none, has no
delayed multisig script, and has no delay but one that the script hash puts into effect.
A script hash in a longer form is tested by its hash alone. -/
theorem mine_signed_iff {crypto : Crypto} {keystore : CKeyStore} (hkeys : OwnKeys crypto keystore)
    {s : CScript} {type : txnouttype} {sols : List valtype} {tx : CTransaction} {txin : CTxIn}
    (hsolver : Solver s = some (type, sols))
    (hmine : ∃ fuel, IsMine crypto keystore fuel s = some true) (hrange : DelayInRange s)
    (hsubrange : type.undelayed = .TX_SCRIPTHASH → ∀ subscript,
      keystore.GetCScript ((undelayedSolutions type sols).headD []) = some subscript →
        DelayInRange subscript)
    (htx : Unsigned tx txin) :
    (∃ tx', SignSignature crypto keystore s tx 0 SIGHASH_ALL = .ok (some tx')) ↔
      Signable keystore s type sols := by
  obtain ⟨fuel, hmine⟩ := hmine
  by_cases htype : type.undelayed = .TX_SCRIPTHASH
  · have hcounted : type ≠ .TX_DELAYEDMULTISIG := by
      rintro rfl
      cases htype
    obtain ⟨subscript, subtype, subsols, hscript, hsub, howned⟩ :=
      redeem_of_isMine hmine hsolver htype
    rw [signed_hash_iff hkeys htx hsolver htype hscript hsub howned hrange
      (hsubrange htype _ hscript)]
    constructor
    · refine fun hsignable => ⟨hcounted, fun _ subscript' hscript' subtype' subsols' hsub' => ?_⟩
      rw [hscript, Option.some.injEq] at hscript'
      subst hscript'
      rw [hsub, Option.some.injEq, Prod.mk.injEq] at hsub'
      rw [← hsub'.1, ← hsub'.2]
      exact hsignable
    · exact fun hsignable => hsignable.redeem htype _ hscript _ _ hsub
  · have howned := keysOwned_of_isMine hmine hsolver htype
    rw [signed_keys_iff hkeys htx hsolver howned hrange]
    exact ⟨fun hcounted => ⟨hcounted, fun h => absurd h htype⟩, fun h => h.counted⟩

/-! ### A store with one key -/

def oneKey : valtype := 2 :: List.replicate 32 0

/-- `<100> OP_CHECKLOCKTIMEVERIFY OP_DROP <key> OP_CHECKSIG`. -/
def oneKeyLocked : CScript :=
  delayedBy [100] (0x21 :: oneKey ++ [UInt8.ofNat OP_CHECKSIG])

def oneKeySig : valtype := [0x30, 6, 2, 1, 1, 2, 1, 2]

/-- Only the key and its locked script have a hash of their own. -/
def oneKeyCrypto : Crypto where
  Hash bytes := bytes.length
  HashZR5 _ := 0
  Hash160 vch :=
    List.replicate 20 (if vch = oneKey then 1 else if vch = oneKeyLocked then 2 else 3)
  RIPEMD160 _ := []
  SHA1 _ := []
  SHA256 _ := []
  Verify vchPubKey _ vchSig := vchPubKey == oneKey && vchSig == oneKeySig

def oneKeyStore : CKeyStore where
  GetPubKey keyID := if keyID = List.replicate 20 1 then some oneKey else none
  Sign _ keyID _ := if keyID = List.replicate 20 1 then some oneKeySig else none
  GetCScript scriptID := if scriptID = List.replicate 20 2 then some oneKeyLocked else none

theorem oneKeyStore_owns : OwnKeys oneKeyCrypto oneKeyStore where
  pubKey := by
    intro keyID vchPubKey hget
    simp only [oneKeyStore, Option.ite_none_right_eq_some, Option.some.injEq] at hget
    obtain ⟨rfl, rfl⟩ := hget
    exact ⟨by decide, by decide⟩
  unique := by
    intro keyID vchPubKey vch hget hhash
    simp only [oneKeyStore, Option.ite_none_right_eq_some, Option.some.injEq] at hget
    obtain ⟨rfl, rfl⟩ := hget
    by_contra hother
    simp only [oneKeyCrypto, if_neg hother] at hhash
    split_ifs at hhash <;> exact absurd hhash (by decide)
  sign := by
    intro keyID vchPubKey attempt hash hget
    simp only [oneKeyStore, Option.ite_none_right_eq_some, Option.some.injEq] at hget
    obtain ⟨rfl, rfl⟩ := hget
    refine ⟨oneKeySig, ?_, by decide, ?_, by decide⟩
    · simp [oneKeyStore]
    · simp [oneKeyCrypto]
  script := by
    intro scriptID subscript hget
    simp only [oneKeyStore, Option.ite_none_right_eq_some, Option.some.injEq] at hget
    obtain ⟨rfl, rfl⟩ := hget
    exact ⟨by decide, by decide⟩

theorem solver_oneKeyLocked :
    Solver oneKeyLocked = some (.TX_DELAYEDPUBKEY, [[100], oneKey]) := by
  decide

/-- A transaction that is not signed yet. -/
def oneInput : CTransaction :=
  { nVersion := 1, vin := [⟨⟨1, 0⟩, [], UINT_MAX⟩], vout := [], nLockTime := 0 }

theorem oneInput_unsigned : Unsigned oneInput ⟨⟨1, 0⟩, [], UINT_MAX⟩ := ⟨rfl, rfl, rfl⟩

theorem getDelay_oneKeyLocked : oneKeyLocked.GetDelay = some 100 := by
  decide

theorem getCScript_oneKeyStore {scriptID : CScriptID} {subscript : CScript}
    (h : oneKeyStore.GetCScript scriptID = some subscript) : subscript = oneKeyLocked := by
  simp only [oneKeyStore, Option.ite_none_right_eq_some, Option.some.injEq] at h
  exact h.2.symm

theorem isMine_oneKeyLocked : IsMine oneKeyCrypto oneKeyStore 1 oneKeyLocked = some true := by
  decide

/-- Not every own script is signed for: a script hash does not put the delay of its redeem
script into effect. -/
theorem hashed_delay_not_signed :
    ¬ ∀ (crypto : Crypto) (keystore : CKeyStore), OwnKeys crypto keystore →
      ∀ (s : CScript) (type : txnouttype) (sols : List valtype) (tx : CTransaction)
        (txin : CTxIn), Solver s = some (type, sols) →
        (∃ fuel, IsMine crypto keystore fuel s = some true) → DelayInRange s →
        (type.undelayed = .TX_SCRIPTHASH → ∀ subscript,
          keystore.GetCScript ((undelayedSolutions type sols).headD []) = some subscript →
            DelayInRange subscript) →
        Unsigned tx txin →
        ∃ tx', SignSignature crypto keystore s tx 0 SIGHASH_ALL = .ok (some tx') := by
  intro h
  have hsolver : Solver (hashScript (0x14 :: List.replicate 20 2)) =
      some (.TX_SCRIPTHASH, [List.replicate 20 2]) := by decide
  have hrange : DelayInRange (hashScript (0x14 :: List.replicate 20 2)) := by
    intro d hdelay
    rw [getDelay_plain hsolver rfl] at hdelay
    cases hdelay
  have hsubrange : DelayInRange oneKeyLocked := by
    intro d hdelay
    rw [getDelay_oneKeyLocked, Option.some.injEq] at hdelay
    subst hdelay
    decide
  have hsigned := h _ _ oneKeyStore_owns _ _ _ _ _ hsolver ⟨2, by decide⟩ hrange
    (fun _ subscript hscript => getCScript_oneKeyStore hscript ▸ hsubrange) oneInput_unsigned
  have hsignable := (signed_hash_iff oneKeyStore_owns oneInput_unsigned hsolver rfl rfl
    solver_oneKeyLocked (fun _ => keysOwned_of_isMine isMine_oneKeyLocked solver_oneKeyLocked
      (by decide)) hrange hsubrange).mp hsigned
  obtain ⟨d₁, hdelay, -⟩ := hsignable.delay (by decide) 100 getDelay_oneKeyLocked
  rw [getDelay_plain hsolver rfl] at hdelay
  cases hdelay

/-- `<200> OP_CHECKLOCKTIMEVERIFY OP_DROP OP_HASH160 <hash> OP_EQUAL`. -/
def oneKeyHashed : CScript :=
  delayedBy [0xc8, 0] (hashScript (0x14 :: List.replicate 20 2))

/-- Behind a delay that is no shorter, the script hash is signed for. -/
theorem hashed_delay_signed :
    ∃ tx', SignSignature oneKeyCrypto oneKeyStore oneKeyHashed oneInput 0 SIGHASH_ALL =
      .ok (some tx') := by
  have hsolver : Solver oneKeyHashed =
      some (.TX_DELAYEDSCRIPTHASH, [[0xc8, 0], List.replicate 20 2]) := by decide
  have hdelay : oneKeyHashed.GetDelay = some 200 := by decide
  refine (mine_signed_iff oneKeyStore_owns hsolver ⟨2, by decide⟩ ?_ ?_ oneInput_unsigned).mpr
    ⟨by decide, fun _ subscript hscript subtype subsols hsub => ?_⟩
  · intro d hget
    rw [hdelay, Option.some.injEq] at hget
    subst hget
    decide
  · intro _ subscript hscript d hget
    rw [getCScript_oneKeyStore hscript, getDelay_oneKeyLocked, Option.some.injEq] at hget
    subst hget
    decide
  · rw [getCScript_oneKeyStore hscript] at hsub ⊢
    rw [solver_oneKeyLocked, Option.some.injEq, Prod.mk.injEq] at hsub
    obtain ⟨rfl, rfl⟩ := hsub
    refine ⟨by decide, fun h => absurd h (by decide), fun _ d hget => ⟨200, hdelay, ?_⟩⟩
    rw [getDelay_oneKeyLocked, Option.some.injEq] at hget
    subst hget
    decide

end Ziftrcoin.Spec
