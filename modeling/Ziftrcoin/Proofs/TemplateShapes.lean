/-
Module: Ziftrcoin.Proofs.TemplateShapes
Purpose: The scripts that match a template, as a relation: one rule for each kind of
  template instruction.  A script matches one template at most, so the solver finds
  exactly the matching one, and a delayed template is a push, a lock time check and a
  plain template.
Trusted boundary: none
Main exports: MatchesTemplate, matchesTemplate_delayed_iff
-/
import Ziftrcoin.Proofs.Refusals

namespace Ziftrcoin.Spec

/-! ### The matcher as a relation -/

/-- The script matches the template with these solutions. -/
inductive MatchesTemplate : List ℕ → CScript → List valtype → Prop where
  | nil : MatchesTemplate [] [] []
  | cons {opcode2 opcode : ℕ} {pc2 : List ℕ} {pc rest : CScript} {vch : valtype}
      {found sols : List valtype} (hkeys : opcode2 ≠ OP_PUBKEYS)
      (hop : getOp pc = some (opcode, vch, rest))
      (hfound : matchTemplateOp opcode2 opcode vch = some found)
      (more : MatchesTemplate pc2 rest sols) :
      MatchesTemplate (opcode2 :: pc2) pc (found ++ sols)
  | keys {opcode : ℕ} {pc2 : List ℕ} {pc next rest : CScript} {vch : valtype}
      {keys sols : List valtype} (hreads : ReadsKeys pc keys next)
      (hop : getOp next = some (opcode, vch, rest))
      (hnumber : opcode = OP_0 ∨ OP_1 ≤ opcode ∧ opcode ≤ OP_16)
      (more : MatchesTemplate pc2 rest sols) :
      MatchesTemplate (OP_PUBKEYS :: OP_SMALLINTEGER :: pc2) pc
        (keys ++ [UInt8.ofNat (DecodeOP_N opcode)] :: sols)

/-- Keys of a template are followed by their number. -/
def KeysCounted (tplate : List ℕ) : Prop :=
  tplate.IsChain fun opcode2 next => opcode2 = OP_PUBKEYS → next = OP_SMALLINTEGER

instance (tplate : List ℕ) : Decidable (KeysCounted tplate) :=
  inferInstanceAs (Decidable (tplate.IsChain _))

theorem KeysCounted.tail {opcode2 : ℕ} {pc2 : List ℕ} (h : KeysCounted (opcode2 :: pc2)) :
    KeysCounted pc2 := List.IsChain.of_cons h

/-- What the matcher finds is in the relation. -/
theorem matchesTemplate_of_match {fuel : ℕ} {pc : CScript} {pc2 : List ℕ}
    {vSolutions out : List valtype} (hcounted : KeysCounted pc2)
    (h : matchTemplate fuel pc pc2 vSolutions = some out) :
    ∃ sols, MatchesTemplate pc2 pc sols ∧ out = vSolutions ++ sols := by
  induction hlen : pc2.length using Nat.strong_induction_on
    generalizing pc2 fuel pc vSolutions with
  | _ n ih =>
  cases pc2 with
  | nil =>
      obtain ⟨rfl, rfl⟩ := matchTemplate_nil h
      exact ⟨[], .nil, (List.append_nil _).symm⟩
  | cons opcode2 pc2 =>
      rw [List.length_cons] at hlen
      by_cases hkeys : opcode2 = OP_PUBKEYS
      · subst hkeys
        cases pc2 with
        | nil =>
            cases fuel with
            | zero => cases h
            | succ fuel =>
                unfold matchTemplate at h
                rw [if_neg fun hand => List.cons_ne_nil _ _ hand.2] at h
                cases hget : getOp pc <;> simp [hget] at h
        | cons next pc2 =>
            obtain rfl : next = OP_SMALLINTEGER := by
              have hchain := List.isChain_cons_cons.mp hcounted
              exact hchain.1 rfl
            obtain ⟨keys, next, opcode, vch, rest, fuel', hreads, hop, hnumber, hmore⟩ :=
              matchTemplate_pubKeys h
            obtain ⟨sols, hmatches, hout⟩ :=
              ih pc2.length (by simp only [List.length_cons] at hlen; omega)
                hcounted.tail.tail hmore rfl
            refine ⟨_, .keys hreads hop hnumber hmatches, ?_⟩
            simp [hout]
      · obtain ⟨opcode, vch, rest, found, fuel', hop, hfound, hmore⟩ :=
          matchTemplate_cons hkeys h
        obtain ⟨sols, hmatches, hout⟩ := ih pc2.length (by omega) hcounted.tail hmore rfl
        refine ⟨_, .cons hkeys hop hfound hmatches, ?_⟩
        rw [hout, List.append_assoc]

theorem ReadsKeys.length_le {pc next : CScript} {keys : List valtype}
    (h : ReadsKeys pc keys next) : next.length ≤ pc.length := by
  induction h with
  | nil pc => exact le_rfl
  | cons hop _ _ ih => exact ih.trans (length_getOp hop).le

/-- The loop over the keys reads all of them. -/
theorem matchPubKeys_reads {pc next rest pc1 : CScript} {opcode opcode1 : ℕ}
    {vch vch1 : valtype} {keys : List valtype} (hreads : ReadsKeys pc keys next)
    (hop : getOp next = some (opcode, vch, rest))
    (hend : ¬ (33 ≤ vch.length ∧ vch.length ≤ 65))
    (hget : getOp pc = some (opcode1, vch1, pc1)) {fuel : ℕ} (hfuel : pc.length ≤ fuel)
    (vSolutions : List valtype) :
    matchPubKeys fuel opcode1 vch1 pc1 vSolutions = (opcode, vch, rest, vSolutions ++ keys) := by
  induction hreads generalizing opcode1 vch1 pc1 fuel vSolutions with
  | nil pc =>
      rw [hget, Option.some.injEq] at hop
      simp only [Prod.mk.injEq] at hop
      obtain ⟨rfl, rfl, rfl⟩ := hop
      cases fuel with
      | zero => simp [matchPubKeys]
      | succ fuel => simp [matchPubKeys, hend]
  | @cons pc rest' next opcode' key keys hop' size more ih =>
      rw [hget, Option.some.injEq] at hop'
      simp only [Prod.mk.injEq] at hop'
      obtain ⟨rfl, rfl, rfl⟩ := hop'
      have hlen := length_getOp hget
      cases fuel with
      | zero => omega
      | succ fuel =>
          rw [matchPubKeys, if_pos size]
          obtain ⟨opcode2, vch2, pc2, hnext⟩ : ∃ opcode2 vch2 pc2,
              getOp pc1 = some (opcode2, vch2, pc2) := by
            cases more with
            | nil => exact ⟨_, _, _, hop⟩
            | cons hop₂ _ _ => exact ⟨_, _, _, hop₂⟩
          rw [hnext]
          simp only
          rw [ih hop hnext (by omega), List.append_assoc]
          rfl

theorem number_data {pc rest : CScript} {opcode : ℕ} {vch : valtype}
    (hop : getOp pc = some (opcode, vch, rest))
    (hnumber : opcode = OP_0 ∨ OP_1 ≤ opcode ∧ opcode ≤ OP_16) : vch = [] := by
  refine data_eq_nil_of_getOp hop (hnumber.imp_right fun h => ?_)
  have hone := h.1
  simp only [OP_1, OP_PUSHDATA4] at hone ⊢
  omega

/-- What is in the relation, the matcher finds. -/
theorem MatchesTemplate.match {pc2 : List ℕ} {pc : CScript} {sols : List valtype}
    (h : MatchesTemplate pc2 pc sols) {fuel : ℕ} (hfuel : pc.length + pc2.length < fuel)
    (vSolutions : List valtype) :
    matchTemplate fuel pc pc2 vSolutions = some (vSolutions ++ sols) := by
  induction h generalizing fuel vSolutions with
  | nil =>
      cases fuel with
      | zero => omega
      | succ fuel => simp [matchTemplate]
  | @cons opcode2 opcode pc2 pc rest vch found sols hkeys hop hfound more ih =>
      have hlen := length_getOp hop
      rw [List.length_cons] at hfuel
      cases fuel with
      | zero => omega
      | succ fuel =>
          unfold matchTemplate
          rw [if_neg fun hand => List.cons_ne_nil _ _ hand.2]
          simp only [hop, if_neg hkeys, hfound]
          rw [ih (by omega), List.append_assoc]
  | @keys opcode pc2 pc next rest vch keys sols hreads hop hnumber more ih =>
      obtain ⟨opcode1, vch1, pc1, hget⟩ : ∃ opcode1 vch1 pc1,
          getOp pc = some (opcode1, vch1, pc1) := by
        cases hreads with
        | nil => exact ⟨_, _, _, hop⟩
        | cons hop₁ _ _ => exact ⟨_, _, _, hop₁⟩
      obtain rfl := number_data hop hnumber
      have hlen : rest.length < pc.length := (length_getOp hop).trans_le hreads.length_le
      have hnumber' : matchTemplateOp OP_SMALLINTEGER opcode [] =
          some [[UInt8.ofNat (DecodeOP_N opcode)]] := if_pos hnumber
      simp only [List.length_cons] at hfuel
      cases fuel with
      | zero => omega
      | succ fuel =>
          unfold matchTemplate
          rw [if_neg fun hand => List.cons_ne_nil _ _ hand.2]
          simp only [hget, if_true]
          rw [matchPubKeys_reads hreads hop (by simp) hget (by omega)]
          simp only [hnumber']
          rw [ih (by omega)]
          simp

/-- The matcher decides the relation. -/
theorem matchTemplate_iff {pc : CScript} {pc2 : List ℕ} {sols : List valtype}
    (hcounted : KeysCounted pc2) :
    matchTemplate (pc.length + pc2.length + 1) pc pc2 [] = some sols ↔
      MatchesTemplate pc2 pc sols := by
  constructor
  · intro h
    obtain ⟨sols', hmatches, rfl⟩ := matchesTemplate_of_match hcounted h
    exact hmatches
  · exact fun h => h.match (Nat.lt_succ_self _) []

/-! ### Rules for one instruction -/

/-- `p OP_CHECKLOCKTIMEVERIFY` in front of a script, for a direct push `p` of at most
five bytes. -/
def delayedBy (p : valtype) (script : CScript) : CScript :=
  UInt8.ofNat p.length :: p ++ UInt8.ofNat OP_CHECKLOCKTIMEVERIFY :: script

theorem getOp_delayedBy {p : valtype} (hp : p.length ≤ 5) (script : CScript) :
    getOp (delayedBy p script) =
      some (p.length, p, UInt8.ofNat OP_CHECKLOCKTIMEVERIFY :: script) := by
  have hdirect : p.length < OP_PUSHDATA1 := lt_of_le_of_lt hp (by decide)
  exact (Instruction.direct hdirect).getOp_append _

theorem matchesTemplate_cons_iff {opcode2 : ℕ} {pc2 : List ℕ} {pc : CScript}
    {sols : List valtype} (hkeys : opcode2 ≠ OP_PUBKEYS) :
    MatchesTemplate (opcode2 :: pc2) pc sols ↔ ∃ opcode vch rest found more,
      getOp pc = some (opcode, vch, rest) ∧ matchTemplateOp opcode2 opcode vch = some found ∧
        MatchesTemplate pc2 rest more ∧ sols = found ++ more := by
  constructor
  · intro h
    cases h with
    | cons _ hop hfound more => exact ⟨_, _, _, _, _, hop, hfound, more, rfl⟩
    | keys _ _ _ _ => exact absurd rfl hkeys
  · rintro ⟨opcode, vch, rest, found, more, hop, hfound, hmore, rfl⟩
    exact .cons hkeys hop hfound hmore

/-- An instruction of a template that stands for itself is the opcode. -/
theorem matchesTemplate_plain_iff {opcode2 : ℕ} {pc2 : List ℕ} {pc : CScript}
    {sols : List valtype} (hplain : OP_PUSHDATA4 < opcode2 ∧ opcode2 ≤ OP_CHECKLOCKTIMEVERIFY) :
    MatchesTemplate (opcode2 :: pc2) pc sols ↔
      ∃ rest, pc = UInt8.ofNat opcode2 :: rest ∧ MatchesTemplate pc2 rest sols := by
  have hkeys : opcode2 ≠ OP_PUBKEYS := by
    rintro rfl
    exact absurd hplain.2 (by decide)
  rw [matchesTemplate_cons_iff hkeys]
  constructor
  · rintro ⟨opcode, vch, rest, found, more, hop, hfound, hmore, rfl⟩
    obtain ⟨rfl, rfl⟩ := matchTemplateOp_plain hplain.2 hfound
    obtain ⟨bytes, hinstr, rfl⟩ := getOp_iff.mp hop
    obtain ⟨rfl, rfl⟩ := hinstr.data_eq_nil hplain.1
    exact ⟨rest, rfl, hmore⟩
  · rintro ⟨rest, rfl, hmore⟩
    have hbyte : opcode2 < 256 := by
      have hle := hplain.2
      simp only [OP_CHECKLOCKTIMEVERIFY] at hle
      omega
    have hfound : matchTemplateOp opcode2 opcode2 [] = some [] := by
      have hne : opcode2 ≠ OP_PUBKEY ∧ opcode2 ≠ OP_HASH160HASH ∧ opcode2 ≠ OP_SMALLINTEGER ∧
          opcode2 ≠ OP_SCRIPTNUMBER ∧ opcode2 ≠ OP_SMALLDATA := by
        refine ⟨?_, ?_, ?_, ?_, ?_⟩ <;> rintro rfl <;> exact absurd hplain.2 (by decide)
      simp [matchTemplateOp, hne]
    exact ⟨opcode2, [], rest, [], sols, (Instruction.plain hplain.1 hbyte).getOp_append rest,
      hfound, hmore, rfl⟩

/-- The hash of a template, pushed with any opcode. -/
theorem matchesTemplate_hash_iff {pc2 : List ℕ} {pc : CScript} {sols : List valtype} :
    MatchesTemplate (OP_HASH160HASH :: pc2) pc sols ↔ ∃ opcode hash bytes rest more,
      Instruction opcode hash bytes ∧ hash.length = 20 ∧ pc = bytes ++ rest ∧
        MatchesTemplate pc2 rest more ∧ sols = hash :: more := by
  have hfound : ∀ opcode (vch : valtype) found,
      matchTemplateOp OP_HASH160HASH opcode vch = some found ↔
        vch.length = 20 ∧ found = [vch] := by
    intro opcode vch found
    simp only [matchTemplateOp, show OP_HASH160HASH ≠ OP_PUBKEY by decide, if_false, if_true]
    split <;> simp_all [eq_comm]
  rw [matchesTemplate_cons_iff (by decide)]
  constructor
  · rintro ⟨opcode, vch, rest, found, more, hop, hmatch, hmore, rfl⟩
    obtain ⟨hlen, rfl⟩ := (hfound _ _ _).mp hmatch
    obtain ⟨bytes, hinstr, rfl⟩ := getOp_iff.mp hop
    exact ⟨opcode, vch, bytes, rest, more, hinstr, hlen, rfl, hmore, rfl⟩
  · rintro ⟨opcode, hash, bytes, rest, more, hinstr, hlen, rfl, hmore, rfl⟩
    exact ⟨opcode, hash, rest, [hash], more, hinstr.getOp_append rest,
      (hfound _ _ _).mpr ⟨hlen, rfl⟩, hmore, rfl⟩

/-- A delayed template is a push, a lock time check and the template. -/
theorem matchesTemplate_delayed_iff {pc2 : List ℕ} {pc : CScript} {sols : List valtype} :
    MatchesTemplate (OP_SCRIPTNUMBER :: OP_CHECKLOCKTIMEVERIFY :: pc2) pc sols ↔
      ∃ p script more, p.length ≤ 5 ∧ pc = delayedBy p script ∧
        MatchesTemplate pc2 script more ∧ sols = p :: more := by
  have hfound : ∀ opcode (vch : valtype) found,
      matchTemplateOp OP_SCRIPTNUMBER opcode vch = some found ↔
        opcode ≤ 0x05 ∧ found = [vch] := by
    intro opcode vch found
    simp only [matchTemplateOp, show OP_SCRIPTNUMBER ≠ OP_PUBKEY by decide,
      show OP_SCRIPTNUMBER ≠ OP_HASH160HASH by decide,
      show OP_SCRIPTNUMBER ≠ OP_SMALLINTEGER by decide, if_false, if_true]
    split <;> simp_all [eq_comm]
  rw [matchesTemplate_cons_iff (by decide)]
  constructor
  · rintro ⟨opcode, vch, rest, found, more, hop, hmatch, hmore, rfl⟩
    obtain ⟨hle, rfl⟩ := (hfound _ _ _).mp hmatch
    obtain ⟨bytes, hinstr, rfl⟩ := getOp_iff.mp hop
    have hdirect : opcode < OP_PUSHDATA1 := by
      simp only [OP_PUSHDATA1]
      omega
    obtain ⟨rfl, rfl⟩ := hinstr.direct_inv hdirect
    obtain ⟨script, rfl, hscript⟩ := (matchesTemplate_plain_iff (by decide)).mp hmore
    exact ⟨vch, script, more, hle, rfl, hscript, rfl⟩
  · rintro ⟨p, script, more, hle, rfl, hscript, rfl⟩
    exact ⟨p.length, p, UInt8.ofNat OP_CHECKLOCKTIMEVERIFY :: script, [p], more,
      getOp_delayedBy hle script, (hfound _ _ _).mpr ⟨hle, rfl⟩,
      (matchesTemplate_plain_iff (by decide)).mpr ⟨script, rfl, hscript⟩, rfl⟩

theorem delayedBy_injective {p p' : valtype} {script script' : CScript}
    (hp : p.length ≤ 5) (hp' : p'.length ≤ 5)
    (h : delayedBy p script = delayedBy p' script') : p = p' ∧ script = script' := by
  injection h with hbyte hrest
  have hlen : p.length = p'.length := by
    have hnat := congrArg UInt8.toNat hbyte
    rwa [UInt8.toNat_ofNat', UInt8.toNat_ofNat', Nat.mod_eq_of_lt (by omega),
      Nat.mod_eq_of_lt (by omega)] at hnat
  obtain ⟨hp, htail⟩ := List.append_inj hrest hlen
  exact ⟨hp, (List.cons.inj htail).2⟩

/-! ### One template for a script -/

/-- The first instruction of a matching script. -/
def OpensWith (type : txnouttype) (opcode : ℕ) (vch : valtype) : Prop :=
  match type with
  | .TX_NONSTANDARD => False
  | .TX_PUBKEY => 33 ≤ vch.length
  | .TX_PUBKEYHASH => opcode = OP_DUP ∧ vch.length = 0
  | .TX_SCRIPTHASH => opcode = OP_HASH160 ∧ vch.length = 0
  | .TX_MULTISIG => (opcode = OP_0 ∨ OP_1 ≤ opcode ∧ opcode ≤ OP_16) ∧ vch.length = 0
  | .TX_NULL_DATA => opcode = OP_RETURN ∧ vch.length = 0
  | _ => opcode ≤ 5 ∧ vch.length ≤ 5

/-- Two types without a delay do not open alike. -/
theorem OpensWith.unique {type type' : txnouttype} {opcode : ℕ} {vch : valtype}
    (h : OpensWith type opcode vch) (h' : OpensWith type' opcode vch)
    (hplain : type.isDelayed = false) (hplain' : type'.isDelayed = false) : type = type' := by
  have hopcodes : OP_DUP = 0x76 ∧ OP_HASH160 = 0xa9 ∧ OP_0 = 0 ∧ OP_1 = 0x51 ∧ OP_16 = 0x60 ∧
      OP_RETURN = 0x6a := by decide
  obtain ⟨hdup, hhash, hzero, hone, hsixteen, hreturn⟩ := hopcodes
  cases type <;> cases type' <;>
    simp only [OpensWith, txnouttype.isDelayed, Bool.true_eq_false, hdup, hhash, hzero, hone,
      hsixteen, hreturn] at h h' hplain hplain' ⊢ <;>
    omega

/-- A delay opens like no other template than a multisig one. -/
theorem OpensWith.eq_multisig {type type' : txnouttype} {opcode : ℕ} {vch : valtype}
    (h : OpensWith type opcode vch) (h' : OpensWith type' opcode vch)
    (hplain : type.isDelayed = false) (hdelayed : type'.isDelayed = true) :
    type = .TX_MULTISIG := by
  have hopcodes : OP_DUP = 0x76 ∧ OP_HASH160 = 0xa9 ∧ OP_RETURN = 0x6a := by decide
  obtain ⟨hdup, hhash, hreturn⟩ := hopcodes
  have hdelay : opcode ≤ 5 ∧ vch.length ≤ 5 := by
    cases type' <;> first | exact h' | cases hdelayed
  cases type <;> simp only [OpensWith, txnouttype.isDelayed, Bool.true_eq_false, hdup, hhash,
    hreturn] at h hplain ⊢ <;> omega

/-- A script that matches a template opens as the template does. -/
theorem opensWith_of_matches : ∀ {template : txnouttype × List ℕ}, template ∈ mTemplates →
    ∀ {s : CScript} {sols : List valtype}, MatchesTemplate template.2 s sols →
      ∃ opcode vch rest, getOp s = some (opcode, vch, rest) ∧ OpensWith template.1 opcode vch := by
  have hplain : ∀ {opcode2 : ℕ} {pc2 : List ℕ} {s : CScript} {sols : List valtype},
      OP_PUSHDATA4 < opcode2 ∧ opcode2 ≤ OP_CHECKLOCKTIMEVERIFY →
      MatchesTemplate (opcode2 :: pc2) s sols → ∃ rest, getOp s = some (opcode2, [], rest) := by
    intro opcode2 pc2 s sols hop2 h
    obtain ⟨rest, rfl, -⟩ := (matchesTemplate_plain_iff hop2).mp h
    have hbyte : opcode2 < 256 := by
      have hle := hop2.2
      simp only [OP_CHECKLOCKTIMEVERIFY] at hle
      omega
    exact ⟨rest, (Instruction.plain hop2.1 hbyte).getOp_append rest⟩
  have hdelay : ∀ {pc2 : List ℕ} {s : CScript} {sols : List valtype},
      MatchesTemplate (OP_SCRIPTNUMBER :: OP_CHECKLOCKTIMEVERIFY :: pc2) s sols →
      ∃ opcode vch rest, getOp s = some (opcode, vch, rest) ∧ opcode ≤ 5 ∧ vch.length ≤ 5 := by
    intro pc2 s sols h
    obtain ⟨p, script, more, hp, rfl, -, -⟩ := matchesTemplate_delayed_iff.mp h
    exact ⟨p.length, p, _, getOp_delayedBy hp script, hp, hp⟩
  intro template hmem s sols h
  simp only [mTemplates, List.mem_cons, List.not_mem_nil, or_false] at hmem
  rcases hmem with rfl | rfl | rfl | rfl | rfl | rfl | rfl | rfl | rfl | rfl
  · obtain ⟨opcode, vch, rest, found, _, hop, hfound, -⟩ :=
      (matchesTemplate_cons_iff (by decide)).mp h
    refine ⟨opcode, vch, rest, hop, ?_⟩
    simp only [matchTemplateOp, if_true, Option.ite_none_left_eq_some] at hfound
    have hsize := hfound.1
    simp only [OpensWith]
    omega
  · obtain ⟨rest, hop⟩ := hplain (by decide) h
    exact ⟨_, _, rest, hop, rfl, rfl⟩
  · obtain ⟨rest, hop⟩ := hplain (by decide) h
    exact ⟨_, _, rest, hop, rfl, rfl⟩
  · obtain ⟨opcode, vch, rest, found, _, hop, hfound, -⟩ :=
      (matchesTemplate_cons_iff (by decide)).mp h
    have hnumber := (matchTemplateOp_smallInteger hfound).1
    exact ⟨opcode, vch, rest, hop, hnumber, by rw [number_data hop hnumber]; rfl⟩
  · obtain ⟨rest, hop⟩ := hplain (by decide) h
    exact ⟨_, _, rest, hop, rfl, rfl⟩
  · obtain ⟨rest, hop⟩ := hplain (by decide) h
    exact ⟨_, _, rest, hop, rfl, rfl⟩
  all_goals exact hdelay h

theorem getOp_lockTimeCheck (script : CScript) :
    getOp (UInt8.ofNat OP_CHECKLOCKTIMEVERIFY :: script) =
      some (OP_CHECKLOCKTIMEVERIFY, [], script) :=
  (@Instruction.plain OP_CHECKLOCKTIMEVERIFY (by decide) (by decide)).getOp_append script

/-- A multisig script has no lock time check behind its first instruction. -/
theorem multisig_not_delayed {p : valtype} {script : CScript} {sols : List valtype}
    (hp : p.length ≤ 5)
    (h : MatchesTemplate (baseTemplate .TX_MULTISIG) (delayedBy p script) sols) : False := by
  obtain ⟨opcode, vch, rest, found, more, hop, hfound, hkeys, -⟩ :=
    (matchesTemplate_cons_iff (by decide)).mp h
  rw [getOp_delayedBy hp, Option.some.injEq] at hop
  simp only [Prod.mk.injEq] at hop
  obtain ⟨-, -, rfl⟩ := hop
  have hcheck := getOp_lockTimeCheck script
  cases hkeys with
  | cons hkeys _ _ _ => exact hkeys rfl
  | @keys opcode' _ _ next rest' vch' keys _ hreads hop' hnumber hmore =>
      cases hreads with
      | nil =>
          rw [hcheck, Option.some.injEq] at hop'
          simp only [Prod.mk.injEq] at hop'
          obtain ⟨rfl, -, -⟩ := hop'
          exact absurd hnumber (by decide)
      | cons hop₁ size _ =>
          rw [hcheck, Option.some.injEq] at hop₁
          simp only [Prod.mk.injEq] at hop₁
          obtain ⟨-, rfl, -⟩ := hop₁
          simp at size

/-- Templates of the solver, in terms of the templates without a delay. -/
theorem mTemplates_eq {template : txnouttype × List ℕ} (hmem : template ∈ mTemplates)
    (hnull : template.1 ≠ .TX_NULL_DATA) :
    template.2 = (if template.1.isDelayed then [OP_SCRIPTNUMBER, OP_CHECKLOCKTIMEVERIFY]
      else []) ++ baseTemplate template.1.undelayed := by
  refine mTemplates_base template hmem fun h => hnull ?_
  generalize template.1 = type at h
  cases type <;> first | rfl | cases h

theorem mem_mTemplates_plain : ∀ template ∈ mTemplates, template.1 ≠ .TX_NULL_DATA →
    (template.1.undelayed, baseTemplate template.1.undelayed) ∈ mTemplates ∧
      template.1.undelayed.isDelayed = false ∧
      (template.1.isDelayed = false → template.1.undelayed = template.1) := by
  decide

theorem undelayed_injective {type type' : txnouttype} (h : type.undelayed = type'.undelayed)
    (hdelayed : type.isDelayed = type'.isDelayed) : type = type' := by
  cases type <;> cases type' <;>
    first | rfl | (simp [txnouttype.undelayed] at h; done) | cases hdelayed

theorem ne_nullData_of_delayed {type : txnouttype} (h : type.isDelayed = true) :
    type ≠ .TX_NULL_DATA := by
  rintro rfl
  cases h

/-- A script that matches a delayed template. -/
theorem delayed_shape {template : txnouttype × List ℕ} (hmem : template ∈ mTemplates)
    (hdelayed : template.1.isDelayed = true) {s : CScript} {sols : List valtype} :
    MatchesTemplate template.2 s sols ↔ ∃ p script more, p.length ≤ 5 ∧
      s = delayedBy p script ∧
      MatchesTemplate (baseTemplate template.1.undelayed) script more ∧ sols = p :: more := by
  rw [mTemplates_eq hmem (ne_nullData_of_delayed hdelayed), if_pos hdelayed]
  exact matchesTemplate_delayed_iff

/-- A script opens with one instruction. -/
theorem opensWith_both {template template' : txnouttype × List ℕ}
    (hmem : template ∈ mTemplates) (hmem' : template' ∈ mTemplates) {s : CScript}
    {sols sols' : List valtype} (h : MatchesTemplate template.2 s sols)
    (h' : MatchesTemplate template'.2 s sols') :
    ∃ opcode vch, OpensWith template.1 opcode vch ∧ OpensWith template'.1 opcode vch := by
  obtain ⟨opcode, vch, rest, hop, hopens⟩ := opensWith_of_matches hmem h
  obtain ⟨opcode', vch', rest', hop', hopens'⟩ := opensWith_of_matches hmem' h'
  rw [hop, Option.some.injEq] at hop'
  simp only [Prod.mk.injEq] at hop'
  obtain ⟨rfl, rfl, -⟩ := hop'
  exact ⟨opcode, vch, hopens, hopens'⟩

/-- Two templates without a delay. -/
theorem matchesTemplate_unique_plain {template template' : txnouttype × List ℕ}
    (hmem : template ∈ mTemplates) (hmem' : template' ∈ mTemplates)
    (hplain : template.1.isDelayed = false) (hplain' : template'.1.isDelayed = false)
    {s : CScript} {sols sols' : List valtype} (h : MatchesTemplate template.2 s sols)
    (h' : MatchesTemplate template'.2 s sols') : template'.1 = template.1 := by
  obtain ⟨opcode, vch, hopens, hopens'⟩ := opensWith_both hmem hmem' h h'
  exact hopens'.unique hopens hplain' hplain

/-- A template without a delay and one with a delay. -/
theorem matchesTemplate_plain_delayed {template template' : txnouttype × List ℕ}
    (hmem : template ∈ mTemplates) (hmem' : template' ∈ mTemplates)
    (hplain : template.1.isDelayed = false) (hdelayed : template'.1.isDelayed = true)
    {s : CScript} {sols sols' : List valtype} (h : MatchesTemplate template.2 s sols)
    (h' : MatchesTemplate template'.2 s sols') : False := by
  obtain ⟨opcode, vch, hopens, hopens'⟩ := opensWith_both hmem hmem' h h'
  have hmulti := hopens.eq_multisig hopens' hplain hdelayed
  obtain ⟨p, script, more, hp, rfl, -, -⟩ := (delayed_shape hmem' hdelayed).mp h'
  have htemplate := mTemplates_eq hmem (by rw [hmulti]; decide)
  rw [htemplate, hmulti] at h
  exact multisig_not_delayed hp h

/-- A script matches one template, apart from those of data. -/
theorem matchesTemplate_unique {template template' : txnouttype × List ℕ}
    (hmem : template ∈ mTemplates) (hmem' : template' ∈ mTemplates) {s : CScript}
    {sols sols' : List valtype} (h : MatchesTemplate template.2 s sols)
    (h' : MatchesTemplate template'.2 s sols') : template'.1 = template.1 := by
  cases hdelayed : template.1.isDelayed with
  | false =>
      cases hdelayed' : template'.1.isDelayed with
      | false => exact matchesTemplate_unique_plain hmem hmem' hdelayed hdelayed' h h'
      | true => exact (matchesTemplate_plain_delayed hmem hmem' hdelayed hdelayed' h h').elim
  | true =>
      cases hdelayed' : template'.1.isDelayed with
      | false => exact (matchesTemplate_plain_delayed hmem' hmem hdelayed' hdelayed h' h).elim
      | true =>
          obtain ⟨p, script, more, hp, rfl, hmore, -⟩ := (delayed_shape hmem hdelayed).mp h
          obtain ⟨p', script', more', hp', heq, hmore', -⟩ :=
            (delayed_shape hmem' hdelayed').mp h'
          obtain ⟨-, rfl⟩ := delayedBy_injective hp hp' heq
          obtain ⟨hbase, hplain, -⟩ :=
            mem_mTemplates_plain template hmem (ne_nullData_of_delayed hdelayed)
          obtain ⟨hbase', hplain', -⟩ :=
            mem_mTemplates_plain template' hmem' (ne_nullData_of_delayed hdelayed')
          refine undelayed_injective ?_ (hdelayed'.trans hdelayed.symm)
          exact matchesTemplate_unique_plain hbase hbase' hplain hplain' hmore hmore'

/-! ### The solver -/

theorem mTemplates_keysCounted : ∀ template ∈ mTemplates, KeysCounted template.2 := by
  decide

theorem mTemplates_type : ∀ template ∈ mTemplates, ∀ template' ∈ mTemplates,
    template'.1 = template.1 → template.1 ≠ .TX_NULL_DATA → template' = template := by
  decide

/-- The script does not match the template. -/
def Unmatched (s : CScript) (template : txnouttype × List ℕ) : Prop :=
  matchTemplate (s.length + template.2.length + 1) s template.2 [] = none

/-- No template before the only one that matches does. -/
theorem exists_unmatched {s : CScript} {type : txnouttype} {tplate : List ℕ}
    {templates : List (txnouttype × List ℕ)} (hmem : (type, tplate) ∈ templates)
    (hcounted : ∀ template ∈ templates, KeysCounted template.2)
    (hunique : ∀ template ∈ templates, ∀ sols', MatchesTemplate template.2 s sols' →
      template = (type, tplate)) :
    ∃ front back, templates = front ++ (type, tplate) :: back ∧
      ∀ template ∈ front, Unmatched s template := by
  obtain ⟨front, back, rfl, hnot⟩ := List.eq_append_cons_of_mem hmem
  refine ⟨front, back, rfl, fun template hfront => ?_⟩
  have hin := List.mem_append_left ((type, tplate) :: back) hfront
  unfold Unmatched
  cases hmatch : matchTemplate (s.length + template.2.length + 1) s template.2 [] with
  | none => rfl
  | some found =>
      have heq := hunique _ hin found ((matchTemplate_iff (hcounted _ hin)).mp hmatch)
      rw [heq] at hfront
      exact absurd hfront hnot

theorem solverScan_append {s : CScript} {front rest : List (txnouttype × List ℕ)}
    (h : ∀ template ∈ front, Unmatched s template) :
    solverScan s (front ++ rest) = solverScan s rest := by
  induction front with
  | nil => rfl
  | cons template front ih =>
      have hnone : matchTemplate (s.length + template.2.length + 1) s template.2 [] = none :=
        h template List.mem_cons_self
      rw [List.cons_append, solverScan, hnone]
      exact ih fun template hmem => h template (List.mem_cons_of_mem _ hmem)

/-- The scan comes to the only template that matches. -/
theorem solverScan_of_unique {s : CScript} {type : txnouttype} {tplate : List ℕ}
    {sols : List valtype} {templates : List (txnouttype × List ℕ)}
    (h : MatchesTemplate tplate s sols)
    (hok : type.undelayed = .TX_MULTISIG → multisigOk type sols = true)
    (hmem : (type, tplate) ∈ templates)
    (hcounted : ∀ template ∈ templates, KeysCounted template.2)
    (hunique : ∀ template ∈ templates, ∀ sols', MatchesTemplate template.2 s sols' →
      template = (type, tplate)) : solverScan s templates = some (type, sols) := by
  have hmatch := (matchTemplate_iff (hcounted _ hmem)).mpr h
  obtain ⟨front, back, rfl, hfront⟩ := exists_unmatched hmem hcounted hunique
  rw [solverScan_append hfront, solverScan, hmatch]
  simp only
  rw [if_neg]
  rintro ⟨hmulti, hbad⟩
  rw [hok hmulti] at hbad
  cases hbad

/-- The solver reports the template that the script matches. -/
theorem solver_iff {s : CScript} {type : txnouttype} {sols : List valtype}
    (hnull : type ≠ .TX_NULL_DATA) :
    Solver s = some (type, sols) ↔ ∃ tplate, (type, tplate) ∈ mTemplates ∧
      MatchesTemplate tplate s sols ∧
      (type.undelayed = .TX_MULTISIG → multisigOk type sols = true) := by
  constructor
  · intro h
    obtain ⟨tplate, fuel, hmem, hmatch, hok⟩ := solver_ok h
    obtain ⟨sols', hmatches, rfl⟩ :=
      matchesTemplate_of_match (mTemplates_keysCounted _ hmem) hmatch
    exact ⟨tplate, hmem, hmatches, hok⟩
  · rintro ⟨tplate, hmem, hmatches, hok⟩
    refine solverScan_of_unique hmatches hok hmem mTemplates_keysCounted ?_
    intro template hmem' sols' h'
    exact mTemplates_type _ hmem _ hmem' (matchesTemplate_unique hmem hmem' hmatches h') hnull

end Ziftrcoin.Spec
