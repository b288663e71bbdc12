/-
Module: Ziftrcoin.Proofs.DelayedTemplates
Purpose: A delayed script answers as the script behind its delay does, unless that is a
  multisig script: the solver counts the delay as one of the keys.
Trusted boundary: none
Main exports: Forward, delayed_mirrors_iff
-/
import Ziftrcoin.Proofs.ScriptHashes
import Ziftrcoin.Spec.Addresses

namespace Ziftrcoin.Spec

/-! ### What is mirrored -/

/-- The delayed form of a type, `type + DELAYED_DELTA`. -/
def txnouttype.delayed : txnouttype → txnouttype
  | .TX_PUBKEY => .TX_DELAYEDPUBKEY
  | .TX_PUBKEYHASH => .TX_DELAYEDPUBKEYHASH
  | .TX_SCRIPTHASH => .TX_DELAYEDSCRIPTHASH
  | .TX_MULTISIG => .TX_DELAYEDMULTISIG
  | type => type

/-- The types that have a delayed form. -/
def txnouttype.delayable : txnouttype → Bool
  | .TX_PUBKEY | .TX_PUBKEYHASH | .TX_SCRIPTHASH | .TX_MULTISIG => true
  | _ => false

/-- The owner, the destinations and the arguments of a delayed script are those of the
script behind the delay. -/
structure SameAnswers (d s : CScript) (type : txnouttype) (p : valtype)
    (sols : List valtype) : Prop where
  isMine : ∀ crypto keystore fuel, IsMine crypto keystore fuel d = IsMine crypto keystore fuel s
  destinations : ∀ crypto, ExtractDestinations crypto d =
    (ExtractDestinations crypto s).map fun answer => (answer.1.delayed, answer.2)
  arguments : ScriptSigArgsExpected type.delayed (p :: sols) = ScriptSigArgsExpected type sols

/-- The solver finds the delayed form of what it finds behind the delay. -/
def Forward (p : valtype) (s : CScript) : Prop :=
  ∀ type sols, Solver s = some (type, sols) → type.delayable = true →
    Solver (delayedBy p s) = some (type.delayed, p :: sols) ∧
      SameAnswers (delayedBy p s) s type p sols

/-- A script with a delayed type has a script with a plain type behind its delay. -/
def Backward (d : CScript) : Prop :=
  ∀ type' sols', Solver d = some (type', sols') → type'.isDelayed = true →
    ∃ p s type sols, p.length ≤ 5 ∧ d = delayedBy p s ∧ Solver s = some (type, sols) ∧
      type.delayable = true ∧ type' = type.delayed ∧ sols' = p :: sols ∧
      SameAnswers d s type p sols

/-- A multisig script with `keys` keys that asks for `m` signatures of `n` keys. -/
def MultisigScript (s : CScript) (m n : ℕ) (keys : List valtype) : Prop :=
  MatchesTemplate (baseTemplate .TX_MULTISIG) s
    ([UInt8.ofNat m] :: keys ++ [[UInt8.ofNat n]]) ∧ m ≤ 16 ∧ n ≤ 16

/-! ### Solutions of the templates -/

theorem multisigOk_iff {type : txnouttype} {sols : List valtype} {m n : ℕ} (hm : m ≤ 16)
    (hn : n ≤ 16)
    (hfirst : sols.getD (if type.isDelayed then 1 else 0) [] = [UInt8.ofNat m])
    (hlast : sols.getLastD [] = [UInt8.ofNat n]) :
    multisigOk type sols = true ↔ 1 ≤ m ∧ m ≤ n ∧ sols.length - 2 = n := by
  simp only [multisigOk, hfirst, hlast, headD_byte hm, headD_byte hn, Bool.not_eq_true',
    Bool.or_eq_false_iff, decide_eq_false_iff_not]
  omega

/-- The checks on a multisig script compare the number of keys. -/
theorem multisigOk_plain {m n : ℕ} (hm : m ≤ 16) (hn : n ≤ 16) (keys : List valtype) :
    multisigOk .TX_MULTISIG ([UInt8.ofNat m] :: keys ++ [[UInt8.ofNat n]]) = true ↔
      1 ≤ m ∧ m ≤ n ∧ keys.length = n := by
  rw [multisigOk_iff hm hn rfl (List.getLastD_concat ..)]
  simp

/-- Behind a delay they count it as a key. -/
theorem multisigOk_delayed {m n : ℕ} (hm : m ≤ 16) (hn : n ≤ 16) (p : valtype)
    (keys : List valtype) :
    multisigOk .TX_DELAYEDMULTISIG (p :: ([UInt8.ofNat m] :: keys ++ [[UInt8.ofNat n]])) = true ↔
      1 ≤ m ∧ m ≤ n ∧ keys.length + 1 = n := by
  have hlast : (p :: ([UInt8.ofNat m] :: keys ++ [[UInt8.ofNat n]])).getLastD [] =
      [UInt8.ofNat n] := by
    rw [← List.cons_append]
    exact List.getLastD_concat ..
  rw [multisigOk_iff hm hn rfl hlast]
  simp

/-- A script that matches the multisig template. -/
theorem multisig_shape {s : CScript} {sols : List valtype}
    (h : MatchesTemplate (baseTemplate .TX_MULTISIG) s sols) :
    ∃ m n keys, MultisigScript s m n keys ∧
      sols = [UInt8.ofNat m] :: keys ++ [[UInt8.ofNat n]] := by
  have hmatch := h
  obtain ⟨opcode, vch, rest, found, more, hop, hfound, hkeys, rfl⟩ :=
    (matchesTemplate_cons_iff (by decide)).mp h
  obtain ⟨hnumber, rfl⟩ := matchTemplateOp_smallInteger hfound
  cases hkeys with
  | cons hno _ _ _ => exact absurd rfl hno
  | @keys opcode' _ _ next rest' vch' keys sols hreads hop' hnumber' hmore =>
      obtain ⟨_, -, hnil⟩ := (matchesTemplate_plain_iff (by decide)).mp hmore
      cases hnil
      exact ⟨DecodeOP_N opcode, DecodeOP_N opcode', keys,
        ⟨hmatch, decodeOP_N_le hnumber, decodeOP_N_le hnumber'⟩, rfl⟩

/-! ### The solver on a delayed script -/

theorem delayed_of_delayable {type : txnouttype} (h : type.delayable = true) :
    type.delayed.isDelayed = true ∧ type.delayed.undelayed = type ∧ type.undelayed = type ∧
      type.isDelayed = false ∧ type ≠ .TX_NULL_DATA ∧
      (type, baseTemplate type) ∈ mTemplates ∧
      (type.delayed, [OP_SCRIPTNUMBER, OP_CHECKLOCKTIMEVERIFY] ++ baseTemplate type) ∈
        mTemplates := by
  cases type <;> first | (cases h; done) | decide

theorem delayable_of_delayed {type' : txnouttype} (h : type'.isDelayed = true) :
    type'.undelayed.delayable = true ∧ type'.undelayed.delayed = type' := by
  cases type' <;> first | (cases h; done) | decide

/-- The solver on a plain script. -/
theorem solver_plain_iff {type : txnouttype} {s : CScript} {sols : List valtype}
    (htype : type.delayable = true) :
    Solver s = some (type, sols) ↔ MatchesTemplate (baseTemplate type) s sols ∧
      (type = .TX_MULTISIG → multisigOk type sols = true) := by
  obtain ⟨-, -, hself, hplain, hnull, hmem, -⟩ := delayed_of_delayable htype
  rw [solver_iff hnull]
  constructor
  · rintro ⟨tplate, hmem', h, hok⟩
    have htemplate : tplate = baseTemplate type := by
      have heq := mTemplates_eq hmem' hnull
      simpa [hplain, hself] using heq
    exact ⟨htemplate ▸ h, fun hmulti => hok (hself.trans hmulti)⟩
  · rintro ⟨h, hok⟩
    exact ⟨_, hmem, h, fun hmulti => hok (hself.symm.trans hmulti)⟩

/-- The solver on the same script behind a delay. -/
theorem solver_delayed_iff {type : txnouttype} {p : valtype} {s : CScript}
    {sols' : List valtype} (htype : type.delayable = true) (hp : p.length ≤ 5) :
    Solver (delayedBy p s) = some (type.delayed, sols') ↔
      ∃ sols, sols' = p :: sols ∧ MatchesTemplate (baseTemplate type) s sols ∧
        (type = .TX_MULTISIG → multisigOk type.delayed sols' = true) := by
  obtain ⟨hdelayed, hundelayed, -, -, -, -, hmem⟩ := delayed_of_delayable htype
  rw [solver_iff (ne_nullData_of_delayed hdelayed)]
  constructor
  · rintro ⟨tplate, hmem', h, hok⟩
    obtain ⟨p', s', more, hp', heq, hmore, rfl⟩ := (delayed_shape hmem' hdelayed).mp h
    obtain ⟨rfl, rfl⟩ := delayedBy_injective hp hp' heq
    have hbase : MatchesTemplate (baseTemplate type) s more := by
      rw [← hundelayed]
      exact hmore
    exact ⟨more, rfl, hbase, fun hmulti => hok (hundelayed.trans hmulti)⟩
  · rintro ⟨sols, rfl, h, hok⟩
    exact ⟨_, hmem, matchesTemplate_delayed_iff.mpr ⟨p, s, sols, hp, rfl, h, rfl⟩,
      fun hmulti => hok (hundelayed.symm.trans hmulti)⟩

/-- What is solved alike is answered alike. -/
theorem sameAnswers_of_solver {type : txnouttype} {p : valtype} {d s : CScript}
    {sols : List valtype} (htype : type.delayable = true)
    (hd : Solver d = some (type.delayed, p :: sols)) (hs : Solver s = some (type, sols)) :
    SameAnswers d s type p sols := by
  refine ⟨fun crypto keystore fuel => ?_, fun crypto => ?_, ?_⟩
  · cases fuel with
    | zero => rfl
    | succ fuel =>
        rw [IsMine, IsMine, hd, hs]
        cases type <;> first | rfl | cases htype
  · have hone : ExtractDestination crypto d = ExtractDestination crypto s := by
      rw [ExtractDestination, ExtractDestination, hd, hs]
      cases type <;> first | rfl | cases htype
    rw [ExtractDestinations, ExtractDestinations, hd, hs, hone]
    cases type <;> first | rfl | (cases htype; done) | skip
    all_goals
      cases hdest : ExtractDestination crypto s <;> rfl
  · cases type <;> first | rfl | cases htype

/-! ### Where delayed scripts mirror plain ones -/

/-- An m-of-n multisig script: behind a delay it is not solved. -/
def CountedMultisig (s : CScript) : Prop :=
  ∃ m n keys, MultisigScript s m n keys ∧ 1 ≤ m ∧ m ≤ n ∧ keys.length = n

/-- A delayed multisig script with one key fewer than it says: it is solved. -/
def MiscountedDelayed (d : CScript) : Prop :=
  ∃ p s m n keys, p.length ≤ 5 ∧ d = delayedBy p s ∧ MultisigScript s m n keys ∧ 1 ≤ m ∧
    m ≤ n ∧ keys.length + 1 = n

theorem forward_iff {p : valtype} (hp : p.length ≤ 5) (s : CScript) :
    Forward p s ↔ ¬ CountedMultisig s := by
  constructor
  · rintro hforward ⟨m, n, keys, ⟨hmatch, hm, hn⟩, hpos, hle, hkeys⟩
    have hsolver := (@solver_plain_iff .TX_MULTISIG s _ rfl).mpr
      ⟨hmatch, fun _ => (multisigOk_plain hm hn keys).mpr ⟨hpos, hle, hkeys⟩⟩
    obtain ⟨sols, heq, -, hok⟩ := (solver_delayed_iff rfl hp).mp (hforward _ _ hsolver rfl).1
    have hbad := (multisigOk_delayed hm hn p keys).mp (hok rfl)
    omega
  · intro hno type sols hsolver htype
    obtain ⟨hmatch, hok⟩ := (solver_plain_iff htype).mp hsolver
    have hdelayed : Solver (delayedBy p s) = some (type.delayed, p :: sols) := by
      refine (solver_delayed_iff htype hp).mpr ⟨sols, rfl, hmatch, fun hmulti => ?_⟩
      subst hmulti
      obtain ⟨m, n, keys, hscript, rfl⟩ := multisig_shape hmatch
      obtain ⟨hpos, hle, hkeys⟩ :=
        (multisigOk_plain hscript.2.1 hscript.2.2 keys).mp (hok rfl)
      exact absurd ⟨m, n, keys, hscript, hpos, hle, hkeys⟩ hno
    exact ⟨hdelayed, sameAnswers_of_solver htype hdelayed hsolver⟩

theorem backward_iff (d : CScript) : Backward d ↔ ¬ MiscountedDelayed d := by
  constructor
  · rintro hbackward ⟨p, s, m, n, keys, hp, rfl, ⟨hmatch, hm, hn⟩, hpos, hle, hkeys⟩
    have hsolver := (@solver_delayed_iff .TX_MULTISIG p s _ rfl hp).mpr
      ⟨_, rfl, hmatch, fun _ => (multisigOk_delayed hm hn p keys).mpr ⟨hpos, hle, hkeys⟩⟩
    obtain ⟨p', s', type, sols, hp', heq, hplain, hdelayable, htype, hsols, -⟩ :=
      hbackward _ _ hsolver rfl
    obtain ⟨rfl, rfl⟩ := delayedBy_injective hp hp' heq
    obtain rfl : type = .TX_MULTISIG := by
      cases type <;> first | rfl | (cases htype; done) | cases hdelayable
    obtain ⟨-, rfl⟩ := List.cons.inj hsols
    have hok := ((@solver_plain_iff .TX_MULTISIG _ _ rfl).mp hplain).2 rfl
    have hbad := (multisigOk_plain hm hn keys).mp hok
    omega
  · intro hno type' sols' hsolver hdelayed
    obtain ⟨htype, hself⟩ := delayable_of_delayed hdelayed
    obtain ⟨tplate, hmem, h, -⟩ := (solver_iff (ne_nullData_of_delayed hdelayed)).mp hsolver
    obtain ⟨p, s, more, hp, rfl, hmore, rfl⟩ := (delayed_shape hmem hdelayed).mp h
    rw [← hself] at hsolver
    obtain ⟨sols, hsols, hmatch, hok⟩ := (solver_delayed_iff htype hp).mp hsolver
    obtain ⟨-, rfl⟩ := List.cons.inj hsols
    have hplain : Solver s = some (type'.undelayed, more) := by
      refine (solver_plain_iff htype).mpr ⟨hmatch, fun hmulti => ?_⟩
      rw [hmulti] at hmatch hok ⊢
      obtain ⟨m, n, keys, hscript, rfl⟩ := multisig_shape hmatch
      obtain ⟨hpos, hle, hkeys⟩ :=
        (multisigOk_delayed hscript.2.1 hscript.2.2 p keys).mp (hok rfl)
      exact absurd ⟨p, s, m, n, keys, hp, rfl, hscript, hpos, hle, hkeys⟩ hno
    exact ⟨p, s, _, more, hp, rfl, hplain, htype, hself.symm, rfl,
      sameAnswers_of_solver htype hsolver hplain⟩

/-- **Delayed templates mirror the plain ones** exactly apart from multisig scripts.  A
script is solved behind a delay as it is without, unless it is an m-of-n multisig script;
and what is solved as delayed is a delay and a script that is solved without it, unless it
is a multisig script that has one key fewer than it says. -/
theorem delayed_mirrors_iff {p : valtype} (hp : p.length ≤ 5) (s d : CScript) :
    Forward p s ∧ Backward d ↔ ¬ CountedMultisig s ∧ ¬ MiscountedDelayed d :=
  and_congr (forward_iff hp s) (backward_iff d)

/-- A delay of two bytes in front of a script hash. -/
theorem delayed_mirrors_scriptHash :
    Forward [0x10, 0x27] (hashScript (0x14 :: List.replicate 20 0)) ∧
        Backward (delayedBy [0x10, 0x27] (hashScript (0x14 :: List.replicate 20 0))) ↔
      ¬ CountedMultisig (hashScript (0x14 :: List.replicate 20 0)) ∧
        ¬ MiscountedDelayed (delayedBy [0x10, 0x27] (hashScript (0x14 :: List.replicate 20 0))) :=
  delayed_mirrors_iff (by decide) _ _

/-- One of one keys, `OP_1 <key> OP_1 OP_CHECKMULTISIG`. -/
def oneOfOne : CScript :=
  [UInt8.ofNat OP_1, 33] ++ 2 :: List.replicate 32 0 ++
    [UInt8.ofNat OP_1, UInt8.ofNat OP_CHECKMULTISIG]

/-- Behind an empty delay it is not solved. -/
theorem oneOfOne_not_mirrored :
    ¬ ∀ (p : valtype) (s d : CScript), p.length ≤ 5 → Forward p s ∧ Backward d := by
  intro h
  have hmatch : MatchesTemplate (baseTemplate .TX_MULTISIG) oneOfOne
      ([UInt8.ofNat 1] :: [2 :: List.replicate 32 0] ++ [[UInt8.ofNat 1]]) :=
    (matchTemplate_iff (by decide)).mp (by decide)
  have hcounted : CountedMultisig oneOfOne :=
    ⟨1, 1, _, ⟨hmatch, by decide, by decide⟩, le_rfl, le_rfl, rfl⟩
  have hno : ([] : valtype).length ≤ 5 := Nat.zero_le _
  exact (forward_iff hno oneOfOne).mp (h [] oneOfOne [] hno).1 hcounted

end Ziftrcoin.Spec
