/-
Module: Ziftrcoin.Proofs.TriedEviction
Purpose: Which entry of a full bucket of tried addresses gives way: what SelectTried
  inspects, what the position holds that it returns, and what MakeTried evicts.
Trusted boundary: none
Main exports: inspected, tried_eviction_iff
-/
import Ziftrcoin.Lib.Shuffling
import Ziftrcoin.Proofs.AddrCheck

namespace Ziftrcoin.Spec

open Ziftrcoin.Lib

/-! ### What is inspected -/

/-- The position that step `i` draws in a bucket of `nSize` entries. -/
def drawnPos (rnd : ℕ → ℕ) (nSize i : ℕ) : ℕ := GetRandInt (rnd i) (nSize - i) + i

/-- The entry that step `i` draws and compares. -/
def drawnTried (rnd : ℕ → ℕ) (vTried : List ℕ) (i : ℕ) : Option ℕ :=
  drawnEntry (drawnPos rnd vTried.length) vTried i

/-- The entries that are inspected in a full bucket. -/
def inspected (rnd : ℕ → ℕ) (vTried : List ℕ) : List ℕ :=
  (List.range ADDRMAN_TRIED_ENTRIES_INSPECT_ON_EVICT).filterMap (drawnTried rnd vTried)

namespace CAddrMan

/-- `nLastSuccess` of an id. -/
def lastSuccess (m : CAddrMan) (nId : ℕ) : ℤ :=
  ((m.mapInfo[nId]?).map CAddrInfo.nLastSuccess).getD 0

/-- The id is among the others, and none of them is older. -/
def LeastRecent (m : CAddrMan) (ns : List ℕ) (nId : ℕ) : Prop :=
  nId ∈ ns ∧ ∀ nId' ∈ ns, m.lastSuccess nId ≤ m.lastSuccess nId'

/-- `nLastSuccess` of what step `i` draws. -/
def drawnSuccess (m : CAddrMan) (rnd : ℕ → ℕ) (vTried : List ℕ) (i : ℕ) : ℤ :=
  ((drawnTried rnd vTried i).map m.lastSuccess).getD 0

/-- The first of `k` steps that draws an oldest entry. -/
def oldestDraw (m : CAddrMan) (rnd : ℕ → ℕ) (vTried : List ℕ) (k : ℕ) : Option ℕ :=
  firstLeast (m.drawnSuccess rnd vTried) k

/-- The first step that draws an oldest entry draws it from a place of one of the four
steps, and the step of that place draws an entry as old. -/
def OldestStays (m : CAddrMan) (rnd : ℕ → ℕ) (vTried : List ℕ) : Prop :=
  ∀ w, m.oldestDraw rnd vTried ADDRMAN_TRIED_ENTRIES_INSPECT_ON_EVICT = some w →
    drawnPos rnd vTried.length w < ADDRMAN_TRIED_ENTRIES_INSPECT_ON_EVICT ∧
      m.drawnSuccess rnd vTried (drawnPos rnd vTried.length w) = m.drawnSuccess rnd vTried w

end CAddrMan

theorem drawnPos_bounds (rnd : ℕ → ℕ) {nSize : ℕ} :
    ∀ i < nSize, i ≤ drawnPos rnd nSize i ∧ drawnPos rnd nSize i < nSize := by
  intro i hi
  have hlt := getRandInt_lt (r := rnd i) (Nat.sub_pos_of_lt hi)
  unfold drawnPos
  omega

theorem exists_drawnTried (rnd : ℕ → ℕ) {ys : List ℕ} {i : ℕ} (hi : i < ys.length) :
    ∃ n, drawnTried rnd ys i = some n ∧ n ∈ ys := by
  obtain ⟨n, hn⟩ := Option.isSome_iff_exists.mp
    (isSome_drawnEntry ys (drawnPos_bounds rnd i hi).2)
  exact ⟨n, hn, drawnEntry_mem hn⟩

namespace CAddrMan

variable {m : CAddrMan} {rnd : ℕ → ℕ} {ys : List ℕ}

theorem drawnSuccess_eq {i n : ℕ} {x : CAddrInfo} (hn : drawnTried rnd ys i = some n)
    (hx : m.mapInfo[n]? = some x) : m.drawnSuccess rnd ys i = x.nLastSuccess := by
  unfold drawnSuccess lastSuccess
  rw [hn, Option.map_some, Option.getD_some, hx]
  rfl

/-- The oldest entry of `k` steps with the position that it was drawn from. -/
def oldestSoFar (m : CAddrMan) (rnd : ℕ → ℕ) (ys : List ℕ) (k : ℕ) : Option (ℕ × ℕ) :=
  (m.oldestDraw rnd ys k).bind fun w =>
    (drawnTried rnd ys w).map fun n => (n, drawnPos rnd ys.length w)

/-- The loop of `SelectTried`, as long as the bucket is. -/
theorem inspectTried_spec (rnd : ℕ → ℕ) (hknows : m.Knows ys) (steps i : ℕ)
    (hle : i + steps ≤ ys.length) :
    m.inspectTried rnd steps i (shuffled (drawnPos rnd ys.length) i ys)
        (m.oldestSoFar rnd ys i) =
      some (shuffled (drawnPos rnd ys.length) (i + steps) ys,
        m.oldestSoFar rnd ys (i + steps)) := by
  induction steps generalizing i with
  | zero => rfl
  | succ steps ih =>
      have hi : i < ys.length := by omega
      have hpos := (drawnPos_bounds rnd i hi).2
      obtain ⟨n, hn, hmem⟩ := exists_drawnTried rnd hi
      obtain ⟨x, hx⟩ := hknows n hmem
      have hlen : (shuffled (drawnPos rnd ys.length) i ys).length = ys.length := length_shuffled i
      have hentry : (shuffled (drawnPos rnd ys.length) i ys)[drawnPos rnd ys.length i]? = some n :=
        hn
      have hfirst : (shuffled (drawnPos rnd ys.length) i ys)[i]? =
          some (shuffled (drawnPos rnd ys.length) i ys)[i] := List.getElem?_eq_getElem _
      have hswap : ((shuffled (drawnPos rnd ys.length) i ys).set (drawnPos rnd ys.length i)
            (shuffled (drawnPos rnd ys.length) i ys)[i]).set i n =
          shuffled (drawnPos rnd ys.length) (i + 1) ys := by
        rw [shuffled, swapAt, hentry, hfirst]
      have hnext := ih (i + 1) (by omega)
      rw [show i + 1 + steps = i + (steps + 1) by omega] at hnext
      have hdraw : GetRandInt (rnd i) (ys.length - i) + i = drawnPos rnd ys.length i := rfl
      rw [← hnext, inspectTried, if_pos (by omega)]
      simp only [hlen, hdraw, hentry, hfirst, hswap, Option.bind_eq_bind, Option.bind_some]
      -- the step keeps the older one of the two entries, the earlier one if they are as old
      cases hold : m.oldestDraw rnd ys i with
      | none =>
          have hrange : m.oldestDraw rnd ys (i + 1) = some i := firstLeast_succ_of_none hold
          simp only [oldestSoFar, hold, hrange, Option.bind_none, Option.bind_some, hn,
            Option.map_some]
      | some w =>
          have hw : w < i := (firstLeast_spec hold).1
          obtain ⟨nOld, hnOld, hmemOld⟩ := exists_drawnTried rnd (hw.trans hi)
          obtain ⟨xOld, hxOld⟩ := hknows nOld hmemOld
          have hrange : m.oldestDraw rnd ys (i + 1) = _ := firstLeast_succ_of_some hold
          simp only [drawnSuccess_eq hn hx, drawnSuccess_eq hnOld hxOld] at hrange
          simp only [oldestSoFar, hold, hrange, Option.bind_some, hnOld, Option.map_some, hx,
            hxOld]
          split
          · rw [Option.bind_some, hn, Option.map_some]
          · rw [Option.bind_some, hnOld, Option.map_some]

theorem selectTried_eq (rnd : ℕ → ℕ) (hknows : m.Knows ys) {i : ℕ} (hys : m.vvTried[i]? = some ys)
    (hfull : ADDRMAN_TRIED_ENTRIES_INSPECT_ON_EVICT ≤ ys.length) :
    ∃ w, m.oldestDraw rnd ys ADDRMAN_TRIED_ENTRIES_INSPECT_ON_EVICT = some w ∧
      m.SelectTried rnd i = some
        ({ m with
          vvTried := m.vvTried.set i (shuffled (drawnPos rnd ys.length)
            ADDRMAN_TRIED_ENTRIES_INSPECT_ON_EVICT ys) }, drawnPos rnd ys.length w) := by
  have hrun := inspectTried_spec rnd hknows ADDRMAN_TRIED_ENTRIES_INSPECT_ON_EVICT 0 (by omega)
  rw [Nat.zero_add] at hrun
  cases hw : m.oldestDraw rnd ys ADDRMAN_TRIED_ENTRIES_INSPECT_ON_EVICT with
  | none =>
      have hsome := isSome_firstLeast (m.drawnSuccess rnd ys) 3
      exact absurd hsome (by rw [show firstLeast _ (3 + 1) = none from hw]; decide)
  | some w =>
      have hlt := (firstLeast_spec hw).1
      obtain ⟨n, hn, -⟩ := exists_drawnTried rnd (hlt.trans_le hfull)
      refine ⟨w, rfl, ?_⟩
      have hstart : m.inspectTried rnd ADDRMAN_TRIED_ENTRIES_INSPECT_ON_EVICT 0 ys none =
          some (shuffled (drawnPos rnd ys.length) ADDRMAN_TRIED_ENTRIES_INSPECT_ON_EVICT ys,
            some (n, drawnPos rnd ys.length w)) := by
        refine hrun.trans ?_
        simp only [oldestSoFar, hw, Option.bind_some, hn, Option.map_some]
      simp only [SelectTried, hys, hstart, Option.bind_eq_bind, Option.bind_some]

theorem mem_inspected {n : ℕ} :
    n ∈ inspected rnd ys ↔
      ∃ i < ADDRMAN_TRIED_ENTRIES_INSPECT_ON_EVICT, drawnTried rnd ys i = some n := by
  simp only [inspected, List.mem_filterMap, List.mem_range]

theorem drawnSuccess_of_drawn {i n : ℕ} (hn : drawnTried rnd ys i = some n) :
    m.drawnSuccess rnd ys i = m.lastSuccess n := by
  unfold drawnSuccess
  rw [hn]
  rfl

/-- The position that is returned holds an oldest inspected entry just when the first
oldest entry was drawn from a place that an entry as old moved to. -/
theorem leastRecent_iff (hnodup : ys.Nodup)
    (hfull : ADDRMAN_TRIED_ENTRIES_INSPECT_ON_EVICT ≤ ys.length) {w n : ℕ}
    (hw : m.oldestDraw rnd ys ADDRMAN_TRIED_ENTRIES_INSPECT_ON_EVICT = some w)
    (hn : (shuffled (drawnPos rnd ys.length) ADDRMAN_TRIED_ENTRIES_INSPECT_ON_EVICT ys)[
      drawnPos rnd ys.length w]? = some n) :
    m.LeastRecent (inspected rnd ys) n ↔ m.OldestStays rnd ys := by
  have hplace := fun i hi => getElem?_shuffled ys (drawnPos_bounds rnd) hfull i hi
  have hwlt := (firstLeast_spec hw).1
  have hleast : ∀ i < ADDRMAN_TRIED_ENTRIES_INSPECT_ON_EVICT,
      m.drawnSuccess rnd ys w ≤ m.drawnSuccess rnd ys i := fun i hi =>
    (firstLeast_spec hw).2 i hi
  constructor
  · rintro ⟨hmem, hle⟩ w' hw'
    obtain rfl : w = w' := Option.some.inj (hw.symm.trans hw')
    obtain ⟨i, hi, hdrawn⟩ := mem_inspected.mp hmem
    have hlt := lt_of_drawnEntry (drawnPos_bounds rnd) hnodup hfull hn hi hdrawn
    rw [hplace _ hlt] at hn
    obtain ⟨nOld, hnOld, -⟩ := exists_drawnTried rnd (hwlt.trans_le hfull)
    have hsame := hle nOld (mem_inspected.mpr ⟨w, hwlt, hnOld⟩)
    rw [← drawnSuccess_of_drawn hnOld, ← drawnSuccess_of_drawn (m := m) hn] at hsame
    exact ⟨hlt, le_antisymm hsame (hleast _ hlt)⟩
  · intro hstays
    obtain ⟨hlt, hsame⟩ := hstays w hw
    rw [hplace _ hlt] at hn
    refine ⟨mem_inspected.mpr ⟨_, hlt, hn⟩, fun n' hn' => ?_⟩
    obtain ⟨i, hi, hdrawn⟩ := mem_inspected.mp hn'
    rw [← drawnSuccess_of_drawn (m := m) hn, hsame, ← drawnSuccess_of_drawn hdrawn]
    exact hleast i hi

/-- The draws look at the bucket's own entries only. -/
theorem drawnSuccess_congr {m' : CAddrMan}
    (h : ∀ n ∈ ys, m'.mapInfo[n]? = m.mapInfo[n]?) (rnd : ℕ → ℕ) :
    m'.drawnSuccess rnd ys = m.drawnSuccess rnd ys := by
  funext i
  unfold drawnSuccess
  cases hn : drawnTried rnd ys i with
  | none => rfl
  | some n =>
      unfold lastSuccess
      rw [Option.map_some, Option.map_some, h n (drawnEntry_mem hn)]

end CAddrMan

/-! ### Evictions -/

/-- `MakeTried` into a full bucket: the bucket is shuffled as `SelectTried` does it, and
the id takes the place of the entry at the position that `SelectTried` returns. -/
theorem makeTried_full {m : CAddrMan} (hm : m.Consistent) {crypto : Crypto} (rnd : ℕ → ℕ)
    {nId nOrigin nKBucket : ℕ} {info : CAddrInfo} (hinfo : m.mapInfo[nId]? = some info)
    (hnew : info.fInTried = false) {origin : Std.TreeSet ℕ}
    (horigin : m.vvNew[nOrigin]? = some origin) (hcontains : origin.contains nId = true)
    (hbucket : info.GetTriedBucket crypto m.nKey = nKBucket) {vTried : List ℕ}
    (hys : m.vvTried[nKBucket]? = some vTried)
    (hfull : ADDRMAN_TRIED_BUCKET_SIZE ≤ vTried.length) :
    ∃ m' w, m.MakeTried crypto rnd info nId nOrigin = some m' ∧
      m.oldestDraw rnd vTried ADDRMAN_TRIED_ENTRIES_INSPECT_ON_EVICT = some w ∧
      m'.vvTried[nKBucket]? = some ((shuffled (drawnPos rnd vTried.length)
        ADDRMAN_TRIED_ENTRIES_INSPECT_ON_EVICT vTried).set
          (drawnPos rnd vTried.length w) nId) := by
  have hout := Tidy.takeOut hm hinfo hnew
  have hinspect : ADDRMAN_TRIED_ENTRIES_INSPECT_ON_EVICT ≤ vTried.length :=
    le_trans (by decide) hfull
  have hknows : (m.takeOut nId info).Knows vTried := fun n hn =>
    (hout.info_of_tried (List.mem_of_getElem? hys) hn).imp fun _ h => h.1
  obtain ⟨w, hw, hselect⟩ := CAddrMan.selectTried_eq rnd hknows hys hinspect
  obtain ⟨ys', p, nOld, infoOld, c, hselect', -, -, -, -, -, hrun⟩ :=
    hout.replaceTried_eq hys (Nat.lt_of_lt_of_le (by decide) hfull) crypto rnd nId nOrigin
  -- the same shuffle, seen from the call that replaces the entry
  have hpair := Option.some.inj (hselect.symm.trans hselect')
  have hi : nKBucket < m.vvTried.length := (List.getElem?_eq_some_iff.mp hys).1
  have hbuckets := congrArg (fun result => result.1.vvTried[nKBucket]?) hpair
  change (m.vvTried.set nKBucket _)[nKBucket]? = (m.vvTried.set nKBucket ys')[nKBucket]?
    at hbuckets
  rw [List.getElem?_set_self hi, List.getElem?_set_self hi] at hbuckets
  obtain rfl := Option.some.inj hbuckets
  obtain rfl : drawnPos rnd vTried.length w = p := congrArg Prod.snd hpair
  have hplaced : (m.takeOut nId info).placeTried crypto rnd nId
      (info.GetTriedBucket crypto m.nKey) nOrigin =
      (m.takeOut nId info).replaceTried crypto rnd nId nKBucket nOrigin := by
    rw [hbucket]
    unfold CAddrMan.placeTried
    rw [show (m.takeOut nId info).vvTried[nKBucket]? = some vTried from hys]
    exact if_neg (not_lt.mpr hfull)
  have hsame : (m.takeOut nId info).drawnSuccess rnd vTried = m.drawnSuccess rnd vTried := by
    refine CAddrMan.drawnSuccess_congr (fun n hn => ?_) rnd
    refine CAddrMan.mapInfo_setInfo_of_ne _ _ fun heq => ?_
    obtain ⟨x, hx, htried⟩ := Tidy.info_of_tried hm (List.mem_of_getElem? hys) hn
    rw [heq, hinfo] at hx
    obtain rfl := Option.some.inj hx
    exact absurd (hnew.symm.trans htried) Bool.false_ne_true
  have hcall := (Tidy.makeTried_eq hm hinfo horigin hcontains crypto rnd).trans
    (congrArg (Option.map _) (hplaced.trans hrun))
  refine ⟨_, w, hcall, ?_, List.getElem?_set_self hi⟩
  unfold CAddrMan.oldestDraw at hw ⊢
  rwa [hsame] at hw

/-- For a full bucket of tried addresses and any draws: `SelectTried` only reorders the
bucket, and `MakeTried` puts the new id in the place of one entry.  The entry at the
position that is returned, which is the one that gives way, is an oldest one of those that
were inspected just when the draw of the first oldest entry left one as old behind. -/
theorem tried_eviction_iff {m : CAddrMan} (hm : m.Consistent) {nKBucket : ℕ}
    {vTried : List ℕ} (hys : m.vvTried[nKBucket]? = some vTried)
    (hfull : ADDRMAN_TRIED_BUCKET_SIZE ≤ vTried.length) (rnd : ℕ → ℕ) :
    (∃ vTried' nPos nOld,
      m.SelectTried rnd nKBucket =
        some ({ m with vvTried := m.vvTried.set nKBucket vTried' }, nPos) ∧
      vTried'.Perm vTried ∧ vTried'[nPos]? = some nOld ∧
      (m.LeastRecent (inspected rnd vTried) nOld ↔ m.OldestStays rnd vTried) ∧
    ∀ (crypto : Crypto) (nId nOrigin : ℕ) (info : CAddrInfo) (origin : Std.TreeSet ℕ),
      m.mapInfo[nId]? = some info → info.fInTried = false →
      m.vvNew[nOrigin]? = some origin → origin.contains nId = true →
      info.GetTriedBucket crypto m.nKey = nKBucket →
        ∃ m', m.MakeTried crypto rnd info nId nOrigin = some m' ∧
          m'.vvTried[nKBucket]? = some (vTried'.set nPos nId)) := by
  have hinspect : ADDRMAN_TRIED_ENTRIES_INSPECT_ON_EVICT ≤ vTried.length :=
    le_trans (by decide) hfull
  have hmem := List.mem_of_getElem? hys
  have hknows : m.Knows vTried := fun n hn =>
    (Tidy.info_of_tried hm hmem hn).imp fun _ h => h.1
  have hnodup : vTried.Nodup := (List.nodup_flatten.mp hm.triedOnce).1 _ hmem
  obtain ⟨w, hw, hselect⟩ := CAddrMan.selectTried_eq rnd hknows hys hinspect
  have hwlt := (firstLeast_spec hw).1.trans_le hinspect
  have hpos : drawnPos rnd vTried.length w < (shuffled (drawnPos rnd vTried.length)
      ADDRMAN_TRIED_ENTRIES_INSPECT_ON_EVICT vTried).length := by
    rw [length_shuffled]
    exact (drawnPos_bounds rnd w hwlt).2
  have hold := List.getElem?_eq_getElem hpos
  refine ⟨_, _, _, hselect, shuffled_perm _ _ _, hold,
    CAddrMan.leastRecent_iff hnodup hinspect hw hold, ?_⟩
  intro crypto nId nOrigin info origin hinfo hnew horigin hcontains hbucket
  obtain ⟨m', w', hrun, hw', hafter⟩ :=
    makeTried_full hm rnd hinfo hnew horigin hcontains hbucket hys hfull
  obtain rfl : w = w' := Option.some.inj (hw.symm.trans hw')
  exact ⟨m', hrun, hafter⟩

/-! ### A full bucket -/

/-- Hash functions that put every address into the first bucket. -/
def crowdedCrypto : Crypto := { smallCrypto with Hash := fun _ => 0 }

/-- 8.8.8.`i` and a port. -/
def crowdedService (i : ℕ) : CService :=
  { ip := Vector.ofFn fun k =>
      [0, 0, 0, 0, 0, 0, 0, 0, 0, 0, 0xff, 0xff, 8, 8, 8, i.toUInt8].getD k 0
    port := 10333 }

/-- Addresses are added and become tried ones, one second after the other. -/
def crowdedCalls : List AddrManCall :=
  (List.range 64).flatMap fun i =>
    [.Add (fun _ => 0) (fun _ => 1400000000)
        { toCService := crowdedService i, nServices := 1, nTime := 1400000000 }
        (crowdedService i).toCNetAddr 0,
      .Good (fun _ => 0) (crowdedService i) (1400000001 + i)]

/-- The bucket of the crowded manager, and the position and the entry that `SelectTried`
chooses from it where each draw is 1, with two times of success. -/
theorem crowded_run :
    (AddrManCall.runAll crowdedCrypto crowdedCalls (CAddrMan.new [1, 2])).map (fun m =>
        (m.vvTried[0]?,
          (m.SelectTried (fun _ => 1) 0).map fun result =>
            (result.2, (result.1.vvTried[0]?).bind fun vTried => vTried[result.2]?),
          m.lastSuccess 1, m.lastSuccess 2)) =
      some (some (List.range 64), some (1, some 2), 1400000002, 1400000003) := by
  decide +kernel

theorem crowdedCalls_times : ∀ call ∈ crowdedCalls, call.GoodTime ∧ call.AttemptTime := by
  intro call hcall
  obtain ⟨i, -, hcall⟩ := List.mem_flatMap.mp hcall
  rcases List.mem_cons.mp hcall with rfl | hcall
  · exact ⟨trivial, trivial⟩
  · rw [List.mem_singleton] at hcall
    subst hcall
    refine ⟨?_, trivial⟩
    change (0 : ℤ) < 1400000001 + i
    omega

theorem exists_crowded :
    ∃ m, AddrManCall.runAll crowdedCrypto crowdedCalls (CAddrMan.new [1, 2]) = some m ∧
      m.Consistent ∧ m.vvTried[0]? = some (List.range 64) := by
  obtain ⟨m, hrun, hm⟩ := AddrManCall.runAll_consistent crowdedCrypto
    (CAddrMan.new_consistent [1, 2]) crowdedCalls_times
  have hfacts := crowded_run
  rw [hrun, Option.map_some] at hfacts
  exact ⟨m, hrun, hm, congrArg Prod.fst (Option.some.inj hfacts)⟩

/-- Each step draws its own place, and leaves its entry there. -/
theorem tried_eviction_crowded :
    ∃ (m : CAddrMan) (vTried' : List ℕ) (nPos nOld : ℕ),
      m.Consistent ∧ m.vvTried[0]? = some (List.range 64) ∧
      m.SelectTried (fun _ => 0) 0 =
        some ({ m with vvTried := m.vvTried.set 0 vTried' }, nPos) ∧
      vTried'[nPos]? = some nOld ∧
      m.LeastRecent (inspected (fun _ => 0) (List.range 64)) nOld := by
  obtain ⟨m, -, hm, hys⟩ := exists_crowded
  obtain ⟨vTried', nPos, nOld, hselect, -, hold, hleast, -⟩ :=
    tried_eviction_iff hm hys (by decide) (fun _ => 0)
  refine ⟨m, vTried', nPos, nOld, hm, hys, hselect, hold, hleast.mpr fun w hw => ?_⟩
  have hw4 := (firstLeast_spec hw).1
  have hstay : drawnPos (fun _ => 0) (List.range 64).length w = w := by
    unfold drawnPos GetRandInt
    rw [Nat.zero_mod, ite_self, Nat.zero_add]
  rw [hstay]
  exact ⟨hw4, rfl⟩

/-- Each step draws the place after its own.  The oldest entry that it finds moves to the
front, and the position that is returned holds a younger one. -/
theorem not_tried_eviction :
    ∃ (calls : List AddrManCall) (m m' : CAddrMan) (vTried vTried' : List ℕ) (rnd : ℕ → ℕ)
      (nPos nOld : ℕ),
      (∀ call ∈ calls, call.GoodTime ∧ call.AttemptTime) ∧
      AddrManCall.runAll crowdedCrypto calls (CAddrMan.new [1, 2]) = some m ∧ m.Consistent ∧
      m.vvTried[0]? = some vTried ∧ ADDRMAN_TRIED_BUCKET_SIZE ≤ vTried.length ∧
      m.SelectTried rnd 0 = some (m', nPos) ∧ m'.vvTried[0]? = some vTried' ∧
      vTried'[nPos]? = some nOld ∧ ¬m.LeastRecent (inspected rnd vTried) nOld := by
  obtain ⟨m, hrun, hm, hys⟩ := exists_crowded
  have hfacts := crowded_run
  rw [hrun, Option.map_some, Option.some_inj, Prod.mk.injEq, Prod.mk.injEq,
    Prod.mk.injEq] at hfacts
  obtain ⟨-, hselect, hone, htwo⟩ := hfacts
  obtain ⟨⟨m', nPos⟩, hselect', hpair⟩ := Option.map_eq_some_iff.mp hselect
  obtain ⟨rfl, hold⟩ := Prod.mk.inj hpair
  obtain ⟨vTried', hys', hold⟩ := Option.bind_eq_some_iff.mp hold
  refine ⟨crowdedCalls, m, m', _, vTried', fun _ => 1, _, 2, crowdedCalls_times, hrun, hm, hys,
    by decide, hselect', hys', hold, fun hleast => ?_⟩
  have hle := hleast.2 1 (by decide)
  rw [hone, htwo] at hle
  exact absurd hle (by decide)

end Ziftrcoin.Spec
