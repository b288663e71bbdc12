/-
Module: Ziftrcoin.Proofs.AddrCheck
Purpose: The consistency check of an address manager finds nothing, whatever
  calls were made, and what a manager is like when it finds nothing.
Trusted boundary: none
Main exports: CAddrMan.Consistent.check, CAddrMan.checked_of_check
-/
import Ziftrcoin.Lib.Maps
import Ziftrcoin.Proofs.AddrCalls
import Ziftrcoin.Proofs.SmallNetwork

namespace Ziftrcoin.Spec

open Ziftrcoin.Lib

/-! ### The check -/

/-- What the check asks of an entry. -/
structure CAddrMan.Passes (m : CAddrMan) (n : ℕ) (x : CAddrInfo) : Prop where
  tried : x.fInTried = true → x.nLastSuccess ≠ 0 ∧ x.nRefCount = 0
  new : x.fInTried = false → 0 < x.nRefCount ∧ x.nRefCount ≤ ADDRMAN_NEW_BUCKETS_PER_ADDRESS
  addr : m.mapAddr x.toCNetAddr = some n
  position : x.position.bind (fun pos => m.vRandom[pos]?) = some n
  lastTry : 0 ≤ x.nLastTry
  lastSuccess : 0 ≤ x.nLastSuccess

/-- The entries were sorted into tried and new ones. -/
structure SortedInto (infos : List (ℕ × CAddrInfo)) (setTried : Std.TreeSet ℕ)
    (mapNew : Std.TreeMap ℕ ℤ) : Prop where
  tried : ∀ n, setTried.contains n = true ↔ ∃ x, (n, x) ∈ infos ∧ x.fInTried = true
  new : ∀ n c, mapNew[n]? = some c ↔ ∃ x, (n, x) ∈ infos ∧ x.fInTried = false ∧ x.nRefCount = c

namespace SortedInto

variable {infos infos' : List (ℕ × CAddrInfo)} {setTried : Std.TreeSet ℕ}
  {mapNew : Std.TreeMap ℕ ℤ} {n : ℕ} {x : CAddrInfo}

theorem congr (h : SortedInto infos setTried mapNew) (hmem : ∀ p, p ∈ infos ↔ p ∈ infos') :
    SortedInto infos' setTried mapNew := by
  constructor
  · intro n
    simp only [h.tried n, hmem]
  · intro n c
    simp only [h.new n c, hmem]

theorem cons_tried (h : SortedInto infos setTried mapNew) (htried : x.fInTried = true) :
    SortedInto ((n, x) :: infos) (setTried.insert n) mapNew := by
  constructor
  · intro n'
    rw [contains_insert_iff, h.tried n']
    constructor
    · rintro (rfl | ⟨y, hy, hyt⟩)
      · exact ⟨x, List.mem_cons_self, htried⟩
      · exact ⟨y, List.mem_cons_of_mem _ hy, hyt⟩
    · rintro ⟨y, hy, hyt⟩
      rcases List.mem_cons.mp hy with heq | hy
      · exact .inl (congrArg Prod.fst heq).symm
      · exact .inr ⟨y, hy, hyt⟩
  · intro n' c
    rw [h.new n' c]
    constructor
    · rintro ⟨y, hy, hyc⟩
      exact ⟨y, List.mem_cons_of_mem _ hy, hyc⟩
    · rintro ⟨y, hy, hnew, hyc⟩
      rcases List.mem_cons.mp hy with heq | hy
      · cases heq
        exact absurd (hnew.symm.trans htried) Bool.false_ne_true
      · exact ⟨y, hy, hnew, hyc⟩

theorem cons_new (h : SortedInto infos setTried mapNew) (hn : n ∉ infos.map Prod.fst)
    (hnew : x.fInTried = false) :
    SortedInto ((n, x) :: infos) setTried (mapNew.insert n x.nRefCount) := by
  constructor
  · intro n'
    rw [h.tried n']
    constructor
    · rintro ⟨y, hy, hyt⟩
      exact ⟨y, List.mem_cons_of_mem _ hy, hyt⟩
    · rintro ⟨y, hy, hyt⟩
      rcases List.mem_cons.mp hy with heq | hy
      · cases heq
        exact absurd (hnew.symm.trans hyt) Bool.false_ne_true
      · exact ⟨y, hy, hyt⟩
  · intro n' c
    by_cases hne : n' = n
    · subst hne
      rw [Std.TreeMap.getElem?_insert_self]
      constructor
      · intro hc
        exact ⟨x, List.mem_cons_self, hnew, Option.some.inj hc⟩
      · rintro ⟨y, hy, -, hyc⟩
        rcases List.mem_cons.mp hy with heq | hy
        · cases heq
          rw [hyc]
        · exact absurd (List.mem_map_of_mem hy) hn
    · rw [Std.TreeMap.getElem?_insert, if_neg (by simpa using Ne.symm hne), h.new n' c]
      constructor
      · rintro ⟨y, hy, hyc⟩
        exact ⟨y, List.mem_cons_of_mem _ hy, hyc⟩
      · rintro ⟨y, hy, hyc⟩
        rcases List.mem_cons.mp hy with heq | hy
        · exact absurd (congrArg Prod.fst heq) hne
        · exact ⟨y, hy, hyc⟩

/-- An entry goes from those that are left to those that have been seen. -/
theorem mem_moved (infos before : List (ℕ × CAddrInfo)) (p e : ℕ × CAddrInfo) :
    e ∈ infos ++ p :: before ↔ e ∈ p :: infos ++ before :=
  List.perm_middle.mem_iff

theorem nodup_moved {infos before : List (ℕ × CAddrInfo)} {p : ℕ × CAddrInfo}
    (h : ((p :: infos ++ before).map Prod.fst).Nodup) :
    ((infos ++ p :: before).map Prod.fst).Nodup ∧ p.1 ∉ before.map Prod.fst := by
  refine ⟨(List.perm_middle.map Prod.fst).nodup_iff.mpr h, fun hmem => ?_⟩
  rw [List.cons_append, List.map_cons, List.nodup_cons, List.map_append] at h
  exact h.1 (List.mem_append_right _ hmem)

end SortedInto

namespace CAddrMan

variable {m : CAddrMan}

theorem checkInfos_cons {n : ℕ} {x : CAddrInfo} {infos : List (ℕ × CAddrInfo)}
    {setTried : Std.TreeSet ℕ} {mapNew : Std.TreeMap ℕ ℤ} (h : m.Passes n x) :
    m.checkInfos ((n, x) :: infos) setTried mapNew =
      if x.fInTried then m.checkInfos infos (setTried.insert n) mapNew
      else m.checkInfos infos setTried (mapNew.insert n x.nRefCount) := by
  have hlastTry := not_lt.mpr h.lastTry
  have hlastSuccess := not_lt.mpr h.lastSuccess
  cases htried : x.fInTried with
  | true =>
      obtain ⟨hsuccess, hrefs⟩ := h.tried htried
      simp [checkInfos, htried, hsuccess, hrefs, h.addr, h.position, hlastTry, hlastSuccess]
  | false =>
      obtain ⟨hpos, hmax⟩ := h.new htried
      have hrange : ¬(x.nRefCount < 0 ∨ x.nRefCount > ADDRMAN_NEW_BUCKETS_PER_ADDRESS) := by omega
      simp [checkInfos, htried, hrange, hpos.ne', h.addr, h.position, hlastTry, hlastSuccess]

theorem checkInfos_eq : ∀ {infos before : List (ℕ × CAddrInfo)} {setTried : Std.TreeSet ℕ}
    {mapNew : Std.TreeMap ℕ ℤ}, (∀ p ∈ infos, m.Passes p.1 p.2) →
      ((infos ++ before).map Prod.fst).Nodup → SortedInto before setTried mapNew →
        ∃ setTried' mapNew', m.checkInfos infos setTried mapNew = .ok (setTried', mapNew') ∧
          SortedInto (infos ++ before) setTried' mapNew'
  | [], before, setTried, mapNew, _, _, hsorted => ⟨setTried, mapNew, rfl, hsorted⟩
  | (n, x) :: infos, before, setTried, mapNew, hpasses, hnodup, hsorted => by
      rw [checkInfos_cons (hpasses (n, x) List.mem_cons_self)]
      have hrest : ∀ p ∈ infos, m.Passes p.1 p.2 := fun p hp =>
        hpasses p (List.mem_cons_of_mem _ hp)
      obtain ⟨hmoved, hn⟩ := SortedInto.nodup_moved hnodup
      have hmem := SortedInto.mem_moved infos before (n, x)
      cases htried : x.fInTried with
      | true =>
          obtain ⟨s, t, hrun, hs⟩ := checkInfos_eq hrest hmoved (hsorted.cons_tried htried)
          exact ⟨s, t, hrun, hs.congr hmem⟩
      | false =>
          obtain ⟨s, t, hrun, hs⟩ := checkInfos_eq hrest hmoved (hsorted.cons_new hn htried)
          exact ⟨s, t, hrun, hs.congr hmem⟩

theorem checkTried_eq : ∀ {ns : List ℕ} {setTried : Std.TreeSet ℕ}, ns.Nodup →
    (∀ n, setTried.contains n = true ↔ n ∈ ns) →
      ∃ left, checkTried ns setTried = .ok left ∧ left.size = 0
  | [], setTried, _, hmem => by
      refine ⟨setTried, rfl, ?_⟩
      rw [← Std.TreeSet.length_toList, List.length_eq_zero_iff]
      refine List.eq_nil_iff_forall_not_mem.mpr fun n hn => ?_
      exact List.not_mem_nil ((hmem n).mp (Std.TreeSet.mem_toList.mp hn))
  | n :: ns, setTried, hnodup, hmem => by
      rw [List.nodup_cons] at hnodup
      rw [checkTried, if_pos ((hmem n).mpr List.mem_cons_self)]
      refine checkTried_eq hnodup.2 fun n' => ?_
      rw [contains_erase_iff, hmem n', List.mem_cons]
      constructor
      · rintro ⟨hne, rfl | hmem⟩
        · exact absurd rfl hne
        · exact hmem
      · intro hmem
        exact ⟨fun heq => hnodup.1 (heq ▸ hmem), .inr hmem⟩

theorem getElem?_of_mem_keys {t : Std.TreeMap ℕ ℤ} {n : ℕ} (h : n ∈ t.keys) :
    ∃ c, t[n]? = some c :=
  Option.isSome_iff_exists.mp
    (Std.TreeMap.isSome_getElem?_eq_contains.trans (Std.TreeMap.mem_keys.mp h))

/-- Every reference is counted down once. -/
theorem checkNew_eq : ∀ {ns : List ℕ} {mapNew : Std.TreeMap ℕ ℤ},
    (∀ (n : ℕ) (c : ℤ), mapNew[n]? = some c ↔ 0 < ns.count n ∧ c = (ns.count n : ℤ)) →
      ∃ left, checkNew ns mapNew = .ok left ∧ left.size = 0
  | [], mapNew, hcount => by
      refine ⟨mapNew, rfl, ?_⟩
      rw [← Std.TreeMap.length_keys, List.length_eq_zero_iff]
      refine List.eq_nil_iff_forall_not_mem.mpr fun n hn => ?_
      obtain ⟨c, hc⟩ := getElem?_of_mem_keys hn
      exact absurd ((hcount n c).mp hc).1 (Nat.lt_irrefl 0)
  | n :: ns, mapNew, hcount => by
      have hn : mapNew[n]? = some ((n :: ns).count n : ℤ) :=
        (hcount n _).mpr ⟨by simp, rfl⟩
      rw [checkNew, hn]
      dsimp only
      refine checkNew_eq fun n' c => ?_
      have hless : ((n :: ns).count n : ℤ) - 1 = ns.count n := by simp
      rw [hless]
      by_cases hne : n' = n
      · subst hne
        split
        · rename_i hzero
          have hnone : ns.count n' = 0 := Int.natCast_eq_zero.mp hzero
          simp [hnone]
        · rename_i hzero
          have hpos : 0 < ns.count n' := Nat.pos_of_ne_zero fun h => hzero (by rw [h]; rfl)
          simp only [Std.TreeMap.getElem?_insert_self, Option.some.injEq, hpos, true_and]
          exact eq_comm
      · have hcons : (n :: ns).count n' = ns.count n' := List.count_cons_of_ne (Ne.symm hne)
        rw [← hcons, ← hcount n' c]
        split
        · rw [Std.TreeMap.getElem?_erase, if_neg (by simpa using Ne.symm hne)]
        · rw [Std.TreeMap.getElem?_insert, if_neg (by simpa using Ne.symm hne)]

theorem Consistent.passes (h : m.Consistent) {n : ℕ} {x : CAddrInfo}
    (hx : m.mapInfo[n]? = some x) : m.Passes n x where
  tried := fun htried =>
    ⟨((h.sound n x hx).tried htried).1.ne', ((h.sound n x hx).tried htried).2⟩
  new := by
    intro hnew
    refine ⟨?_, (h.sound n x hx).refCount⟩
    rcases h.settled n x hx with htried | hpos | hlimbo
    · exact absurd (hnew.symm.trans htried) Bool.false_ne_true
    · exact hpos
    · exact absurd hlimbo (Finset.notMem_empty n)
  addr := (h.addr x.toCNetAddr n).mpr ⟨x, hx, rfl⟩
  position := by
    obtain ⟨i, hi, hget⟩ := Tidy.position_eq h hx
    rw [hi, Option.bind_some, hget]
  lastTry := (h.sound n x hx).lastTry
  lastSuccess := (h.sound n x hx).lastSuccess

/-- The check finds nothing. -/
theorem Consistent.check (h : m.Consistent) : m.Check_ = 0 := by
  have hnodup := nodup_keys m.mapInfo
  have hmem : ∀ n x, (n, x) ∈ m.mapInfo.toList ↔ m.mapInfo[n]? = some x :=
    fun n x => Std.TreeMap.mem_toList_iff_getElem?_eq_some
  obtain ⟨setTried, mapNew, hinfos, hsorted⟩ :=
    @checkInfos_eq m m.mapInfo.toList [] ∅ ∅ (fun p hp => h.passes ((hmem p.1 p.2).mp hp))
      (by rw [List.append_nil]; exact hnodup) ⟨fun n => by simp, fun n c => by simp⟩
  rw [List.append_nil] at hsorted
  have htried : ∀ n, setTried.contains n = true ↔ n ∈ m.vvTried.flatten := by
    intro n
    rw [hsorted.tried n, show m.vvTried = m.tables.vvTried from rfl, h.tried n]
    simp only [hmem]
    rfl
  have hnew : ∀ (n : ℕ) (c : ℤ), mapNew[n]? = some c ↔
      0 < (m.vvNew.flatMap Std.TreeSet.toList).count n ∧
        c = ((m.vvNew.flatMap Std.TreeSet.toList).count n : ℤ) := by
    intro n c
    rw [hsorted.new n c, count_flatMap_toList]
    constructor
    · rintro ⟨x, hx, hfresh, rfl⟩
      have hx := (hmem n x).mp hx
      have hrefs : x.nRefCount = holders m.vvNew n + 0 := h.refs n x hx
      have hpos := ((h.passes hx).new hfresh).1
      omega
    · rintro ⟨hpos, rfl⟩
      have hsum : (0 : ℤ) < holders m.tables.vvNew n + (0 : ℕ → ℤ) n := by
        rw [Pi.zero_apply, add_zero]
        exact Int.natCast_pos.mpr hpos
      obtain ⟨x, hx⟩ := Option.isSome_iff_exists.mp (h.known n hsum)
      have hrefs : x.nRefCount = holders m.vvNew n + 0 := h.refs n x hx
      refine ⟨x, (hmem n x).mpr hx, ?_, by rw [hrefs, add_zero]⟩
      by_contra hne
      have hzero := ((h.passes hx).tried (Bool.eq_true_of_not_eq_false hne)).2
      omega
  -- the tried ones are those of the buckets, and together with the new ones they are all
  have hsizeTried : (setTried.size : ℤ) = m.nTried := by
    have hperm : setTried.toList.Perm m.vvTried.flatten := by
      refine (List.perm_ext_iff_of_nodup (nodup_toList setTried) h.triedOnce).mpr fun n => ?_
      exact Std.TreeSet.mem_toList.trans (htried n)
    rw [← Std.TreeSet.length_toList, hperm.length_eq]
    exact h.nTried.symm
  have hsizeAll : setTried.size + mapNew.size = m.vRandom.length := by
    have hperm : (setTried.toList ++ mapNew.keys).Perm m.vRandom := by
      refine (List.perm_ext_iff_of_nodup ?_ h.placed.nodup).mpr fun n => ?_
      · refine (nodup_toList setTried).append Std.TreeMap.nodup_keys fun n hn hn' => ?_
        obtain ⟨x, hx, hxt⟩ := (hsorted.tried n).mp (Std.TreeSet.mem_toList.mp hn)
        obtain ⟨c, hc⟩ := getElem?_of_mem_keys hn'
        obtain ⟨y, hy, hyt, -⟩ := (hsorted.new n c).mp hc
        rw [hmem] at hx hy
        rw [hx] at hy
        obtain rfl := Option.some.inj hy
        exact absurd (hyt.symm.trans hxt) Bool.false_ne_true
      · rw [List.mem_append, h.placed.mem_iff, Tables.place, Option.isSome_map]
        constructor
        · rintro (hn | hn)
          · obtain ⟨x, hx, -⟩ := (hsorted.tried n).mp (Std.TreeSet.mem_toList.mp hn)
            exact Option.isSome_iff_exists.mpr ⟨x, (hmem n x).mp hx⟩
          · obtain ⟨c, hc⟩ := getElem?_of_mem_keys hn
            obtain ⟨x, hx, -⟩ := (hsorted.new n c).mp hc
            exact Option.isSome_iff_exists.mpr ⟨x, (hmem n x).mp hx⟩
        · intro hn
          obtain ⟨x, hx⟩ := Option.isSome_iff_exists.mp hn
          cases hxt : x.fInTried with
          | true =>
              exact .inl (Std.TreeSet.mem_toList.mpr
                ((hsorted.tried n).mpr ⟨x, (hmem n x).mpr hx, hxt⟩))
          | false =>
              refine .inr (Std.TreeMap.mem_keys.mpr ?_)
              rw [Std.TreeMap.mem_iff_isSome_getElem?,
                (hsorted.new n _).mpr ⟨x, (hmem n x).mpr hx, hxt, rfl⟩]
              rfl
    rw [← hperm.length_eq, List.length_append, Std.TreeSet.length_toList, Std.TreeMap.length_keys]
  have hcount : (m.vRandom.length : ℤ) = m.nTried + m.nNew + 0 := h.count
  have hsizeNew : (mapNew.size : ℤ) = m.nNew := by omega
  have honce : m.vvTried.flatten.Nodup := h.triedOnce
  obtain ⟨leftTried, hcheckTried, hleftTried⟩ := checkTried_eq honce htried
  obtain ⟨leftNew, hcheckNew, hleftNew⟩ := checkNew_eq hnew
  have hall : (m.vRandom.length : ℤ) = m.nTried + m.nNew := by omega
  have hrun : m.checkAll = .ok () := by
    simp [checkAll, hall, hinfos, hsizeTried, hsizeNew, hcheckTried, hcheckNew, hleftTried,
      hleftNew]
  rw [Check_, hrun]

theorem new_consistent (nKey : valtype) : (new nKey).Consistent := by
  have hflatten : (new nKey).tables.vvTried.flatten = [] := List.flatten_replicate_nil
  have hinfo : ∀ n, (new nKey).tables.info n = none := fun n => rfl
  have hholders : ∀ n, holders (new nKey).tables.vvNew n = 0 := by
    intro n
    refine List.countP_eq_zero.mpr fun b hb => ?_
    rw [List.eq_of_mem_replicate hb]
    simp
  exact
    { fresh := fun n x hx => by cases hx
      placed := Placed.nil
      addr := fun a n => ⟨fun h => (nomatch h), fun ⟨_, hx, _⟩ => (nomatch hx)⟩
      sound := fun n x hx => by cases hx
      refs := fun n x hx => by cases hx
      known := fun n hn => by simp [hholders] at hn
      settled := fun n x hx => by cases hx
      unsettled := fun n hn => absurd hn (Finset.notMem_empty n)
      triedOnce := by rw [hflatten]; exact List.nodup_nil
      tried := by
        intro n
        rw [hflatten]
        simp [hinfo]
      nTried := by rw [hflatten]; rfl
      count := rfl
      newCount := List.length_replicate
      newSize := fun b hb => by
        rw [List.eq_of_mem_replicate hb]
        decide
      triedCount := List.length_replicate
      triedSize := fun b hb => by
        rw [List.eq_of_mem_replicate hb]
        decide }

end CAddrMan

/-! ### Runs -/

namespace AddrManCall

/-- Calls one after another. -/
def runAll (crypto : Crypto) (calls : List AddrManCall) (m : CAddrMan) : Option CAddrMan :=
  calls.foldlM (fun m call => call.run crypto m) m

/-- `Good_` is called with a positive time. -/
def GoodTime : AddrManCall → Prop
  | .Good _ _ nTime => 0 < nTime
  | _ => True

/-- `Attempt_` is not called with a time before 1970. -/
def AttemptTime : AddrManCall → Prop
  | .Attempt _ nTime => 0 ≤ nTime
  | _ => True

theorem run_consistent {m : CAddrMan} (h : m.Consistent) (crypto : Crypto) {call : AddrManCall}
    (hgood : call.GoodTime) (hattempt : call.AttemptTime) :
    ∃ m', call.run crypto m = some m' ∧ m'.Consistent := by
  cases call with
  | Add rnd now addr source nTimePenalty =>
      obtain ⟨m', fNew, hrun, hm'⟩ := h.add crypto rnd now addr source nTimePenalty
      exact ⟨m', congrArg (Option.map Prod.fst) hrun, hm'⟩
  | Good rnd addr nTime => exact h.good crypto rnd addr hgood
  | Attempt addr nTime => exact ⟨_, rfl, h.attempt addr hattempt⟩
  | Connected addr nTime => exact ⟨_, rfl, h.connected addr nTime⟩
  | GetAddr rnd =>
      obtain ⟨m', vAddr, hrun, hm'⟩ := h.getAddr rnd
      exact ⟨m', congrArg (Option.map Prod.fst) hrun, hm'⟩

theorem runAll_consistent (crypto : Crypto) : ∀ {calls : List AddrManCall} {m : CAddrMan},
    m.Consistent → (∀ call ∈ calls, call.GoodTime ∧ call.AttemptTime) →
      ∃ m', runAll crypto calls m = some m' ∧ m'.Consistent
  | [], m, h, _ => ⟨m, rfl, h⟩
  | call :: calls, m, h, hcalls => by
      obtain ⟨hgood, hattempt⟩ := hcalls call List.mem_cons_self
      obtain ⟨m', hrun, hm'⟩ := run_consistent h crypto hgood hattempt
      obtain ⟨m'', hrest, hm''⟩ := @runAll_consistent crypto calls m' hm' fun call' hcall' =>
        hcalls call' (List.mem_cons_of_mem call hcall')
      refine ⟨m'', ?_, hm''⟩
      rw [runAll, List.foldlM_cons, hrun]
      exact hrest

end AddrManCall

/-- 8.8.8.8 and a port. -/
def sampleService : CService :=
  { ip := #v[0, 0, 0, 0, 0, 0, 0, 0, 0, 0, 0xff, 0xff, 8, 8, 8, 8], port := 10333 }

def sampleAddress : CAddress :=
  { toCService := sampleService, nServices := 1, nTime := 1400000000 }

/-- The first random number, and a clock that stands still. -/
def sampleAdd : AddrManCall :=
  .Add (fun _ => 0) (fun _ => 1400000000) sampleAddress sampleService.toCNetAddr 0

/-- The tables fit together as far as the check can tell. -/
structure CAddrMan.Checked (m : CAddrMan) : Prop where
  tried : ∀ (n : ℕ) (x : CAddrInfo), m.mapInfo[n]? = some x → x.fInTried = true →
    x.nLastSuccess ≠ 0 ∧ x.nRefCount = 0
  new : ∀ (n : ℕ) (x : CAddrInfo), m.mapInfo[n]? = some x → x.fInTried = false →
    0 < x.nRefCount ∧ x.nRefCount ≤ ADDRMAN_NEW_BUCKETS_PER_ADDRESS
  addr : ∀ (n : ℕ) (x : CAddrInfo), m.mapInfo[n]? = some x → (m.mapAddr x.toCNetAddr).getD 0 = n
  lastSuccess : ∀ (n : ℕ) (x : CAddrInfo), m.mapInfo[n]? = some x → 0 ≤ x.nLastSuccess
  triedOnce : m.vvTried.flatten.Nodup
  triedIds : ∀ n, n ∈ m.vvTried.flatten ↔ ∃ x, m.mapInfo[n]? = some x ∧ x.fInTried = true
  newIds : ∀ (n : ℕ) (c : ℤ), (0 < holders m.vvNew n ∧ c = holders m.vvNew n) ↔
    ∃ x, m.mapInfo[n]? = some x ∧ x.fInTried = false ∧ x.nRefCount = c
  nTried : m.nTried = m.mapInfo.toList.countP fun p => p.2.fInTried
  nNew : m.nNew = m.mapInfo.toList.countP fun p => !p.2.fInTried

namespace CAddrMan

variable {m : CAddrMan}

/-! ### What the loops have seen -/

/-- What the check has seen of an entry. -/
structure Seen (m : CAddrMan) (n : ℕ) (x : CAddrInfo) : Prop where
  tried : x.fInTried = true → x.nLastSuccess ≠ 0 ∧ x.nRefCount = 0
  new : x.fInTried = false → 0 < x.nRefCount ∧ x.nRefCount ≤ ADDRMAN_NEW_BUCKETS_PER_ADDRESS
  addr : (m.mapAddr x.toCNetAddr).getD 0 = n
  lastSuccess : 0 ≤ x.nLastSuccess

/-- An entry that the check goes past, or the error that it is. -/
theorem checkInfos_step {n : ℕ} {x : CAddrInfo} {infos : List (ℕ × CAddrInfo)}
    {setTried : Std.TreeSet ℕ} {mapNew : Std.TreeMap ℕ ℤ}
    {result : Except ℤ (Std.TreeSet ℕ × Std.TreeMap ℕ ℤ)}
    (hok : ∀ err : ℤ, err ≠ 0 → result ≠ .error err)
    (h : m.checkInfos ((n, x) :: infos) setTried mapNew = result) :
    m.Seen n x ∧ (if x.fInTried then m.checkInfos infos (setTried.insert n) mapNew
        else m.checkInfos infos setTried (mapNew.insert n x.nRefCount)) = result := by
  cases htried : x.fInTried with
  | true =>
      have h1 : x.nLastSuccess ≠ 0 := fun h0 => hok (-1) (by decide) (by
        rw [← h]; simp [checkInfos, htried, h0])
      have h2 : x.nRefCount = 0 := by_contra fun h0 => hok (-2) (by decide) (by
        rw [← h]; simp [checkInfos, htried, h0, h1])
      have h3 : (m.mapAddr x.toCNetAddr).getD 0 = n := by_contra fun h0 => hok (-5) (by decide) (by
        rw [← h]; simp [checkInfos, htried, h0, h1, h2])
      have h4 : x.position.bind (fun pos => m.vRandom[pos]?) = some n :=
        by_contra fun h0 => hok (-14) (by decide) (by
          rw [← h]; simp [checkInfos, htried, h0, h1, h2, h3])
      have h5 : ¬ x.nLastTry < 0 := fun h0 => hok (-6) (by decide) (by
        rw [← h]; simp [checkInfos, htried, h0, h1, h2, h3, h4])
      have h6 : ¬ x.nLastSuccess < 0 := fun h0 => hok (-8) (by decide) (by
        rw [← h]; simp [checkInfos, htried, h0, h1, h2, h3, h4, h5])
      refine ⟨⟨fun _ => ⟨h1, h2⟩, fun hnew => ?_, h3, not_lt.mp h6⟩, ?_⟩
      · exact absurd (hnew.symm.trans htried) Bool.false_ne_true
      · rw [← h]
        simp [checkInfos, htried, h1, h2, h3, h4, h5, h6]
  | false =>
      have h1 : ¬(x.nRefCount < 0 ∨ x.nRefCount > ADDRMAN_NEW_BUCKETS_PER_ADDRESS) :=
        fun h0 => hok (-3) (by decide) (by rw [← h]; simp [checkInfos, htried, h0])
      have h2 : x.nRefCount ≠ 0 := fun h0 => hok (-4) (by decide) (by
        rw [← h]; simp [checkInfos, htried, h0, ADDRMAN_NEW_BUCKETS_PER_ADDRESS])
      have h3 : (m.mapAddr x.toCNetAddr).getD 0 = n := by_contra fun h0 => hok (-5) (by decide) (by
        rw [← h]; simp [checkInfos, htried, h0, h1, h2])
      have h4 : x.position.bind (fun pos => m.vRandom[pos]?) = some n :=
        by_contra fun h0 => hok (-14) (by decide) (by
          rw [← h]; simp [checkInfos, htried, h0, h1, h2, h3])
      have h5 : ¬ x.nLastTry < 0 := fun h0 => hok (-6) (by decide) (by
        rw [← h]; simp [checkInfos, htried, h0, h1, h2, h3, h4])
      have h6 : ¬ x.nLastSuccess < 0 := fun h0 => hok (-8) (by decide) (by
        rw [← h]; simp [checkInfos, htried, h0, h1, h2, h3, h4, h5])
      refine ⟨⟨fun hnew => ?_, fun _ => by omega, h3, not_lt.mp h6⟩, ?_⟩
      · exact absurd (htried.symm.trans hnew) Bool.false_ne_true
      · rw [← h]
        simp [checkInfos, htried, h1, h2, h3, h4, h5, h6]

/-- All entries are gone past, and are sorted into tried and new ones. -/
theorem checkInfos_run {result : Except ℤ (Std.TreeSet ℕ × Std.TreeMap ℕ ℤ)}
    (hok : ∀ err : ℤ, err ≠ 0 → result ≠ .error err) {infos before : List (ℕ × CAddrInfo)}
    {setTried : Std.TreeSet ℕ} {mapNew : Std.TreeMap ℕ ℤ}
    (h : m.checkInfos infos setTried mapNew = result)
    (hnodup : ((infos ++ before).map Prod.fst).Nodup)
    (hsorted : SortedInto before setTried mapNew) :
    (∀ p ∈ infos, m.Seen p.1 p.2) ∧ ∃ setTried' mapNew',
      result = .ok (setTried', mapNew') ∧ SortedInto (infos ++ before) setTried' mapNew' := by
  induction infos generalizing before setTried mapNew with
  | nil => exact ⟨fun p hp => absurd hp List.not_mem_nil, setTried, mapNew, h.symm, hsorted⟩
  | cons p infos ih =>
      obtain ⟨n, x⟩ := p
      obtain ⟨hseen, hrun⟩ := checkInfos_step hok h
      obtain ⟨hmoved, hn⟩ := SortedInto.nodup_moved hnodup
      have hmem := SortedInto.mem_moved infos before (n, x)
      cases htried : x.fInTried with
      | true =>
          rw [if_pos htried] at hrun
          obtain ⟨hrest, s, t, hresult, hs⟩ :=
            ih hrun hmoved (hsorted.cons_tried htried)
          exact ⟨List.forall_mem_cons.mpr ⟨hseen, hrest⟩, s, t, hresult, hs.congr hmem⟩
      | false =>
          rw [if_neg (by rw [htried]; exact Bool.false_ne_true)] at hrun
          obtain ⟨hrest, s, t, hresult, hs⟩ :=
            ih hrun hmoved (hsorted.cons_new hn htried)
          exact ⟨List.forall_mem_cons.mpr ⟨hseen, hrest⟩, s, t, hresult, hs.congr hmem⟩

theorem checkTried_run {ns : List ℕ} {setTried left : Std.TreeSet ℕ} (hleft : left.size = 0)
    (h : checkTried ns setTried = .ok left) :
    ns.Nodup ∧ ∀ n, setTried.contains n = true ↔ n ∈ ns := by
  induction ns generalizing setTried with
  | nil =>
      obtain rfl := Except.ok.inj h
      refine ⟨List.nodup_nil, fun n => ?_⟩
      rw [← Std.TreeSet.length_toList, List.length_eq_zero_iff] at hleft
      rw [← Std.TreeSet.mem_iff_contains, ← Std.TreeSet.mem_toList, hleft]
  | cons n ns ih =>
      rw [checkTried] at h
      split_ifs at h with hn
      obtain ⟨hnodup, hmem⟩ := ih h
      have hout : n ∉ ns := by
        rw [← hmem n, contains_erase_iff]
        exact fun hself => hself.1 rfl
      refine ⟨List.nodup_cons.mpr ⟨hout, hnodup⟩, fun n' => ?_⟩
      rw [List.mem_cons, ← hmem n', contains_erase_iff]
      by_cases heq : n = n'
      · subst heq
        simp [hn]
      · simp [heq, Ne.symm heq]

/-- A reference is counted down. -/
theorem getElem?_countDown (mapNew : Std.TreeMap ℕ ℤ) (n : ℕ) (count : ℤ) (n' : ℕ) :
    (if count - 1 = 0 then mapNew.erase n else mapNew.insert n (count - 1))[n']? =
      if n' = n then (if count - 1 = 0 then none else some (count - 1)) else mapNew[n']? := by
  by_cases heq : n' = n
  · subst heq
    rw [if_pos rfl]
    split_ifs <;> simp
  · rw [if_neg heq]
    split_ifs
    · rw [Std.TreeMap.getElem?_erase, if_neg (by simpa using Ne.symm heq)]
    · rw [lookup_insert, if_neg heq]

/-- Every reference has been counted down once. -/
theorem checkNew_run {ns : List ℕ} {mapNew left : Std.TreeMap ℕ ℤ} (hleft : left.size = 0)
    (h : checkNew ns mapNew = .ok left)
    (hpos : ∀ (n : ℕ) (c : ℤ), mapNew[n]? = some c → 0 < c) (n : ℕ) (c : ℤ) :
    mapNew[n]? = some c ↔ 0 < ns.count n ∧ c = (ns.count n : ℤ) := by
  induction ns generalizing mapNew n c with
  | nil =>
      obtain rfl := Except.ok.inj h
      rw [← Std.TreeMap.length_keys, List.length_eq_zero_iff] at hleft
      have hnone : mapNew[n]? = none := by
        by_contra hne
        obtain ⟨d, hd⟩ := Option.ne_none_iff_exists'.mp hne
        have hmem : n ∈ mapNew.keys := by
          rw [Std.TreeMap.mem_keys, Std.TreeMap.mem_iff_isSome_getElem?, hd]
          rfl
        rw [hleft] at hmem
        exact List.not_mem_nil hmem
      simp [hnone]
  | cons a ns ih =>
      rw [checkNew] at h
      cases ha : mapNew[a]? with
      | none =>
          rw [ha] at h
          cases h
      | some count =>
          rw [ha] at h
          dsimp only at h
          have hcount := hpos a count ha
          have hnext := getElem?_countDown mapNew a count
          have hrest := ih h (fun n' c' hc' => by
            rw [hnext n'] at hc'
            split_ifs at hc' with heq hzero
            · have := Option.some.inj hc'
              omega
            · exact hpos n' c' hc') n
          simp only [hnext n] at hrest
          by_cases heq : n = a
          · subst heq
            have hcons : (n :: ns).count n = ns.count n + 1 := List.count_cons_self
            rw [ha, hcons]
            simp only [if_true] at hrest
            by_cases hzero : count - 1 = 0
            · have hnone : ns.count n = 0 := by
                by_contra hne
                have hsome := (hrest _).mpr ⟨Nat.pos_of_ne_zero hne, rfl⟩
                rw [if_pos hzero] at hsome
                cases hsome
              rw [Option.some.injEq]
              omega
            · have hself := (hrest (count - 1)).mp (if_neg hzero)
              rw [Option.some.injEq]
              omega
          · rw [List.count_cons_of_ne (Ne.symm heq), ← hrest c, if_neg heq]

theorem checkTried_error {err : ℤ} {ns : List ℕ} {setTried : Std.TreeSet ℕ}
    (h : checkTried ns setTried = .error err) : err = -11 := by
  induction ns generalizing setTried with
  | nil => cases h
  | cons n ns ih =>
      rw [checkTried] at h
      split_ifs at h with hn
      · exact ih h
      · exact (Except.error.inj h).symm

theorem checkNew_error {err : ℤ} {ns : List ℕ} {mapNew : Std.TreeMap ℕ ℤ}
    (h : checkNew ns mapNew = .error err) : err = -12 := by
  induction ns generalizing mapNew with
  | nil => cases h
  | cons n ns ih =>
      rw [checkNew] at h
      cases hn : mapNew[n]? with
      | none =>
          rw [hn] at h
          exact (Except.error.inj h).symm
      | some count =>
          rw [hn] at h
          exact ih h

/-! ### The check as a whole -/

/-- What the loops of a check that finds nothing have returned. -/
theorem checkAll_run (h : m.Check_ = 0) :
    ∃ setTried mapNew leftTried leftNew,
      m.checkInfos m.mapInfo.toList ∅ ∅ = .ok (setTried, mapNew) ∧
        (setTried.size : ℤ) = m.nTried ∧ (mapNew.size : ℤ) = m.nNew ∧
          checkTried m.vvTried.flatten setTried = .ok leftTried ∧
            checkNew (m.vvNew.flatMap Std.TreeSet.toList) mapNew = .ok leftNew ∧
              leftTried.size = 0 ∧ leftNew.size = 0 := by
  have hok : ∀ err : ℤ, err ≠ 0 → m.checkAll ≠ .error err := by
    intro err herr heq
    rw [Check_, heq] at h
    exact herr h
  have h7 : (m.vRandom.length : ℤ) = m.nTried + m.nNew := by_contra fun h0 =>
    hok (-7) (by decide) (by simp [checkAll, h0])
  have hnodup := nodup_keys m.mapInfo
  obtain ⟨-, setTried, mapNew, hinfos, -⟩ :=
    @checkInfos_run m (m.checkInfos m.mapInfo.toList ∅ ∅)
      (fun err herr heq => hok err herr (by simp [checkAll, h7, heq]))
      m.mapInfo.toList [] ∅ ∅ rfl (by rw [List.append_nil]; exact hnodup)
      ⟨fun n => by simp, fun n c => by simp⟩
  have h9 : (setTried.size : ℤ) = m.nTried := by_contra fun h0 =>
    hok (-9) (by decide) (by simp [checkAll, h7, hinfos, h0])
  have h10 : (mapNew.size : ℤ) = m.nNew := by_contra fun h0 =>
    hok (-10) (by decide) (by simp [checkAll, h7, hinfos, h9, h0])
  cases htried : checkTried m.vvTried.flatten setTried with
  | error err =>
      refine absurd ?_ (hok (-11) (by decide))
      rw [checkTried_error htried] at htried
      simp [checkAll, h7, hinfos, h9, h10, htried]
  | ok leftTried =>
      cases hnew : checkNew (m.vvNew.flatMap Std.TreeSet.toList) mapNew with
      | error err =>
          refine absurd ?_ (hok (-12) (by decide))
          rw [checkNew_error hnew] at hnew
          simp [checkAll, h7, hinfos, h9, h10, htried, hnew]
      | ok leftNew =>
          have h13 : leftTried.size = 0 := by_contra fun h0 =>
            hok (-13) (by decide) (by simp [checkAll, h7, hinfos, h9, h10, htried, hnew, h0])
          have h15 : leftNew.size = 0 := by_contra fun h0 =>
            hok (-15) (by decide) (by simp [checkAll, h7, hinfos, h9, h10, htried, hnew, h13, h0])
          exact ⟨setTried, mapNew, leftTried, leftNew, hinfos, h9, h10, htried, hnew, h13, h15⟩

/-- The elements of a set of entries are counted in the table. -/
theorem length_eq_countP {ids : List ℕ} (hids : ids.Nodup) {p : CAddrInfo → Bool}
    (hmem : ∀ n, n ∈ ids ↔ ∃ x, m.mapInfo[n]? = some x ∧ p x = true) :
    ids.length = m.mapInfo.toList.countP fun e => p e.2 := by
  have hnodup := nodup_keys m.mapInfo
  have hperm : ids.Perm ((m.mapInfo.toList.filter fun e => p e.2).map Prod.fst) := by
    refine (List.perm_ext_iff_of_nodup hids
      (hnodup.sublist (List.filter_sublist.map Prod.fst))).mpr fun n => ?_
    rw [hmem n, List.mem_map]
    constructor
    · rintro ⟨x, hx, hp⟩
      exact ⟨(n, x), List.mem_filter.mpr
        ⟨Std.TreeMap.mem_toList_iff_getElem?_eq_some.mpr hx, hp⟩, rfl⟩
    · rintro ⟨⟨n', x⟩, he, rfl⟩
      obtain ⟨he, hp⟩ := List.mem_filter.mp he
      exact ⟨x, Std.TreeMap.mem_toList_iff_getElem?_eq_some.mp he, hp⟩
  rw [hperm.length_eq, List.length_map, List.countP_eq_length_filter]

/-- A check that finds nothing. -/
theorem checked_of_check (h : m.Check_ = 0) : m.Checked := by
  obtain ⟨setTried, mapNew, leftTried, leftNew, hinfos, h9, h10, htried, hnew, h13, h15⟩ :=
    checkAll_run h
  have hnodup := nodup_keys m.mapInfo
  have hmem : ∀ n x, (n, x) ∈ m.mapInfo.toList ↔ m.mapInfo[n]? = some x :=
    fun n x => Std.TreeMap.mem_toList_iff_getElem?_eq_some
  obtain ⟨hseen, s, t, hst, hsorted⟩ :=
    @checkInfos_run m _ (fun err herr heq => by rw [heq] at hinfos; cases hinfos)
      m.mapInfo.toList [] ∅ ∅ rfl (by rw [List.append_nil]; exact hnodup)
      ⟨fun n => by simp, fun n c => by simp⟩
  rw [hinfos] at hst
  obtain ⟨rfl, rfl⟩ := Prod.mk.inj (Except.ok.inj hst)
  rw [List.append_nil] at hsorted
  have hseen : ∀ n x, m.mapInfo[n]? = some x → m.Seen n x :=
    fun n x hx => hseen (n, x) ((hmem n x).mpr hx)
  have hpos : ∀ (n : ℕ) (c : ℤ), mapNew[n]? = some c → 0 < c := by
    intro n c hc
    obtain ⟨x, hx, hfresh, rfl⟩ := (hsorted.new n c).mp hc
    exact ((hseen n x ((hmem n x).mp hx)).new hfresh).1
  obtain ⟨honce, htriedIds⟩ := checkTried_run h13 htried
  have hcounts := checkNew_run h15 hnew hpos
  have hsetTried : ∀ n, n ∈ setTried.toList ↔
      ∃ x, m.mapInfo[n]? = some x ∧ x.fInTried = true := by
    intro n
    rw [Std.TreeSet.mem_toList, Std.TreeSet.mem_iff_contains, hsorted.tried n]
    simp only [hmem]
  have hmapNew : ∀ n, n ∈ mapNew.keys ↔
      ∃ x, m.mapInfo[n]? = some x ∧ (!x.fInTried) = true := by
    intro n
    constructor
    · intro hn
      obtain ⟨c, hc⟩ := getElem?_of_mem_keys hn
      obtain ⟨x, hx, hfresh, -⟩ := (hsorted.new n c).mp hc
      exact ⟨x, (hmem n x).mp hx, by rw [hfresh]; rfl⟩
    · rintro ⟨x, hx, hfresh⟩
      rw [Std.TreeMap.mem_keys, Std.TreeMap.mem_iff_isSome_getElem?,
        (hsorted.new n x.nRefCount).mpr ⟨x, (hmem n x).mpr hx, by simpa using hfresh, rfl⟩]
      rfl
  exact
    { tried := fun n x hx => (hseen n x hx).tried
      new := fun n x hx => (hseen n x hx).new
      addr := fun n x hx => (hseen n x hx).addr
      lastSuccess := fun n x hx => (hseen n x hx).lastSuccess
      triedOnce := honce
      triedIds := fun n => by
        rw [← htriedIds n, hsorted.tried n]
        simp only [hmem]
      newIds := fun n c => by
        rw [← count_flatMap_toList, ← hcounts n c, hsorted.new n c]
        simp only [hmem]
      nTried := by
        rw [← h9, ← Std.TreeSet.length_toList,
          length_eq_countP (p := fun x => x.fInTried) (nodup_toList setTried) hsetTried]
      nNew := by
        rw [← h10, ← Std.TreeMap.length_keys,
          length_eq_countP (p := fun x => !x.fInTried) Std.TreeMap.nodup_keys hmapNew] }

end CAddrMan

end Ziftrcoin.Spec
