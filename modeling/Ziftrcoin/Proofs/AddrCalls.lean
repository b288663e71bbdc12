/-
Module: Ziftrcoin.Proofs.AddrCalls
Purpose: The calls of an address manager succeed and keep its tables together,
  for any random numbers and any hash.
Trusted boundary: none
Main exports: Tidy.swapRandom, Tidy.makeTried
-/
import Ziftrcoin.Proofs.AddrTables

namespace Ziftrcoin.Spec

open Ziftrcoin.Lib

namespace Tidy

variable {m : CAddrMan} {held : ℕ → ℤ} {limbo : Finset ℕ} {k : ℤ} {n i j : ℕ} {x : CAddrInfo}

/-! ### Looking things up -/

theorem info_of_mem (h : Tidy m.tables held limbo k) (hn : n ∈ m.vRandom) :
    ∃ x, m.mapInfo[n]? = some x := by
  have hplace := h.placed.mem_iff.mp hn
  rw [Tables.place, Option.isSome_map] at hplace
  exact Option.isSome_iff_exists.mp hplace

/-- An id that is referred to has an entry, which is a new one. -/
theorem info_of_holder (h : Tidy m.tables held limbo k) (hheld : 0 ≤ held n)
    {b : Std.TreeSet ℕ compare} (hb : b ∈ m.vvNew) (hn : b.contains n = true) :
    ∃ x, m.mapInfo[n]? = some x ∧ x.fInTried = false := by
  have hpos : (0 : ℤ) < holders m.vvNew n :=
    Int.natCast_pos.mpr (holders_pos.mpr ⟨b, hb, hn⟩)
  have hsum : (0 : ℤ) < holders m.tables.vvNew n + held n := Int.add_pos_of_pos_of_nonneg hpos hheld
  obtain ⟨x, hx⟩ := Option.isSome_iff_exists.mp (h.known n hsum)
  refine ⟨x, hx, ?_⟩
  by_contra htried
  have hzero := ((h.sound n x hx).tried (Bool.eq_true_of_not_eq_false htried)).2
  rw [h.refs n x hx] at hzero
  omega

theorem info_of_tried (h : Tidy m.tables held limbo k) {b : List ℕ} (hb : b ∈ m.vvTried)
    (hn : n ∈ b) : ∃ x, m.mapInfo[n]? = some x ∧ x.fInTried = true :=
  (h.tried n).mp (List.mem_flatten.mpr ⟨b, hb, hn⟩)

/-! ### Removing entries -/

theorem swapRandom (h : Tidy m.tables held limbo k) (hi : i < m.vRandom.length)
    (hj : j < m.vRandom.length) :
    ∃ m' : CAddrMan, m.SwapRandom i j = some m' ∧ Tidy m'.tables held limbo k ∧
      m'.vRandom.length = m.vRandom.length ∧ m'.vRandom[j]? = m.vRandom[i]? ∧
      m'.vvNew = m.vvNew ∧
      ∀ n : ℕ, (m'.mapInfo[n]?).map CAddrInfo.key = (m.mapInfo[n]?).map CAddrInfo.key := by
  by_cases hij : i = j
  · subst hij
    exact ⟨m, if_pos rfl, h, rfl, rfl, rfl, fun _ => rfl⟩
  · have ha : m.vRandom[i]? = some m.vRandom[i] := List.getElem?_eq_getElem hi
    have hb : m.vRandom[j]? = some m.vRandom[j] := List.getElem?_eq_getElem hj
    generalize m.vRandom[i] = a at ha
    generalize m.vRandom[j] = b at hb
    obtain ⟨xa, hxa⟩ := h.info_of_mem (List.mem_of_getElem? ha)
    obtain ⟨xb, hxb⟩ := h.info_of_mem (List.mem_of_getElem? hb)
    have hab : a ≠ b := by
      rintro rfl
      exact hij (h.placed.unique ha hb)
    have hxb' : (m.setInfo a { xa with nRandomPos := j }).mapInfo[b]? = some xb :=
      (CAddrMan.mapInfo_setInfo_of_ne _ _ hab.symm).trans hxb
    have hrun : m.SwapRandom i j = some
        { (m.setInfo a { xa with nRandomPos := j }).setInfo b { xb with nRandomPos := i } with
          vRandom := (m.vRandom.set i b).set j a } := by
      simp only [CAddrMan.SwapRandom, if_neg hij, ha, hb, hxa, hxb', Option.bind_eq_bind,
        Option.bind_some]
      rfl
    refine ⟨_, hrun, ?_, by simp, ?_, rfl, fun n => ?_⟩
    · have hswap := h.swap ha hb hij hxa hxb
      rw [← CAddrMan.tables_setInfo, ← CAddrMan.tables_setInfo] at hswap
      exact hswap
    · rw [ha, List.getElem?_set_self]
      simpa using hj
    · by_cases hnb : n = b
      · subst hnb
        rw [hxb]
        exact (congrArg (Option.map CAddrInfo.key) (CAddrMan.mapInfo_setInfo_self ..)).trans rfl
      · refine (congrArg (Option.map CAddrInfo.key)
          (CAddrMan.mapInfo_setInfo_of_ne _ _ hnb)).trans ?_
        by_cases hna : n = a
        · subst hna
          rw [hxa]
          exact (congrArg (Option.map CAddrInfo.key) (CAddrMan.mapInfo_setInfo_self ..)).trans rfl
        · rw [CAddrMan.mapInfo_setInfo_of_ne _ _ hna]

theorem position_eq (h : Tidy m.tables held limbo k) (hx : m.mapInfo[n]? = some x) :
    ∃ i, x.position = some i ∧ m.vRandom[i]? = some n := by
  have hsound := (h.sound n x hx).position
  refine ⟨x.nRandomPos.toNat, if_pos hsound, (h.placed _ n).mpr ?_⟩
  exact congrArg (Option.map fun x => x.nRandomPos.toNat) hx

/-- A reference to a new address is given up, and its entry with the last one. -/
theorem dropRef (h : Tidy m.tables held ∅ k) (hx : m.mapInfo[n]? = some x)
    (hnew : x.fInTried = false) :
    ∃ m', m.dropRef n = some m' ∧ Tidy m'.tables (held - one n) ∅ k ∧ m'.vvNew = m.vvNew := by
  have hlower := h.lower hx hnew
  rw [← CAddrMan.tables_setInfo] at hlower
  by_cases hzero : x.nRefCount - 1 = 0
  · rw [if_pos hzero] at hlower
    obtain ⟨i, hposition, hi⟩ := h.position_eq hx
    have hlt : i < m.vRandom.length := (List.getElem?_eq_some_iff.mp hi).choose
    have hlast : m.vRandom.length - 1 < m.vRandom.length := Nat.sub_one_lt_of_lt hlt
    obtain ⟨m', hswap, hkept, hlength, hend, hvvNew, hkeys⟩ := hlower.swapRandom hlt hlast
    have hkey := hkeys n
    rw [CAddrMan.mapInfo_setInfo_self] at hkey
    obtain ⟨x', hx', hkey'⟩ := Option.map_eq_some_iff.mp hkey
    have haddr : x'.toCNetAddr = x.toCNetAddr := congrArg Prod.fst hkey'
    have hrun : m.dropRef n = some
        { m' with
          vRandom := m'.vRandom.dropLast
          mapAddr := Function.update m'.mapAddr x.toCNetAddr none
          mapInfo := m'.mapInfo.erase n
          nNew := m'.nNew - 1 } := by
      simp only [CAddrMan.dropRef, hx, hposition, Option.bind_eq_bind, Option.bind_some,
        if_pos hzero]
      rw [show (m.setInfo n { x with nRefCount := x.nRefCount - 1 }).vRandom = m.vRandom from rfl,
        hswap]
      rfl
    refine ⟨_, hrun, ?_, hvvNew⟩
    have hforget := hkept.forget hx' (by
      rw [show m'.tables.vRandom = m'.vRandom from rfl, hlength]
      exact hend.trans hi)
    rw [haddr] at hforget
    have hinfo : (fun n' => (m'.mapInfo.erase n)[n']?) =
        Function.update m'.tables.info n none := by
      funext n'
      by_cases hn : n' = n
      · simp [hn]
      · simp [hn, Std.TreeMap.getElem?_erase, Ne.symm hn, CAddrMan.tables]
    unfold CAddrMan.tables
    rw [hinfo]
    exact hforget
  · rw [if_neg hzero] at hlower
    refine ⟨_, ?_, hlower, rfl⟩
    simp only [CAddrMan.dropRef, hx, Option.bind_eq_bind, Option.bind_some, if_neg hzero]

end Tidy

/-- Ids that have an entry. -/
def CAddrMan.Knows (m : CAddrMan) (ns : List ℕ) : Prop := ∀ n ∈ ns, ∃ x, m.mapInfo[n]? = some x

namespace CAddrMan

variable {m : CAddrMan} {n i : ℕ} {x : CAddrInfo}

theorem Knows.tail {ns : List ℕ} (h : m.Knows (n :: ns)) : m.Knows ns :=
  fun n' hn' => h n' (List.mem_cons_of_mem n hn')

theorem findTerrible_eq {now : ℕ → ℤ} : ∀ {ns : List ℕ} {i : ℕ}, m.Knows ns →
    ∃ found, m.findTerrible now i ns = some found ∧ ∀ n, found = some n → n ∈ ns
  | [], _, _ => ⟨none, rfl, fun _ h => nomatch h⟩
  | n :: ns, i, h => by
      obtain ⟨x, hx⟩ := h n List.mem_cons_self
      simp only [findTerrible, hx, Option.bind_eq_bind, Option.bind_some]
      split
      · refine ⟨some n, rfl, fun n' hn' => ?_⟩
        obtain rfl := Option.some.inj hn'
        exact List.mem_cons_self
      · obtain ⟨found, hrun, hfound⟩ := @findTerrible_eq now ns (i + 1) h.tail
        exact ⟨found, hrun, fun n' hn' => List.mem_cons_of_mem n (hfound n' hn')⟩

/-- The oldest entry is one that was looked at; one was looked at when a
position of the list was chosen. -/
theorem oldestOf_eq {chosen : List ℕ} : ∀ {ns : List ℕ} {nI : ℕ} {nOldest : Option ℕ},
    m.Knows ns → m.Knows nOldest.toList →
      ∃ found, m.oldestOf chosen nI ns nOldest = some found ∧
        (∀ n, found = some n → n ∈ ns ∨ nOldest = some n) ∧
        ((∃ c ∈ chosen, nI ≤ c ∧ c < nI + ns.length) ∨ nOldest.isSome = true →
          found.isSome = true)
  | [], nI, nOldest, _, _ => by
      refine ⟨nOldest, rfl, fun n hn => .inr hn, ?_⟩
      rintro (⟨c, -, hle, hlt⟩ | hsome)
      · rw [List.length_nil, Nat.add_zero] at hlt
        exact absurd hlt (Nat.not_lt.mpr hle)
      · exact hsome
  | n :: ns, nI, nOldest, h, hold => by
      -- what the rest of the list gives, once the head was looked at
      have hnext : ∀ nOldest' : Option ℕ, m.Knows nOldest'.toList →
          (∀ n', nOldest' = some n' → n' = n ∨ nOldest = some n') →
          ((nI ∈ chosen ∨ nOldest.isSome = true) → nOldest'.isSome = true) →
          ∃ found, m.oldestOf chosen (nI + 1) ns nOldest' = some found ∧
            (∀ n', found = some n' → n' ∈ n :: ns ∨ nOldest = some n') ∧
            ((∃ c ∈ chosen, nI ≤ c ∧ c < nI + (n :: ns).length) ∨ nOldest.isSome = true →
              found.isSome = true) := by
        intro nOldest' hold' horigin hsome
        obtain ⟨found, hrun, hfound, hany⟩ := @oldestOf_eq chosen ns (nI + 1) _ h.tail hold'
        refine ⟨found, hrun, fun n' hn' => ?_, fun hc => hany ?_⟩
        · rcases hfound n' hn' with hmem | hn'
          · exact .inl (List.mem_cons_of_mem n hmem)
          · rcases horigin n' hn' with rfl | hn'
            · exact .inl List.mem_cons_self
            · exact .inr hn'
        · rcases hc with ⟨c, hc, hle, hlt⟩ | hc
          · rcases Nat.eq_or_lt_of_le hle with rfl | hgt
            · exact .inr (hsome (.inl hc))
            · rw [List.length_cons] at hlt
              exact .inl ⟨c, hc, hgt, by omega⟩
          · exact .inr (hsome (.inr hc))
      obtain ⟨x, hx⟩ := h n List.mem_cons_self
      have hself : m.Knows (some n).toList := fun n' hn' => ⟨x, by
        rw [Option.toList_some, List.mem_singleton] at hn'
        rw [hn', hx]⟩
      unfold oldestOf
      split
      · rename_i hchosen
        cases nOldest with
        | none =>
            exact hnext (some n) hself (fun n' hn' => .inl (Option.some.inj hn').symm) fun _ => rfl
        | some old =>
            obtain ⟨xold, hxold⟩ := hold old List.mem_cons_self
            simp only [hx, hxold, Option.bind_eq_bind, Option.bind_some]
            split
            · exact hnext (some n) hself (fun n' hn' => .inl (Option.some.inj hn').symm)
                fun _ => rfl
            · exact hnext (some old) hold (fun n' hn' => .inr hn') fun _ => rfl
      · rename_i hchosen
        refine hnext nOldest hold (fun n' hn' => .inr hn') fun hc => ?_
        rcases hc with hc | hc
        · exact absurd hc hchosen
        · exact hc

end CAddrMan

theorem getRandInt_lt {r nMax : ℕ} (h : 0 < nMax) : GetRandInt r nMax < nMax := by
  rw [GetRandInt, if_neg h.ne']
  exact Nat.mod_lt r h

namespace Tidy

variable {m : CAddrMan} {held : ℕ → ℤ} {limbo : Finset ℕ} {k : ℤ} {n i : ℕ} {x : CAddrInfo}

/-- An entry goes from a bucket of new addresses. -/
theorem removeNew (h : Tidy m.tables held ∅ k) (hheld : 0 ≤ held n) {b : Std.TreeSet ℕ compare}
    (hb : m.vvNew[i]? = some b) (hn : b.contains n = true) :
    ∃ m', m.dropRef n = some m' ∧ Tidy (m'.eraseNew i n).tables held ∅ k ∧
      (m'.eraseNew i n).vvNew = m.vvNew.modify i fun b => b.erase n := by
  obtain ⟨x, hx, hnew⟩ := h.info_of_holder hheld (List.mem_of_getElem? hb) hn
  obtain ⟨m', hrun, hkept, hvvNew⟩ := h.dropRef hx hnew
  have hb' : m'.tables.vvNew[i]? = some b := (congrArg (fun bs => bs[i]?) hvvNew).trans hb
  have herase := hkept.eraseNew hb' hn
  rw [sub_add_cancel] at herase
  exact ⟨m', hrun, herase, congrArg (fun bs => bs.modify i fun b => b.erase n) hvvNew⟩

theorem shrinkNew (h : Tidy m.tables held ∅ k) (hheld : ∀ n, 0 ≤ held n)
    {b : Std.TreeSet ℕ compare} (hb : m.vvNew[i]? = some b) (hpos : 0 < b.size) (rnd : ℕ → ℕ)
    (now : ℕ → ℤ) :
    ∃ m' r n, m.ShrinkNew rnd now i = some (m', r) ∧ b.contains n = true ∧
      Tidy m'.tables held ∅ k ∧ m'.vvNew = m.vvNew.modify i fun b => b.erase n := by
  have hknows : m.Knows b.toList := by
    intro n hn
    obtain ⟨x, hx, -⟩ := h.info_of_holder (hheld n) (List.mem_of_getElem? hb)
      (Std.TreeSet.mem_toList.mp hn)
    exact ⟨x, hx⟩
  obtain ⟨found, hfind, hfound⟩ := @CAddrMan.findTerrible_eq m now _ 0 hknows
  cases found with
  | some n =>
      have hn : b.contains n = true := Std.TreeSet.mem_toList.mp (hfound n rfl)
      obtain ⟨m', hdrop, hkept, hvvNew⟩ := h.removeNew (hheld n) hb hn
      refine ⟨m'.eraseNew i n, 0, n, ?_, hn, hkept, hvvNew⟩
      simp only [CAddrMan.ShrinkNew, hb, hfind, hdrop, Option.bind_eq_bind, Option.bind_some]
  | none =>
      obtain ⟨oldest, hrun, holdest, hany⟩ :=
        @CAddrMan.oldestOf_eq m ((List.range 4).map fun i => GetRandInt (rnd i) b.size) _ 0 none
          hknows (fun _ h => nomatch h)
      have hsome : oldest.isSome = true := by
        refine hany (.inl ⟨GetRandInt (rnd 0) b.size, ?_, Nat.zero_le _, ?_⟩)
        · exact List.mem_map_of_mem (List.mem_range.mpr (by decide))
        · rw [Nat.zero_add, Std.TreeSet.length_toList]
          exact getRandInt_lt hpos
      obtain ⟨n, rfl⟩ := Option.isSome_iff_exists.mp hsome
      have hn : b.contains n = true := by
        rcases holdest n rfl with hmem | hnone
        · exact Std.TreeSet.mem_toList.mp hmem
        · cases hnone
      obtain ⟨m', hdrop, hkept, hvvNew⟩ := h.removeNew (hheld n) hb hn
      refine ⟨m'.eraseNew i n, 1, n, ?_, hn, hkept, hvvNew⟩
      simp only [CAddrMan.ShrinkNew, hb, hfind, hrun, hdrop, Option.bind_eq_bind, Option.bind_some]

/-! ### Adding references -/

theorem newBucket (h : Tidy m.tables held limbo k) (crypto : Crypto) (x : CAddrInfo)
    (nKey : valtype) (src : CNetAddr) :
    ∃ b, m.vvNew[x.GetNewBucket crypto nKey src]? = some b ∧ b.size ≤ ADDRMAN_NEW_BUCKET_SIZE := by
  have hlt : x.GetNewBucket crypto nKey src < m.vvNew.length := by
    rw [show m.vvNew.length = ADDRMAN_NEW_BUCKET_COUNT from h.newCount]
    exact Nat.mod_lt _ (by decide)
  have hget := List.getElem?_eq_getElem hlt
  exact ⟨_, hget, h.newSize _ (List.mem_of_getElem? hget)⟩

/-- The id goes into a bucket with a place to spare. -/
theorem intoBucket (h : Tidy m.tables (held + one n) limbo k) {b : Std.TreeSet ℕ compare}
    (hb : m.vvNew[i]? = some b) (hn : b.contains n = false)
    (hsize : b.size < ADDRMAN_NEW_BUCKET_SIZE) :
    Tidy (m.insertNew i n).tables held limbo k :=
  h.insertNew hb hn hsize

theorem one_nonneg (n n' : ℕ) : 0 ≤ one n n' := by
  rw [one]
  split
  · exact Int.one_nonneg
  · exact le_rfl

theorem addRef (h : Tidy m.tables 0 limbo k) (hlimbo : limbo ⊆ {n})
    (hx : m.mapInfo[n]? = some x) (hnew : x.fInTried = false)
    (hmax : x.nRefCount < ADDRMAN_NEW_BUCKETS_PER_ADDRESS) (crypto : Crypto) (rnd : ℕ → ℕ)
    (now : ℕ → ℤ) (source : CNetAddr) :
    ∃ m', m.addRef crypto rnd now n x source = some m' ∧ Tidy m'.tables 0 ∅ k := by
  obtain ⟨b, hb, hsize⟩ := h.newBucket crypto x m.nKey source
  by_cases hn : b.contains n = true
  · -- an id that is in a bucket is not in limbo
    have hempty : limbo = ∅ := by
      refine Finset.eq_empty_of_forall_notMem fun n' hn' => ?_
      obtain rfl := Finset.mem_singleton.mp (hlimbo hn')
      obtain ⟨y, hy, -, hzero⟩ := h.unsettled n' hn'
      have hpos : 0 < holders m.vvNew n' := holders_pos.mpr ⟨b, List.mem_of_getElem? hb, hn⟩
      rw [h.refs n' y hy, Pi.zero_apply, add_zero] at hzero
      exact absurd (Int.natCast_eq_zero.mp hzero) hpos.ne'
    refine ⟨m, ?_, hempty ▸ h⟩
    simp only [CAddrMan.addRef, hb, Option.bind_eq_bind, Option.bind_some, if_pos hn]
  · have hn' : b.contains n = false := Bool.eq_false_of_not_eq_true hn
    have hempty : limbo.erase n = ∅ :=
      (Finset.erase_eq_empty_iff limbo n).mpr (Finset.subset_singleton_iff.mp hlimbo)
    have hraise := h.raise hx hnew hmax
    rw [← CAddrMan.tables_setInfo, hempty] at hraise
    by_cases hfull : b.size = ADDRMAN_NEW_BUCKET_SIZE
    · obtain ⟨m', r, old, hshrink, hold, hkept, hvvNew⟩ :=
        hraise.shrinkNew (fun n' => by rw [zero_add]; exact one_nonneg n n') hb
          (by rw [hfull]; decide) rnd now
      have hb' : m'.vvNew[x.GetNewBucket crypto m.nKey source]? = some (b.erase old) := by
        rw [hvvNew, List.getElem?_modify, show (m.setInfo n _).vvNew = m.vvNew from rfl, hb]
        simp
      have hout : (b.erase old).contains n = false := by
        rw [Bool.eq_false_iff, Ne, contains_erase_iff]
        exact fun hmem => hn hmem.2
      have hless : (b.erase old).size < ADDRMAN_NEW_BUCKET_SIZE := by
        rw [Std.TreeSet.size_erase, if_pos hold, hfull]
        decide
      refine ⟨_, ?_, hkept.intoBucket hb' hout hless⟩
      simp only [CAddrMan.addRef, hb, Option.bind_eq_bind, Option.bind_some, if_neg hn,
        if_pos hfull, hshrink, Option.map_some]
    · refine ⟨_, ?_, hraise.intoBucket hb hn' (lt_of_le_of_ne hsize hfull)⟩
      simp only [CAddrMan.addRef, hb, Option.bind_eq_bind, Option.bind_some, if_neg hn,
        if_neg hfull]

end Tidy

/-! ### Moving addresses to the tried ones -/

namespace CAddrMan

variable {m : CAddrMan}

theorem eraseAll_eq (nId : ℕ) : ∀ (vvNew : List (Std.TreeSet ℕ)) (nRefCount : ℤ),
    eraseAll nId vvNew nRefCount =
      (vvNew.map fun b => b.erase nId, nRefCount - holders vvNew nId)
  | [], nRefCount => by simp [eraseAll, holders]
  | b :: vvNew, nRefCount => by
      simp only [eraseAll, eraseAll_eq nId vvNew, List.map_cons, holders, List.countP_cons]
      split
      · simp
        ring
      · simp

/-- An id that is in no bucket of new addresses any more. -/
def takeOut (m : CAddrMan) (n : ℕ) (x : CAddrInfo) : CAddrMan :=
  ({ m with
      vvNew := m.vvNew.map fun b => Std.TreeSet.erase b n
      nNew := m.nNew - 1 } : CAddrMan).setInfo n { x with nRefCount := 0 }

/-- A bucket is shuffled, and a position of it is chosen. -/
theorem inspectTried_eq {rnd : ℕ → ℕ} : ∀ {steps i : ℕ} {ys : List ℕ} {oldest : Option (ℕ × ℕ)},
    m.Knows ys → (∀ n p, oldest = some (n, p) → n ∈ ys ∧ p < ys.length) →
      ∃ ys' oldest', m.inspectTried rnd steps i ys oldest = some (ys', oldest') ∧ ys'.Perm ys ∧
        (∀ n p, oldest' = some (n, p) → p < ys.length) ∧
        ((0 < steps ∧ i < ys.length) ∨ oldest.isSome = true → oldest'.isSome = true)
  | 0, i, ys, oldest, _, hold => by
      refine ⟨ys, oldest, rfl, .refl _, fun n p h => (hold n p h).2, ?_⟩
      rintro (⟨hpos, -⟩ | hsome)
      · exact absurd hpos (Nat.lt_irrefl 0)
      · exact hsome
  | steps + 1, i, ys, oldest, h, hold => by
      unfold inspectTried
      split
      · rename_i hi
        have hpos : GetRandInt (rnd i) (ys.length - i) + i < ys.length := by
          have hlt := getRandInt_lt (r := rnd i) (Nat.sub_pos_of_lt hi)
          omega
        generalize GetRandInt (rnd i) (ys.length - i) + i = j at hpos
        have hperm : ((ys.set j ys[i]).set i ys[j]).Perm ys := List.set_set_perm hpos hi
        have hknows : m.Knows ((ys.set j ys[i]).set i ys[j]) :=
          fun n hn => h n (hperm.mem_iff.mp hn)
        -- what the remaining swaps give
        have hnext : ∀ oldest' : ℕ × ℕ, oldest'.1 ∈ ys → oldest'.2 < ys.length →
            ∃ ys' last, m.inspectTried rnd steps (i + 1) ((ys.set j ys[i]).set i ys[j])
                (some oldest') = some (ys', last) ∧ ys'.Perm ys ∧
              (∀ n p, last = some (n, p) → p < ys.length) ∧
              ((0 < steps + 1 ∧ i < ys.length) ∨ oldest.isSome = true → last.isSome = true) := by
          intro oldest' hmem hlt
          obtain ⟨ys', last, hrun, hys', hlast, hsome⟩ :=
            @inspectTried_eq rnd steps (i + 1) _ (some oldest') hknows (by
                rintro n p ⟨⟩
                exact ⟨hperm.mem_iff.mpr hmem, hperm.length_eq ▸ hlt⟩)
          refine ⟨ys', last, hrun, hys'.trans hperm, fun n p hnp => ?_, fun _ => hsome (.inr rfl)⟩
          rw [← hperm.length_eq]
          exact hlast n p hnp
        have hj : ys[j] ∈ ys := List.getElem_mem hpos
        simp only [List.getElem?_eq_getElem hpos, List.getElem?_eq_getElem hi, Option.bind_eq_bind,
          Option.bind_some]
        cases oldest with
        | none => exact hnext (ys[j], j) hj hpos
        | some old =>
            obtain ⟨hold, holdpos⟩ := hold old.1 old.2 rfl
            obtain ⟨x, hx⟩ := h _ hj
            obtain ⟨xold, hxold⟩ := h _ hold
            simp only [hx, hxold, Option.bind_some]
            split
            · exact hnext (ys[j], j) hj hpos
            · exact hnext old hold holdpos
      · rename_i hi
        refine ⟨ys, oldest, rfl, .refl _, fun n p h => (hold n p h).2, ?_⟩
        rintro (⟨-, hlt⟩ | hsome)
        · exact absurd hlt hi
        · exact hsome

end CAddrMan

namespace Tidy

variable {m : CAddrMan} {held : ℕ → ℤ} {limbo : Finset ℕ} {k : ℤ} {n i o : ℕ} {x : CAddrInfo}
  {ys : List ℕ}

theorem selectTried (h : Tidy m.tables held limbo k) (hys : m.vvTried[i]? = some ys)
    (hpos : 0 < ys.length) (rnd : ℕ → ℕ) :
    ∃ ys' p, m.SelectTried rnd i = some ({ m with vvTried := m.vvTried.set i ys' }, p) ∧
      ys'.Perm ys ∧ p < ys.length := by
  have hknows : m.Knows ys := by
    intro n hn
    obtain ⟨x, hx, -⟩ := h.info_of_tried (List.mem_of_getElem? hys) hn
    exact ⟨x, hx⟩
  obtain ⟨ys', oldest, hrun, hperm, hold, hsome⟩ :=
    @CAddrMan.inspectTried_eq m rnd ADDRMAN_TRIED_ENTRIES_INSPECT_ON_EVICT 0 ys none hknows
      (fun _ _ hnone => nomatch hnone)
  obtain ⟨⟨nOldest, p⟩, rfl⟩ :=
    Option.isSome_iff_exists.mp (hsome (.inl ⟨Nat.zero_lt_succ 3, hpos⟩))
  refine ⟨ys', p, ?_, hperm, hold nOldest p rfl⟩
  simp only [CAddrMan.SelectTried, hys, hrun, Option.bind_eq_bind, Option.bind_some]

/-- A bucket for an address that is evicted: its own one, or the one that was
left by the address that takes its place. -/
theorem roomFor {b : Std.TreeSet ℕ compare} (horigin : m.vvNew[o]? = some b)
    (hsize : b.size < ADDRMAN_NEW_BUCKET_SIZE) {c : Std.TreeSet ℕ compare}
    (hc : m.vvNew[i]? = some c) :
    ∃ room, m.vvNew[if c.size < ADDRMAN_NEW_BUCKET_SIZE then i else o]? = some room ∧
      room.size < ADDRMAN_NEW_BUCKET_SIZE := by
  split
  · rename_i hless
    exact ⟨c, hc, hless⟩
  · exact ⟨b, horigin, hsize⟩

theorem not_holder_of_tried (h : Tidy m.tables 0 limbo k) (hx : m.mapInfo[n]? = some x)
    (htried : x.fInTried = true) {b : Std.TreeSet ℕ compare} (hb : m.vvNew[i]? = some b) :
    b.contains n = false := by
  by_contra hn
  have hpos : 0 < holders m.vvNew n :=
    holders_pos.mpr ⟨b, List.mem_of_getElem? hb, Bool.eq_true_of_not_eq_false hn⟩
  have hzero := ((h.sound n x hx).tried htried).2
  rw [h.refs n x hx, Pi.zero_apply, add_zero] at hzero
  exact absurd (Int.natCast_eq_zero.mp hzero) hpos.ne'

/-- The call that replaces an entry of a bucket, with the entry that it replaces. -/
theorem replaceTried_eq (h : Tidy m.tables held limbo k) (hys : m.vvTried[i]? = some ys)
    (hpos : 0 < ys.length) (crypto : Crypto) (rnd : ℕ → ℕ) (n o : ℕ) :
    ∃ ys' p nOld infoOld c,
      m.SelectTried rnd i = some ({ m with vvTried := m.vvTried.set i ys' }, p) ∧
      ys'.Perm ys ∧ ys'[p]? = some nOld ∧ m.mapInfo[nOld]? = some infoOld ∧
      infoOld.fInTried = true ∧
      m.vvNew[infoOld.GetNewBucket crypto m.nKey infoOld.source]? = some c ∧
      m.replaceTried crypto rnd n i o = some
        { (m.setInfo nOld { infoOld with fInTried := false, nRefCount := 1 }).insertNew
            (if c.size < ADDRMAN_NEW_BUCKET_SIZE then
              infoOld.GetNewBucket crypto m.nKey infoOld.source else o) nOld with
          nNew := m.nNew + 1
          vvTried := m.vvTried.set i (ys'.set p n) } := by
  obtain ⟨ys', p, hselect, hperm, hp⟩ := h.selectTried hys hpos rnd
  have hp' : p < ys'.length := hperm.length_eq ▸ hp
  have hold : ys'[p]? = some ys'[p] := List.getElem?_eq_getElem hp'
  have hmem : ys'[p] ∈ ys := hperm.mem_iff.mp (List.getElem_mem hp')
  generalize ys'[p] = nOld at hold hmem
  obtain ⟨infoOld, hinfoOld, htried⟩ := h.info_of_tried (List.mem_of_getElem? hys) hmem
  obtain ⟨c, hc, -⟩ := h.newBucket crypto infoOld m.nKey infoOld.source
  have hi : i < m.vvTried.length := (List.getElem?_eq_some_iff.mp hys).choose
  have hbucket : (m.vvTried.set i ys')[i]? = some ys' := List.getElem?_set_self hi
  refine ⟨ys', p, nOld, infoOld, c, hselect, hperm, hold, hinfoOld, htried, hc, ?_⟩
  simp only [CAddrMan.replaceTried, hselect, hbucket, hold, Option.bind_eq_bind,
    Option.bind_some, hinfoOld, hc]
  simp only [CAddrMan.insertNew, CAddrMan.setInfo, List.set_set]

theorem replaceTried (h : Tidy m.tables 0 {n} k) (hx : m.mapInfo[n]? = some x)
    (hsuccess : 0 < x.nLastSuccess) (hys : m.vvTried[i]? = some ys)
    (hfull : ys.length = ADDRMAN_TRIED_BUCKET_SIZE) {b : Std.TreeSet ℕ compare}
    (horigin : m.vvNew[o]? = some b) (hsize : b.size < ADDRMAN_NEW_BUCKET_SIZE)
    (crypto : Crypto) (rnd : ℕ → ℕ) :
    ∃ m', m.replaceTried crypto rnd n i o = some m' ∧
      Tidy (m'.setInfo n { x with fInTried := true }).tables 0 ∅ (k - 1) := by
  obtain ⟨ys', p, nOld, infoOld, c, -, hperm, hold, hinfoOld, htried, hc, hrun⟩ :=
    h.replaceTried_eq hys (by rw [hfull]; decide) crypto rnd n o
  obtain ⟨hp', rfl⟩ := List.getElem?_eq_some_iff.mp hold
  have hsplit : ys.Perm (ys'[p] :: ys'.eraseIdx p) :=
    hperm.symm.trans (List.getElem_cons_eraseIdx_perm hp').symm
  obtain ⟨room, hroom, hless⟩ := roomFor horigin hsize hc
  have hne : n ≠ ys'[p] := by
    rintro hn
    obtain ⟨y, hy, hnew, -⟩ := h.unsettled n (Finset.mem_singleton_self n)
    rw [show m.tables.info n = m.mapInfo[n]? from rfl, hn, hinfoOld] at hy
    obtain rfl := Option.some.inj hy
    exact absurd (hnew.symm.trans htried) Bool.false_ne_true
  have hi : i < m.vvTried.length := (List.getElem?_eq_some_iff.mp hys).choose
  -- the old address goes to the new ones, and the new one takes its place
  have hevict := h.evict hinfoOld htried hys hsplit
  have hinsert := hevict.insertNew hroom (h.not_holder_of_tried hinfoOld htried hroom) hless
  have hcount := @recount _ _ _ _ hinsert k (m.nNew + 1)
    (by dsimp only [Tables.write, CAddrMan.tables]; ring)
  have hset : (ys'.set p n).Perm (n :: ys'.eraseIdx p) := List.set_perm_cons_eraseIdx hp' n
  have hjoin := hcount.join ((Function.update_of_ne hne ..).trans hx)
    (Finset.mem_singleton_self n) hsuccess (List.getElem?_set_self hi) hset
    (by rw [List.length_set, hperm.length_eq, hfull])
  rw [Finset.erase_singleton] at hjoin
  refine ⟨_, hrun, ?_⟩
  have hwrite := CAddrMan.tables_setInfo m (n := ys'[p])
    { infoOld with fInTried := false, nRefCount := 1 }
  rw [CAddrMan.tables_setInfo]
  dsimp only at hjoin
  rw [← hwrite, List.set_set, sub_add_cancel] at hjoin
  exact hjoin

theorem triedBucket (h : Tidy m.tables held limbo k) (crypto : Crypto) (x : CAddrInfo)
    (nKey : valtype) :
    ∃ ys, m.vvTried[x.GetTriedBucket crypto nKey]? = some ys ∧
      ys.length ≤ ADDRMAN_TRIED_BUCKET_SIZE := by
  have hlt : x.GetTriedBucket crypto nKey < m.vvTried.length := by
    rw [show m.vvTried.length = ADDRMAN_TRIED_BUCKET_COUNT from h.triedCount]
    exact Nat.mod_lt _ (by decide)
  have hget := List.getElem?_eq_getElem hlt
  exact ⟨_, hget, h.triedSize _ (List.mem_of_getElem? hget)⟩

theorem placeTried (h : Tidy m.tables 0 {n} k) (hx : m.mapInfo[n]? = some x)
    (hsuccess : 0 < x.nLastSuccess) {b : Std.TreeSet ℕ compare} (horigin : m.vvNew[o]? = some b)
    (hsize : b.size < ADDRMAN_NEW_BUCKET_SIZE) (crypto : Crypto) (rnd : ℕ → ℕ) :
    ∃ m', m.placeTried crypto rnd n (x.GetTriedBucket crypto m.nKey) o = some m' ∧
      Tidy (m'.setInfo n { x with fInTried := true }).tables 0 ∅ (k - 1) := by
  obtain ⟨ys, hys, hbound⟩ := h.triedBucket crypto x m.nKey
  by_cases hless : ys.length < ADDRMAN_TRIED_BUCKET_SIZE
  · have hjoin := h.join hx (Finset.mem_singleton_self n) hsuccess hys
      (List.perm_append_singleton n ys) (by rw [List.length_append]; exact hless)
    rw [Finset.erase_singleton] at hjoin
    have hrun : m.placeTried crypto rnd n (x.GetTriedBucket crypto m.nKey) o = some
        { m with
          vvTried := m.vvTried.set (x.GetTriedBucket crypto m.nKey) (ys ++ [n])
          nTried := m.nTried + 1 } := by
      simp only [CAddrMan.placeTried, hys, Option.bind_eq_bind, Option.bind_some, if_pos hless]
    refine ⟨_, hrun, ?_⟩
    rw [CAddrMan.tables_setInfo]
    exact hjoin
  · obtain ⟨m', hrun, hkept⟩ := h.replaceTried hx hsuccess hys
      (le_antisymm hbound (not_lt.mp hless)) horigin hsize crypto rnd
    refine ⟨m', ?_, hkept⟩
    simp only [CAddrMan.placeTried, hys, Option.bind_eq_bind, Option.bind_some, if_neg hless]
    exact hrun

/-- After the loop of `MakeTried` that takes the id out of its buckets. -/
theorem takeOut (h : Tidy m.tables 0 ∅ k) (hx : m.mapInfo[n]? = some x)
    (hnew : x.fInTried = false) : Tidy (m.takeOut n x).tables 0 {n} (k + 1) := by
  unfold CAddrMan.takeOut
  rw [CAddrMan.tables_setInfo]
  exact (h.withdraw hx hnew).recount (by dsimp only [Tables.write, CAddrMan.tables]; ring)

theorem makeTried_eq (h : Tidy m.tables 0 ∅ k) (hx : m.mapInfo[n]? = some x)
    {b : Std.TreeSet ℕ compare} (horigin : m.vvNew[o]? = some b) (hn : b.contains n = true)
    (crypto : Crypto) (rnd : ℕ → ℕ) :
    m.MakeTried crypto rnd x n o =
      ((m.takeOut n x).placeTried crypto rnd n (x.GetTriedBucket crypto m.nKey) o).map
        fun m => m.setInfo n { x with nRefCount := 0, fInTried := true } := by
  have hzero : x.nRefCount - holders m.vvNew n = 0 := by
    rw [h.refs n x hx, Pi.zero_apply, add_zero]
    exact sub_self _
  simp only [CAddrMan.MakeTried, horigin, CAddrMan.eraseAll_eq, hzero, hn, Option.bind_eq_bind,
    Option.bind_some, guard, reduceIte]
  exact (Option.map_eq_bind ..).symm

theorem makeTried (h : Tidy m.tables 0 ∅ k) (hx : m.mapInfo[n]? = some x)
    (hnew : x.fInTried = false) (hsuccess : 0 < x.nLastSuccess) {b : Std.TreeSet ℕ compare}
    (horigin : m.vvNew[o]? = some b) (hn : b.contains n = true) (crypto : Crypto) (rnd : ℕ → ℕ) :
    ∃ m', m.MakeTried crypto rnd x n o = some m' ∧ Tidy m'.tables 0 ∅ k := by
  have horigin' : (m.takeOut n x).vvNew[o]? = some (b.erase n) :=
    (List.getElem?_map ..).trans (congrArg (Option.map fun b => Std.TreeSet.erase b n) horigin)
  have hless : (b.erase n).size < ADDRMAN_NEW_BUCKET_SIZE := by
    rw [Std.TreeSet.size_erase, if_pos hn]
    have hb := h.newSize b (List.mem_of_getElem? horigin)
    have hpos : 0 < ADDRMAN_NEW_BUCKET_SIZE := by decide
    omega
  obtain ⟨m', hrun, hkept⟩ := (h.takeOut hx hnew).placeTried (CAddrMan.mapInfo_setInfo_self ..)
    hsuccess horigin' hless crypto rnd
  rw [add_sub_cancel_right] at hkept
  refine ⟨_, ?_, hkept⟩
  have hplaced : (m.takeOut n x).placeTried crypto rnd n (x.GetTriedBucket crypto m.nKey) o =
      some m' := hrun
  rw [h.makeTried_eq hx horigin hn, hplaced]
  rfl

end Tidy

/-! ### Calls -/

namespace CAddrMan

variable {m : CAddrMan} {n : ℕ} {x x' : CAddrInfo}

theorem find_eq {a : CNetAddr} (h : m.Find a = some (n, x)) : m.mapInfo[n]? = some x := by
  unfold Find at h
  split at h
  · cases h
  · obtain ⟨y, hy, heq⟩ := Option.map_eq_some_iff.mp h
    cases heq
    exact hy

theorem bucketOf_eq {r b : ℕ} (h : m.bucketOf r n = some b) :
    ∃ vNew, m.vvNew[b]? = some vNew ∧ vNew.contains n = true := by
  have hfound := List.find?_some h
  exact (Option.any_eq_true _ _).mp hfound

theorem not_keepsRefs {addr : CAddress} {r : ℕ} (h : ¬keepsRefs x addr r = true) :
    x.fInTried = false ∧ x.nRefCount ≠ ADDRMAN_NEW_BUCKETS_PER_ADDRESS := by
  simp only [keepsRefs, Bool.or_eq_true, not_or, beq_iff_eq] at h
  exact ⟨Bool.eq_false_of_not_eq_true h.1.1.2, h.1.2⟩

namespace Consistent

theorem find_none (h : m.Consistent) {a : CNetAddr} (hfind : m.Find a = none) :
    m.mapAddr a = none := by
  unfold Find at hfind
  split at hfind
  · assumption
  · rename_i n hn
    obtain ⟨x, hx, -⟩ := (h.addr a n).mp hn
    have hfalse : (m.mapInfo[n]?).map (fun info => (n, info)) = some (n, x) :=
      congrArg (Option.map fun info => (n, info)) hx
    rw [hfind] at hfalse
    cases hfalse

/-- What a call notes about an address. -/
theorem note (h : m.Consistent) (hx : m.mapInfo[n]? = some x) (hsound : x'.Sound)
    (hkey : x'.key = x.key) (hposition : x'.nRandomPos = x.nRandomPos) :
    (m.setInfo n x').Consistent := by
  unfold Consistent
  rw [tables_setInfo]
  exact h.touch hx hkey hposition hsound

theorem good (h : m.Consistent) (crypto : Crypto) (rnd : ℕ → ℕ) (addr : CService) {nTime : ℤ}
    (hpos : 0 < nTime) : ∃ m', m.Good_ crypto rnd addr nTime = some m' ∧ m'.Consistent := by
  unfold Good_
  split
  · exact ⟨m, rfl, h⟩
  · rename_i n x hfind
    split
    · exact ⟨m, rfl, h⟩
    · have hx := find_eq hfind
      have hsound := h.sound n x hx
      have hsound' : CAddrInfo.Sound
          { x with
            nLastSuccess := nTime, nLastTry := nTime, nTime := unsignedInt nTime,
            nAttempts := 0 } :=
        ⟨hsound.position, hpos.le, hpos.le, fun htried => ⟨hpos, (hsound.tried htried).2⟩,
          hsound.refCount⟩
      have hnote := h.note hx hsound' rfl rfl
      dsimp only
      split
      · exact ⟨_, rfl, hnote⟩
      · rename_i hnew
        split
        · exact ⟨_, rfl, hnote⟩
        · rename_i b hbucket
          obtain ⟨vNew, hvNew, hn⟩ := bucketOf_eq hbucket
          exact Tidy.makeTried hnote (mapInfo_setInfo_self ..) (Bool.eq_false_of_not_eq_true hnew)
            hpos hvNew hn crypto _

theorem attempt (h : m.Consistent) (addr : CService) {nTime : ℤ} (hnonneg : 0 ≤ nTime) :
    (m.Attempt_ addr nTime).Consistent := by
  unfold Attempt_
  split
  · exact h
  · rename_i n x hfind
    split
    · exact h
    · have hx := find_eq hfind
      have hsound := h.sound n x hx
      have hsound' : CAddrInfo.Sound { x with nLastTry := nTime, nAttempts := x.nAttempts + 1 } :=
        { hsound with lastTry := hnonneg }
      exact h.note hx hsound' rfl rfl

theorem connected (h : m.Consistent) (addr : CService) (nTime : ℤ) :
    (m.Connected_ addr nTime).Consistent := by
  unfold Connected_
  split
  · exact h
  · rename_i n x hfind
    split
    · exact h
    · split
      · have hx := find_eq hfind
        have hsound := h.sound n x hx
        have hsound' : CAddrInfo.Sound { x with nTime := unsignedInt nTime } := { hsound with }
        exact h.note hx hsound' rfl rfl
      · exact h

/-- The entry of an address that was not known, before it is counted. -/
theorem created (h : m.Consistent) {addr : CAddress} {source : CNetAddr}
    (hnone : m.mapAddr addr.toCNetAddr = none) {m' : CAddrMan}
    (hcreate : m.Create addr source = (m', n, x)) :
    Tidy m'.tables 0 {n} 1 ∧ m'.mapInfo[n]? = some x ∧ x.fInTried = false ∧ x.nRefCount = 0 := by
  cases hcreate
  refine ⟨?_, mapInfo_setInfo_self m _, rfl, rfl⟩
  have hwrite := tables_setInfo m (n := m.nIdCount) (m.Create addr source).2.2
  have hkept := @Tidy.create m.tables 0 ∅ 0 (m.Create addr source).2.2 h addr.toCNetAddr hnone
    ⟨Int.natCast_nonneg _, le_rfl, le_rfl, fun hfalse => (nomatch hfalse),
      show (0 : ℤ) ≤ ADDRMAN_NEW_BUCKETS_PER_ADDRESS by decide⟩ rfl rfl rfl rfl rfl
  rw [show m.tables.nIdCount = m.nIdCount from rfl, ← hwrite, zero_add] at hkept
  exact hkept

theorem add (h : m.Consistent) (crypto : Crypto) (rnd : ℕ → ℕ) (now : ℕ → ℤ) (addr : CAddress)
    (source : CNetAddr) (nTimePenalty : ℤ) :
    ∃ m' fNew, m.Add_ crypto rnd now addr source nTimePenalty = some (m', fNew) ∧
      m'.Consistent := by
  unfold Add_
  split
  · exact ⟨m, false, rfl, h⟩
  · split
    · rename_i n x hfind
      have hx := find_eq hfind
      have hsound := h.sound n x hx
      have hsound' : (refresh x addr nTimePenalty (now 0)).Sound := { hsound with }
      have hnote := h.note hx hsound' rfl rfl
      dsimp only
      split
      · exact ⟨_, false, rfl, hnote⟩
      · rename_i hkeeps
        obtain ⟨hnew, hmax⟩ := not_keepsRefs hkeeps
        obtain ⟨m', hrun, hkept⟩ := Tidy.addRef hnote (Finset.empty_subset _)
          (mapInfo_setInfo_self ..) hnew (lt_of_le_of_ne hsound.refCount hmax) crypto
          (fun i => rnd (i + 1)) (fun i => now (i + 1)) source
        exact ⟨m', false, by rw [hrun]; rfl, hkept⟩
    · rename_i hfind
      obtain ⟨⟨m₁, n, x⟩, hcreate⟩ : ∃ created, m.Create addr source = created := ⟨_, rfl⟩
      obtain ⟨hkept, hx, hnew, hzero⟩ := h.created (h.find_none hfind) hcreate
      obtain ⟨x', hx'⟩ : ∃ x' : CAddrInfo, x' =
        { x with nTime := unsignedInt (max 0 ((x.nTime : ℤ) - nTimePenalty)) } := ⟨_, rfl⟩
      have hsound' : x'.Sound := by
        rw [hx']
        exact { hkept.sound n x hx with }
      have hnoted := hkept.touch hx (by rw [hx']; rfl) (by rw [hx']) hsound'
      rw [← tables_setInfo] at hnoted
      have hcounted :
          Tidy ({ m₁.setInfo n x' with nNew := m₁.nNew + 1 } : CAddrMan).tables 0 {n} 0 :=
        hnoted.recount (by rw [add_zero]; rfl)
      obtain ⟨m', hrun, hkept'⟩ := hcounted.addRef (Finset.Subset.refl _)
        (mapInfo_setInfo_self ..) (by rw [hx']; exact hnew) (by rw [hx', hzero]; decide)
        crypto rnd now source
      refine ⟨m', true, ?_, hkept'⟩
      rw [hcreate]
      dsimp only
      rw [← hx', hrun]
      rfl

theorem shuffle {rnd : ℕ → ℕ} : ∀ {k n : ℕ} {m : CAddrMan}, m.Consistent →
    n + k ≤ m.vRandom.length →
      ∃ m' vAddr, m.shuffle rnd k n = some (m', vAddr) ∧ m'.Consistent := by
  intro k
  induction k with
  | zero => exact fun h _ => ⟨_, [], rfl, h⟩
  | succ k ih =>
      intro n m h hle
      have hn : n < m.vRandom.length := by omega
      have hpos : GetRandInt (rnd n) (m.vRandom.length - n) + n < m.vRandom.length := by
        have hlt := getRandInt_lt (r := rnd n) (Nat.sub_pos_of_lt hn)
        omega
      obtain ⟨m', hswap, hkept, hlength, -, -, -⟩ := Tidy.swapRandom h hn hpos
      have hn' : n < m'.vRandom.length := hlength ▸ hn
      have hget : m'.vRandom[n]? = some m'.vRandom[n] := List.getElem?_eq_getElem hn'
      obtain ⟨x, hx⟩ := Tidy.info_of_mem hkept (List.getElem_mem hn')
      obtain ⟨m'', vAddr, hrun, hkept'⟩ := ih (n := n + 1) hkept (by omega)
      refine ⟨m'', x.toCAddress :: vAddr, ?_, hkept'⟩
      simp only [CAddrMan.shuffle, hswap, hget, hx, hrun, Option.bind_eq_bind, Option.bind_some]

theorem getAddr (h : m.Consistent) (rnd : ℕ → ℕ) :
    ∃ m' vAddr, m.GetAddr_ rnd = some (m', vAddr) ∧ m'.Consistent := by
  refine shuffle h ?_
  have hmax : ADDRMAN_GETADDR_MAX_PCT * m.vRandom.length / 100 ≤ m.vRandom.length := by
    unfold ADDRMAN_GETADDR_MAX_PCT
    omega
  omega

end Consistent

end CAddrMan

end Ziftrcoin.Spec
