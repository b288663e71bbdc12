/-
Module: Ziftrcoin.Proofs.AddrTables
Purpose: What the tables of an address manager have to do with each other, also
  in the middle of a call, and what the steps of the calls do to that.
Trusted boundary: none
Main exports: Tables, Tidy.forget
-/
import Mathlib.Data.Finset.Card
import Mathlib.Tactic.Ring
import Ziftrcoin.Lib.Buckets
import Ziftrcoin.Lib.Places
import Ziftrcoin.Spec.AddrMan

namespace Ziftrcoin.Spec

open Ziftrcoin.Lib

/-! ### Tables -/

/-- The tables of an address manager; maps are functions here. -/
structure Tables where
  nIdCount : ℕ
  info : ℕ → Option CAddrInfo
  mapAddr : CNetAddr → Option ℕ
  vRandom : List ℕ
  nTried : ℤ
  vvTried : List (List ℕ)
  nNew : ℤ
  vvNew : List (Std.TreeSet ℕ)

def CAddrMan.tables (m : CAddrMan) : Tables :=
  { nIdCount := m.nIdCount, info := fun n => m.mapInfo[n]?, mapAddr := m.mapAddr,
    vRandom := m.vRandom, nTried := m.nTried, vvTried := m.vvTried, nNew := m.nNew,
    vvNew := m.vvNew }

namespace Tables

/-- The entry of an id is written. -/
def write (t : Tables) (n : ℕ) (x : CAddrInfo) : Tables :=
  { t with info := Function.update t.info n (some x) }

/-- Where an id stands in the random order. -/
def place (t : Tables) (n : ℕ) : Option ℕ := (t.info n).map fun x => x.nRandomPos.toNat

variable {t : Tables} {n n' : ℕ} {x x' : CAddrInfo}

theorem info_write_self (t : Tables) (n : ℕ) (x : CAddrInfo) : (t.write n x).info n = some x :=
  Function.update_self ..

theorem info_write_of_ne (x : CAddrInfo) (hn : n' ≠ n) : (t.write n x).info n' = t.info n' :=
  Function.update_of_ne hn ..

/-- What holds of the entry that is written and of the others holds of all entries. -/
theorem forall_write {P : ℕ → CAddrInfo → Prop} (hn : P n x)
    (hrest : ∀ n' ≠ n, ∀ y, t.info n' = some y → P n' y) :
    ∀ n' y, (t.write n x).info n' = some y → P n' y := by
  intro n' y hy
  by_cases hne : n' = n
  · subst hne
    rw [info_write_self] at hy
    obtain rfl := Option.some.inj hy
    exact hn
  · rw [info_write_of_ne x hne] at hy
    exact hrest n' hne y hy

theorem place_write (t : Tables) (n : ℕ) (x : CAddrInfo) :
    (t.write n x).place = Function.update t.place n (some x.nRandomPos.toNat) := by
  funext n'
  by_cases hn : n' = n
  · simp [place, write, hn]
  · simp [place, write, hn]

/-- An entry that keeps its position leaves the places as they are. -/
theorem place_write_of_eq (hx : t.info n = some x) (hposition : x'.nRandomPos = x.nRandomPos) :
    (t.write n x').place = t.place := by
  rw [place_write, hposition]
  apply Function.update_eq_self_iff.mpr
  rw [place, hx, Option.map_some]

end Tables

namespace CAddrMan

variable (m : CAddrMan) {n n' : ℕ} (x : CAddrInfo)

@[simp] theorem mapInfo_setInfo_self : (m.setInfo n x).mapInfo[n]? = some x := by
  simp [setInfo]

theorem mapInfo_setInfo_of_ne (hn : n' ≠ n) : (m.setInfo n x).mapInfo[n']? = m.mapInfo[n']? := by
  simp [setInfo, Std.TreeMap.getElem?_insert, Ne.symm hn]

@[simp] theorem tables_setInfo : (m.setInfo n x).tables = m.tables.write n x := by
  unfold tables Tables.write
  congr 1
  funext n'
  by_cases hn : n' = n
  · simp [hn]
  · simp [mapInfo_setInfo_of_ne m x hn, hn]

end CAddrMan

/-! ### The invariant -/

/-- What holds of every entry. -/
structure CAddrInfo.Sound (x : CAddrInfo) : Prop where
  position : 0 ≤ x.nRandomPos
  lastTry : 0 ≤ x.nLastTry
  lastSuccess : 0 ≤ x.nLastSuccess
  tried : x.fInTried = true → 0 < x.nLastSuccess ∧ x.nRefCount = 0
  refCount : x.nRefCount ≤ ADDRMAN_NEW_BUCKETS_PER_ADDRESS

/-- The tables fit together.  In the middle of a call the reference counts may be
off by `held`, the ids in `limbo` are neither new nor tried, and `k` ids are not
counted as either. -/
structure Tidy (t : Tables) (held : ℕ → ℤ) (limbo : Finset ℕ) (k : ℤ) : Prop where
  fresh : ∀ n x, t.info n = some x → n < t.nIdCount
  placed : Placed t.vRandom t.place
  addr : ∀ a n, t.mapAddr a = some n ↔ ∃ x, t.info n = some x ∧ x.toCNetAddr = a
  sound : ∀ n x, t.info n = some x → x.Sound
  refs : ∀ n x, t.info n = some x → x.nRefCount = holders t.vvNew n + held n
  known : ∀ n, 0 < holders t.vvNew n + held n → (t.info n).isSome = true
  settled : ∀ n x, t.info n = some x → x.fInTried = true ∨ 0 < x.nRefCount ∨ n ∈ limbo
  unsettled : ∀ n ∈ limbo, ∃ x, t.info n = some x ∧ x.fInTried = false ∧ x.nRefCount = 0
  triedOnce : t.vvTried.flatten.Nodup
  tried : ∀ n, n ∈ t.vvTried.flatten ↔ ∃ x, t.info n = some x ∧ x.fInTried = true
  nTried : t.nTried = t.vvTried.flatten.length
  count : (t.vRandom.length : ℤ) = t.nTried + t.nNew + k
  newCount : t.vvNew.length = ADDRMAN_NEW_BUCKET_COUNT
  newSize : ∀ b ∈ t.vvNew, b.size ≤ ADDRMAN_NEW_BUCKET_SIZE
  triedCount : t.vvTried.length = ADDRMAN_TRIED_BUCKET_COUNT
  triedSize : ∀ b ∈ t.vvTried, b.length ≤ ADDRMAN_TRIED_BUCKET_SIZE

/-- The tables between two calls. -/
def CAddrMan.Consistent (m : CAddrMan) : Prop := Tidy m.tables 0 ∅ 0

/-- The parts of an entry that other tables know of. -/
def CAddrInfo.key (x : CAddrInfo) : CNetAddr × Bool × ℤ :=
  (x.toCNetAddr, x.fInTried, x.nRefCount)

namespace Tidy

variable {t : Tables} {held : ℕ → ℤ} {limbo : Finset ℕ} {k : ℤ} {n : ℕ} {x x' : CAddrInfo}

/-- Entries may change as long as their keys stay the same. -/
theorem revise (h : Tidy t held limbo k) {info : ℕ → Option CAddrInfo} {vRandom : List ℕ}
    (hkey : ∀ n, (info n).map CAddrInfo.key = (t.info n).map CAddrInfo.key)
    (hsound : ∀ n x, info n = some x → x.Sound)
    (hplaced : Placed vRandom { t with info, vRandom }.place)
    (hlength : vRandom.length = t.vRandom.length) :
    Tidy { t with info, vRandom } held limbo k := by
  have hback : ∀ n x', info n = some x' → ∃ x, t.info n = some x ∧ x.key = x'.key := by
    intro n x' hx'
    have hn := hkey n
    rw [hx'] at hn
    exact Option.map_eq_some_iff.mp hn.symm
  have hforth : ∀ n x, t.info n = some x → ∃ x', info n = some x' ∧ x'.key = x.key := by
    intro n x hx
    have hn := hkey n
    rw [hx] at hn
    exact Option.map_eq_some_iff.mp hn
  exact
    { h with
      fresh := by
        intro n x' hx'
        obtain ⟨x, hx, -⟩ := hback n x' hx'
        exact h.fresh n x hx
      placed := hplaced
      addr := by
        intro a n
        rw [h.addr a n]
        constructor
        · rintro ⟨x, hx, ha⟩
          obtain ⟨x', hx', heq⟩ := hforth n x hx
          exact ⟨x', hx', (congrArg Prod.fst heq).trans ha⟩
        · rintro ⟨x', hx', ha⟩
          obtain ⟨x, hx, heq⟩ := hback n x' hx'
          exact ⟨x, hx, (congrArg Prod.fst heq).trans ha⟩
      sound := hsound
      refs := by
        intro n x' hx'
        obtain ⟨x, hx, heq⟩ := hback n x' hx'
        exact (congrArg (fun key => key.2.2) heq).symm.trans (h.refs n x hx)
      known := by
        intro n hn
        obtain ⟨x, hx⟩ := Option.isSome_iff_exists.mp (h.known n hn)
        obtain ⟨x', hx', -⟩ := hforth n x hx
        exact Option.isSome_iff_exists.mpr ⟨x', hx'⟩
      settled := by
        intro n x' hx'
        obtain ⟨x, hx, heq⟩ := hback n x' hx'
        have htried : x.fInTried = x'.fInTried := congrArg (fun key => key.2.1) heq
        have hrefs : x.nRefCount = x'.nRefCount := congrArg (fun key => key.2.2) heq
        rw [← htried, ← hrefs]
        exact h.settled n x hx
      unsettled := by
        intro n hn
        obtain ⟨x, hx, htried, hrefs⟩ := h.unsettled n hn
        obtain ⟨x', hx', heq⟩ := hforth n x hx
        exact ⟨x', hx', (congrArg (fun key => key.2.1) heq).trans htried,
          (congrArg (fun key => key.2.2) heq).trans hrefs⟩
      tried := by
        intro n
        rw [h.tried n]
        constructor
        · rintro ⟨x, hx, htried⟩
          obtain ⟨x', hx', heq⟩ := hforth n x hx
          exact ⟨x', hx', (congrArg (fun key => key.2.1) heq).trans htried⟩
        · rintro ⟨x', hx', htried⟩
          obtain ⟨x, hx, heq⟩ := hback n x' hx'
          exact ⟨x, hx, (congrArg (fun key => key.2.1) heq).trans htried⟩
      count := by
        rw [hlength]
        exact h.count }

/-- An entry is written whose key and position stay the same. -/
theorem touch (h : Tidy t held limbo k) (hx : t.info n = some x) (hkey : x'.key = x.key)
    (hposition : x'.nRandomPos = x.nRandomPos) (hsound : x'.Sound) :
    Tidy (t.write n x') held limbo k := by
  have hplace := Tables.place_write_of_eq hx hposition
  have hrevised := @revise t held limbo k h (Function.update t.info n (some x')) t.vRandom ?_ ?_
    (by
      have hplaced := h.placed
      rw [← hplace] at hplaced
      exact hplaced) rfl
  · exact hrevised
  · intro n'
    by_cases hn : n' = n
    · simp [hn, hx, hkey]
    · simp [hn]
  · exact Tables.forall_write (t := t) (n := n) (x := x') hsound fun n' _ => h.sound n'

/-- Two ids trade places in the random order. -/
theorem swap (h : Tidy t held limbo k) {i j a b : ℕ} {xa xb : CAddrInfo}
    (hi : t.vRandom[i]? = some a) (hj : t.vRandom[j]? = some b) (hij : i ≠ j)
    (ha : t.info a = some xa) (hb : t.info b = some xb) :
    Tidy
      { (t.write a { xa with nRandomPos := j }).write b { xb with nRandomPos := i } with
        vRandom := (t.vRandom.set i b).set j a } held limbo k := by
  have hab : b ≠ a := by
    rintro rfl
    exact hij (h.placed.unique hi hj)
  refine @revise t held limbo k h _ _ (fun n => ?_) (fun n y hy => ?_) ?_ (by simp)
  · dsimp only [Tables.write]
    by_cases hnb : n = b
    · subst hnb
      rw [Function.update_self, hb]
      rfl
    · rw [Function.update_of_ne hnb]
      by_cases hna : n = a
      · subst hna
        rw [Function.update_self, ha]
        rfl
      · rw [Function.update_of_ne hna]
  · have hsoundA : ∀ n y, (t.write a { xa with nRandomPos := j }).info n = some y → y.Sound :=
      Tables.forall_write { h.sound a xa ha with position := Int.natCast_nonneg j }
        fun n _ => h.sound n
    have hsoundB : CAddrInfo.Sound { xb with nRandomPos := i } :=
      { h.sound b xb hb with position := Int.natCast_nonneg i }
    exact Tables.forall_write (P := fun _ y => y.Sound) hsoundB (fun n _ => hsoundA n) n y hy
  · have hplaced := h.placed.swap hi hj hij
    have hplace : ((t.write a { xa with nRandomPos := j }).write b
        { xb with nRandomPos := i }).place =
          Function.update (Function.update t.place a (some j)) b (some i) := by
      rw [Tables.place_write, Tables.place_write]
      rfl
    rw [← hplace] at hplaced
    exact hplaced

/-- An entry is written, and what the other tables have of its id changes with it. -/
theorem write (h : Tidy t held limbo k) (hx : t.info n = some x) (hsound : x'.Sound)
    (haddr : x'.toCNetAddr = x.toCNetAddr) (hposition : x'.nRandomPos = x.nRandomPos)
    {held' : ℕ → ℤ} {limbo' : Finset ℕ} {k' nTried nNew : ℤ}
    {vvTried : List (List ℕ)} {vvNew : List (Std.TreeSet ℕ)}
    (hrefs : x'.nRefCount = holders vvNew n + held' n)
    (hsame : ∀ n' ≠ n, (holders vvNew n' : ℤ) + held' n' = holders t.vvNew n' + held n')
    (hsettled : x'.fInTried = true ∨ 0 < x'.nRefCount ∨ n ∈ limbo')
    (hunsettled : n ∈ limbo' → x'.fInTried = false ∧ x'.nRefCount = 0)
    (hlimbo : ∀ n' ≠ n, n' ∈ limbo' ↔ n' ∈ limbo)
    (honce : vvTried.flatten.Nodup) (htried : n ∈ vvTried.flatten ↔ x'.fInTried = true)
    (hothers : ∀ n' ≠ n, n' ∈ vvTried.flatten ↔ n' ∈ t.vvTried.flatten)
    (hnTried : nTried = vvTried.flatten.length)
    (hcount : nTried + nNew + k' = t.nTried + t.nNew + k)
    (hnewCount : vvNew.length = ADDRMAN_NEW_BUCKET_COUNT)
    (hnewSize : ∀ b ∈ vvNew, b.size ≤ ADDRMAN_NEW_BUCKET_SIZE)
    (htriedCount : vvTried.length = ADDRMAN_TRIED_BUCKET_COUNT)
    (htriedSize : ∀ b ∈ vvTried, b.length ≤ ADDRMAN_TRIED_BUCKET_SIZE) :
    Tidy { t.write n x' with nTried, vvTried, nNew, vvNew } held' limbo' k' := by
  have hself := t.info_write_self n x'
  have hother : ∀ {n'}, n' ≠ n → (t.write n x').info n' = t.info n' :=
    fun hn => Tables.info_write_of_ne x' hn
  have hplace := Tables.place_write_of_eq hx hposition
  exact
    { fresh := Tables.forall_write (h.fresh n x hx) fun n' _ => h.fresh n'
      placed := by
        have hplaced := h.placed
        rw [← hplace] at hplaced
        exact hplaced
      addr := by
        intro a n'
        refine (h.addr a n').trans ?_
        by_cases hne : n' = n
        · subst hne
          simp [hx, hself, haddr]
        · simp [hother hne]
      sound := Tables.forall_write hsound fun n' _ => h.sound n'
      refs := by
        refine Tables.forall_write hrefs fun n' hne y hy => ?_
        rw [hsame n' hne]
        exact h.refs n' y hy
      known := by
        intro n' hn'
        by_cases hne : n' = n
        · subst hne
          simp [hself]
        · rw [hsame n' hne] at hn'
          have hknown := h.known n' hn'
          rw [← hother hne] at hknown
          exact hknown
      settled := by
        refine Tables.forall_write hsettled fun n' hne y hy => ?_
        rw [hlimbo n' hne]
        exact h.settled n' y hy
      unsettled := by
        intro n' hn'
        by_cases hne : n' = n
        · subst hne
          exact ⟨x', hself, hunsettled hn'⟩
        · obtain ⟨y, hy, hzero⟩ := h.unsettled n' ((hlimbo n' hne).mp hn')
          exact ⟨y, (hother hne).trans hy, hzero⟩
      triedOnce := honce
      tried := by
        intro n'
        by_cases hne : n' = n
        · subst hne
          simp [htried, hself]
        · rw [hothers n' hne, h.tried n']
          simp [hother hne]
      nTried := hnTried
      count := by
        rw [hcount]
        exact h.count
      newCount := hnewCount
      newSize := hnewSize
      triedCount := htriedCount
      triedSize := htriedSize }

/-! ### Buckets of new addresses -/

theorem rebucket (h : Tidy t held limbo k) {held' : ℕ → ℤ} {vvNew : List (Std.TreeSet ℕ)}
    (hsame : ∀ n, (holders vvNew n : ℤ) + held' n = holders t.vvNew n + held n)
    (hcount : vvNew.length = t.vvNew.length)
    (hsize : ∀ b ∈ vvNew, b.size ≤ ADDRMAN_NEW_BUCKET_SIZE) :
    Tidy { t with vvNew } held' limbo k :=
  { h with
    refs := fun n x hx => (h.refs n x hx).trans (hsame n).symm
    known := fun n hn => h.known n (by rw [← hsame n]; exact hn)
    newCount := hcount.trans h.newCount
    newSize := hsize }

theorem recount (h : Tidy t held limbo k) {k' nNew : ℤ} (hcount : nNew + k' = t.nNew + k) :
    Tidy { t with nNew } held limbo k' :=
  { h with
    count := by
      have := h.count
      dsimp only
      omega }

/-- A reference that an entry has, or is about to have. -/
def one (n : ℕ) : ℕ → ℤ := fun n' => if n' = n then 1 else 0

theorem insertNew (h : Tidy t (held + one n) limbo k) {b : Std.TreeSet ℕ} {i : ℕ}
    (hb : t.vvNew[i]? = some b) (hn : b.contains n = false)
    (hsize : b.size < ADDRMAN_NEW_BUCKET_SIZE) :
    Tidy { t with vvNew := t.vvNew.modify i fun b => b.insert n } held limbo k := by
  refine h.rebucket (fun n' => ?_) (List.length_modify ..)
    (forall_mem_modify h.newSize hb ?_)
  · rw [holders_insert hb hn, Pi.add_apply, one]
    push_cast
    ring
  · rw [Std.TreeSet.size_insert, if_neg (by rw [hn]; exact Bool.false_ne_true)]
    exact hsize

theorem eraseNew (h : Tidy t held limbo k) {b : Std.TreeSet ℕ} {i : ℕ}
    (hb : t.vvNew[i]? = some b) (hn : b.contains n = true) :
    Tidy { t with vvNew := t.vvNew.modify i fun b => b.erase n } (held + one n) limbo k := by
  refine h.rebucket (fun n' => ?_) (List.length_modify ..)
    (forall_mem_modify h.newSize hb ?_)
  · rw [← holders_erase hb hn, Pi.add_apply, one]
    push_cast
    ring
  · rw [Std.TreeSet.size_erase, if_pos hn]
    exact (Nat.sub_le _ _).trans (h.newSize b (List.mem_of_getElem? hb))

/-! ### References -/

/-- A new address is referred to once more, or a first time. -/
theorem raise (h : Tidy t held limbo k) (hx : t.info n = some x) (hnew : x.fInTried = false)
    (hmax : x.nRefCount < ADDRMAN_NEW_BUCKETS_PER_ADDRESS) :
    Tidy (t.write n { x with nRefCount := x.nRefCount + 1 }) (held + one n) (limbo.erase n) k := by
  have hsound := h.sound n x hx
  have hzero : 0 ≤ x.nRefCount := by
    rcases h.settled n x hx with htried | hpos | hlimbo
    · exact absurd (hnew.symm.trans htried) Bool.false_ne_true
    · exact hpos.le
    · obtain ⟨y, hy, -, hy0⟩ := h.unsettled n hlimbo
      rw [hx] at hy
      obtain rfl := Option.some.inj hy
      exact hy0.ge
  have hsound' : CAddrInfo.Sound { x with nRefCount := x.nRefCount + 1 } :=
    ⟨hsound.position, hsound.lastTry, hsound.lastSuccess,
      fun htried => absurd (hnew.symm.trans htried) Bool.false_ne_true, hmax⟩
  refine h.write hx hsound' rfl rfl ?_ ?_ (.inr (.inl ?_)) ?_ ?_ h.triedOnce ?_
    (fun _ _ => Iff.rfl) h.nTried rfl h.newCount h.newSize h.triedCount h.triedSize
  · dsimp only
    rw [h.refs n x hx, Pi.add_apply, one, if_pos rfl, add_assoc]
  · intro n' hn'
    rw [Pi.add_apply, one, if_neg hn', add_zero]
  · exact Int.lt_add_one_of_le hzero
  · intro hmem
    exact absurd rfl (Finset.mem_erase.mp hmem).1
  · intro n' hn'
    rw [Finset.mem_erase]
    exact and_iff_right hn'
  · rw [h.tried n]
    simp [hx, hnew]

/-- A reference to a new address is given up. -/
theorem lower (h : Tidy t held ∅ k) (hx : t.info n = some x) (hnew : x.fInTried = false) :
    Tidy (t.write n { x with nRefCount := x.nRefCount - 1 }) (held - one n)
      (if x.nRefCount - 1 = 0 then {n} else ∅) k := by
  have hsound := h.sound n x hx
  have hpos : 0 < x.nRefCount := by
    rcases h.settled n x hx with htried | hpos | hlimbo
    · exact absurd (hnew.symm.trans htried) Bool.false_ne_true
    · exact hpos
    · exact absurd hlimbo (Finset.notMem_empty n)
  have hsound' : CAddrInfo.Sound { x with nRefCount := x.nRefCount - 1 } :=
    ⟨hsound.position, hsound.lastTry, hsound.lastSuccess,
      fun htried => absurd (hnew.symm.trans htried) Bool.false_ne_true,
      (Int.sub_le_self _ Int.one_nonneg).trans hsound.refCount⟩
  refine h.write hx hsound' rfl rfl ?_ ?_ (.inr ?_) ?_ ?_ h.triedOnce ?_
    (fun _ _ => Iff.rfl) h.nTried rfl h.newCount h.newSize h.triedCount h.triedSize
  · dsimp only
    rw [h.refs n x hx, Pi.sub_apply, one, if_pos rfl, add_sub_assoc]
  · intro n' hn'
    rw [Pi.sub_apply, one, if_neg hn', sub_zero]
  · by_cases hzero : x.nRefCount - 1 = 0
    · rw [if_pos hzero]
      exact .inr (Finset.mem_singleton_self n)
    · refine .inl ?_
      dsimp only
      omega
  · intro hmem
    by_cases hzero : x.nRefCount - 1 = 0
    · exact ⟨hnew, hzero⟩
    · rw [if_neg hzero] at hmem
      exact absurd hmem (Finset.notMem_empty n)
  · intro n' hn'
    by_cases hzero : x.nRefCount - 1 = 0
    · simp [hzero, hn']
    · simp [hzero]
  · rw [h.tried n]
    simp [hx, hnew]

/-- A new address leaves all of its buckets. -/
theorem withdraw (h : Tidy t 0 ∅ k) (hx : t.info n = some x) (hnew : x.fInTried = false) :
    Tidy
      { t.write n { x with nRefCount := 0 } with
        vvNew := t.vvNew.map fun b => b.erase n } 0 {n} k := by
  have hsound := h.sound n x hx
  have hsound' : CAddrInfo.Sound { x with nRefCount := 0 } :=
    ⟨hsound.position, hsound.lastTry, hsound.lastSuccess,
      fun htried => absurd (hnew.symm.trans htried) Bool.false_ne_true, Int.zero_le_ofNat 4⟩
  refine h.write hx hsound' rfl rfl ?_ ?_ (.inr (.inr (Finset.mem_singleton_self n))) ?_ ?_
    h.triedOnce ?_ (fun _ _ => Iff.rfl) h.nTried rfl ((List.length_map _).trans h.newCount) ?_
    h.triedCount h.triedSize
  · rw [holders_eraseAll, if_pos rfl]
    rfl
  · intro n' hn'
    rw [holders_eraseAll, if_neg hn']
  · exact fun _ => ⟨hnew, rfl⟩
  · intro n' hn'
    simp [hn']
  · exact (h.tried n).trans (by simp [hx, hnew])
  · intro b hb
    obtain ⟨b, hmem, rfl⟩ := List.mem_map.mp hb
    exact Std.TreeSet.size_erase_le.trans (h.newSize b hmem)

/-! ### Buckets of tried addresses -/

section

variable {i : ℕ} {ys ys' : List ℕ}

/-- Another bucket in place of one of the tried ones. -/
theorem tried_set (h : Tidy t held limbo k) (hlength : ys'.length ≤ ADDRMAN_TRIED_BUCKET_SIZE) :
    (t.vvTried.set i ys').length = ADDRMAN_TRIED_BUCKET_COUNT ∧
      ∀ b ∈ t.vvTried.set i ys', b.length ≤ ADDRMAN_TRIED_BUCKET_SIZE := by
  refine ⟨(List.length_set ..).trans h.triedCount, fun b hb => ?_⟩
  rcases List.mem_or_eq_of_mem_set hb with hmem | rfl
  · exact h.triedSize b hmem
  · exact hlength

/-- An address that was taken out of the new ones becomes a tried one. -/
theorem join (h : Tidy t held limbo k) (hx : t.info n = some x) (hn : n ∈ limbo)
    (hsuccess : 0 < x.nLastSuccess) (hys : t.vvTried[i]? = some ys) (hperm : ys'.Perm (n :: ys))
    (hlength : ys'.length ≤ ADDRMAN_TRIED_BUCKET_SIZE) :
    Tidy
      { t.write n { x with fInTried := true } with
        vvTried := t.vvTried.set i ys', nTried := t.nTried + 1 } held (limbo.erase n) (k - 1) := by
  obtain ⟨y, hy, hnew, hzero⟩ := h.unsettled n hn
  rw [hx] at hy
  obtain rfl := Option.some.inj hy
  have hsound := h.sound n x hx
  have hsound' : CAddrInfo.Sound { x with fInTried := true } :=
    ⟨hsound.position, hsound.lastTry, hsound.lastSuccess, fun _ => ⟨hsuccess, hzero⟩,
      hsound.refCount⟩
  obtain ⟨rest, hold, hset⟩ := perm_flatten_set hys
  have hflatten : (t.vvTried.set i ys').flatten.Perm (n :: t.vvTried.flatten) :=
    (hset ys').trans ((hperm.append_right rest).trans (hold.symm.cons n))
  have hout : n ∉ t.vvTried.flatten := by
    rw [h.tried n]
    simp [hx, hnew]
  obtain ⟨hcount, hsize⟩ := h.tried_set (i := i) hlength
  refine h.write hx hsound' rfl rfl (h.refs n x hx) (fun _ _ => rfl) (.inl rfl) ?_ ?_ ?_ ?_ ?_ ?_ ?_
    h.newCount h.newSize hcount hsize
  · intro hmem
    exact absurd rfl (Finset.mem_erase.mp hmem).1
  · intro n' hn'
    rw [Finset.mem_erase]
    exact and_iff_right hn'
  · exact hflatten.nodup_iff.mpr (List.nodup_cons.mpr ⟨hout, h.triedOnce⟩)
  · rw [hflatten.mem_iff]
    simp
  · intro n' hn'
    rw [hflatten.mem_iff]
    simp [hn']
  · rw [hflatten.length_eq, h.nTried]
    simp
  · dsimp only [Tables.write]
    ring

/-- A tried address becomes a new one that is about to go into a bucket. -/
theorem evict (h : Tidy t held limbo k) (hx : t.info n = some x) (htried : x.fInTried = true)
    (hys : t.vvTried[i]? = some ys) (hperm : ys.Perm (n :: ys')) :
    Tidy
      { t.write n { x with fInTried := false, nRefCount := 1 } with
        vvTried := t.vvTried.set i ys', nTried := t.nTried - 1 } (held + one n) limbo (k + 1) := by
  have hsound := h.sound n x hx
  have hzero := (hsound.tried htried).2
  have hsound' : CAddrInfo.Sound { x with fInTried := false, nRefCount := 1 } :=
    ⟨hsound.position, hsound.lastTry, hsound.lastSuccess, fun hfalse => (nomatch hfalse),
      show (1 : ℤ) ≤ ADDRMAN_NEW_BUCKETS_PER_ADDRESS by decide⟩
  obtain ⟨rest, hold, hset⟩ := perm_flatten_set hys
  have hflatten : t.vvTried.flatten.Perm (n :: (t.vvTried.set i ys').flatten) :=
    hold.trans ((hperm.append_right rest).trans ((hset ys').symm.cons n))
  have honce := List.nodup_cons.mp (hflatten.nodup_iff.mp h.triedOnce)
  have hlength : ys'.length ≤ ADDRMAN_TRIED_BUCKET_SIZE := by
    have hbound := h.triedSize ys (List.mem_of_getElem? hys)
    rw [hperm.length_eq, List.length_cons] at hbound
    exact (Nat.le_succ _).trans hbound
  obtain ⟨hcount, hsize⟩ := h.tried_set (i := i) hlength
  have hlimbo : n ∉ limbo := by
    intro hmem
    obtain ⟨y, hy, hnew, -⟩ := h.unsettled n hmem
    rw [hx] at hy
    obtain rfl := Option.some.inj hy
    exact absurd (hnew.symm.trans htried) Bool.false_ne_true
  refine h.write hx hsound' rfl rfl ?_ ?_ (.inr (.inl Int.one_pos)) (fun hmem => absurd hmem hlimbo)
    (fun _ _ => Iff.rfl) honce.2 ?_ ?_ ?_ ?_ h.newCount h.newSize hcount hsize
  · have hrefs := h.refs n x hx
    rw [hzero] at hrefs
    dsimp only [Tables.write]
    rw [Pi.add_apply, one, if_pos rfl]
    omega
  · intro n' hn'
    rw [Pi.add_apply, one, if_neg hn', add_zero]
    rfl
  · simp [honce.1]
  · intro n' hn'
    rw [hflatten.mem_iff]
    simp [hn']
  · have hlen := hflatten.length_eq
    rw [List.length_cons] at hlen
    rw [h.nTried, hlen]
    push_cast
    ring
  · dsimp only [Tables.write]
    ring

end

/-! ### Entries -/

/-- An address that was not known gets an entry. -/
theorem create (h : Tidy t held limbo k) {a : CNetAddr} (ha : t.mapAddr a = none)
    (hsound : x.Sound) (haddr : x.toCNetAddr = a) (hposition : x.nRandomPos = t.vRandom.length)
    (hnew : x.fInTried = false) (hzero : x.nRefCount = 0) (hheld : held t.nIdCount = 0) :
    Tidy
      { t.write t.nIdCount x with
        nIdCount := t.nIdCount + 1
        mapAddr := Function.update t.mapAddr a (some t.nIdCount)
        vRandom := t.vRandom ++ [t.nIdCount] } held (insert t.nIdCount limbo) (k + 1) := by
  have hfree : t.info t.nIdCount = none := by
    by_contra hne
    obtain ⟨y, hy⟩ := Option.ne_none_iff_exists'.mp hne
    exact Nat.lt_irrefl _ (h.fresh _ y hy)
  have hrefs : (holders t.vvNew t.nIdCount : ℤ) = 0 := by
    by_contra hne
    have hknown := h.known t.nIdCount (by omega)
    simp [hfree] at hknown
  have hself := t.info_write_self t.nIdCount x
  have hother : ∀ {n}, n ≠ t.nIdCount → (t.write t.nIdCount x).info n = t.info n :=
    fun hn => Tables.info_write_of_ne x hn
  exact
    { h with
      fresh := Tables.forall_write (Nat.lt_succ_self _)
        fun n _ y hy => Nat.lt_succ_of_lt (h.fresh n y hy)
      placed := by
        have hplaced := h.placed.push (a := t.nIdCount) (by simp [Tables.place, hfree])
        rw [← Int.toNat_natCast t.vRandom.length, ← hposition, ← Tables.place_write] at hplaced
        exact hplaced
      addr := by
        intro a' n
        by_cases hne : n = t.nIdCount
        · subst hne
          dsimp only
          rw [hself]
          by_cases haa : a' = a
          · subst haa
            simp [haddr]
          · rw [Function.update_of_ne haa, h.addr a']
            simp [hfree, haddr, Ne.symm haa]
        · dsimp only
          rw [hother hne, ← h.addr a' n]
          by_cases haa : a' = a
          · subst haa
            simp [ha, Ne.symm hne]
          · rw [Function.update_of_ne haa]
      sound := Tables.forall_write hsound fun n _ => h.sound n
      refs := Tables.forall_write
        (hzero.trans (by dsimp only [Tables.write]; rw [hrefs, hheld, add_zero]))
        fun n _ => h.refs n
      known := by
        intro n hn
        by_cases hne : n = t.nIdCount
        · subst hne
          simp [hself]
        · have hknown := h.known n hn
          rw [← hother hne] at hknown
          exact hknown
      settled := by
        refine Tables.forall_write (.inr (.inr (Finset.mem_insert_self ..))) fun n _ y hy => ?_
        rcases h.settled n y hy with htried | hpos | hmem
        · exact .inl htried
        · exact .inr (.inl hpos)
        · exact .inr (.inr (Finset.mem_insert_of_mem hmem))
      unsettled := by
        intro n hn
        by_cases hne : n = t.nIdCount
        · subst hne
          exact ⟨x, hself, hnew, hzero⟩
        · obtain ⟨y, hy, hrest⟩ := h.unsettled n (Finset.mem_of_mem_insert_of_ne hn hne)
          exact ⟨y, (hother hne).trans hy, hrest⟩
      tried := by
        intro n
        refine (h.tried n).trans ?_
        by_cases hne : n = t.nIdCount
        · subst hne
          simp [hself, hfree, hnew]
        · simp [hother hne]
      count := by
        have hcount := h.count
        dsimp only [Tables.write]
        rw [List.length_append, List.length_singleton]
        push_cast
        omega }

/-- An address that is not referred to any more is forgotten; its id stands last. -/
theorem forget (h : Tidy t held {n} k) (hx : t.info n = some x)
    (hlast : t.vRandom[t.vRandom.length - 1]? = some n) :
    Tidy
      { t with
        info := Function.update t.info n none
        mapAddr := Function.update t.mapAddr x.toCNetAddr none
        vRandom := t.vRandom.dropLast
        nNew := t.nNew - 1 } held ∅ k := by
  obtain ⟨y, hy, hnew, hzero⟩ := h.unsettled n (Finset.mem_singleton_self n)
  rw [hx] at hy
  obtain rfl := Option.some.inj hy
  have hrefs := h.refs n x hx
  rw [hzero] at hrefs
  have hback : ∀ {n' y}, Function.update t.info n none n' = some y →
      n' ≠ n ∧ t.info n' = some y := by
    intro n' y hy
    by_cases hne : n' = n
    · subst hne
      rw [Function.update_self] at hy
      cases hy
    · rw [Function.update_of_ne hne] at hy
      exact ⟨hne, hy⟩
  have hforth : ∀ {n' y}, n' ≠ n → t.info n' = some y → Function.update t.info n none n' = some y :=
    fun hne hy => (Function.update_of_ne hne ..).trans hy
  exact
    { h with
      fresh := fun n' y hy => h.fresh n' y (hback hy).2
      placed := by
        have hplaced := h.placed.pop hlast
        have hplace : Function.update t.place n none =
            Tables.place
              { t with
                info := Function.update t.info n none
                mapAddr := Function.update t.mapAddr x.toCNetAddr none
                vRandom := t.vRandom.dropLast
                nNew := t.nNew - 1 } := by
          funext n'
          by_cases hne : n' = n
          · simp [Tables.place, hne]
          · simp [Tables.place, hne]
        rw [hplace] at hplaced
        exact hplaced
      addr := by
        intro a n'
        dsimp only
        by_cases haa : a = x.toCNetAddr
        · rw [haa, Function.update_self]
          constructor
          · intro hfalse
            cases hfalse
          · rintro ⟨y, hy, hya⟩
            obtain ⟨hne, hy⟩ := hback hy
            have hn := (h.addr x.toCNetAddr n).mpr ⟨x, hx, rfl⟩
            have hn' := (h.addr x.toCNetAddr n').mpr ⟨y, hy, hya⟩
            exact absurd (Option.some.inj (hn'.symm.trans hn)) hne
        · rw [Function.update_of_ne haa, h.addr a n']
          constructor
          · rintro ⟨y, hy, hya⟩
            refine ⟨y, hforth ?_ hy, hya⟩
            rintro rfl
            rw [hx] at hy
            obtain rfl := Option.some.inj hy
            exact haa hya.symm
          · rintro ⟨y, hy, hya⟩
            exact ⟨y, (hback hy).2, hya⟩
      sound := fun n' y hy => h.sound n' y (hback hy).2
      refs := fun n' y hy => h.refs n' y (hback hy).2
      known := by
        intro n' hn'
        have hne : n' ≠ n := by
          rintro rfl
          dsimp only at hn'
          omega
        obtain ⟨y, hy⟩ := Option.isSome_iff_exists.mp (h.known n' hn')
        exact Option.isSome_iff_exists.mpr ⟨y, hforth hne hy⟩
      settled := by
        intro n' y hy
        obtain ⟨hne, hy⟩ := hback hy
        rcases h.settled n' y hy with htried | hpos | hmem
        · exact .inl htried
        · exact .inr (.inl hpos)
        · exact absurd (Finset.mem_singleton.mp hmem) hne
      unsettled := fun n' hn' => absurd hn' (Finset.notMem_empty n')
      tried := by
        intro n'
        rw [h.tried n']
        constructor
        · rintro ⟨y, hy, htried⟩
          refine ⟨y, hforth ?_ hy, htried⟩
          rintro rfl
          rw [hx] at hy
          obtain rfl := Option.some.inj hy
          exact absurd (hnew.symm.trans htried) Bool.false_ne_true
        · rintro ⟨y, hy, htried⟩
          exact ⟨y, (hback hy).2, htried⟩
      count := by
        have hcount := h.count
        have hpos : 0 < t.vRandom.length := Nat.zero_lt_of_lt (h.placed.lt_length
          ((h.placed _ n).mp hlast))
        dsimp only
        rw [List.length_dropLast, Nat.cast_sub hpos]
        push_cast
        omega }

end Tidy

end Ziftrcoin.Spec
