/-
Module: Ziftrcoin.Proofs.AddrManReload
Purpose: An address manager that is saved and loaded is the same book under other ids.
Trusted boundary: none
Main exports: Savable, addrMan_reload
-/
import Ziftrcoin.Proofs.AddrCheck
import Ziftrcoin.Proofs.NetworkFormat
import Ziftrcoin.Spec.AddrManFile

namespace Ziftrcoin.Spec

open Ziftrcoin.Lib

/-! ### Entries -/

/-- The numbers of an entry fit in their types. -/
structure CAddrInfo.InRange (x : CAddrInfo) : Prop where
  nTime : x.nTime < 2 ^ 32
  nLastSuccess : -2 ^ 63 ≤ x.nLastSuccess ∧ x.nLastSuccess < 2 ^ 63
  nAttempts : -2 ^ 31 ≤ x.nAttempts ∧ x.nAttempts < 2 ^ 31

namespace CAddrInfo

variable (x : CAddrInfo)

/-- An entry as it is read. -/
def stored : CAddrInfo :=
  { x with nLastTry := 0, nRefCount := 0, fInTried := false, nRandomPos := -1 }

/-- What a file keeps of an entry: all but the last try and the place in the random order. -/
def kept : CAddrInfo := { x with nLastTry := 0, nRandomPos := -1 }

theorem ipOfBytes_toList (addr : CNetAddr) : ipOfBytes addr.ip.toList = addr := by
  obtain ⟨ip⟩ := addr
  unfold ipOfBytes
  congr 1
  ext i hi
  simp

theorem portOfBytes_portBytes (port : UInt16) : portOfBytes (portBytes port) = port := by
  have hlt : port.toNat < 2 ^ 16 := port.toNat_lt
  apply UInt16.toNat.inj
  unfold portOfBytes portBytes
  simp only [List.getD_cons_zero, List.getD_cons_succ, UInt16.toNat_ofNat', UInt8.toNat_ofNat']
  omega

theorem unserialize_serialize {x : CAddrInfo} (h : x.InRange) (rest : valtype) :
    Unserialize (x.Serialize ++ rest) = .ok (x.stored, rest) := by
  have htake : ∀ (n : ℕ) (bs rest : valtype), bs.length = n →
      readData n (bs ++ rest) = .ok (bs, rest) := by
    rintro n bs rest rfl
    exact Reader.take_run_append _ bs rest
  unfold Unserialize Serialize
  simp only [List.append_assoc]
  have hversion : 0 < 256 ^ 4 := by decide
  rw [Reader.bind_run_ok (readUInt_run hversion _),
    Reader.bind_run_ok (readUInt_run (by exact h.nTime) _),
    Reader.bind_run_ok (readUInt_run (by exact x.nServices.toNat_lt) _),
    Reader.bind_run_ok (htake 16 _ _ (by simp)),
    Reader.bind_run_ok (htake 2 _ _ rfl),
    Reader.bind_run_ok (htake 16 _ _ (by simp)),
    Reader.bind_run_ok (decodes_readInt64.roundTrips _ h.nLastSuccess _),
    Reader.bind_run_ok (decodes_readInt32.roundTrips _ h.nAttempts _)]
  rw [ipOfBytes_toList, ipOfBytes_toList, portOfBytes_portBytes, UInt64.ofNat_toNat]
  rfl

end CAddrInfo

/-! ### What is written -/

namespace CAddrMan

/-- The new entries in their order, and behind them the tried ones. -/
def newInfos (m : CAddrMan) : List (ℕ × CAddrInfo) :=
  m.mapInfo.toList.filter fun p => !p.2.fInTried

def triedInfos (m : CAddrMan) : List (ℕ × CAddrInfo) :=
  m.mapInfo.toList.filter fun p => p.2.fInTried

end CAddrMan

/-- The new entries are written, and their ids get the numbers of their places. -/
theorem writeNewInfos_eq {nNew : ℤ} {infos : List (ℕ × CAddrInfo)} {k : ℕ}
    (hrefs : ∀ p ∈ infos, p.2.nRefCount ≠ 0 ↔ p.2.fInTried = false)
    (hnodup : (infos.map Prod.fst).Nodup)
    (hlength : (k : ℤ) + (infos.filter fun p => !p.2.fInTried).length = nNew) :
    (writeNewInfos nNew k infos).2 =
        (infos.filter fun p => !p.2.fInTried).flatMap (fun p => p.2.Serialize) ∧
      ∀ n ∈ (infos.filter fun p => !p.2.fInTried).map Prod.fst,
        (writeNewInfos nNew k infos).1.lookup n =
          some (k + ((infos.filter fun p => !p.2.fInTried).map Prod.fst).idxOf n) := by
  induction infos generalizing k with
  | nil => exact ⟨rfl, fun n hn => absurd hn List.not_mem_nil⟩
  | cons p infos ih =>
      obtain ⟨nId, x⟩ := p
      have hrest : ∀ p ∈ infos, p.2.nRefCount ≠ 0 ↔ p.2.fInTried = false :=
        fun p hp => hrefs p (List.mem_cons_of_mem _ hp)
      have hx := hrefs (nId, x) List.mem_cons_self
      rw [List.map_cons, List.nodup_cons] at hnodup
      have hout : nId ∉ (infos.filter fun p => !p.2.fInTried).map Prod.fst := fun hmem =>
        hnodup.1 ((List.filter_sublist.map Prod.fst).subset hmem)
      by_cases hk : (k : ℤ) = nNew
      · have hnone : ((nId, x) :: infos).filter (fun p => !p.2.fInTried) = [] :=
          List.length_eq_zero_iff.mp (by omega)
        rw [hnone]
        refine ⟨?_, fun n hn => absurd hn List.not_mem_nil⟩
        rw [writeNewInfos, if_pos hk]
        rfl
      · cases htried : x.fInTried with
        | false =>
            have hfilter : ((nId, x) :: infos).filter (fun p => !p.2.fInTried) =
                (nId, x) :: infos.filter (fun p => !p.2.fInTried) :=
              List.filter_cons_of_pos (by simp [htried])
            rw [hfilter] at hlength ⊢
            rw [List.length_cons] at hlength
            obtain ⟨hbytes, hids⟩ := @ih (k + 1) hrest hnodup.2
              (by push_cast at hlength ⊢; omega)
            rw [writeNewInfos, if_neg hk, if_pos (hx.mpr htried)]
            refine ⟨?_, ?_⟩
            · rw [List.flatMap_cons, ← hbytes]
            · intro n hn
              rw [List.map_cons, List.lookup_cons]
              by_cases heq : n = nId
              · subst heq
                simp
              · have hmem := (List.mem_cons.mp hn).resolve_left heq
                rw [List.idxOf_cons_ne _ (Ne.symm heq), beq_false_of_ne heq, hids n hmem]
                exact congrArg some (by omega)
        | true =>
            have hfilter : ((nId, x) :: infos).filter (fun p => !p.2.fInTried) =
                infos.filter (fun p => !p.2.fInTried) :=
              List.filter_cons_of_neg (by simp [htried])
            rw [hfilter] at hlength ⊢
            obtain ⟨hbytes, hids⟩ := @ih k hrest hnodup.2 hlength
            rw [writeNewInfos, if_neg hk,
              if_neg (fun hne => absurd ((hx.mp hne).symm.trans htried) Bool.false_ne_true)]
            refine ⟨hbytes, fun n hn => ?_⟩
            have hne : n ≠ nId := fun heq => hout (heq ▸ hn)
            rw [List.lookup_cons, beq_false_of_ne hne, ← hids n hn]

theorem writeTriedInfos_eq {nTried : ℤ} {infos : List (ℕ × CAddrInfo)} {k : ℕ}
    (hlength : (k : ℤ) + (infos.filter fun p => p.2.fInTried).length = nTried) :
    writeTriedInfos nTried k infos =
      (infos.filter fun p => p.2.fInTried).flatMap fun p => p.2.Serialize := by
  induction infos generalizing k with
  | nil => rfl
  | cons p infos ih =>
      obtain ⟨nId, x⟩ := p
      by_cases hk : (k : ℤ) = nTried
      · have hnone : ((nId, x) :: infos).filter (fun p => p.2.fInTried) = [] :=
          List.length_eq_zero_iff.mp (by omega)
        rw [hnone, writeTriedInfos, if_pos hk]
        rfl
      · rw [writeTriedInfos, if_neg hk]
        cases htried : x.fInTried with
        | true =>
            rw [List.filter_cons_of_pos (by simp [htried])] at hlength ⊢
            rw [List.length_cons] at hlength
            rw [if_pos rfl, List.flatMap_cons,
              @ih (k + 1) (by push_cast at hlength ⊢; omega)]
        | false =>
            rw [List.filter_cons_of_neg (by simp [htried])] at hlength ⊢
            rw [if_neg Bool.false_ne_true, ih hlength]

/-! ### Entries that are read -/

/-- An entry at its place in the random order. -/
def CAddrInfo.loadedAt (x : CAddrInfo) (nRefCount : ℤ) (i : ℕ) : CAddrInfo :=
  { x with nLastTry := 0, nRefCount, nRandomPos := i }

/-- The entries have been put in with their places as ids. -/
structure Loaded (m : CAddrMan) (ys : List CAddrInfo) : Prop where
  info : ∀ i, m.mapInfo[i]? = ys[i]?.map fun y : CAddrInfo => y.loadedAt 0 i
  addr : ∀ a i, m.mapAddr a = some i ↔ ∃ y, ys[i]? = some y ∧ y.toCNetAddr = a
  random : m.vRandom = List.range ys.length

theorem getElem?_concat_eq_some {α : Type} {ys : List α} {y z : α} {i : ℕ} :
    (ys ++ [y])[i]? = some z ↔ ys[i]? = some z ∨ i = ys.length ∧ y = z := by
  rcases Nat.lt_trichotomy i ys.length with hlt | rfl | hgt
  · rw [List.getElem?_append_left hlt]
    simp [Nat.ne_of_lt hlt]
  · rw [List.getElem?_concat_length]
    simp
  · rw [List.getElem?_eq_none (by simp; omega), List.getElem?_eq_none hgt.le]
    simp [Nat.ne_of_gt hgt]

theorem Loaded.append {m : CAddrMan} {done : List CAddrInfo} (h : Loaded m done)
    {y info : CAddrInfo} (hy : y.toCNetAddr ∉ done.map fun x => x.toCNetAddr)
    (hinfo : { info with nRandomPos := (done.length : ℤ) } = y.loadedAt 0 done.length) :
    Loaded (m.append done.length info) (done ++ [y]) where
  info := by
    intro i
    have hlength : m.vRandom.length = done.length := by rw [h.random, List.length_range]
    unfold CAddrMan.append
    rw [hlength, hinfo, Std.TreeMap.getElem?_insert]
    rcases Nat.lt_trichotomy i done.length with hlt | rfl | hgt
    · rw [if_neg (by simp; omega), h.info i, List.getElem?_append_left hlt]
    · rw [if_pos (by simp), List.getElem?_concat_length]
      rfl
    · rw [if_neg (by simp; omega), h.info i, List.getElem?_eq_none hgt.le,
        List.getElem?_eq_none (by simp; omega)]
  addr := by
    intro a i
    have haddr : info.toCNetAddr = y.toCNetAddr := by
      have heq := congrArg (fun x : CAddrInfo => x.toCNetAddr) hinfo
      exact heq
    unfold CAddrMan.append
    simp only [getElem?_concat_eq_some]
    rw [haddr]
    by_cases ha : a = y.toCNetAddr
    · subst ha
      rw [Function.update_self, Option.some.injEq]
      constructor
      · rintro rfl
        exact ⟨y, .inr ⟨rfl, rfl⟩, rfl⟩
      · rintro ⟨x, hx | ⟨rfl, -⟩, heq⟩
        · exact absurd (heq ▸ List.mem_map_of_mem (List.mem_of_getElem? hx)) hy
        · rfl
    · rw [Function.update_of_ne ha, h.addr a i]
      constructor
      · rintro ⟨x, hx, heq⟩
        exact ⟨x, .inl hx, heq⟩
      · rintro ⟨x, hx | ⟨-, rfl⟩, heq⟩
        · exact ⟨x, hx, heq⟩
        · exact absurd heq.symm ha
  random := by
    unfold CAddrMan.append
    rw [h.random, List.length_append, List.length_singleton, List.range_succ]

variable {crypto : Crypto} {rest : valtype}

/-- The new entries are read. -/
theorem readNewInfos_run {ys done : List CAddrInfo} {m : CAddrMan}
    (hys : ∀ y ∈ ys, y.InRange ∧ y.fInTried = false) (h : Loaded m done)
    (hnodup : ((done ++ ys).map fun y => y.toCNetAddr).Nodup) :
    ∃ m', CAddrMan.readNewInfos crypto ADDRMAN_NEW_BUCKET_COUNT ys.length done.length m
        (ys.flatMap CAddrInfo.Serialize ++ rest) = .ok (m', rest) ∧
      Loaded m' (done ++ ys) ∧
        m' = { m with mapInfo := m'.mapInfo, mapAddr := m'.mapAddr, vRandom := m'.vRandom } := by
  induction ys generalizing done m with
  | nil => exact ⟨m, rfl, by rw [List.append_nil]; exact h, rfl⟩
  | cons y ys ih =>
      obtain ⟨hrange, hnew⟩ := hys y List.mem_cons_self
      have hsplit : done ++ y :: ys = done ++ [y] ++ ys := by simp
      have hout : y.toCNetAddr ∉ done.map fun x => x.toCNetAddr := by
        rw [List.map_append, List.map_cons] at hnodup
        exact fun hmem => (List.nodup_append.mp hnodup).2.2 _ hmem _ List.mem_cons_self rfl
      have hinfo : { y.stored with nRandomPos := (done.length : ℤ) } =
          y.loadedAt 0 done.length := by
        unfold CAddrInfo.stored CAddrInfo.loadedAt
        rw [hnew]
      have hstep := h.append hout hinfo
      rw [hsplit] at hnodup ⊢
      obtain ⟨m', hrun, hm', hrest⟩ :=
        ih (fun x hx => hys x (List.mem_cons_of_mem _ hx)) hstep hnodup
      refine ⟨m', ?_, hm', hrest⟩
      rw [List.length_cons, CAddrMan.readNewInfos, List.flatMap_cons, List.append_assoc,
        Reader.bind_run_ok (CAddrInfo.unserialize_serialize hrange _)]
      rw [List.length_append, List.length_singleton] at hrun
      unfold CAddrMan.loadNew
      rw [if_neg (by simp), hrun]

/-! ### Tried entries -/

/-- An entry is in a bucket of tried ones. -/
def CAddrInfo.onShelf (crypto : Crypto) (nKey : valtype) (b : ℕ) (x : CAddrInfo) : Bool :=
  x.fInTried && x.GetTriedBucket crypto nKey == b

/-- The tried entries are in their buckets. -/
structure Shelved (crypto : Crypto) (m : CAddrMan) (ys : List CAddrInfo) : Prop where
  count : m.vvTried.length = ADDRMAN_TRIED_BUCKET_COUNT
  ids : ∀ b i, i ∈ m.vvTried.getD b [] ↔
    ∃ y, ys[i]? = some y ∧ y.onShelf crypto m.nKey b = true
  once : m.vvTried.flatten.Nodup
  total : m.vvTried.flatten.length = ys.countP fun y => y.fInTried
  sizes : ∀ b, (m.vvTried.getD b []).length = ys.countP (CAddrInfo.onShelf crypto m.nKey b)

theorem Shelved.lt_length {m : CAddrMan} {ys : List CAddrInfo} (h : Shelved crypto m ys)
    {i : ℕ} (hi : i ∈ m.vvTried.flatten) : i < ys.length := by
  obtain ⟨b, hb⟩ := mem_flatten_iff_getD.mp hi
  obtain ⟨y, hy, -⟩ := (h.ids b i).mp hb
  exact (List.getElem?_eq_some_iff.mp hy).1

theorem Shelved.congr {m m' : CAddrMan} {ys : List CAddrInfo} (h : Shelved crypto m ys)
    (hkey : m'.nKey = m.nKey) (hvvTried : m'.vvTried = m.vvTried) : Shelved crypto m' ys where
  count := by rw [hvvTried]; exact h.count
  ids := by rw [hvvTried, hkey]; exact h.ids
  once := by rw [hvvTried]; exact h.once
  total := by rw [hvvTried]; exact h.total
  sizes := by rw [hvvTried, hkey]; exact h.sizes

/-- A tried entry goes to the end of its bucket. -/
theorem Shelved.append {m m' : CAddrMan} {done : List CAddrInfo} (h : Shelved crypto m done)
    {y : CAddrInfo} (hy : y.fInTried = true) (hkey : m'.nKey = m.nKey)
    (hvvTried : m'.vvTried = m.vvTried.set (y.GetTriedBucket crypto m.nKey)
      (m.vvTried.getD (y.GetTriedBucket crypto m.nKey) [] ++ [done.length])) :
    Shelved crypto m' (done ++ [y]) := by
  have hlt : y.GetTriedBucket crypto m.nKey < m.vvTried.length := by
    rw [h.count]
    exact Nat.mod_lt _ (by decide)
  have hbucket : m.vvTried[y.GetTriedBucket crypto m.nKey]? =
      some (m.vvTried.getD (y.GetTriedBucket crypto m.nKey) []) := by
    rw [List.getD_eq_getElem?_getD, List.getElem?_eq_getElem hlt]
    rfl
  have hget : ∀ b, m'.vvTried.getD b [] = if b = y.GetTriedBucket crypto m.nKey then
      m.vvTried.getD b [] ++ [done.length] else m.vvTried.getD b [] := by
    intro b
    rw [hvvTried, List.getD_eq_getElem?_getD, List.getElem?_set]
    by_cases heq : y.GetTriedBucket crypto m.nKey = b
    · rw [if_pos heq, if_pos (heq ▸ hlt), if_pos heq.symm, heq]
      rfl
    · rw [if_neg heq, if_neg (Ne.symm heq), List.getD_eq_getElem?_getD]
  obtain ⟨others, hold, hnew⟩ := perm_flatten_set hbucket
  have hperm : m'.vvTried.flatten.Perm (done.length :: m.vvTried.flatten) := by
    rw [hvvTried]
    refine (hnew _).trans (.trans ?_ (hold.symm.cons done.length))
    rw [List.append_assoc, List.singleton_append]
    exact List.perm_middle
  have hshelf : ∀ b, y.onShelf crypto m.nKey b = true ↔ b = y.GetTriedBucket crypto m.nKey := by
    intro b
    unfold CAddrInfo.onShelf
    rw [hy, Bool.true_and, beq_iff_eq]
    exact eq_comm
  refine ⟨?_, fun b i => ?_, ?_, ?_, fun b => ?_⟩
  · rw [hvvTried, List.length_set, h.count]
  · rw [hget b, hkey]
    simp only [getElem?_concat_eq_some]
    have hi := h.ids b i
    split_ifs with hb
    · rw [List.mem_append, hi, List.mem_singleton]
      constructor
      · rintro (⟨z, hz, hzb⟩ | rfl)
        · exact ⟨z, .inl hz, hzb⟩
        · exact ⟨y, .inr ⟨rfl, rfl⟩, (hshelf b).mpr hb⟩
      · rintro ⟨z, hz | ⟨rfl, -⟩, hzb⟩
        · exact .inl ⟨z, hz, hzb⟩
        · exact .inr rfl
    · rw [hi]
      constructor
      · rintro ⟨z, hz, hzb⟩
        exact ⟨z, .inl hz, hzb⟩
      · rintro ⟨z, hz | ⟨rfl, rfl⟩, hzb⟩
        · exact ⟨z, hz, hzb⟩
        · exact absurd ((hshelf b).mp hzb) hb
  · rw [hperm.nodup_iff, List.nodup_cons]
    exact ⟨fun hmem => absurd (h.lt_length hmem) (Nat.lt_irrefl _), h.once⟩
  · rw [hperm.length_eq, List.length_cons, h.total, List.countP_append, List.countP_singleton,
      if_pos hy]
  · rw [hget b, hkey, List.countP_append, List.countP_singleton, ← h.sizes b]
    by_cases hb : b = y.GetTriedBucket crypto m.nKey
    · rw [if_pos hb, if_pos ((hshelf b).mpr hb), List.length_append, List.length_singleton]
    · rw [if_neg hb, if_neg (fun hon => hb ((hshelf b).mp hon)), Nat.add_zero]

/-- The tried entries are read, and none is lost. -/
theorem readTriedInfos_run {ys done : List CAddrInfo} {m : CAddrMan}
    (hys : ∀ y ∈ ys, y.InRange ∧ y.fInTried = true) (hloaded : Loaded m done)
    (hshelved : Shelved crypto m done) (hcount : m.nIdCount = done.length)
    (hnodup : ((done ++ ys).map fun y => y.toCNetAddr).Nodup)
    (hroom : ∀ b, (done ++ ys).countP (CAddrInfo.onShelf crypto m.nKey b) ≤
      ADDRMAN_TRIED_BUCKET_SIZE) :
    ∃ m', CAddrMan.readTriedInfos crypto ys.length 0 m
        (ys.flatMap CAddrInfo.Serialize ++ rest) = .ok (m', rest) ∧
      Loaded m' (done ++ ys) ∧ Shelved crypto m' (done ++ ys) ∧
        m' = { m with
          mapInfo := m'.mapInfo, mapAddr := m'.mapAddr, vRandom := m'.vRandom
          vvTried := m'.vvTried, nIdCount := (done ++ ys).length } := by
  induction ys generalizing done m with
  | nil =>
      refine ⟨m, ?_, ?_, ?_, ?_⟩
      · rw [List.length_nil, CAddrMan.readTriedInfos, Nat.cast_zero, sub_zero]
        rfl
      · rw [List.append_nil]
        exact hloaded
      · rw [List.append_nil]
        exact hshelved
      · rw [List.append_nil, ← hcount]
  | cons y ys ih =>
      obtain ⟨hrange, htried⟩ := hys y List.mem_cons_self
      have hsplit : done ++ y :: ys = done ++ [y] ++ ys := by simp
      have hout : y.toCNetAddr ∉ done.map fun x => x.toCNetAddr := by
        rw [List.map_append, List.map_cons] at hnodup
        exact fun hmem => (List.nodup_append.mp hnodup).2.2 _ hmem _ List.mem_cons_self rfl
      have hinfo : { y.stored with fInTried := true, nRandomPos := (done.length : ℤ) } =
          y.loadedAt 0 done.length := by
        unfold CAddrInfo.stored CAddrInfo.loadedAt
        rw [htried]
      have hbucket : y.stored.GetTriedBucket crypto m.nKey = y.GetTriedBucket crypto m.nKey := rfl
      have hspace : (m.vvTried.getD (y.GetTriedBucket crypto m.nKey) []).length <
          ADDRMAN_TRIED_BUCKET_SIZE := by
        have hall := hroom (y.GetTriedBucket crypto m.nKey)
        rw [hsplit, List.countP_append, List.countP_append, List.countP_singleton,
          if_pos (by simp [CAddrInfo.onShelf, htried])] at hall
        rw [hshelved.sizes]
        omega
      have hload : (m.loadTried crypto 0 y.stored).1 =
          { m.append done.length { y.stored with fInTried := true } with
            vvTried := m.vvTried.set (y.GetTriedBucket crypto m.nKey)
              (m.vvTried.getD (y.GetTriedBucket crypto m.nKey) [] ++ [done.length])
            nIdCount := done.length + 1 } ∧ (m.loadTried crypto 0 y.stored).2 = 0 := by
        unfold CAddrMan.loadTried
        rw [hbucket, if_pos hspace, hcount]
        exact ⟨rfl, rfl⟩
      have happended := @Loaded.append m done hloaded y { y.stored with fInTried := true }
        hout hinfo
      have hloaded' : Loaded (m.loadTried crypto 0 y.stored).1 (done ++ [y]) := by
        rw [hload.1]
        exact ⟨happended.info, happended.addr, happended.random⟩
      have hshelved' : Shelved crypto (m.loadTried crypto 0 y.stored).1 (done ++ [y]) := by
        rw [hload.1]
        exact hshelved.append htried rfl rfl
      have hkey : (m.loadTried crypto 0 y.stored).1.nKey = m.nKey := by rw [hload.1]; rfl
      rw [hsplit] at hnodup hroom ⊢
      obtain ⟨m', hrun, hm', hs', hrest⟩ := ih
        (fun x hx => hys x (List.mem_cons_of_mem _ hx)) hloaded' hshelved'
        (by rw [hload.1]; simp) hnodup (by rw [hkey]; exact hroom)
      refine ⟨m', ?_, hm', hs', ?_⟩
      · rw [List.length_cons, CAddrMan.readTriedInfos, List.flatMap_cons, List.append_assoc,
          Reader.bind_run_ok (CAddrInfo.unserialize_serialize hrange _)]
        rw [hload.2, hrun]
      · rw [hrest, hload.1]
        rfl

/-! ### Indexes -/

/-- Pairs of a bucket and an index have been read, on top of the entries `ys`. -/
structure IndexRead (start m : CAddrMan) (ys : List CAddrInfo) (done : List (ℕ × ℕ)) : Prop where
  rest : m = { start with mapInfo := m.mapInfo, vvNew := m.vvNew }
  info : ∀ i, m.mapInfo[i]? =
    ys[i]?.map fun y : CAddrInfo => y.loadedAt ((done.map Prod.snd).count i) i
  count : m.vvNew.length = ADDRMAN_NEW_BUCKET_COUNT
  ids : ∀ b i, (∃ vNew, m.vvNew[b]? = some vNew ∧ vNew.contains i = true) ↔ (b, i) ∈ done
  refs : ∀ i, holders m.vvNew i = (done.map Prod.snd).count i

theorem IndexRead.load {start m : CAddrMan} {ys : List CAddrInfo} {done : List (ℕ × ℕ)}
    (h : IndexRead start m ys done) {b i : ℕ} (hb : b < ADDRMAN_NEW_BUCKET_COUNT)
    (hi : i < ys.length) (hout : (b, i) ∉ done)
    (hmax : (((done.map Prod.snd).count i : ℕ) : ℤ) < ADDRMAN_NEW_BUCKETS_PER_ADDRESS) :
    IndexRead start (m.loadIndex ADDRMAN_NEW_BUCKET_COUNT b i) ys (done ++ [(b, i)]) := by
  have hinfo : m.mapInfo[i]? =
      some ((ys.get ⟨i, hi⟩).loadedAt ((done.map Prod.snd).count i) i) := by
    rw [h.info i, List.getElem?_eq_getElem hi]
    rfl
  have hload : m.loadIndex ADDRMAN_NEW_BUCKET_COUNT b i =
      (m.setInfo i ((ys.get ⟨i, hi⟩).loadedAt ((done.map Prod.snd).count i + 1) i)).insertNew
        b i := by
    unfold CAddrMan.loadIndex
    rw [hinfo, Option.getD_some, if_pos ⟨rfl, hmax⟩]
    rfl
  obtain ⟨vNew, hvNew⟩ : ∃ vNew, m.vvNew[b]? = some vNew :=
    ⟨_, List.getElem?_eq_getElem (by rw [h.count]; exact hb)⟩
  have hfresh : vNew.contains i = false := by
    rw [← Bool.not_eq_true]
    exact fun hmem => hout ((h.ids b i).mp ⟨vNew, hvNew, hmem⟩)
  have hcount : ∀ i', ((done ++ [(b, i)]).map Prod.snd).count i' =
      (done.map Prod.snd).count i' + if i' = i then 1 else 0 := by
    intro i'
    rw [List.map_append, List.count_append, List.map_singleton, List.count_singleton]
    by_cases heq : i' = i
    · simp [heq]
    · simp [heq, Ne.symm heq]
  rw [hload]
  refine ⟨?_, fun i' => ?_, ?_, fun b' i' => ?_, fun i' => ?_⟩
  · rw [h.rest]
    rfl
  · rw [hcount i']
    by_cases heq : i' = i
    · subst heq
      rw [if_pos rfl, List.getElem?_eq_getElem hi]
      exact CAddrMan.mapInfo_setInfo_self m _
    · rw [if_neg heq, Nat.add_zero, ← h.info i']
      exact CAddrMan.mapInfo_setInfo_of_ne m _ heq
  · unfold CAddrMan.insertNew
    rw [List.length_modify]
    exact h.count
  · unfold CAddrMan.insertNew
    rw [List.getElem?_modify, List.mem_append, List.mem_singleton, Prod.mk.injEq, ← h.ids b' i']
    by_cases heq : b = b'
    · subst heq
      have hset : (m.setInfo i ((ys.get ⟨i, hi⟩).loadedAt ((done.map Prod.snd).count i + 1)
          i)).vvNew = m.vvNew := rfl
      rw [hset, hvNew]
      simp only [if_true, Option.map_eq_map, Option.map_some, Option.some.injEq, exists_eq_left',
        contains_insert_iff, true_and]
      rw [or_comm, @eq_comm _ i i']
    · simp [heq, Ne.symm heq, CAddrMan.setInfo]
  · rw [hcount i', ← h.refs i']
    exact holders_insert hvNew hfresh

/-- The indexes of a bucket are read. -/
theorem readIndexes_run {start m : CAddrMan} {ys : List CAddrInfo} {b : ℕ} {is : List ℕ}
    {done : List (ℕ × ℕ)} (hb : b < ADDRMAN_NEW_BUCKET_COUNT) (hlength : ys.length ≤ 256 ^ 4)
    (h : IndexRead start m ys done) (hnodup : (done ++ is.map (Prod.mk b)).Nodup)
    (hlt : ∀ i ∈ is, i < ys.length)
    (hmax : ∀ i, ((((done ++ is.map (Prod.mk b)).map Prod.snd).count i : ℕ) : ℤ) ≤
      ADDRMAN_NEW_BUCKETS_PER_ADDRESS) :
    ∃ m', CAddrMan.readIndexes ADDRMAN_NEW_BUCKET_COUNT b is.length m
        (is.flatMap (leBytes 4) ++ rest) = .ok (m', rest) ∧
      IndexRead start m' ys (done ++ is.map (Prod.mk b)) := by
  induction is generalizing done m with
  | nil => exact ⟨m, rfl, by rw [List.map_nil, List.append_nil]; exact h⟩
  | cons i is ih =>
      have hi := hlt i List.mem_cons_self
      have hsplit : done ++ (i :: is).map (Prod.mk b) =
          done ++ [(b, i)] ++ is.map (Prod.mk b) := by simp
      rw [hsplit] at hnodup hmax ⊢
      have hout : (b, i) ∉ done := by
        have hdone := (List.nodup_append.mp hnodup).1
        exact fun hmem => (List.nodup_append.mp hdone).2.2 _ hmem _ List.mem_cons_self rfl
      have hcount : (((done.map Prod.snd).count i : ℕ) : ℤ) < ADDRMAN_NEW_BUCKETS_PER_ADDRESS := by
        have hall := hmax i
        rw [List.map_append, List.count_append, List.map_append, List.count_append,
          List.map_singleton, List.count_singleton_self] at hall
        push_cast at hall
        omega
      obtain ⟨m', hrun, hm'⟩ := ih (h.load hb hi hout hcount) hnodup
        (fun i hi => hlt i (List.mem_cons_of_mem _ hi)) hmax
      refine ⟨m', ?_, hm'⟩
      have hwidth : i < 256 ^ 4 := hi.trans_le hlength
      rw [List.length_cons, CAddrMan.readIndexes, List.flatMap_cons, List.append_assoc,
        Reader.bind_run_ok (readUInt_run hwidth _), hrun]

/-- The pairs of buckets from the bucket `b` on. -/
def pairsFrom : ℕ → List (List ℕ) → List (ℕ × ℕ)
  | _, [] => []
  | b, is :: iss => is.map (Prod.mk b) ++ pairsFrom (b + 1) iss

theorem mem_pairsFrom {b' i b : ℕ} {iss : List (List ℕ)} :
    (b', i) ∈ pairsFrom b iss ↔ b ≤ b' ∧ ∃ is, iss[b' - b]? = some is ∧ i ∈ is := by
  induction iss generalizing b with
  | nil => simp [pairsFrom]
  | cons is iss ih =>
      have hhead : (b', i) ∈ is.map (Prod.mk b) ↔ b = b' ∧ i ∈ is := by
        simp only [List.mem_map, Prod.mk.injEq]
        constructor
        · rintro ⟨j, hj, rfl, rfl⟩
          exact ⟨rfl, hj⟩
        · rintro ⟨rfl, hi⟩
          exact ⟨i, hi, rfl, rfl⟩
      rw [pairsFrom, List.mem_append, ih, hhead]
      rcases Nat.lt_trichotomy b' b with hlt | rfl | hgt
      · simp [Nat.not_le_of_lt hlt, Nat.ne_of_gt hlt, Nat.not_le_of_lt (Nat.lt_succ_of_lt hlt)]
      · simp
      · obtain ⟨d, rfl⟩ : ∃ d, b' = b + 1 + d := ⟨b' - (b + 1), by omega⟩
        have hsub : b + 1 + d - b = d + 1 := by omega
        have hsub' : b + 1 + d - (b + 1) = d := by omega
        rw [hsub, hsub', List.getElem?_cons_succ]
        simp [show b ≠ b + 1 + d by omega, show b ≤ b + 1 + d by omega]

theorem map_snd_pairsFrom (iss : List (List ℕ)) (b : ℕ) :
    (pairsFrom b iss).map Prod.snd = iss.flatten := by
  induction iss generalizing b with
  | nil => rfl
  | cons is iss ih =>
      rw [pairsFrom, List.map_append, ih, List.flatten_cons, List.map_map]
      exact congrArg (· ++ iss.flatten) (List.map_id is)

theorem nodup_pairsFrom {iss : List (List ℕ)} {b : ℕ} (h : ∀ is ∈ iss, is.Nodup) :
    (pairsFrom b iss).Nodup := by
  induction iss generalizing b with
  | nil => exact List.nodup_nil
  | cons is iss ih =>
      have hhead : (is.map (Prod.mk b)).Nodup :=
        (h is List.mem_cons_self).map (Prod.mk_right_injective b)
      refine hhead.append (ih fun is his => h is (List.mem_cons_of_mem _ his)) ?_
      rintro ⟨b', i⟩ hmem hrest
      obtain ⟨j, -, heq⟩ := List.mem_map.mp hmem
      have hle := (mem_pairsFrom.mp hrest).1
      have := (Prod.mk.inj heq).1
      omega

/-- The buckets are read. -/
theorem readBuckets_run {start m : CAddrMan} {ys : List CAddrInfo} {b : ℕ} {iss : List (List ℕ)}
    {done : List (ℕ × ℕ)} (hlength : ys.length ≤ 256 ^ 4)
    (hcount : b + iss.length = ADDRMAN_NEW_BUCKET_COUNT) (h : IndexRead start m ys done)
    (hnodup : (done ++ pairsFrom b iss).Nodup)
    (hlt : ∀ is ∈ iss, is.length < 2 ^ 31 ∧ ∀ i ∈ is, i < ys.length)
    (hmax : ∀ i, ((((done ++ pairsFrom b iss).map Prod.snd).count i : ℕ) : ℤ) ≤
      ADDRMAN_NEW_BUCKETS_PER_ADDRESS) :
    ∃ m', CAddrMan.readBuckets ADDRMAN_NEW_BUCKET_COUNT iss.length b m
        (iss.flatMap (fun is => leInt32 is.length ++ is.flatMap (leBytes 4)) ++ rest) =
          .ok (m', rest) ∧
      IndexRead start m' ys (done ++ pairsFrom b iss) := by
  induction iss generalizing b done m with
  | nil => exact ⟨m, rfl, by rw [pairsFrom, List.append_nil]; exact h⟩
  | cons is iss ih =>
      rw [List.length_cons] at hcount
      obtain ⟨hsize, his⟩ := hlt is List.mem_cons_self
      rw [pairsFrom, ← List.append_assoc] at hnodup hmax ⊢
      have hmax' : ∀ i, ((((done ++ is.map (Prod.mk b)).map Prod.snd).count i : ℕ) : ℤ) ≤
          ADDRMAN_NEW_BUCKETS_PER_ADDRESS := by
        intro i
        refine le_trans ?_ (hmax i)
        have hfront := List.sublist_append_left (done ++ is.map (Prod.mk b))
          (pairsFrom (b + 1) iss)
        exact Int.ofNat_le.mpr ((hfront.map Prod.snd).count_le i)
      have hcast : (0 : ℤ) ≤ is.length ∧ (is.length : ℤ) < 2 ^ 31 :=
        ⟨by omega, by exact_mod_cast hsize⟩
      obtain ⟨m₁, hrun₁, hm₁⟩ := @readIndexes_run
        (iss.flatMap (fun is => leInt32 is.length ++ is.flatMap (leBytes 4)) ++ rest)
        start m ys b is done (by omega) hlength h (List.nodup_append.mp hnodup).1 his hmax'
      obtain ⟨m₂, hrun₂, hm₂⟩ := ih (by omega) hm₁ hnodup
        (fun is his => hlt is (List.mem_cons_of_mem _ his)) hmax
      refine ⟨m₂, ?_, hm₂⟩
      rw [List.length_cons, CAddrMan.readBuckets, List.flatMap_cons, List.append_assoc,
        List.append_assoc, Reader.bind_run_ok (readInt32_run hcast _), Int.toNat_natCast,
        Reader.bind_run_ok hrun₁, hrun₂]

/-! ### A manager that is saved -/

/-- What is asked of a manager besides the check: its numbers fit in their types, its
buckets are not overfull, and each tried entry is in the bucket that the key says. -/
structure CAddrMan.Savable (crypto : Crypto) (m : CAddrMan) : Prop where
  nKey : m.nKey.length ≤ MAX_SIZE
  inRange : ∀ (n : ℕ) (x : CAddrInfo), m.mapInfo[n]? = some x → x.InRange
  triedCount : m.vvTried.length = ADDRMAN_TRIED_BUCKET_COUNT
  triedSize : ∀ b ∈ m.vvTried, b.length ≤ ADDRMAN_TRIED_BUCKET_SIZE
  newCount : m.vvNew.length = ADDRMAN_NEW_BUCKET_COUNT
  newSize : ∀ b ∈ m.vvNew, b.size ≤ ADDRMAN_NEW_BUCKET_SIZE
  shelf : ∀ (b n : ℕ) (x : CAddrInfo), n ∈ m.vvTried.getD b [] → m.mapInfo[n]? = some x →
    x.GetTriedBucket crypto m.nKey = b

namespace CAddrMan

variable {m : CAddrMan}

/-- The entries in the order in which they are written. -/
def written (m : CAddrMan) : List (ℕ × CAddrInfo) := m.newInfos ++ m.triedInfos

theorem mem_infos {n : ℕ} {x : CAddrInfo} : (n, x) ∈ m.mapInfo.toList ↔ m.mapInfo[n]? = some x :=
  Std.TreeMap.mem_toList_iff_getElem?_eq_some

theorem written_perm (m : CAddrMan) : m.written.Perm m.mapInfo.toList := by
  have h := List.filter_append_perm (fun p : ℕ × CAddrInfo => !p.2.fInTried) m.mapInfo.toList
  simp only [Bool.not_not] at h
  exact h

theorem mem_written {n : ℕ} {x : CAddrInfo} : (n, x) ∈ m.written ↔ m.mapInfo[n]? = some x :=
  m.written_perm.mem_iff.trans mem_infos

theorem mem_newInfos {n : ℕ} {x : CAddrInfo} :
    (n, x) ∈ m.newInfos ↔ m.mapInfo[n]? = some x ∧ x.fInTried = false := by
  unfold newInfos
  rw [List.mem_filter, mem_infos, Bool.not_eq_true']

theorem mem_triedInfos {n : ℕ} {x : CAddrInfo} :
    (n, x) ∈ m.triedInfos ↔ m.mapInfo[n]? = some x ∧ x.fInTried = true := by
  unfold triedInfos
  rw [List.mem_filter, mem_infos]

namespace Checked

variable (h : m.Checked)
include h

theorem nNew_eq : m.nNew = m.newInfos.length := by
  rw [h.nNew, List.countP_eq_length_filter]
  rfl

theorem nTried_eq : m.nTried = m.triedInfos.length := by
  rw [h.nTried, List.countP_eq_length_filter]
  rfl

/-- No two entries have one address. -/
theorem nodup_addrs : (m.written.map fun p => p.2.toCNetAddr).Nodup := by
  rw [(m.written_perm.map _).nodup_iff]
  refine List.Nodup.map_on ?_ (List.Nodup.of_map _ (nodup_keys m.mapInfo))
  rintro ⟨n, x⟩ hx ⟨n', x'⟩ hx' heq
  rw [mem_infos] at hx hx'
  have hn : n = n' := by
    rw [← h.addr n x hx, ← h.addr n' x' hx', show x.toCNetAddr = x'.toCNetAddr from heq]
  subst hn
  rw [hx] at hx'
  rw [Option.some.inj hx']

/-- What is in a new bucket is a new entry. -/
theorem mem_newIds {n : ℕ} : n ∈ m.newInfos.map Prod.fst ↔ 0 < holders m.vvNew n := by
  rw [List.mem_map]
  constructor
  · rintro ⟨⟨n', x⟩, hx, rfl⟩
    obtain ⟨hx, hnew⟩ := mem_newInfos.mp hx
    exact ((h.newIds n' _).mpr ⟨x, hx, hnew, rfl⟩).1
  · intro hpos
    obtain ⟨x, hx, hnew, -⟩ := (h.newIds n _).mp ⟨hpos, rfl⟩
    exact ⟨(n, x), mem_newInfos.mpr ⟨hx, hnew⟩, rfl⟩

end Checked

theorem Checked.mem_newIds_of_contains (h : m.Checked) {vNew : Std.TreeSet ℕ compare}
    (hvNew : vNew ∈ m.vvNew) {n : ℕ} (hn : vNew.contains n = true) :
    n ∈ m.newInfos.map Prod.fst :=
  h.mem_newIds.mpr (holders_pos.mpr ⟨vNew, hvNew, hn⟩)

/-- The ids of the new entries, with what each number of the file stands for. -/
theorem idxOf_newIds {n i : ℕ} {p : ℕ × CAddrInfo} (hn : n ∈ m.newInfos.map Prod.fst)
    (hi : m.newInfos[i]? = some p) : (m.newInfos.map Prod.fst).idxOf n = i ↔ n = p.1 := by
  have hnodup : (m.newInfos.map Prod.fst).Nodup :=
    (nodup_keys m.mapInfo).sublist (List.filter_sublist.map Prod.fst)
  have hget : (m.newInfos.map Prod.fst)[i]? = some p.1 := by
    rw [List.getElem?_map, hi]
    rfl
  have hself : (m.newInfos.map Prod.fst)[(m.newInfos.map Prod.fst).idxOf n]? = some n :=
    List.getElem?_idxOf hn
  constructor
  · rintro rfl
    exact Option.some.inj (hself.symm.trans hget)
  · rintro rfl
    exact (List.getElem?_inj (List.idxOf_lt_length_iff.mpr hn) hnodup).mp
      (hself.trans hget.symm)

/-- Where the entry of a number is. -/
theorem written_idxOf {n : ℕ} (hn : n ∈ m.newInfos.map Prod.fst) :
    ∃ x, m.newInfos[(m.newInfos.map Prod.fst).idxOf n]? = some (n, x) ∧
      m.written[(m.newInfos.map Prod.fst).idxOf n]? = some (n, x) := by
  have hself := List.getElem?_idxOf hn
  rw [List.getElem?_map, Option.map_eq_some_iff] at hself
  obtain ⟨⟨n', x⟩, hget, rfl⟩ := hself
  refine ⟨x, hget, ?_⟩
  unfold written
  rw [List.getElem?_append_left (List.getElem?_eq_some_iff.mp hget).1, hget]

/-- The numbers that are written for the buckets. -/
def indexes (m : CAddrMan) : List (List ℕ) :=
  m.vvNew.map fun vNew => vNew.toList.map fun n => (m.newInfos.map Prod.fst).idxOf n

theorem Checked.indexes_lt (h : m.Checked) {is : List ℕ} (his : is ∈ m.indexes) {i : ℕ}
    (hi : i ∈ is) : i < m.newInfos.length := by
  obtain ⟨vNew, hvNew, rfl⟩ := List.mem_map.mp his
  obtain ⟨n, hn, rfl⟩ := List.mem_map.mp hi
  have hmem := h.mem_newIds_of_contains hvNew (Std.TreeSet.mem_toList.mp hn)
  have hlt := List.idxOf_lt_length_iff.mpr hmem
  rwa [List.length_map] at hlt

/-- Each number is written as often as its entry is referred to. -/
theorem Checked.count_indexes (h : m.Checked) {i : ℕ} {p : ℕ × CAddrInfo}
    (hp : m.written[i]? = some p) : (m.indexes.flatten.count i : ℤ) = p.2.nRefCount := by
  obtain ⟨n, x⟩ := p
  have hx : m.mapInfo[n]? = some x := mem_written.mp (List.mem_of_getElem? hp)
  unfold written at hp
  rcases Nat.lt_or_ge i m.newInfos.length with hlt | hge
  · rw [List.getElem?_append_left hlt] at hp
    have hnew := (mem_newInfos.mp (List.mem_of_getElem? hp)).2
    have hrefs := ((h.newIds n x.nRefCount).mpr ⟨x, hx, hnew, rfl⟩).2
    have hflat : m.indexes.flatten = (m.vvNew.flatMap Std.TreeSet.toList).map
        fun n => (m.newInfos.map Prod.fst).idxOf n := by
      unfold indexes
      rw [← List.flatMap_def, ← List.map_flatMap]
    rw [hrefs, ← count_flatMap_toList, hflat, List.count, List.countP_map, List.count]
    congr 1
    refine List.countP_congr fun n' hn' => ?_
    obtain ⟨vNew, hvNew, hmem⟩ := List.mem_flatMap.mp hn'
    have hnew' := h.mem_newIds_of_contains hvNew (Std.TreeSet.mem_toList.mp hmem)
    rw [Function.comp_apply, beq_iff_eq, beq_iff_eq]
    exact idxOf_newIds hnew' hp
  · rw [List.getElem?_append_right hge] at hp
    have htried := (mem_triedInfos.mp (List.mem_of_getElem? hp)).2
    rw [(h.tried n x hx htried).2, Int.natCast_eq_zero, List.count_eq_zero]
    intro hmem
    obtain ⟨is, his, hi⟩ := List.mem_flatten.mp hmem
    exact absurd (h.indexes_lt his hi) (Nat.not_lt.mpr hge)

/-- What the loop over the new entries has written, and the numbers. -/
theorem Checked.writeNewInfos_eq (h : m.Checked) :
    (writeNewInfos m.nNew 0 m.mapInfo.toList).2 =
        (m.newInfos.map Prod.snd).flatMap CAddrInfo.Serialize ∧
      ∀ n ∈ m.newInfos.map Prod.fst, (writeNewInfos m.nNew 0 m.mapInfo.toList).1.lookup n =
        some ((m.newInfos.map Prod.fst).idxOf n) := by
  have hrefs : ∀ p ∈ m.mapInfo.toList, p.2.nRefCount ≠ 0 ↔ p.2.fInTried = false := by
    rintro ⟨n, x⟩ hx
    rw [mem_infos] at hx
    cases htried : x.fInTried with
    | true => simp [(h.tried n x hx htried).2]
    | false => simp [(h.new n x hx htried).1.ne']
  obtain ⟨hbytes, hids⟩ := @Spec.writeNewInfos_eq m.nNew m.mapInfo.toList 0 hrefs
    (nodup_keys m.mapInfo) (by rw [h.nNew_eq, Nat.cast_zero, zero_add]; rfl)
  refine ⟨?_, fun n hn => ?_⟩
  · rw [hbytes, List.flatMap_map]
    rfl
  · rw [hids n hn, Nat.zero_add]
    rfl

theorem Checked.indexes_lt_written (h : m.Checked) {is : List ℕ} (his : is ∈ m.indexes) {i : ℕ}
    (hi : i ∈ is) : i < m.written.length := by
  have hlt := h.indexes_lt his hi
  unfold written
  rw [List.length_append]
  omega

/-- No number is written more often than an entry may be referred to. -/
theorem Checked.count_indexes_le (h : m.Checked) (i : ℕ) :
    (m.indexes.flatten.count i : ℤ) ≤ ADDRMAN_NEW_BUCKETS_PER_ADDRESS := by
  cases hp : m.written[i]? with
  | some p =>
      obtain ⟨n, x⟩ := p
      rw [h.count_indexes hp]
      have hx := mem_written.mp (List.mem_of_getElem? hp)
      cases hold : x.fInTried with
      | true =>
          rw [(h.tried n x hx hold).2]
          decide
      | false => exact (h.new n x hx hold).2
  | none =>
      have hge := List.getElem?_eq_none_iff.mp hp
      have hzero : m.indexes.flatten.count i = 0 := by
        rw [List.count_eq_zero, List.mem_flatten]
        rintro ⟨is, his, hi⟩
        exact absurd (h.indexes_lt_written his hi) (Nat.not_lt.mpr hge)
      rw [hzero]
      decide

/-- The buckets are written with the numbers of the entries. -/
theorem Checked.writeBuckets_eq (h : m.Checked) :
    m.vvNew.flatMap (writeBucket (writeNewInfos m.nNew 0 m.mapInfo.toList).1) =
      m.indexes.flatMap fun is => leInt32 is.length ++ is.flatMap (leBytes 4) := by
  unfold indexes
  rw [List.flatMap_map]
  refine List.flatMap_congr fun vNew hvNew => ?_
  unfold writeBucket
  rw [List.length_map, Std.TreeSet.length_toList, List.flatMap_map]
  congr 1
  refine List.flatMap_congr fun n hn => ?_
  rw [h.writeNewInfos_eq.2 n (h.mem_newIds_of_contains hvNew (Std.TreeSet.mem_toList.mp hn))]
  rfl

theorem Checked.writeTriedInfos_eq (h : m.Checked) :
    writeTriedInfos m.nTried 0 m.mapInfo.toList =
      (m.triedInfos.map Prod.snd).flatMap CAddrInfo.Serialize := by
  rw [Spec.writeTriedInfos_eq (by rw [h.nTried_eq, Nat.cast_zero, zero_add]; rfl),
    List.flatMap_map]
  rfl

/-- What is written of the buckets. -/
def writtenIndexes (m : CAddrMan) : valtype :=
  m.indexes.flatMap fun is => leInt32 is.length ++ is.flatMap (leBytes 4)

/-- What is written, in the parts in which it is read. -/
theorem Checked.serialize_eq (h : m.Checked) :
    m.Serialize = leBytes 1 0 ++ (serializeBytes m.nKey ++ (leInt32 m.nNew ++
      (leInt32 m.nTried ++ (leInt32 ADDRMAN_NEW_BUCKET_COUNT ++
        ((m.newInfos.map Prod.snd).flatMap CAddrInfo.Serialize ++
          ((m.triedInfos.map Prod.snd).flatMap CAddrInfo.Serialize ++ m.writtenIndexes)))))) := by
  unfold Serialize writtenIndexes
  dsimp only
  rw [h.writeBuckets_eq, h.writeNewInfos_eq.1, h.writeTriedInfos_eq]

/-! ### Sizes -/

variable {crypto : Crypto}

theorem Savable.newIndexes_length (hs : m.Savable crypto) :
    ∀ is ∈ m.indexes, is.length ≤ ADDRMAN_NEW_BUCKET_SIZE := by
  intro is his
  obtain ⟨vNew, hvNew, rfl⟩ := List.mem_map.mp his
  rw [List.length_map, Std.TreeSet.length_toList]
  exact hs.newSize vNew hvNew

theorem nodup_indexes (hc : m.Checked) : ∀ is ∈ m.indexes, is.Nodup := by
  intro is his
  obtain ⟨vNew, hvNew, rfl⟩ := List.mem_map.mp his
  refine List.Nodup.map_on (fun n hn n' hn' heq => ?_) (nodup_toList vNew)
  have hmem := hc.mem_newIds_of_contains hvNew (Std.TreeSet.mem_toList.mp hn)
  have hmem' := hc.mem_newIds_of_contains hvNew (Std.TreeSet.mem_toList.mp hn')
  exact (List.idxOf_inj hmem).mp heq

theorem Savable.newInfos_length (hs : m.Savable crypto) (hc : m.Checked) :
    m.newInfos.length ≤ ADDRMAN_NEW_BUCKET_COUNT * ADDRMAN_NEW_BUCKET_SIZE := by
  have hnodup : (m.newInfos.map Prod.fst).Nodup :=
    (nodup_keys m.mapInfo).sublist (List.filter_sublist.map Prod.fst)
  have hsub : m.newInfos.map Prod.fst ⊆ (m.vvNew.map Std.TreeSet.toList).flatten := by
    intro n hn
    obtain ⟨vNew, hvNew, hmem⟩ := holders_pos.mp (hc.mem_newIds.mp hn)
    exact List.mem_flatten.mpr
      ⟨vNew.toList, List.mem_map_of_mem hvNew, Std.TreeSet.mem_toList.mpr hmem⟩
  have hle := (List.subperm_of_subset hnodup hsub).length_le
  have hall : ∀ b ∈ m.vvNew.map Std.TreeSet.toList, b.length ≤ ADDRMAN_NEW_BUCKET_SIZE := by
    intro b hb
    obtain ⟨vNew, hvNew, rfl⟩ := List.mem_map.mp hb
    rw [Std.TreeSet.length_toList]
    exact hs.newSize vNew hvNew
  have hflat := length_flatten_le hall
  rw [List.length_map] at hle hflat
  rw [hs.newCount] at hflat
  exact hle.trans hflat

theorem Savable.triedInfos_length (hs : m.Savable crypto) (hc : m.Checked) :
    m.triedInfos.length ≤ ADDRMAN_TRIED_BUCKET_COUNT * ADDRMAN_TRIED_BUCKET_SIZE := by
  have hflat := length_flatten_le hs.triedSize
  rw [hs.triedCount, length_eq_countP (p := fun x => x.fInTried) hc.triedOnce hc.triedIds,
    List.countP_eq_length_filter] at hflat
  exact hflat

/-- The counts are small numbers. -/
theorem Savable.counts (hs : m.Savable crypto) (hc : m.Checked) :
    (0 ≤ m.nNew ∧ m.nNew < 2 ^ 31) ∧ (0 ≤ m.nTried ∧ m.nTried < 2 ^ 31) ∧
      (m.written.map Prod.snd).length ≤ 256 ^ 4 := by
  have hnew := hs.newInfos_length hc
  have htried := hs.triedInfos_length hc
  have hbounds : ADDRMAN_NEW_BUCKET_COUNT * ADDRMAN_NEW_BUCKET_SIZE = 16384 ∧
    ADDRMAN_TRIED_BUCKET_COUNT * ADDRMAN_TRIED_BUCKET_SIZE = 4096 := by decide
  rw [hc.nNew_eq, hc.nTried_eq, List.length_map]
  unfold written
  rw [List.length_append]
  omega

theorem Savable.newInfos_inRange (hs : m.Savable crypto) :
    ∀ y ∈ m.newInfos.map Prod.snd, y.InRange ∧ y.fInTried = false := by
  intro y hy
  obtain ⟨⟨n, x⟩, hx, rfl⟩ := List.mem_map.mp hy
  obtain ⟨hx, hfresh⟩ := mem_newInfos.mp hx
  exact ⟨hs.inRange n x hx, hfresh⟩

theorem Savable.triedInfos_inRange (hs : m.Savable crypto) :
    ∀ y ∈ m.triedInfos.map Prod.snd, y.InRange ∧ y.fInTried = true := by
  intro y hy
  obtain ⟨⟨n, x⟩, hx, rfl⟩ := List.mem_map.mp hy
  obtain ⟨hx, hold⟩ := mem_triedInfos.mp hx
  exact ⟨hs.inRange n x hx, hold⟩

/-- The ids of a tried bucket are those that belong there. -/
theorem Savable.mem_shelf (hs : m.Savable crypto) (hc : m.Checked) (b n : ℕ) :
    n ∈ m.vvTried.getD b [] ↔
      ∃ x, m.mapInfo[n]? = some x ∧ x.onShelf crypto m.nKey b = true := by
  constructor
  · intro hn
    obtain ⟨x, hx, htried⟩ := (hc.triedIds n).mp (mem_flatten_iff_getD.mpr ⟨b, hn⟩)
    refine ⟨x, hx, ?_⟩
    rw [CAddrInfo.onShelf, htried, hs.shelf b n x hn hx]
    simp
  · rintro ⟨x, hx, hshelf⟩
    rw [CAddrInfo.onShelf, Bool.and_eq_true, beq_iff_eq] at hshelf
    obtain ⟨htried, hb⟩ := hshelf
    obtain ⟨b', hmem⟩ := mem_flatten_iff_getD.mp ((hc.triedIds n).mpr ⟨x, hx, htried⟩)
    rw [← hb, hs.shelf b' n x hmem hx]
    exact hmem

theorem Savable.shelf_length (hs : m.Savable crypto) (hc : m.Checked) (b : ℕ) :
    (m.written.map Prod.snd).countP (CAddrInfo.onShelf crypto m.nKey b) ≤
      ADDRMAN_TRIED_BUCKET_SIZE := by
  have hnodup : (m.vvTried.getD b []).Nodup := by
    rw [List.getD_eq_getElem?_getD]
    cases hb : m.vvTried[b]? with
    | none => exact List.nodup_nil
    | some ids => exact (List.nodup_flatten.mp hc.triedOnce).1 ids (List.mem_of_getElem? hb)
  rw [List.countP_map, m.written_perm.countP_eq]
  rw [show CAddrInfo.onShelf crypto m.nKey b ∘ Prod.snd =
    fun e : ℕ × CAddrInfo => e.2.onShelf crypto m.nKey b from rfl,
    ← length_eq_countP (p := CAddrInfo.onShelf crypto m.nKey b) hnodup (hs.mem_shelf hc b),
    List.getD_eq_getElem?_getD]
  cases hb : m.vvTried[b]? with
  | none => exact Nat.zero_le _
  | some ids => exact hs.triedSize ids (List.mem_of_getElem? hb)

end CAddrMan

/-! ### A manager that is loaded -/

/-- The tables of a manager that has been loaded from what `m` was saved as. -/
structure Reloaded (crypto : Crypto) (m m' : CAddrMan) : Prop where
  nKey : m'.nKey = m.nKey
  nNew : m'.nNew = m.nNew
  nTried : m'.nTried = m.nTried
  nIdCount : m'.nIdCount = m.written.length
  info : ∀ i, m'.mapInfo[i]? =
    m.written[i]?.map fun p : ℕ × CAddrInfo => p.2.loadedAt p.2.nRefCount i
  addr : ∀ a i, m'.mapAddr a = some i ↔ ∃ p, m.written[i]? = some p ∧ p.2.toCNetAddr = a
  random : m'.vRandom = List.range m.written.length
  shelved : Shelved crypto m' (m.written.map Prod.snd)
  newCount : m'.vvNew.length = ADDRMAN_NEW_BUCKET_COUNT
  ids : ∀ b i : ℕ, (∃ vNew, m'.vvNew[b]? = some vNew ∧ vNew.contains i = true) ↔
    ∃ is, m.indexes[b]? = some is ∧ i ∈ is
  refs : ∀ i, holders m'.vvNew i = m.indexes.flatten.count i

theorem loaded_cleared (m : CAddrMan) (nKey : valtype) (nNew nTried : ℤ) :
    Loaded (m.cleared nKey nNew nTried) [] where
  info := fun _ => rfl
  addr := fun _ _ => ⟨fun h => (nomatch h), fun ⟨_, hy, _⟩ => (nomatch hy)⟩
  random := rfl

theorem shelved_new {m : CAddrMan} {ys : List CAddrInfo}
    (hvvTried : m.vvTried = List.replicate ADDRMAN_TRIED_BUCKET_COUNT [])
    (hys : ∀ y ∈ ys, y.fInTried = false) : Shelved crypto m ys := by
  have hoff : ∀ (b : ℕ), ∀ y ∈ ys, ¬ y.onShelf crypto m.nKey b = true := by
    intro b y hy
    rw [CAddrInfo.onShelf, hys y hy]
    exact Bool.false_ne_true
  have hget : ∀ b, m.vvTried.getD b [] = [] := by
    intro b
    rw [hvvTried, List.getD_eq_getElem?_getD, List.getElem?_replicate]
    split_ifs <;> rfl
  have hflat : m.vvTried.flatten = [] := by rw [hvvTried, List.flatten_replicate_nil]
  refine ⟨?_, fun b i => ?_, ?_, ?_, fun b => ?_⟩
  · rw [hvvTried, List.length_replicate]
  · rw [hget b]
    constructor
    · exact fun hi => absurd hi List.not_mem_nil
    · rintro ⟨y, hy, hon⟩
      exact absurd hon (hoff b y (List.mem_of_getElem? hy))
  · rw [hflat]
    exact List.nodup_nil
  · rw [hflat, eq_comm, List.length_nil, List.countP_eq_zero]
    intro y hy
    rw [hys y hy]
    exact Bool.false_ne_true
  · rw [hget b, eq_comm, List.length_nil, List.countP_eq_zero]
    exact hoff b

theorem indexRead_start {m : CAddrMan} {ys : List CAddrInfo} (h : Loaded m ys)
    (hvvNew : m.vvNew = List.replicate ADDRMAN_NEW_BUCKET_COUNT ∅) : IndexRead m m ys [] where
  rest := rfl
  info := h.info
  count := by rw [hvvNew, List.length_replicate]
  ids := by
    intro b i
    rw [hvvNew]
    constructor
    · rintro ⟨vNew, hget, hi⟩
      rw [List.eq_of_mem_replicate (List.mem_of_getElem? hget)] at hi
      simp at hi
    · exact fun hmem => absurd hmem List.not_mem_nil
  refs := by
    intro i
    rw [hvvNew]
    refine List.countP_eq_zero.mpr fun b hb => ?_
    rw [List.eq_of_mem_replicate hb]
    simp

/-- The entries are read. -/
theorem readInfos_run {m : CAddrMan} (hs : m.Savable crypto) (hc : m.Checked) (m₀ : CAddrMan)
    (rest : valtype) :
    ∃ m₁ m₂, CAddrMan.readNewInfos crypto ADDRMAN_NEW_BUCKET_COUNT m.nNew.toNat 0
        (m₀.cleared m.nKey m.nNew m.nTried)
        ((m.newInfos.map Prod.snd).flatMap CAddrInfo.Serialize ++
          ((m.triedInfos.map Prod.snd).flatMap CAddrInfo.Serialize ++ rest)) =
          .ok (m₁, (m.triedInfos.map Prod.snd).flatMap CAddrInfo.Serialize ++ rest) ∧
      CAddrMan.readTriedInfos crypto m.nTried.toNat 0 { m₁ with nIdCount := m.nNew.toNat }
        ((m.triedInfos.map Prod.snd).flatMap CAddrInfo.Serialize ++ rest) = .ok (m₂, rest) ∧
      Loaded m₂ (m.written.map Prod.snd) ∧ Shelved crypto m₂ (m.written.map Prod.snd) ∧
      m₂ = { m₀.cleared m.nKey m.nNew m.nTried with
        mapInfo := m₂.mapInfo, mapAddr := m₂.mapAddr, vRandom := m₂.vRandom
        vvTried := m₂.vvTried, nIdCount := m.written.length } := by
  have hys : m.newInfos.map Prod.snd ++ m.triedInfos.map Prod.snd = m.written.map Prod.snd :=
    List.map_append.symm
  have hnNew : m.nNew.toNat = (m.newInfos.map Prod.snd).length := by
    rw [hc.nNew_eq, List.length_map]
    rfl
  have hnTried : m.nTried.toNat = (m.triedInfos.map Prod.snd).length := by
    rw [hc.nTried_eq, List.length_map]
    rfl
  have haddrs : ((m.written.map Prod.snd).map fun y => y.toCNetAddr).Nodup := by
    rw [List.map_map]
    exact hc.nodup_addrs
  have haddrsNew : ((m.newInfos.map Prod.snd).map fun y => y.toCNetAddr).Nodup := by
    rw [← hys, List.map_append] at haddrs
    exact (List.nodup_append.mp haddrs).1
  obtain ⟨m₁, hrun₁, hm₁, hrest₁⟩ := @readNewInfos_run crypto
    ((m.triedInfos.map Prod.snd).flatMap CAddrInfo.Serialize ++ rest)
    (m.newInfos.map Prod.snd) [] (m₀.cleared m.nKey m.nNew m.nTried) hs.newInfos_inRange
    (loaded_cleared m₀ m.nKey m.nNew m.nTried) haddrsNew
  rw [List.nil_append] at hm₁
  rw [← hnNew, List.length_nil] at hrun₁
  have hkey : ({ m₁ with nIdCount := m.nNew.toNat } : CAddrMan).nKey = m.nKey := by
    rw [hrest₁]
    rfl
  obtain ⟨m₂, hrun₂, hm₂, hshelved, hrest₂⟩ := @readTriedInfos_run crypto rest
    (m.triedInfos.map Prod.snd) (m.newInfos.map Prod.snd)
    { m₁ with nIdCount := m.nNew.toNat } hs.triedInfos_inRange
    ⟨hm₁.info, hm₁.addr, hm₁.random⟩
    (shelved_new (by rw [hrest₁]; rfl) fun y hy => (hs.newInfos_inRange y hy).2) hnNew
    (by rw [hys]; exact haddrs) (by rw [hys, hkey]; exact hs.shelf_length hc)
  rw [hys] at hm₂ hshelved hrest₂
  rw [← hnTried] at hrun₂
  refine ⟨m₁, m₂, hrun₁, hrun₂, hm₂, hshelved, ?_⟩
  rw [hrest₂, hrest₁, List.length_map]

/-- What was saved is read to its end and no further. -/
theorem unserialize_run {m : CAddrMan} (hs : m.Savable crypto) (hc : m.Checked)
    (m₀ : CAddrMan) (rest : valtype) :
    ∃ m', CAddrMan.Unserialize crypto m₀ (m.Serialize ++ rest) = .ok (m', rest) ∧
      Reloaded crypto m m' := by
  obtain ⟨hnNew, hnTried, hlength⟩ := hs.counts hc
  obtain ⟨m₁, m₂, hrun₁, hrun₂, hm₂, hshelved, hrest₂⟩ :=
    readInfos_run hs hc m₀ (m.writtenIndexes ++ rest)
  have hflat : (pairsFrom 0 m.indexes).map Prod.snd = m.indexes.flatten := map_snd_pairsFrom _ _
  have hbuckets : m.indexes.length = ADDRMAN_NEW_BUCKET_COUNT :=
    (List.length_map _).trans hs.newCount
  obtain ⟨m₃, hrun₃, hm₃⟩ := @readBuckets_run rest m₂ m₂ (m.written.map Prod.snd) 0
    m.indexes [] hlength (by rw [Nat.zero_add]; exact hbuckets)
    (indexRead_start hm₂ (by rw [hrest₂]; rfl))
    (by rw [List.nil_append]; exact nodup_pairsFrom (CAddrMan.nodup_indexes hc))
    (fun is his => ⟨lt_of_le_of_lt (hs.newIndexes_length is his) (by decide), fun i hi => by
      rw [List.length_map]
      exact hc.indexes_lt_written his hi⟩)
    (fun i => by rw [List.nil_append, hflat]; exact hc.count_indexes_le i)
  rw [List.nil_append] at hm₃
  refine ⟨m₃, ?_, ?_⟩
  · have hversion : 0 < 256 ^ 1 := by decide
    rw [hc.serialize_eq]
    simp only [List.append_assoc]
    unfold CAddrMan.Unserialize
    rw [Reader.bind_run_ok (readUInt_run hversion _),
      Reader.bind_run_ok (decodes_unserializeBytes.roundTrips m.nKey hs.nKey _),
      Reader.bind_run_ok (readInt32_run hnNew _), Reader.bind_run_ok (readInt32_run hnTried _),
      Reader.bind_run_ok (readInt32_run (by decide) _), Reader.bind_run_ok hrun₁,
      Reader.bind_run_ok hrun₂, Int.toNat_natCast, ← hbuckets]
    exact hbuckets ▸ hrun₃
  · have hkey : m₃.nKey = m₂.nKey := by rw [hm₃.rest]
    exact
      { nKey := by rw [hm₃.rest, hrest₂]; rfl
        nNew := by rw [hm₃.rest, hrest₂]; rfl
        nTried := by rw [hm₃.rest, hrest₂]; rfl
        nIdCount := by rw [hm₃.rest, hrest₂]
        info := by
          intro i
          rw [hm₃.info i, hflat, List.getElem?_map]
          cases hp : m.written[i]? with
          | none => rfl
          | some p => rw [Option.map_some, Option.map_some, Option.map_some, hc.count_indexes hp]
        addr := by
          intro a i
          rw [hm₃.rest]
          refine (hm₂.addr a i).trans ?_
          rw [List.getElem?_map]
          cases m.written[i]? <;> simp
        random := by
          rw [hm₃.rest]
          exact hm₂.random.trans (by rw [List.length_map])
        shelved := hshelved.congr hkey (by rw [hm₃.rest])
        newCount := hm₃.count
        ids := by
          intro b i
          rw [hm₃.ids b i, mem_pairsFrom]
          simp
        refs := fun i => (hm₃.refs i).trans (by rw [hflat]) }

/-! ### The manager that is loaded passes the check -/

namespace Reloaded

variable {m m' : CAddrMan}

theorem entry (h : Reloaded crypto m m') {i : ℕ} {x : CAddrInfo} :
    m'.mapInfo[i]? = some x ↔ ∃ p, m.written[i]? = some p ∧ p.2.loadedAt p.2.nRefCount i = x := by
  rw [h.info i, Option.map_eq_some_iff]

theorem known (h : Reloaded crypto m m') (hc : m.Checked) {i : ℕ}
    (hi : 0 < holders m'.vvNew i) : i < m.written.length := by
  rw [h.refs i, List.count_pos_iff, List.mem_flatten] at hi
  obtain ⟨is, his, hmem⟩ := hi
  exact hc.indexes_lt_written his hmem

theorem newSize (h : Reloaded crypto m m') (hs : m.Savable crypto) :
    ∀ b ∈ m'.vvNew, b.size ≤ ADDRMAN_NEW_BUCKET_SIZE := by
  intro vNew hvNew
  obtain ⟨b, hb⟩ := List.mem_iff_getElem?.mp hvNew
  have hlt : b < m.indexes.length := by
    unfold CAddrMan.indexes
    rw [List.length_map, hs.newCount, ← h.newCount]
    exact (List.getElem?_eq_some_iff.mp hb).1
  have his : m.indexes[b]? = some (m.indexes.get ⟨b, hlt⟩) := List.getElem?_eq_getElem hlt
  have hsub : vNew.toList ⊆ m.indexes.get ⟨b, hlt⟩ := by
    intro i hi
    obtain ⟨is, his', hmem⟩ := (h.ids b i).mp ⟨vNew, hb, Std.TreeSet.mem_toList.mp hi⟩
    rw [his] at his'
    rw [Option.some.inj his']
    exact hmem
  have hle := (List.subperm_of_subset (nodup_toList vNew) hsub).length_le
  rw [Std.TreeSet.length_toList] at hle
  exact hle.trans (hs.newIndexes_length _ (List.mem_of_getElem? his))

theorem sound (h : Reloaded crypto m m') (hc : m.Checked) {i : ℕ} {x : CAddrInfo}
    (hx : m'.mapInfo[i]? = some x) : x.Sound := by
  obtain ⟨⟨n, y⟩, hp, rfl⟩ := h.entry.mp hx
  have hy := CAddrMan.mem_written.mp (List.mem_of_getElem? hp)
  have hsuccess := hc.lastSuccess n y hy
  refine ⟨Int.natCast_nonneg i, le_refl 0, hsuccess, fun hold => ?_, ?_⟩
  · obtain ⟨hne, hzero⟩ := hc.tried n y hy hold
    exact ⟨lt_of_le_of_ne hsuccess (Ne.symm hne), hzero⟩
  · have hcount := hc.count_indexes_le i
    rwa [hc.count_indexes hp] at hcount

theorem settled (h : Reloaded crypto m m') (hc : m.Checked) {i : ℕ} {x : CAddrInfo}
    (hx : m'.mapInfo[i]? = some x) : x.fInTried = true ∨ 0 < x.nRefCount := by
  obtain ⟨⟨n, y⟩, hp, rfl⟩ := h.entry.mp hx
  have hy := CAddrMan.mem_written.mp (List.mem_of_getElem? hp)
  cases hold : y.fInTried with
  | true => exact .inl hold
  | false => exact .inr (hc.new n y hy hold).1

theorem placed (h : Reloaded crypto m m') : Placed m'.vRandom m'.tables.place := by
  rw [h.random]
  refine Placed.of_range fun i => ?_
  unfold Tables.place
  rw [show m'.tables.info i = m'.mapInfo[i]? from rfl, h.info i]
  split_ifs with hlt
  · rw [List.getElem?_eq_getElem hlt]
    rfl
  · rw [List.getElem?_eq_none (Nat.not_lt.mp hlt)]
    rfl

theorem tried (h : Reloaded crypto m m') (i : ℕ) :
    i ∈ m'.vvTried.flatten ↔ ∃ x, m'.mapInfo[i]? = some x ∧ x.fInTried = true := by
  rw [mem_flatten_iff_getD]
  simp only [h.shelved.ids, List.getElem?_map, Option.map_eq_some_iff]
  constructor
  · rintro ⟨b, y, ⟨p, hp, rfl⟩, hon⟩
    rw [CAddrInfo.onShelf, Bool.and_eq_true] at hon
    exact ⟨_, h.entry.mpr ⟨p, hp, rfl⟩, hon.1⟩
  · rintro ⟨x, hx, hold⟩
    obtain ⟨p, hp, rfl⟩ := h.entry.mp hx
    refine ⟨p.2.GetTriedBucket crypto m'.nKey, p.2, ⟨p, hp, rfl⟩, ?_⟩
    rw [CAddrInfo.onShelf, show p.2.fInTried = true from hold]
    simp

theorem triedSize (h : Reloaded crypto m m') (hs : m.Savable crypto) (hc : m.Checked) :
    ∀ ids ∈ m'.vvTried, ids.length ≤ ADDRMAN_TRIED_BUCKET_SIZE := by
  intro ids hids
  obtain ⟨b, hb⟩ := List.mem_iff_getElem?.mp hids
  have hsize := h.shelved.sizes b
  rw [List.getD_eq_getElem?_getD, hb, h.nKey, Option.getD_some] at hsize
  rw [hsize]
  exact hs.shelf_length hc b

/-- The tables of the loaded manager fit together. -/
theorem consistent (h : Reloaded crypto m m') (hs : m.Savable crypto) (hc : m.Checked) :
    m'.Consistent where
  fresh := by
    intro i x hx
    obtain ⟨p, hp, -⟩ := h.entry.mp hx
    show i < m'.nIdCount
    rw [h.nIdCount]
    exact (List.getElem?_eq_some_iff.mp hp).1
  placed := h.placed
  addr := by
    intro a i
    refine (h.addr a i).trans ?_
    constructor
    · rintro ⟨p, hp, heq⟩
      exact ⟨_, h.entry.mpr ⟨p, hp, rfl⟩, heq⟩
    · rintro ⟨x, hx, heq⟩
      obtain ⟨p, hp, rfl⟩ := h.entry.mp hx
      exact ⟨p, hp, heq⟩
  sound := fun i x hx => h.sound hc hx
  refs := by
    intro i x hx
    obtain ⟨p, hp, rfl⟩ := h.entry.mp hx
    show p.2.nRefCount = holders m'.vvNew i + 0
    rw [h.refs i, hc.count_indexes hp, add_zero]
  known := by
    intro i hi
    have hpos : 0 < holders m'.vvNew i := by
      rw [Pi.zero_apply, add_zero] at hi
      exact_mod_cast hi
    show (m'.mapInfo[i]?).isSome = true
    rw [h.info i, List.getElem?_eq_getElem (h.known hc hpos)]
    rfl
  settled := fun i x hx => (h.settled hc hx).imp_right .inl
  unsettled := fun i hi => absurd hi (Finset.notMem_empty i)
  triedOnce := h.shelved.once
  tried := h.tried
  nTried := by
    show m'.nTried = (m'.vvTried.flatten.length : ℤ)
    rw [h.nTried, hc.nTried, h.shelved.total, List.countP_map, m.written_perm.countP_eq]
    rfl
  count := by
    have hlength : m.written.length = m.newInfos.length + m.triedInfos.length :=
      List.length_append
    show (m'.vRandom.length : ℤ) = m'.nTried + m'.nNew + 0
    rw [h.random, List.length_range, h.nTried, h.nNew, hc.nTried_eq, hc.nNew_eq]
    omega
  newCount := h.newCount
  newSize := h.newSize hs
  triedCount := h.shelved.count
  triedSize := h.triedSize hs hc

end Reloaded

/-! ### The book -/

/-- What a file keeps of an entry is found at one of the ids `P`. -/
def CAddrMan.Holds (m : CAddrMan) (P : ℕ → Prop) (y : CAddrInfo) : Prop :=
  ∃ n x, P n ∧ m.mapInfo[n]? = some x ∧ x.kept = y

/-- The same key, the same entries with their addresses, sources, times, attempts and
reference counts, each new or tried as before, and the same ones in each bucket. -/
structure SameBook (m m' : CAddrMan) : Prop where
  nKey : m'.nKey = m.nKey
  entries : ∀ y, m'.Holds (fun _ => True) y ↔ m.Holds (fun _ => True) y
  tried : ∀ b y, m'.Holds (· ∈ m'.vvTried.getD b []) y ↔ m.Holds (· ∈ m.vvTried.getD b []) y
  new : ∀ b y, m'.Holds (fun n => (m'.vvNew.getD b ∅).contains n = true) y ↔
    m.Holds (fun n => (m.vvNew.getD b ∅).contains n = true) y

namespace Reloaded

variable {m m' : CAddrMan}

theorem holds_iff (h : Reloaded crypto m m') {P : ℕ → Prop} {y : CAddrInfo} :
    m'.Holds P y ↔ ∃ i p, P i ∧ m.written[i]? = some p ∧ p.2.kept = y := by
  constructor
  · rintro ⟨i, x, hP, hx, rfl⟩
    obtain ⟨p, hp, rfl⟩ := h.entry.mp hx
    exact ⟨i, p, hP, hp, rfl⟩
  · rintro ⟨i, p, hP, hp, rfl⟩
    exact ⟨i, _, hP, h.entry.mpr ⟨p, hp, rfl⟩, rfl⟩

/-- The ids of both managers are those of the entries with a property that files keep. -/
theorem holds_congr (h : Reloaded crypto m m') {P P' : ℕ → Prop} {q : CAddrInfo → Prop}
    (hP' : ∀ i p, m.written[i]? = some p → (P' i ↔ q p.2))
    (hP : ∀ n x, m.mapInfo[n]? = some x → (P n ↔ q x)) (y : CAddrInfo) :
    m'.Holds P' y ↔ m.Holds P y := by
  rw [h.holds_iff]
  constructor
  · rintro ⟨i, ⟨n, x⟩, hi, hp, rfl⟩
    have hx := CAddrMan.mem_written.mp (List.mem_of_getElem? hp)
    exact ⟨n, x, (hP n x hx).mpr ((hP' i _ hp).mp hi), hx, rfl⟩
  · rintro ⟨n, x, hn, hx, rfl⟩
    obtain ⟨i, hp⟩ := List.mem_iff_getElem?.mp (CAddrMan.mem_written.mpr hx)
    exact ⟨i, (n, x), (hP' i _ hp).mpr ((hP n x hx).mp hn), hp, rfl⟩

/-- What is in a new bucket, by the ids before the manager was saved. -/
theorem contains_iff (h : Reloaded crypto m m') {b i : ℕ} :
    (m'.vvNew.getD b ∅).contains i = true ↔
      ∃ n, (m.vvNew.getD b ∅).contains n = true ∧ (m.newInfos.map Prod.fst).idxOf n = i := by
  have hget : (m'.vvNew.getD b ∅).contains i = true ↔
      ∃ vNew, m'.vvNew[b]? = some vNew ∧ vNew.contains i = true := by
    rw [List.getD_eq_getElem?_getD]
    cases m'.vvNew[b]? <;> simp
  rw [hget, h.ids b i, List.getD_eq_getElem?_getD]
  unfold CAddrMan.indexes
  rw [List.getElem?_map]
  cases m.vvNew[b]? with
  | none => simp
  | some vNew => simp

theorem sameBook (h : Reloaded crypto m m') (hs : m.Savable crypto) (hc : m.Checked) :
    SameBook m m' where
  nKey := h.nKey
  entries := h.holds_congr (q := fun _ => True) (fun _ _ _ => Iff.rfl) fun _ _ _ => Iff.rfl
  tried := by
    intro b
    refine h.holds_congr (q := fun x => x.onShelf crypto m.nKey b = true) (fun i p hp => ?_)
      fun n x hx => ?_
    · rw [h.shelved.ids b i, List.getElem?_map, hp, h.nKey]
      simp
    · rw [hs.mem_shelf hc b n, hx]
      simp
  new := by
    intro b y
    have hmem : ∀ n, (m.vvNew.getD b ∅).contains n = true → n ∈ m.newInfos.map Prod.fst := by
      intro n hn
      rw [List.getD_eq_getElem?_getD] at hn
      cases hb : m.vvNew[b]? with
      | none => simp [hb] at hn
      | some vNew =>
          rw [hb] at hn
          exact hc.mem_newIds_of_contains (List.mem_of_getElem? hb) hn
    rw [h.holds_iff]
    constructor
    · rintro ⟨i, p, hi, hp, rfl⟩
      obtain ⟨n, hn, rfl⟩ := h.contains_iff.mp hi
      obtain ⟨x, -, hwritten⟩ := CAddrMan.written_idxOf (hmem n hn)
      obtain rfl := Option.some.inj (hp.symm.trans hwritten)
      exact ⟨n, x, hn, CAddrMan.mem_written.mp (List.mem_of_getElem? hp), rfl⟩
    · rintro ⟨n, x, hn, hx, rfl⟩
      obtain ⟨x', -, hwritten⟩ := CAddrMan.written_idxOf (hmem n hn)
      have hx' := CAddrMan.mem_written.mp (List.mem_of_getElem? hwritten)
      obtain rfl := Option.some.inj (hx.symm.trans hx')
      exact ⟨_, (n, x), h.contains_iff.mpr ⟨n, hn, rfl⟩, hwritten, rfl⟩

end Reloaded

/-- For every manager that passes the check, whose buckets are not overfull and whose tried
entries are in the buckets of their addresses: saved and loaded into any manager, it is the
same book, it passes the check, and what follows in the file is not touched. -/
theorem addrMan_reload (crypto : Crypto) (m : CAddrMan) (hcheck : m.Check_ = 0)
    (hs : m.Savable crypto) (m₀ : CAddrMan) (rest : valtype) :
    ∃ m', CAddrMan.Unserialize crypto m₀ (m.Serialize ++ rest) = .ok (m', rest) ∧
      m'.Check_ = 0 ∧ SameBook m m' := by
  have hc := CAddrMan.checked_of_check hcheck
  obtain ⟨m', hrun, hm'⟩ := unserialize_run hs hc m₀ rest
  exact ⟨m', hrun, (hm'.consistent hs hc).check, hm'.sameBook hs hc⟩

/-- 8.8.8.9 with the port and the times of the other sample. -/
def secondAddress : CAddress :=
  { sampleAddress with
    ip := Vector.ofFn fun i => if i.val = 15 then 9 else sampleService.ip.get i }

/-- Two addresses, the first of which has become a tried one. -/
def sampleCalls : List AddrManCall :=
  [sampleAdd,
    .Add (fun _ => 0) (fun _ => 1400000000) secondAddress sampleService.toCNetAddr 0,
    .Good (fun _ => 7) sampleService 1400000002]

/-- They are saved, and loaded into an empty manager. -/
theorem addrMan_reload_sample :
    ∃ m m', AddrManCall.runAll smallCrypto sampleCalls (CAddrMan.new [1, 2]) = some m ∧
      (m.nTried = 1 ∧ m.nNew = 1) ∧
        CAddrMan.Unserialize smallCrypto (CAddrMan.new []) (m.Serialize ++ [7]) =
          .ok (m', [7]) ∧ m'.Check_ = 0 ∧ SameBook m m' := by
  obtain ⟨m, hrun, hm⟩ := @AddrManCall.runAll_consistent smallCrypto sampleCalls
    (CAddrMan.new [1, 2]) (CAddrMan.new_consistent [1, 2])
    (by simp [sampleCalls, sampleAdd, AddrManCall.GoodTime, AddrManCall.AttemptTime])
  have hfacts : (AddrManCall.runAll smallCrypto sampleCalls (CAddrMan.new [1, 2])).map (fun m =>
      decide ((m.nTried = 1 ∧ m.nNew = 1) ∧ m.nKey.length ≤ MAX_SIZE ∧
        (∀ p ∈ m.mapInfo.toList, p.2.nTime < 2 ^ 32 ∧
          (-2 ^ 63 ≤ p.2.nLastSuccess ∧ p.2.nLastSuccess < 2 ^ 63) ∧
            (-2 ^ 31 ≤ p.2.nAttempts ∧ p.2.nAttempts < 2 ^ 31)) ∧
        ∀ b ∈ List.range m.vvTried.length, ∀ p ∈ m.mapInfo.toList,
          p.1 ∈ m.vvTried.getD b [] → p.2.GetTriedBucket smallCrypto m.nKey = b)) =
      some true := by
    decide +kernel
  rw [hrun, Option.map_some, Option.some.injEq, decide_eq_true_iff] at hfacts
  obtain ⟨hcounts, hkey, hrange, hshelf⟩ := hfacts
  have hs : m.Savable smallCrypto :=
    { nKey := hkey
      inRange := fun n x hx => by
        obtain ⟨htime, hsuccess, hattempts⟩ := hrange (n, x) (CAddrMan.mem_infos.mpr hx)
        exact ⟨htime, hsuccess, hattempts⟩
      triedCount := hm.triedCount
      triedSize := hm.triedSize
      newCount := hm.newCount
      newSize := hm.newSize
      shelf := fun b n x hn hx => by
        have hlt : b < m.vvTried.length := by
          by_contra hge
          rw [List.getD_eq_getElem?_getD, List.getElem?_eq_none (Nat.not_lt.mp hge)] at hn
          exact List.not_mem_nil hn
        exact hshelf b (List.mem_range.mpr hlt) (n, x) (CAddrMan.mem_infos.mpr hx) hn }
  obtain ⟨m', hload, hcheck, hbook⟩ :=
    addrMan_reload smallCrypto m hm.check hs (CAddrMan.new []) [7]
  exact ⟨m, m', hrun, hcounts, hload, hcheck, hbook⟩

end Ziftrcoin.Spec
