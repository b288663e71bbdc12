/-
Module: Ziftrcoin.Spec.TimeData
Purpose: The filter that keeps the last values of a stream with their median, and
  the offset between the own clock and those of the peers.
Trusted boundary: human-reviewed model of CMedianFilter in src/util.h and of
  AddTimeData in src/util.cpp
Main exports: CMedianFilter, CMedianFilter.input, CMedianFilter.median
-/
import Mathlib.Data.List.Sort
import Ziftrcoin.Spec.NetAddr

namespace Ziftrcoin.Spec

/-! ### The filter -/

/-- `CMedianFilter`.  There is always a value, so the assertion of `median` holds. -/
structure CMedianFilter (T : Type) [LinearOrder T] where
  vValues : List T
  vSorted : List T
  nSize : Nat
  nonempty : vValues ≠ []
  sorted_eq : vSorted = vValues.insertionSort (· ≤ ·)

namespace CMedianFilter

variable {T : Type} [LinearOrder T]

/-- The constructor. -/
def new (size : Nat) (initial_value : T) : CMedianFilter T :=
  { vValues := [initial_value], vSorted := [initial_value], nSize := size,
    nonempty := List.cons_ne_nil _ _, sorted_eq := rfl }

def input (filter : CMedianFilter T) (value : T) : CMedianFilter T :=
  let kept := if filter.vValues.length = filter.nSize then filter.vValues.tail
    else filter.vValues
  { filter with
    vValues := kept ++ [value]
    vSorted := (kept ++ [value]).insertionSort (· ≤ ·)
    nonempty := List.append_ne_nil_of_right_ne_nil _ (List.cons_ne_nil _ _)
    sorted_eq := rfl }

theorem vSorted_length_pos (filter : CMedianFilter T) : 0 < filter.vSorted.length := by
  rw [filter.sorted_eq, List.length_insertionSort]
  exact List.length_pos_of_ne_nil filter.nonempty

/-- `median`, where `mean` is what the arithmetic of `T` makes of `(x + y) / 2`. -/
def median (mean : T → T → T) (filter : CMedianFilter T) : T :=
  let size := filter.vSorted.length
  have hpos : 0 < size := filter.vSorted_length_pos
  if size % 2 = 1 then filter.vSorted.get ⟨size / 2, by omega⟩
  else
    mean (filter.vSorted.get ⟨size / 2 - 1, by omega⟩)
      (filter.vSorted.get ⟨size / 2, by omega⟩)

def size (filter : CMedianFilter T) : Nat := filter.vValues.length

end CMedianFilter

/-! ### The offset -/

/-- `(x + y) / 2` of two `int64_t`. -/
def int64Mean (x y : Int) : Int := (int64 (x + y)).tdiv 2

def abs64 (n : Int) : Int := if 0 ≤ n then n else int64 (-n)

/-- The offset and the statics of `AddTimeData`, with the warning that it shows. -/
structure TimeData where
  nTimeOffset : Int
  setKnown : List CNetAddr
  vTimeOffsets : CMedianFilter Int
  fDone : Bool
  strMiscWarning : String

def TimeData.new : TimeData :=
  { nTimeOffset := 0, setKnown := [], vTimeOffsets := .new 200 0, fDone := false,
    strMiscWarning := "" }

def clockWarning : String :=
  "Warning: Please check that your computer's date and time are correct! " ++
    "If your clock is wrong, ziftrCOIN will not work properly."

/-- A peer's time differs from ours, but by less than five minutes. -/
def isMatch (nOffset : Int) : Bool := nOffset != 0 && decide (abs64 nOffset < 5 * 60)

/-- The part of `AddTimeData` that follows the median. -/
def updateOffset (s : TimeData) : TimeData :=
  let nMedian := s.vTimeOffsets.median int64Mean
  if abs64 nMedian < 70 * 60 then { s with nTimeOffset := nMedian }
  else if s.fDone || s.vTimeOffsets.vSorted.any isMatch then { s with nTimeOffset := 0 }
  else { s with nTimeOffset := 0, fDone := true, strMiscWarning := clockWarning }

/-- `AddTimeData`, where `GetTime` shows `nNow`. -/
def AddTimeData (s : TimeData) (ip : CNetAddr) (nTime nNow : Int) : TimeData :=
  let nOffsetSample := int64 (nTime - nNow)
  if ip ∈ s.setKnown then s
  else
    let s :=
      { s with
        setKnown := ip :: s.setKnown
        vTimeOffsets := s.vTimeOffsets.input nOffsetSample }
    if 5 ≤ s.vTimeOffsets.size ∧ s.vTimeOffsets.size % 2 = 1 then updateOffset s else s

end Ziftrcoin.Spec
