/-
Module: Ziftrcoin.Proofs.TimeOffset
Purpose: What a node makes of the times of its peers: the filter holds the last
  values, and when its median and the offset are right.
Trusted boundary: none
Main exports: TimeCall, timeOffset_right_iff
-/
import Ziftrcoin.Lib.Median
import Ziftrcoin.Proofs.Supply
import Ziftrcoin.Spec.TimeData

namespace Ziftrcoin.Spec

open Ziftrcoin.Lib

/-! ### The filter -/

namespace CMedianFilter

variable {T : Type} [LinearOrder T]

theorem median_eq (mean : T → T → T) (filter : CMedianFilter T) (d : T) :
    filter.median mean = medianBy mean filter.vValues d := by
  obtain ⟨vValues, vSorted, nSize, hne, rfl⟩ := filter
  have hlen : (vValues.insertionSort (· ≤ ·)).length = vValues.length :=
    List.length_insertionSort _ _
  have hpos := List.length_pos_of_ne_nil hne
  unfold median medianBy upperMedian lowerMedian
  dsimp only
  rw [List.getD_eq_getElem _ _ (by omega), List.getD_eq_getElem _ _ (by omega)]
  by_cases hodd : vValues.length % 2 = 1
  · rw [if_pos hodd, if_pos (by rw [hlen]; exact hodd)]
    rfl
  · rw [if_neg hodd, if_neg (by rw [hlen]; exact hodd)]
    rfl

/-- A filter that has seen `xs` holds the last of them. -/
theorem vValues_input (filter : CMedianFilter T) (xs : List T) (hpos : 0 < filter.nSize)
    (h : filter.vValues = xs.rtake filter.nSize) (value : T) :
    (filter.input value).vValues = (xs ++ [value]).rtake filter.nSize := by
  obtain ⟨n, hn⟩ : ∃ n, filter.nSize = n + 1 := ⟨filter.nSize - 1, by omega⟩
  unfold input
  dsimp only
  rw [hn, List.rtake_concat_succ, h, hn]
  congr 1
  unfold List.rtake
  split
  · next hfull =>
    rw [List.length_drop] at hfull
    rw [List.tail_drop]
    congr 1
    omega
  · next hfree =>
    rw [List.length_drop] at hfree
    congr 1
    omega

end CMedianFilter

/-! ### Runs -/

/-- A call of `AddTimeData`, with what `GetTime` shows in it. -/
structure TimeCall where
  ip : CNetAddr
  nTime : ℤ
  nNow : ℤ

namespace TimeCall

/-- The difference between the peer's time and ours, in 64 bits. -/
def sample (call : TimeCall) : ℤ := int64 (call.nTime - call.nNow)

def run (s : TimeData) (call : TimeCall) : TimeData :=
  AddTimeData s call.ip call.nTime call.nNow

def runAll (calls : List TimeCall) : TimeData := calls.foldl run .new

end TimeCall

/-- The values that the filter was given: 0, and the sample of each call whose address no
earlier call had. -/
def inputsOf (calls : List TimeCall) : List ℤ :=
  0 :: (List.range calls.length).filterMap fun i =>
    (calls[i]?).bind fun call =>
      if call.ip ∈ (calls.take i).map TimeCall.ip then none else some call.sample

/-- The values that are retained. -/
def retained (calls : List TimeCall) : List ℤ := (inputsOf calls).rtake 200

/-- The offset is 0, or lies between two of the values. -/
def InSpan (nOffset : ℤ) (values : List ℤ) : Prop :=
  nOffset = 0 ∨ ∃ low ∈ values, ∃ high ∈ values, low ≤ nOffset ∧ nOffset ≤ high

/-- `(x + y) / 2` of whole numbers. -/
def mean (x y : ℤ) : ℤ := (x + y).tdiv 2

/-- What holds after some calls: the offset is less than seventy minutes, the filter's
median is that of the values retained, and if these are five or more, the offset is 0 or
lies between them. -/
structure OffsetRight (s : TimeData) (calls : List TimeCall) : Prop where
  bounded : |s.nTimeOffset| < 70 * 60
  median : s.vTimeOffsets.median int64Mean = medianBy mean (retained calls) 0
  current : 5 ≤ (retained calls).length → InSpan s.nTimeOffset (retained calls)

theorem inputsOf_concat (calls : List TimeCall) (call : TimeCall) :
    inputsOf (calls ++ [call]) =
      if call.ip ∈ calls.map TimeCall.ip then inputsOf calls
      else inputsOf calls ++ [call.sample] := by
  have hbefore : ∀ i ∈ List.range calls.length,
      ((calls ++ [call])[i]?).bind (fun call' =>
          if call'.ip ∈ ((calls ++ [call]).take i).map TimeCall.ip then none
          else some call'.sample) =
        (calls[i]?).bind fun call' =>
          if call'.ip ∈ (calls.take i).map TimeCall.ip then none else some call'.sample := by
    intro i hi
    have hlt := List.mem_range.mp hi
    rw [List.getElem?_append_left hlt, List.take_append_of_le_length hlt.le]
  unfold inputsOf
  rw [List.length_append, List.length_singleton, List.range_succ, List.filterMap_append,
    List.filterMap_congr hbefore]
  simp only [List.filterMap_cons, List.filterMap_nil, List.getElem?_concat_length,
    Option.bind_some, List.take_left]
  by_cases hknown : call.ip ∈ calls.map TimeCall.ip
  · simp only [if_pos hknown, List.append_nil]
  · simp only [if_neg hknown, List.cons_append]

/-! ### One call -/

/-- A call leaves the median and the offset right: the address is known, or the two middle
values have a sum of 64 bits, the middle value is not the one without an absolute value,
and if the filter was full, the offset still lies between the values that are retained. -/
def StepFits (s : TimeData) (call : TimeCall) : Prop :=
  call.ip ∈ s.setKnown ∨
    let values := (s.vTimeOffsets.input call.sample).vValues
    (values.length % 2 = 0 → -2 ^ 63 ≤ lowerMedian values 0 + upperMedian values 0 ∧
      lowerMedian values 0 + upperMedian values 0 < 2 ^ 63) ∧
    (5 ≤ values.length → values.length % 2 = 1 → upperMedian values 0 ≠ -2 ^ 63) ∧
    (s.vTimeOffsets.vValues.length = 200 → InSpan s.nTimeOffset values)

/-- What the state knows of the calls so far. -/
structure TimeTracks (s : TimeData) (calls : List TimeCall) : Prop where
  known : ∀ ip, ip ∈ s.setKnown ↔ ip ∈ calls.map TimeCall.ip
  size : s.vTimeOffsets.nSize = 200
  values : s.vTimeOffsets.vValues = retained calls
  early : (retained calls).length < 5 → s.nTimeOffset = 0

theorem InSpan.mono {nOffset : ℤ} {xs ys : List ℤ} (h : InSpan nOffset xs)
    (hsub : ∀ x ∈ xs, x ∈ ys) : InSpan nOffset ys := by
  rcases h with h | ⟨low, hlow, high, hhigh, hle⟩
  · exact .inl h
  · exact .inr ⟨low, hsub low hlow, high, hsub high hhigh, hle⟩

theorem length_retained (calls : List TimeCall) :
    (retained calls).length = min (inputsOf calls).length 200 := by
  unfold retained List.rtake
  rw [List.length_drop]
  omega

theorem inputs_range {calls : List TimeCall} {x : ℤ} (hx : x ∈ inputsOf calls) :
    -2 ^ 63 ≤ x ∧ x < 2 ^ 63 := by
  rcases List.mem_cons.mp hx with rfl | hx
  · omega
  · obtain ⟨i, -, hi⟩ := List.mem_filterMap.mp hx
    obtain ⟨call, -, hcall⟩ := Option.bind_eq_some_iff.mp hi
    split at hcall
    · cases hcall
    · rw [← Option.some.inj hcall]
      exact ⟨neg_le_int64 _, int64_lt _⟩

theorem retained_range {calls : List TimeCall} {x : ℤ} (hx : x ∈ retained calls) :
    -2 ^ 63 ≤ x ∧ x < 2 ^ 63 :=
  inputs_range (List.mem_of_mem_drop hx)

/-- A sum that does not fit into 64 bits is off by so much that its half is. -/
theorem int64Mean_eq_iff (x y : ℤ) :
    int64Mean x y = mean x y ↔ -2 ^ 63 ≤ x + y ∧ x + y < 2 ^ 63 := by
  unfold int64Mean mean
  constructor
  · intro h
    by_contra hout
    have hhalf : ∀ z : ℤ, ∃ r, z = 2 * z.tdiv 2 + r ∧ -2 < r ∧ r < 2 := fun z =>
      ⟨z.tmod 2, (Int.mul_tdiv_add_tmod z 2).symm, Int.lt_tmod_of_pos z (by decide),
        Int.tmod_lt_of_pos z (by decide)⟩
    have hfar : x + y - int64 (x + y) ≤ -2 ^ 64 ∨ 2 ^ 64 ≤ x + y - int64 (x + y) := by
      unfold int64
      rw [Int.bmod_def]
      split <;> omega
    obtain ⟨r, hr, hrange⟩ := hhalf (int64 (x + y))
    obtain ⟨r', hr', hrange'⟩ := hhalf (x + y)
    omega
  · rintro ⟨hlow, hhigh⟩
    rw [int64_eq_self hlow hhigh]

theorem abs64_lt_iff {n : ℤ} (hlow : -2 ^ 63 ≤ n) (hhigh : n < 2 ^ 63) :
    abs64 n < 70 * 60 ↔ |n| < 70 * 60 ∨ n = -2 ^ 63 := by
  unfold abs64
  split
  · next hpos =>
    rw [abs_of_nonneg hpos]
    omega
  · next hneg =>
    rw [abs_of_neg (not_le.mp hneg)]
    rcases eq_or_ne n (-2 ^ 63) with rfl | hne
    · exact iff_of_true (by decide) (.inr rfl)
    · rw [int64_eq_self (by omega) (by omega)]
      omega

namespace TimeTracks

variable {s : TimeData} {calls : List TimeCall} {call : TimeCall}

/-- A repeated address changes nothing. -/
theorem run_known (h : TimeTracks s calls) (hknown : call.ip ∈ calls.map TimeCall.ip) :
    call.run s = s := if_pos ((h.known call.ip).mpr hknown)

theorem retained_known (hknown : call.ip ∈ calls.map TimeCall.ip) :
    retained (calls ++ [call]) = retained calls := by
  unfold retained
  rw [inputsOf_concat, if_pos hknown]

theorem input_eq (h : TimeTracks s calls) (hnew : call.ip ∉ calls.map TimeCall.ip) :
    (s.vTimeOffsets.input call.sample).vValues = retained (calls ++ [call]) := by
  have hvalues := h.values
  unfold retained at hvalues ⊢
  rw [inputsOf_concat, if_neg hnew]
  have hinput := CMedianFilter.vValues_input s.vTimeOffsets (inputsOf calls)
    (by rw [h.size]; decide) (by rw [h.size]; exact hvalues) call.sample
  rwa [h.size] at hinput

/-- A value more is retained, unless there are two hundred. -/
theorem length_retained_new (hnew : call.ip ∉ calls.map TimeCall.ip) :
    (retained (calls ++ [call])).length = min ((retained calls).length + 1) 200 := by
  rw [length_retained, length_retained, inputsOf_concat, if_neg hnew, List.length_append,
    List.length_singleton]
  omega

/-- As long as there are fewer, none is given up. -/
theorem retained_new (hnew : call.ip ∉ calls.map TimeCall.ip)
    (hfree : (retained calls).length < 200) :
    retained (calls ++ [call]) = retained calls ++ [call.sample] := by
  rw [length_retained] at hfree
  have hall : ∀ xs : List ℤ, xs.length ≤ 200 → xs.rtake 200 = xs := fun xs hle => by
    unfold List.rtake
    rw [Nat.sub_eq_zero_of_le hle, List.drop_zero]
  unfold retained
  rw [inputsOf_concat, if_neg hnew, hall (inputsOf calls) (by omega), hall]
  rw [List.length_append, List.length_singleton]
  omega

theorem new : TimeTracks .new [] where
  known _ := iff_of_false List.not_mem_nil List.not_mem_nil
  size := rfl
  values := rfl
  early _ := rfl

/-- The filter after the input of a new value. -/
theorem run_new (h : TimeTracks s calls) (hnew : call.ip ∉ calls.map TimeCall.ip) :
    call.run s =
      let s' := { s with
        setKnown := call.ip :: s.setKnown
        vTimeOffsets := s.vTimeOffsets.input call.sample }
      if 5 ≤ (retained (calls ++ [call])).length ∧
          (retained (calls ++ [call])).length % 2 = 1 then updateOffset s' else s' := by
  rw [← h.input_eq hnew]
  exact if_neg fun hmem => hnew ((h.known call.ip).mp hmem)

@[simp] theorem setKnown_updateOffset (s : TimeData) :
    (updateOffset s).setKnown = s.setKnown := by
  unfold updateOffset
  dsimp only
  split_ifs <;> rfl

@[simp] theorem vTimeOffsets_updateOffset (s : TimeData) :
    (updateOffset s).vTimeOffsets = s.vTimeOffsets := by
  unfold updateOffset
  dsimp only
  split_ifs <;> rfl

theorem nTimeOffset_updateOffset (s : TimeData) :
    (updateOffset s).nTimeOffset =
      if abs64 (s.vTimeOffsets.median int64Mean) < 70 * 60 then
        s.vTimeOffsets.median int64Mean else 0 := by
  unfold updateOffset
  dsimp only
  split_ifs <;> rfl

theorem vTimeOffsets_run (h : TimeTracks s calls) (hnew : call.ip ∉ calls.map TimeCall.ip) :
    (call.run s).vTimeOffsets = s.vTimeOffsets.input call.sample := by
  rw [h.run_new hnew]
  dsimp only
  split
  · exact vTimeOffsets_updateOffset _
  · rfl

theorem nTimeOffset_run (h : TimeTracks s calls) (hnew : call.ip ∉ calls.map TimeCall.ip) :
    (call.run s).nTimeOffset =
      if 5 ≤ (retained (calls ++ [call])).length ∧
          (retained (calls ++ [call])).length % 2 = 1 then
        if abs64 (upperMedian (retained (calls ++ [call])) 0) < 70 * 60 then
          upperMedian (retained (calls ++ [call])) 0 else 0
      else s.nTimeOffset := by
  rw [h.run_new hnew]
  dsimp only
  split
  · next hodd =>
    rw [nTimeOffset_updateOffset]
    dsimp only
    rw [CMedianFilter.median_eq _ _ 0, h.input_eq hnew, medianBy_of_odd _ hodd.2]
  · rfl

theorem run (h : TimeTracks s calls) (call : TimeCall) :
    TimeTracks (call.run s) (calls ++ [call]) := by
  by_cases hknown : call.ip ∈ calls.map TimeCall.ip
  · rw [h.run_known hknown]
    refine ⟨fun ip => ?_, h.size, ?_, ?_⟩
    · rw [h.known, List.map_append, List.mem_append, List.map_singleton, List.mem_singleton]
      exact ⟨.inl, fun hip => hip.elim id fun hip => hip ▸ hknown⟩
    · rw [retained_known hknown]
      exact h.values
    · rw [retained_known hknown]
      exact h.early
  · refine ⟨fun ip => ?_, ?_, ?_, fun hlt => ?_⟩
    · have hset : (call.run s).setKnown = call.ip :: s.setKnown := by
        rw [h.run_new hknown]
        dsimp only
        split
        · exact setKnown_updateOffset _
        · rfl
      rw [hset, List.mem_cons, h.known, List.map_append, List.mem_append, List.map_singleton,
        List.mem_singleton, or_comm]
    · rw [h.vTimeOffsets_run hknown]
      exact h.size
    · rw [h.vTimeOffsets_run hknown]
      exact h.input_eq hknown
    · rw [h.nTimeOffset_run hknown, if_neg fun hodd => absurd hodd.1 (not_le.mpr hlt)]
      rw [length_retained_new hknown] at hlt
      exact h.early (by omega)

theorem retained_ne_nil (calls : List TimeCall) : retained calls ≠ [] := by
  rw [← List.length_pos_iff_ne_nil, length_retained]
  unfold inputsOf
  rw [List.length_cons]
  omega

theorem median_right_iff (h : TimeTracks s calls) (hnew : call.ip ∉ calls.map TimeCall.ip) :
    (call.run s).vTimeOffsets.median int64Mean = medianBy mean (retained (calls ++ [call])) 0 ↔
      ((retained (calls ++ [call])).length % 2 = 0 →
        -2 ^ 63 ≤ lowerMedian (retained (calls ++ [call])) 0 +
            upperMedian (retained (calls ++ [call])) 0 ∧
          lowerMedian (retained (calls ++ [call])) 0 +
            upperMedian (retained (calls ++ [call])) 0 < 2 ^ 63) := by
  rw [h.vTimeOffsets_run hnew, CMedianFilter.median_eq _ _ 0, h.input_eq hnew]
  unfold medianBy
  split
  · next hodd => exact iff_of_true rfl fun heven => by omega
  · next heven =>
    rw [int64Mean_eq_iff]
    exact ⟨fun hfits _ => hfits, fun hfits => hfits (by omega)⟩

theorem bounded_iff (h : TimeTracks s calls) (hbounded : |s.nTimeOffset| < 70 * 60)
    (hnew : call.ip ∉ calls.map TimeCall.ip) :
    |(call.run s).nTimeOffset| < 70 * 60 ↔
      (5 ≤ (retained (calls ++ [call])).length → (retained (calls ++ [call])).length % 2 = 1 →
        upperMedian (retained (calls ++ [call])) 0 ≠ -2 ^ 63) := by
  have hrange := retained_range (upperMedian_mem_of_ne (retained_ne_nil (calls ++ [call])) 0)
  rw [h.nTimeOffset_run hnew]
  split
  · next hodd =>
    by_cases hleast : upperMedian (retained (calls ++ [call])) 0 = -2 ^ 63
    · rw [if_pos ((abs64_lt_iff hrange.1 hrange.2).mpr (.inr hleast)), hleast]
      exact iff_of_false (by decide) fun hne => hne hodd.1 hodd.2 rfl
    · refine iff_of_true ?_ fun _ _ => hleast
      split
      · next hsmall => exact ((abs64_lt_iff hrange.1 hrange.2).mp hsmall).resolve_right hleast
      · decide
  · next hskip => exact iff_of_true hbounded fun hfive hodd => absurd ⟨hfive, hodd⟩ hskip

theorem current_iff (h : TimeTracks s calls)
    (hcurrent : 5 ≤ (retained calls).length → InSpan s.nTimeOffset (retained calls))
    (hnew : call.ip ∉ calls.map TimeCall.ip) :
    (5 ≤ (retained (calls ++ [call])).length →
        InSpan (call.run s).nTimeOffset (retained (calls ++ [call]))) ↔
      ((retained calls).length = 200 →
        InSpan s.nTimeOffset (retained (calls ++ [call]))) := by
  have hlength := length_retained_new hnew
  have hmem := upperMedian_mem_of_ne (retained_ne_nil (calls ++ [call])) 0
  rw [h.nTimeOffset_run hnew]
  split
  · next hodd =>
    refine iff_of_true (fun _ => ?_) fun hfull => by omega
    split
    · exact .inr ⟨_, hmem, _, hmem, le_rfl, le_rfl⟩
    · exact .inl rfl
  · next hskip =>
    by_cases hfull : (retained calls).length = 200
    · exact ⟨fun hwithin _ => hwithin (by omega), fun hwithin _ => hwithin hfull⟩
    · refine iff_of_true (fun hfive => ?_) fun hfull' => absurd hfull' hfull
      -- an even number of values: five of them were there before, and none was given up
      have hbefore : (retained calls).length ≤ 200 := by
        rw [length_retained]
        exact min_le_right _ _
      refine (hcurrent (by omega)).mono fun x hx => ?_
      rw [retained_new hnew (by omega)]
      exact List.mem_append_left _ hx

end TimeTracks

/-- From a state in which all is right, a call leads to another one just when it fits. -/
theorem offsetRight_run_iff {s : TimeData} {calls : List TimeCall} {call : TimeCall}
    (h : TimeTracks s calls) (hright : OffsetRight s calls) :
    OffsetRight (call.run s) (calls ++ [call]) ↔ StepFits s call := by
  by_cases hknown : call.ip ∈ calls.map TimeCall.ip
  · refine iff_of_true ?_ (.inl ((h.known call.ip).mpr hknown))
    have hsame := TimeTracks.retained_known hknown
    rw [h.run_known hknown]
    refine ⟨hright.bounded, ?_, ?_⟩
    · rw [hsame]
      exact hright.median
    · rw [hsame]
      exact hright.current
  · unfold StepFits
    rw [or_iff_right (mt (h.known call.ip).mp hknown), h.input_eq hknown, h.values]
    dsimp only
    rw [← h.median_right_iff hknown, ← h.bounded_iff hright.bounded hknown,
      ← h.current_iff hright.current hknown]
    exact ⟨fun hnext => ⟨hnext.median, hnext.bounded, hnext.current⟩,
      fun hnext => ⟨hnext.2.1, hnext.1, hnext.2.2⟩⟩

/-! ### Whole runs -/

theorem runAll_concat (calls : List TimeCall) (call : TimeCall) :
    TimeCall.runAll (calls ++ [call]) = call.run (TimeCall.runAll calls) := by
  unfold TimeCall.runAll
  rw [List.foldl_append]
  rfl

theorem timeTracks_runAll (calls : List TimeCall) : TimeTracks (TimeCall.runAll calls) calls := by
  induction calls using List.reverseRecOn with
  | nil => exact TimeTracks.new
  | append_singleton calls call ih =>
      rw [runAll_concat]
      exact ih.run call

theorem offsetRight_new : OffsetRight .new [] where
  bounded := by decide
  median := by decide
  current := fun hfive => absurd hfive (by decide)

/-- Whatever the calls are, a repeated address changes nothing.  Everything else is right
after every call just when every call fits. -/
theorem timeOffset_right_iff (calls : List TimeCall) :
    (∀ n ≤ calls.length,
      OffsetRight (TimeCall.runAll (calls.take n)) (calls.take n) ∧
      ∀ call : TimeCall, call.ip ∈ (calls.take n).map TimeCall.ip →
        call.run (TimeCall.runAll (calls.take n)) = TimeCall.runAll (calls.take n)) ↔
    ∀ n call, calls[n]? = some call → StepFits (TimeCall.runAll (calls.take n)) call := by
  have hstep : ∀ n call, calls[n]? = some call →
      OffsetRight (TimeCall.runAll (calls.take n)) (calls.take n) →
      (OffsetRight (TimeCall.runAll (calls.take (n + 1))) (calls.take (n + 1)) ↔
        StepFits (TimeCall.runAll (calls.take n)) call) := by
    intro n call hcall hright
    have htake : calls.take (n + 1) = calls.take n ++ [call] := by
      rw [List.take_add_one, hcall]
      rfl
    rw [htake, runAll_concat]
    exact offsetRight_run_iff (timeTracks_runAll _) hright
  constructor
  · intro h n call hcall
    have hn := (List.getElem?_eq_some_iff.mp hcall).1
    exact (hstep n call hcall (h n hn.le).1).mp (h (n + 1) hn).1
  · intro h n hn
    refine ⟨?_, fun call hknown => (timeTracks_runAll _).run_known hknown⟩
    induction n with
    | zero => exact offsetRight_new
    | succ n ih =>
        have hcall := List.getElem?_eq_getElem (show n < calls.length by omega)
        exact (hstep n _ hcall (ih (by omega))).mpr (h n _ hcall)

/-- Four peers with the least time there is, as our clock would show it. -/
def farCalls : List TimeCall :=
  (List.range 4).map fun i =>
    { ip := ⟨#v[0, 0, 0, 0, 0, 0, 0, 0, 0, 0, 0xff, 0xff, 8, 8, 8, i.toUInt8]⟩
      nTime := -2 ^ 63 + 1400000000
      nNow := 1400000000 }

/-- The least number is its own absolute value, and becomes the offset. -/
theorem timeOffset_unbounded :
    (∀ call ∈ farCalls, -2 ^ 63 ≤ call.nTime ∧ call.nTime < 2 ^ 63) ∧
      (TimeCall.runAll farCalls).nTimeOffset = -2 ^ 63 ∧
      ¬OffsetRight (TimeCall.runAll farCalls) farCalls := by
  have hoffset : (TimeCall.runAll farCalls).nTimeOffset = -2 ^ 63 := by decide +kernel
  refine ⟨by decide, hoffset, fun hright => ?_⟩
  have hbounded := hright.bounded
  rw [hoffset] at hbounded
  exact absurd hbounded (by decide)

end Ziftrcoin.Spec
