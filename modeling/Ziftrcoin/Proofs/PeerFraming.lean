/-
Module: Ziftrcoin.Proofs.PeerFraming
Purpose: Messages between peers arrive as they were sent, however the stream is cut
  and whenever parts are sent, received and processed.
Trusted boundary: none
Main exports: headerOf, framed_eq
-/
import Ziftrcoin.Spec.PeerMessages

namespace Ziftrcoin.Spec

/-! ### Frames -/

/-- The header at the front of some bytes. -/
def headerOf (frame : valtype) : CMessageHeader :=
  { pchMessageStart := frame.take 4, pchCommand := (frame.drop 4).take 12
    nMessageSize := readLE ((frame.drop 16).take 4), nChecksum := readLE ((frame.drop 20).take 4) }

theorem unserialize_eq {frame : valtype} (h : 24 ≤ frame.length) :
    CMessageHeader.unserialize frame = some (headerOf frame) :=
  if_neg (Nat.not_lt.mpr h)

/-- A message that has arrived in full. -/
def MessageComplete (frame : valtype) : Prop :=
  frame.length = 24 + (headerOf frame).nMessageSize

instance (frame : valtype) : Decidable (MessageComplete frame) :=
  inferInstanceAs (Decidable (frame.length = 24 + (headerOf frame).nMessageSize))

/-- The header, up to its last byte, of a message that is too long. -/
def Oversized (frame : valtype) : Prop :=
  frame.length = 24 ∧ MAX_SIZE < (headerOf frame).nMessageSize

instance (frame : valtype) : Decidable (Oversized frame) :=
  inferInstanceAs (Decidable (frame.length = 24 ∧ MAX_SIZE < (headerOf frame).nMessageSize))

/-- A part of a message that is not too long. -/
def MessagePart (frame : valtype) : Prop :=
  24 ≤ frame.length → (headerOf frame).nMessageSize ≤ MAX_SIZE ∧
    frame.length ≤ 24 + (headerOf frame).nMessageSize

/-- Only the first 24 bytes matter. -/
theorem take_headerOf (frame : valtype) : headerOf (frame.take 24) = headerOf frame := by
  have htake : ∀ (pos width : ℕ), pos + width ≤ 24 →
      ((frame.take 24).drop pos).take width = (frame.drop pos).take width := by
    intro pos width hpos
    rw [List.drop_take, List.take_take, Nat.min_eq_left (by omega)]
  have hstart := htake 0 4 (by decide)
  rw [List.drop_zero, List.drop_zero] at hstart
  unfold headerOf
  rw [hstart, htake 4 12 (by decide), htake 16 4 (by decide), htake 20 4 (by decide)]

theorem headerOf_append {frame : valtype} (h : 24 ≤ frame.length) (more : valtype) :
    headerOf (frame ++ more) = headerOf frame := by
  rw [← take_headerOf, List.take_append_of_le_length h, take_headerOf]

theorem MessageComplete.le {frame : valtype} (h : MessageComplete frame) : 24 ≤ frame.length :=
  (Nat.le_add_right 24 _).trans_eq h.symm

theorem not_complete_of_lt {frame : valtype} (h : frame.length < 24) : ¬ MessageComplete frame :=
  fun hcomplete => absurd hcomplete.le (Nat.not_le.mpr h)

/-- The message that holds the bytes of a frame that have arrived. -/
def messageOf (MessageStart frame : valtype) : CNetMessage :=
  if frame.length < 24 then
    { CNetMessage.empty MessageStart with
      hdrbuf := frame ++ List.replicate (24 - frame.length) 0
      nHdrPos := frame.length }
  else if MAX_SIZE < (headerOf frame).nMessageSize then
    { in_data := false, hdrbuf := [], hdr := headerOf frame, nHdrPos := 24, vRecv := []
      nDataPos := 0 }
  else
    { in_data := true, hdrbuf := [], hdr := headerOf frame, nHdrPos := 24
      vRecv := frame.drop 24 ++
        List.replicate ((headerOf frame).nMessageSize - (frame.length - 24)) 0
      nDataPos := frame.length - 24 }

section Receive

variable (MessageStart : valtype)

variable {MessageStart}

theorem messageOf_header {frame : valtype} (h : frame.length < 24) :
    messageOf MessageStart frame = { CNetMessage.empty MessageStart with
      hdrbuf := frame ++ List.replicate (24 - frame.length) 0
      nHdrPos := frame.length } := if_pos h

theorem messageOf_data {frame : valtype} (h : 24 ≤ frame.length) (hpart : MessagePart frame) :
    messageOf MessageStart frame =
      { in_data := true, hdrbuf := [], hdr := headerOf frame, nHdrPos := 24
        vRecv := frame.drop 24 ++
          List.replicate ((headerOf frame).nMessageSize - (frame.length - 24)) 0
        nDataPos := frame.length - 24 } := by
  unfold messageOf
  rw [if_neg (Nat.not_lt.mpr h), if_neg (Nat.not_lt.mpr (hpart h).1)]

theorem complete_messageOf {frame : valtype} (hpart : MessagePart frame) :
    (messageOf MessageStart frame).complete = true ↔ MessageComplete frame := by
  by_cases h : frame.length < 24
  · rw [messageOf_header h]
    refine iff_of_false (fun hcomplete => ?_) (not_complete_of_lt h)
    cases hcomplete
  · have hle : 24 ≤ frame.length := Nat.le_of_not_lt h
    rw [messageOf_data hle hpart]
    unfold CNetMessage.complete MessageComplete
    rw [Bool.true_and, beq_iff_eq]
    dsimp only
    omega

/-! ### One byte after the other -/

/-- The frames before the one that the next byte belongs to, and that one. -/
def currentFrame (frames : List valtype) : List valtype × valtype :=
  match frames.getLast? with
  | none => (frames, [])
  | some frame => if MessageComplete frame then (frames, []) else (frames.dropLast, frame)

/-- Cut a stream into frames, up to a header of a message that is too long. -/
def parse : (stream : valtype) → (frames : List valtype) → Bool × List valtype
  | [], frames => (true, frames)
  | b :: stream, frames =>
      let frame := (currentFrame frames).2 ++ [b]
      if Oversized frame then (false, (currentFrame frames).1 ++ [frame])
      else parse stream ((currentFrame frames).1 ++ [frame])

/-- The frames of a stream that was not refused: all are complete but the last. -/
structure InFrames (frames : List valtype) : Prop where
  parts : ∀ frame ∈ frames, frame ≠ [] ∧ MessagePart frame
  complete : ∀ frame ∈ frames.dropLast, MessageComplete frame

theorem currentFrame_nil : currentFrame [] = ([], []) := rfl

theorem currentFrame_append (front : List valtype) (frame : valtype) :
    currentFrame (front ++ [frame]) =
      if MessageComplete frame then (front ++ [frame], []) else (front, frame) := by
  unfold currentFrame
  rw [List.getLast?_concat, List.dropLast_concat]

theorem currentFrame_of_complete {frames : List valtype}
    (h : ∀ frame ∈ frames, MessageComplete frame) : currentFrame frames = (frames, []) := by
  rcases List.eq_nil_or_concat frames with rfl | ⟨front, frame, rfl⟩
  · rfl
  · rw [List.concat_eq_append] at h ⊢
    rw [currentFrame_append, if_pos (h frame (List.mem_append_right _ List.mem_cons_self))]

/-- Complete frames in front stay where they are. -/
theorem currentFrame_append_front {front : List valtype}
    (h : ∀ frame ∈ front, MessageComplete frame) (frames : List valtype) :
    currentFrame (front ++ frames) =
      (front ++ (currentFrame frames).1, (currentFrame frames).2) := by
  rcases List.eq_nil_or_concat frames with rfl | ⟨rest, frame, rfl⟩
  · rw [List.append_nil, currentFrame_of_complete h, currentFrame_nil, List.append_nil]
  · rw [List.concat_eq_append, ← List.append_assoc, currentFrame_append, currentFrame_append]
    split_ifs
    · rw [List.append_assoc]
    · rfl

theorem InFrames.current {frames : List valtype} (h : InFrames frames) :
    ((currentFrame frames).1.flatten ++ (currentFrame frames).2 = frames.flatten) ∧
    (∀ frame ∈ (currentFrame frames).1,
      (frame ≠ [] ∧ MessagePart frame) ∧ MessageComplete frame) ∧
    MessagePart (currentFrame frames).2 ∧ ¬ MessageComplete (currentFrame frames).2 := by
  have hnil : MessagePart [] ∧ ¬ MessageComplete [] :=
    ⟨fun hle => absurd hle (by decide), not_complete_of_lt (by decide)⟩
  rcases List.eq_nil_or_concat frames with rfl | ⟨front, frame, rfl⟩
  · exact ⟨rfl, fun frame hframe => absurd hframe List.not_mem_nil, hnil⟩
  · rw [List.concat_eq_append] at h ⊢
    have hfront : ∀ other ∈ front, (other ≠ [] ∧ MessagePart other) ∧ MessageComplete other :=
      fun other hother => ⟨h.parts other (List.mem_append_left _ hother),
        h.complete other (by rwa [List.dropLast_concat])⟩
    have hlast := h.parts frame (List.mem_append_right _ List.mem_cons_self)
    rw [currentFrame_append]
    split_ifs with hcomplete
    · refine ⟨List.append_nil _, fun other hother => ?_, hnil⟩
      rcases List.mem_append.mp hother with hother | hother
      · exact hfront other hother
      · rw [List.mem_singleton.mp hother]
        exact ⟨hlast, hcomplete⟩
    · refine ⟨?_, hfront, hlast.2, hcomplete⟩
      rw [List.flatten_append, List.flatten_singleton]

theorem inFrames_append {front : List valtype} {frame : valtype}
    (hfront : ∀ other ∈ front, (other ≠ [] ∧ MessagePart other) ∧ MessageComplete other)
    (hframe : frame ≠ []) (hpart : MessagePart frame) : InFrames (front ++ [frame]) := by
  refine ⟨fun other hother => ?_, fun other hother => ?_⟩
  · rcases List.mem_append.mp hother with hother | hother
    · exact (hfront other hother).1
    · rw [List.mem_singleton.mp hother]
      exact ⟨hframe, hpart⟩
  · rw [List.dropLast_concat] at hother
    exact (hfront other hother).2

/-- A further byte is part of the frame, unless it is the last of a header that is
refused. -/
theorem messagePart_append {frame : valtype} (hpart : MessagePart frame)
    (hcomplete : ¬ MessageComplete frame) {b : UInt8} (hover : ¬ Oversized (frame ++ [b])) :
    MessagePart (frame ++ [b]) := by
  intro hle
  have hlength : (frame ++ [b]).length = frame.length + 1 := by simp
  by_cases h : 24 ≤ frame.length
  · rw [headerOf_append h, hlength]
    obtain ⟨hmax, hbound⟩ := hpart h
    unfold MessageComplete at hcomplete
    omega
  · unfold Oversized at hover
    omega

/-! ### The stream as a whole -/

theorem parse_append (s t : valtype) : ∀ frames : List valtype,
    parse (s ++ t) frames =
      if (parse s frames).1 then parse t (parse s frames).2 else parse s frames := by
  induction s with
  | nil => exact fun frames => (if_pos rfl).symm
  | cons b s ih =>
      intro frames
      rw [List.cons_append, parse, parse]
      split_ifs with hover
      · contradiction
      · rfl
      · rw [ih, if_pos ‹_›]
      · rw [ih, if_neg ‹_›]

/-- Complete frames in front do not matter. -/
theorem parse_append_front {front : List valtype} (h : ∀ frame ∈ front, MessageComplete frame)
    (stream : valtype) : ∀ frames : List valtype,
    parse stream (front ++ frames) =
      ((parse stream frames).1, front ++ (parse stream frames).2) := by
  induction stream with
  | nil => exact fun frames => rfl
  | cons b stream ih =>
      intro frames
      rw [parse, parse]
      rw [currentFrame_append_front h, List.append_assoc]
      split_ifs with hover
      · rfl
      · exact ih _

/-- What was cut into frames is the stream, up to the header that was refused. -/
theorem parse_spec (stream : valtype) : ∀ {frames : List valtype}, InFrames frames →
    ∃ taken, taken <+: stream ∧ (parse stream frames).2.flatten = frames.flatten ++ taken ∧
      ((parse stream frames).1 = true → taken = stream ∧ InFrames (parse stream frames).2) ∧
      ((parse stream frames).1 = false → taken ≠ [] ∧ ∃ front frame,
        (parse stream frames).2 = front ++ [frame] ∧ Oversized frame ∧
        ∀ other ∈ front, (other ≠ [] ∧ MessagePart other) ∧ MessageComplete other) := by
  induction stream with
  | nil =>
      intro frames h
      refine ⟨[], List.prefix_refl _, (List.append_nil _).symm, fun _ => ⟨rfl, h⟩, fun hfalse => ?_⟩
      cases hfalse
  | cons b stream ih =>
      intro frames h
      obtain ⟨hflatten, hfront, hpart, hcomplete⟩ := h.current
      have hnext : ((currentFrame frames).1 ++ [(currentFrame frames).2 ++ [b]]).flatten =
          frames.flatten ++ [b] := by
        rw [List.flatten_append, List.flatten_singleton, ← List.append_assoc, hflatten]
      rw [parse]
      split_ifs with hover
      · refine ⟨[b], ⟨stream, rfl⟩, hnext, fun htrue => ?_, fun _ => ⟨List.cons_ne_nil _ _,
          (currentFrame frames).1, (currentFrame frames).2 ++ [b], rfl, hover, hfront⟩⟩
        cases htrue
      · obtain ⟨taken, hprefix, htaken, htrue, hfalse⟩ := ih
          (inFrames_append hfront (List.append_ne_nil_of_right_ne_nil _ (List.cons_ne_nil b []))
            (messagePart_append hpart hcomplete hover))
        refine ⟨b :: taken, List.cons_prefix_cons.mpr ⟨rfl, hprefix⟩, ?_, fun hok => ?_,
          fun hno => ⟨List.cons_ne_nil _ _, (hfalse hno).2⟩⟩
        · rw [htaken, hnext, List.append_assoc, List.singleton_append]
        · obtain ⟨rfl, hframed⟩ := htrue hok
          exact ⟨rfl, hframed⟩

/-! ### ReceiveMsgBytes -/

theorem currentMessage_map {frames : List valtype} (h : InFrames frames) :
    currentMessage MessageStart (frames.map (messageOf MessageStart)) =
      ((currentFrame frames).1.map (messageOf MessageStart),
        messageOf MessageStart (currentFrame frames).2) := by
  unfold currentMessage
  rcases List.eq_nil_or_concat frames with rfl | ⟨front, frame, rfl⟩
  · rfl
  · rw [List.concat_eq_append] at h ⊢
    have hpart := (h.parts frame (List.mem_append_right _ List.mem_cons_self)).2
    rw [List.map_append, List.map_singleton, List.getLast?_concat, List.dropLast_concat,
      currentFrame_append]
    dsimp only
    by_cases hcomplete : MessageComplete frame
    · rw [if_pos hcomplete, if_pos ((complete_messageOf hpart).mpr hcomplete), List.map_append]
      rfl
    · rw [if_neg hcomplete, if_neg (mt (complete_messageOf hpart).mp hcomplete)]

/-- Several bytes of the same frame at once. -/
theorem parse_piece (rest : valtype) : ∀ (piece : valtype) {front frames : List valtype}
    {frame : valtype}, piece ≠ [] → currentFrame frames = (front, frame) →
    (∀ p, p <+: piece → p ≠ [] → p ≠ piece →
      ¬ MessageComplete (frame ++ p) ∧ ¬ Oversized (frame ++ p)) →
    parse (piece ++ rest) frames =
      if Oversized (frame ++ piece) then (false, front ++ [frame ++ piece])
      else parse rest (front ++ [frame ++ piece])
  | [], _, _, _, hpiece, _, _ => absurd rfl hpiece
  | [b], front, frames, frame, _, hcurrent, _ => by
      rw [List.singleton_append, parse, hcurrent]
  | b :: c :: piece, front, frames, frame, _, hcurrent, hinside => by
      obtain ⟨hcomplete, hover⟩ := hinside [b] ⟨c :: piece, rfl⟩ (List.cons_ne_nil _ _)
        (fun hsame => by cases hsame)
      have hnext : currentFrame (front ++ [frame ++ [b]]) = (front, frame ++ [b]) := by
        rw [currentFrame_append, if_neg hcomplete]
      have hlater : ∀ p, p <+: c :: piece → p ≠ [] → p ≠ c :: piece →
          ¬ MessageComplete (frame ++ [b] ++ p) ∧ ¬ Oversized (frame ++ [b] ++ p) := by
        intro p hp hne hall
        have h := hinside (b :: p) (List.cons_prefix_cons.mpr ⟨rfl, hp⟩) (List.cons_ne_nil _ _)
          (fun hsame => hall (List.cons.inj hsame).2)
        rwa [List.append_assoc, List.singleton_append]
      have hrest := parse_piece rest (c :: piece) (List.cons_ne_nil _ _) hnext hlater
      rw [List.append_assoc, List.singleton_append] at hrest
      rw [List.cons_append, parse, hcurrent]
      exact (if_neg hover).trans hrest

theorem memcpy_fill (bs bytes : valtype) (n : ℕ) :
    memcpy (bs ++ List.replicate n 0) bs.length bytes =
      bs ++ bytes ++ List.replicate (n - bytes.length) 0 := by
  unfold memcpy
  rw [List.take_left, ← List.drop_drop, List.drop_left, List.drop_replicate]

theorem length_append_take {frame pch : valtype} {k n : ℕ} (hn : n = min k pch.length) :
    (frame ++ pch.take n).length = frame.length + n := by
  rw [List.length_append, List.length_take]
  omega

/-- `readHeader` adds to the header what is missing and there. -/
theorem readHeader_spec {frame pch : valtype} (h : frame.length < 24) {n : ℕ}
    (hn : n = min (24 - frame.length) pch.length) :
    (messageOf MessageStart frame).readHeader pch =
      (messageOf MessageStart (frame ++ pch.take n),
        if Oversized (frame ++ pch.take n) then none else some n) := by
  have htake : (pch.take n).length = n := by
    rw [List.length_take]
    omega
  have hlength : (frame ++ pch.take n).length = frame.length + n := length_append_take hn
  have hbuffer : memcpy (frame ++ List.replicate (24 - frame.length) 0) frame.length
      (pch.take n) = frame ++ pch.take n ++ List.replicate (24 - (frame.length + n)) 0 := by
    rw [memcpy_fill, htake, Nat.sub_sub]
  unfold CNetMessage.readHeader
  rw [messageOf_header h]
  dsimp only
  rw [← hn, hbuffer]
  by_cases hshort : frame.length + n < 24
  · have hover : ¬ Oversized (frame ++ pch.take n) := by
      unfold Oversized
      omega
    rw [if_pos hshort, if_neg hover, messageOf_header (hlength.trans_lt hshort), hlength]
  · have hfull : (frame ++ pch.take n).length = 24 := by omega
    have hend : 24 - (frame.length + n) = 0 := by omega
    rw [if_neg hshort, hend, List.replicate_zero, List.append_nil, unserialize_eq hfull.ge]
    dsimp only
    by_cases hmax : MAX_SIZE < (headerOf (frame ++ pch.take n)).nMessageSize
    · have hpos : frame.length + n = 24 := by omega
      rw [if_pos hmax, if_pos ⟨hfull, hmax⟩, hpos]
      unfold messageOf
      rw [if_neg (by omega), if_pos hmax]
      rfl
    · have hpos : frame.length + n = 24 := by omega
      have hdrop : (frame ++ pch.take n).drop 24 = [] := List.drop_eq_nil_of_le hfull.le
      rw [if_neg hmax, if_neg fun hover => hmax hover.2, hpos]
      unfold messageOf
      rw [if_neg (by omega), if_neg hmax, hdrop, hfull]
      rfl

/-- `readData` adds to the payload what is missing and there. -/
theorem readData_spec {frame pch : valtype} (h : 24 ≤ frame.length) (hpart : MessagePart frame)
    {n : ℕ} (hn : n = min ((headerOf frame).nMessageSize - (frame.length - 24)) pch.length) :
    (messageOf MessageStart frame).readData pch =
      (messageOf MessageStart (frame ++ pch.take n), some n) := by
  have htake : (pch.take n).length = n := by
    rw [List.length_take]
    omega
  have hlength : (frame ++ pch.take n).length = frame.length + n := length_append_take hn
  obtain ⟨hmax, hbound⟩ := hpart h
  have hlater : MessagePart (frame ++ pch.take n) := by
    intro _
    rw [headerOf_append h, hlength]
    omega
  have hpos : frame.length - 24 = (frame.drop 24).length := List.length_drop.symm
  have hdrop : (frame ++ pch.take n).drop 24 = frame.drop 24 ++ pch.take n :=
    List.drop_append_of_le_length h
  unfold CNetMessage.readData
  rw [messageOf_data h hpart, messageOf_data (hlength ▸ h.trans (Nat.le_add_right _ _)) hlater,
    headerOf_append h, hlength, hdrop]
  dsimp only
  rw [← hn]
  refine Prod.ext (CNetMessage.mk.injEq .. |>.mpr ⟨rfl, rfl, rfl, rfl, ?_, ?_⟩) rfl
  · rw [hpos, memcpy_fill, htake, ← hpos]
    congr 2
    omega
  · omega

/-- One call of `readHeader` or `readData`: it takes at least one byte, and does not
go beyond the end of the header or of the message. -/
theorem exists_piece {frame : valtype} (hpart : MessagePart frame)
    (hcomplete : ¬ MessageComplete frame) (b : UInt8) (pch : valtype) :
    ∃ n, 0 < n ∧ n ≤ (b :: pch).length ∧
      (if (messageOf MessageStart frame).in_data then
          (messageOf MessageStart frame).readData (b :: pch)
        else (messageOf MessageStart frame).readHeader (b :: pch)) =
        (messageOf MessageStart (frame ++ (b :: pch).take n),
          if Oversized (frame ++ (b :: pch).take n) then none else some n) ∧
      ∀ p, p <+: (b :: pch).take n → p ≠ [] → p ≠ (b :: pch).take n →
        ¬ MessageComplete (frame ++ p) ∧ ¬ Oversized (frame ++ p) := by
  have hless : ∀ n, ∀ p, p <+: (b :: pch).take n → p ≠ (b :: pch).take n → p.length < n := by
    intro n p hp hne
    have hshort : p.length < ((b :: pch).take n).length :=
      lt_of_le_of_ne hp.length_le fun hsame => hne (hp.eq_of_length hsame)
    rw [List.length_take] at hshort
    omega
  have hchunk : 0 < (b :: pch).length := Nat.succ_pos _
  by_cases h : frame.length < 24
  · refine ⟨min (24 - frame.length) (b :: pch).length, by omega, by omega, ?_,
      fun p hp _ hall => ?_⟩
    · have hdata : (messageOf MessageStart frame).in_data = false := by
        rw [messageOf_header h]
        rfl
      rw [hdata]
      exact readHeader_spec h rfl
    · have hp := hless _ p hp hall
      have hlength : (frame ++ p).length < 24 := by
        rw [List.length_append]
        omega
      exact ⟨not_complete_of_lt hlength, fun hover => absurd hover.1 (Nat.ne_of_lt hlength)⟩
  · have hle : 24 ≤ frame.length := Nat.le_of_not_lt h
    obtain ⟨hmax, hbound⟩ := hpart hle
    have hover : ∀ more, ¬ Oversized (frame ++ more) := by
      rintro more ⟨-, hmore⟩
      rw [headerOf_append hle] at hmore
      exact absurd hmax (Nat.not_le.mpr hmore)
    unfold MessageComplete at hcomplete
    refine ⟨min ((headerOf frame).nMessageSize - (frame.length - 24)) (b :: pch).length,
      by omega, by omega, ?_, fun p hp hne hall => ⟨?_, hover p⟩⟩
    · have hdata : (messageOf MessageStart frame).in_data = true := by
        rw [messageOf_data hle hpart]
      rw [hdata, if_neg (hover _)]
      exact readData_spec hle hpart rfl
    · have hp := hless _ p hp hall
      unfold MessageComplete
      rw [headerOf_append hle, List.length_append]
      omega

variable (MessageStart) in
/-- `ReceiveMsgBytes` goes over the whole of a chunk, and does with it what cutting
it byte by byte does. -/
theorem receiveMsgBytes_spec : ∀ {fuel : ℕ} {pch : valtype} {frames : List valtype},
    InFrames frames → pch.length ≤ fuel →
    ReceiveMsgBytes MessageStart fuel pch (frames.map (messageOf MessageStart)) =
      some ((parse pch frames).1, (parse pch frames).2.map (messageOf MessageStart)) := by
  intro fuel
  induction fuel with
  | zero =>
      intro pch frames _ hlength
      obtain rfl := List.eq_nil_of_length_eq_zero (Nat.le_zero.mp hlength)
      rfl
  | succ fuel ih =>
      intro pch frames hframed hlength
      cases pch with
      | nil => rfl
      | cons b pch =>
          obtain ⟨-, hfront, hpart, hcomplete⟩ := hframed.current
          set front := (currentFrame frames).1 with hfrontEq
          set frame := (currentFrame frames).2 with hframeEq
          have hcurrent : currentFrame frames = (front, frame) := rfl
          -- How much of the chunk belongs to the current frame.
          obtain ⟨n, hpos, hn, hstep, hinside⟩ :=
            @exists_piece MessageStart frame hpart hcomplete b pch
          have hpiece : (b :: pch).take n ≠ [] := by
            intro hnil
            have hzero := congrArg List.length hnil
            rw [List.length_take, List.length_nil] at hzero
            omega
          have hsplit := parse_piece ((b :: pch).drop n) ((b :: pch).take n) hpiece hcurrent
            hinside
          rw [List.take_append_drop] at hsplit
          rw [ReceiveMsgBytes, currentMessage_map hframed]
          dsimp only
          rw [← hfrontEq, ← hframeEq, hstep, hsplit]
          split_ifs with hover
          · rw [List.map_append, List.map_singleton]
          · have hnext : InFrames (front ++ [frame ++ (b :: pch).take n]) := by
              have hparse := parse_piece [] ((b :: pch).take n) hpiece hcurrent hinside
              rw [List.append_nil, if_neg hover, parse] at hparse
              obtain ⟨taken, -, -, htrue, -⟩ := parse_spec ((b :: pch).take n) hframed
              rw [hparse] at htrue
              exact (htrue rfl).2
            have hshorter : ((b :: pch).drop n).length ≤ fuel := by
              rw [List.length_drop]
              omega
            have hlater := ih hnext hshorter
            rw [List.map_append, List.map_singleton] at hlater
            exact hlater

/-! ### Whole messages -/

/-- A message as it stands in a stream: in full, and not too long. -/
def WholeMessage (frame : valtype) : Prop :=
  MessageComplete frame ∧ (headerOf frame).nMessageSize ≤ MAX_SIZE

theorem WholeMessage.part {frame : valtype} (h : WholeMessage frame) : MessagePart frame :=
  fun _ => ⟨h.2, Nat.le_of_eq h.1⟩

/-- Bytes up to a header that is too long are cut there. -/
theorem parse_header {frames : List valtype} (hframes : ∀ frame ∈ frames, MessageComplete frame)
    {header : valtype} (hlength : header.length = 24) (rest : valtype) :
    parse (header ++ rest) frames =
      if Oversized header then (false, frames ++ [header])
      else parse rest (frames ++ [header]) := by
  have hne : header ≠ [] := by
    rintro rfl
    cases hlength
  have hpiece := parse_piece rest header hne (currentFrame_of_complete hframes) (by
    intro p hp _ hall
    have hshort : p.length < 24 := by
      rw [← hlength]
      exact lt_of_le_of_ne hp.length_le fun hsame => hall (hp.eq_of_length hsame)
    rw [List.nil_append]
    exact ⟨not_complete_of_lt hshort, fun hover => absurd hover.1 (Nat.ne_of_lt hshort)⟩)
  rwa [List.nil_append] at hpiece

theorem parse_whole {frames : List valtype} (hframes : ∀ frame ∈ frames, MessageComplete frame)
    {frame : valtype} (h : WholeMessage frame) (rest : valtype) :
    parse (frame ++ rest) frames = parse rest (frames ++ [frame]) := by
  have hle := h.1.le
  have hlength : (frame.take 24).length = 24 := List.length_take_of_le hle
  have hover : ∀ more, ¬ Oversized (frame.take 24 ++ more) := by
    rintro more ⟨-, hmore⟩
    rw [headerOf_append hlength.ge, take_headerOf] at hmore
    exact absurd h.2 (Nat.not_le.mpr hmore)
  have hheader := parse_header hframes hlength (frame.drop 24 ++ rest)
  rw [← List.append_assoc, List.take_append_drop] at hheader
  rw [hheader, if_neg (List.append_nil (frame.take 24) ▸ hover [])]
  by_cases hdata : frame.drop 24 = []
  · have hall : frame.take 24 = frame := by
      rw [← List.append_nil (frame.take 24), ← hdata, List.take_append_drop]
    rw [hdata, hall, List.nil_append]
  · have hmore : 24 < frame.length := by
      by_contra hnot
      exact hdata (List.drop_eq_nil_of_le (Nat.le_of_not_lt hnot))
    have hnot : ∀ more, (frame.take 24 ++ more).length < frame.length →
        ¬ MessageComplete (frame.take 24 ++ more) := by
      intro more hshort hcomplete
      unfold MessageComplete at hcomplete
      rw [headerOf_append hlength.ge, take_headerOf, ← show frame.length = _ from h.1] at hcomplete
      omega
    have hcurrent : currentFrame (frames ++ [frame.take 24]) = (frames, frame.take 24) := by
      rw [currentFrame_append, if_neg]
      have hpart := hnot []
      rw [List.append_nil, hlength] at hpart
      exact hpart hmore
    rw [parse_piece rest (frame.drop 24) hdata hcurrent, List.take_append_drop, if_neg]
    · exact List.take_append_drop 24 frame ▸ hover (frame.drop 24)
    · intro p hp _ hall
      refine ⟨hnot p ?_, hover p⟩
      have hshort : p.length < (frame.drop 24).length :=
        lt_of_le_of_ne hp.length_le fun hsame => hall (hp.eq_of_length hsame)
      rw [List.length_drop] at hshort
      rw [List.length_append, hlength]
      omega

theorem parse_flatten (rest : valtype) : ∀ {messages frames : List valtype},
    (∀ frame ∈ frames, MessageComplete frame) → (∀ frame ∈ messages, WholeMessage frame) →
    parse (messages.flatten ++ rest) frames = parse rest (frames ++ messages) := by
  intro messages
  induction messages with
  | nil =>
      intro frames _ _
      rw [List.flatten_nil, List.nil_append, List.append_nil]
  | cons frame messages ih =>
      intro frames hframes hmessages
      obtain ⟨hframe, hrest⟩ := List.forall_mem_cons.mp hmessages
      rw [List.flatten_cons, List.append_assoc, parse_whole hframes hframe, ih _ hrest,
        List.append_assoc, List.singleton_append]
      intro other hother
      rcases List.mem_append.mp hother with hother | hother
      · exact hframes other hother
      · rw [List.mem_singleton.mp hother]
        exact hframe.1

/-- The last byte of a stream is that of the header of a message that is too long. -/
def EndsOversized (stream : valtype) : Prop :=
  ∃ (messages : List valtype) (header : valtype), stream = messages.flatten ++ header ∧
    (∀ frame ∈ messages, WholeMessage frame) ∧ Oversized header

theorem inFrames_nil : InFrames [] :=
  ⟨fun _ h => absurd h List.not_mem_nil, fun _ h => absurd h List.not_mem_nil⟩

/-- A chunk is refused if and only if the last byte of such a header is in it. -/
theorem parse_refused_iff {stream : valtype} (hstream : (parse stream []).1 = true)
    (chunk : valtype) :
    (parse chunk (parse stream []).2).1 = false ↔
      ∃ p, p <+: chunk ∧ p ≠ [] ∧ EndsOversized (stream ++ p) := by
  obtain ⟨taken, -, hflatten, htrue, -⟩ := parse_spec stream inFrames_nil
  obtain ⟨rfl, hframed⟩ := htrue hstream
  rw [List.flatten_nil, List.nil_append] at hflatten
  constructor
  · intro hrefused
    obtain ⟨p, hp, hpieces, -, hfalse⟩ := parse_spec chunk hframed
    obtain ⟨hne, front, header, hresult, hover, hfront⟩ := hfalse hrefused
    refine ⟨p, hp, hne, front, header, ?_, fun frame hframe => ?_, hover⟩
    · rw [← hflatten, ← hpieces, hresult, List.flatten_append, List.flatten_singleton]
    · obtain ⟨⟨-, hpart⟩, hcomplete⟩ := hfront frame hframe
      exact ⟨hcomplete, (hpart hcomplete.le).1⟩
  · rintro ⟨p, ⟨rest, rfl⟩, -, messages, header, hsplit, hwhole, hover⟩
    have hboth : parse (taken ++ p) [] = (false, messages ++ [header]) := by
      have hheader := parse_header (fun frame hframe => (hwhole frame hframe).1) hover.1 []
      rw [List.append_nil, if_pos hover] at hheader
      rw [hsplit, parse_flatten header (fun _ h => absurd h List.not_mem_nil) hwhole]
      exact hheader
    rw [parse_append, if_pos hstream] at hboth
    rw [parse_append, hboth]
    rfl

/-! ### ProcessMessages -/

variable (MessageStart) in
/-- Only complete messages are erased, from the front, and what is given of them is what
each of them gives. -/
theorem processMessages_spec (crypto : Crypto) (fFull : Bool) (vRecvMsg : List CNetMessage) :
    (ProcessMessages crypto MessageStart fFull vRecvMsg).erased ++
        (ProcessMessages crypto MessageStart fFull vRecvMsg).vRecvMsg = vRecvMsg ∧
    (∀ msg ∈ (ProcessMessages crypto MessageStart fFull vRecvMsg).erased,
      msg.complete = true) ∧
    (ProcessMessages crypto MessageStart fFull vRecvMsg).given.toList =
      (ProcessMessages crypto MessageStart fFull vRecvMsg).erased.filterMap
        (messageGiven crypto MessageStart) := by
  induction vRecvMsg with
  | nil => exact ⟨rfl, fun msg h => absurd h List.not_mem_nil, rfl⟩
  | cons msg rest ih =>
      rw [ProcessMessages]
      split_ifs with hstop hstart
      · exact ⟨rfl, fun msg h => absurd h List.not_mem_nil, rfl⟩
      · have hcomplete : msg.complete = true := by
          cases hmsg : msg.complete with
          | true => rfl
          | false => simp [hmsg] at hstop
        have hnone : messageGiven crypto MessageStart msg = none := by
          unfold messageGiven
          rw [if_pos]
          simp [CMessageHeader.IsValid, hstart]
        refine ⟨rfl, fun other hother => ?_, ?_⟩
        · rw [List.mem_singleton.mp hother]
          exact hcomplete
        · simp [hnone]
      · have hcomplete : msg.complete = true := by
          cases hmsg : msg.complete with
          | true => rfl
          | false => simp [hmsg] at hstop
        cases hgiven : messageGiven crypto MessageStart msg with
        | none =>
            obtain ⟨hall, herased, hpairs⟩ := ih
            refine ⟨congrArg (msg :: ·) hall,
              List.forall_mem_cons.mpr ⟨hcomplete, herased⟩, ?_⟩
            dsimp only
            rw [List.filterMap_cons_none hgiven]
            exact hpairs
        | some given =>
            refine ⟨rfl, fun other hother => ?_, ?_⟩
            · rw [List.mem_singleton.mp hother]
              exact hcomplete
            · simp [hgiven]

/-! ### Receiving in parts -/

/-- What has been received is what the stream is cut into, whatever was erased in the
meantime. -/
structure Received (crypto : Crypto) (MessageStart : valtype) (s : ReceiveState)
    (done rest : List valtype) : Prop where
  erased : s.erased = done.map (messageOf MessageStart)
  queue : s.vRecvMsg = rest.map (messageOf MessageStart)
  whole : ∀ frame ∈ done, WholeMessage frame
  stream : parse s.stream [] = (!s.fDisconnect, done ++ rest)
  given : s.given = s.erased.filterMap (messageGiven crypto MessageStart)

theorem received_start (crypto : Crypto) : Received crypto MessageStart .start [] [] :=
  ⟨rfl, rfl, fun _ h => absurd h List.not_mem_nil, rfl, rfl⟩

theorem Received.framed {crypto : Crypto} {s : ReceiveState} {done rest : List valtype}
    (h : Received crypto MessageStart s done rest) (hopen : s.fDisconnect = false) :
    InFrames rest := by
  obtain ⟨taken, -, -, htrue, -⟩ := parse_spec s.stream inFrames_nil
  have hparse := h.stream
  rw [hopen, Bool.not_false] at hparse
  rw [hparse] at htrue
  obtain ⟨-, hparts, hcomplete⟩ := htrue rfl
  refine ⟨fun frame hframe => hparts frame (List.mem_append_right _ hframe),
    fun frame hframe => hcomplete frame ?_⟩
  have hne : rest ≠ [] := by
    rintro rfl
    cases hframe
  rw [List.dropLast_append_of_ne_nil hne]
  exact List.mem_append_right _ hframe

/-- A chunk goes to the frames that are left. -/
theorem Received.receive {crypto : Crypto} {s : ReceiveState} {done rest : List valtype}
    (h : Received crypto MessageStart s done rest) {fuel : ℕ} {pch : valtype}
    (hfuel : pch.length ≤ fuel) :
    ∃ s' rest', (ReceiveCall.ReceiveMsgBytes pch).run crypto MessageStart fuel s = some s' ∧
      s'.stream = s.stream ++ pch ∧ Received crypto MessageStart s' done rest' := by
  have hsplit := parse_append s.stream pch []
  rw [h.stream] at hsplit
  unfold ReceiveCall.run
  cases hopen : s.fDisconnect with
  | true =>
      rw [hopen] at hsplit
      refine ⟨_, rest, if_pos rfl, rfl, h.erased, h.queue, h.whole, ?_, h.given⟩
      exact hsplit
  | false =>
      rw [hopen, Bool.not_false] at hsplit
      dsimp only at hsplit
      rw [if_pos rfl, parse_append_front fun frame hframe => (h.whole frame hframe).1] at hsplit
      dsimp only
      rw [if_neg Bool.false_ne_true, h.queue,
        receiveMsgBytes_spec MessageStart (h.framed hopen) hfuel, Option.map_some]
      refine ⟨_, (parse pch rest).2, rfl, rfl, h.erased, rfl, h.whole, ?_, h.given⟩
      dsimp only
      rw [hsplit, Bool.not_not]

/-- `ProcessMessages` erases whole messages from the front. -/
theorem Received.process {crypto : Crypto} {s : ReceiveState} {done rest : List valtype}
    (h : Received crypto MessageStart s done rest) (fuel : ℕ) (fFull : Bool) :
    ∃ s' done' rest',
      (ReceiveCall.ProcessMessages fFull).run crypto MessageStart fuel s = some s' ∧
      s'.stream = s.stream ∧ Received crypto MessageStart s' done' rest' := by
  unfold ReceiveCall.run
  cases hopen : s.fDisconnect with
  | true => exact ⟨s, done, rest, if_pos rfl, rfl, h⟩
  | false =>
      obtain ⟨hall, hcomplete, hgiven⟩ :=
        processMessages_spec MessageStart crypto fFull s.vRecvMsg
      rw [h.queue] at hall
      obtain ⟨gone, left, hsplit, hgone, hleft⟩ := List.map_eq_append_iff.mp hall.symm
      have hframed := h.framed hopen
      have hwhole : ∀ frame ∈ gone, WholeMessage frame := by
        intro frame hframe
        have hpart := (hframed.parts frame (hsplit ▸ List.mem_append_left _ hframe)).2
        have hmsg := hcomplete (messageOf MessageStart frame) (by
          rw [h.queue, ← hgone]
          exact List.mem_map_of_mem hframe)
        have hframeComplete := (complete_messageOf hpart).mp hmsg
        exact ⟨hframeComplete, (hpart hframeComplete.le).1⟩
      dsimp only
      rw [if_neg Bool.false_ne_true]
      refine ⟨_, done ++ gone, left, rfl, rfl, ?_, ?_, ?_, ?_, ?_⟩
      · dsimp only
        rw [h.erased, h.queue, ← hgone, List.map_append]
      · dsimp only
        rw [h.queue, hleft]
      · intro frame hframe
        rcases List.mem_append.mp hframe with hframe | hframe
        · exact h.whole frame hframe
        · exact hwhole frame hframe
      · dsimp only
        rw [h.stream, hsplit, List.append_assoc, hopen]
      · dsimp only
        rw [h.given, hgiven, List.filterMap_append]

end Receive

/-! ### Sending in parts -/

/-- The bytes that were taken and those that are left are the queued messages, and the
counters are right. -/
structure Queued (frames : List valtype) (s : SendState) : Prop where
  bytes : s.wire ++ s.vSendMsg.flatten.drop s.nSendOffset = frames.flatten
  size : s.nSendSize = s.vSendMsg.flatten.length
  offset : ∀ data rest, s.vSendMsg = data :: rest → s.nSendOffset < data.length
  empty : s.vSendMsg = [] → s.nSendOffset = 0
  data : ∀ data ∈ s.vSendMsg, data ≠ []

theorem queued_start : Queued [] .start :=
  ⟨rfl, rfl, fun _ _ h => absurd h (List.cons_ne_nil _ _).symm, fun _ => rfl,
    fun _ h => absurd h List.not_mem_nil⟩

/-- No assertion of the loop fails, and it goes on sending where it stopped. -/
theorem sendLoop_spec {frames : List valtype} : ∀ (queue : List valtype) (sends : List ℕ)
    {s : SendState}, Queued frames { s with vSendMsg := queue } →
    ∃ s', SendState.sendLoop sends queue s = some s' ∧ Queued frames s' ∧ s.wire <+: s'.wire
  | [], sends, s, h => by
      refine ⟨{ s with vSendMsg := [] }, ?_, h, List.prefix_refl _⟩
      cases sends <;> rfl
  | data :: rest, sends, s, h => by
      have hoffset : s.nSendOffset < data.length := h.offset data rest rfl
      cases sends with
      | nil =>
          rw [SendState.sendLoop, if_neg (not_not.mpr hoffset)]
          exact ⟨_, rfl, h, List.prefix_refl _⟩
      | cons most sends =>
          rw [SendState.sendLoop, if_neg (not_not.mpr hoffset)]
          dsimp only
          by_cases hzero : min most (data.length - s.nSendOffset) = 0
          · rw [if_pos hzero]
            exact ⟨_, rfl, h, List.prefix_refl _⟩
          rw [if_neg hzero]
          generalize hn : min most (data.length - s.nSendOffset) = n at hzero ⊢
          have hle : s.nSendOffset + n ≤ data.length := by omega
          have hbytes := h.bytes
          dsimp only at hbytes
          rw [List.flatten_cons, List.drop_append_of_le_length hoffset.le] at hbytes
          have hsplit : data.drop s.nSendOffset =
              (data.drop s.nSendOffset).take n ++ data.drop (s.nSendOffset + n) := by
            rw [← List.drop_drop, List.take_append_drop]
          rw [hsplit] at hbytes
          by_cases hall : s.nSendOffset + n = data.length
          · rw [if_pos hall]
            let sent : SendState := { s with
              wire := s.wire ++ (data.drop s.nSendOffset).take n
              nSendOffset := 0
              nSendSize := s.nSendSize - data.length }
            have hnext : Queued frames { sent with vSendMsg := rest } := by
              refine ⟨?_, ?_, fun other later hqueue => ?_, fun _ => rfl,
                fun other hother => h.data other (List.mem_cons_of_mem _ hother)⟩
              · dsimp only [sent]
                rw [List.drop_zero, ← hbytes, hall, List.drop_length, List.append_nil,
                  List.append_assoc]
              · have hsize := h.size
                dsimp only [sent] at hsize ⊢
                rw [List.flatten_cons, List.length_append] at hsize
                omega
              · exact List.length_pos_of_ne_nil
                  (h.data other (by rw [show rest = other :: later from hqueue]; simp))
            obtain ⟨s', hrun, hqueued, hwire⟩ := sendLoop_spec rest sends (s := sent) hnext
            exact ⟨s', hrun, hqueued, (List.prefix_append _ _).trans hwire⟩
          · rw [if_neg hall]
            refine ⟨_, rfl, ⟨?_, h.size, fun other later hqueue => ?_, fun hnil => ?_, h.data⟩,
              List.prefix_append _ _⟩
            · dsimp only
              rw [List.flatten_cons, List.drop_append_of_le_length hle, ← hbytes,
                List.append_assoc, List.append_assoc]
            · obtain ⟨rfl, -⟩ := List.cons.inj hqueue
              exact lt_of_le_of_ne hle hall
            · cases hnil

/-- No assertion of `SocketSendData` fails. -/
theorem socketSendData_spec {frames : List valtype} {s : SendState} (h : Queued frames s)
    (sends : List ℕ) :
    ∃ s', s.SocketSendData sends = some s' ∧ Queued frames s' ∧ s.wire <+: s'.wire := by
  obtain ⟨s', hrun, hqueued, hwire⟩ := sendLoop_spec s.vSendMsg sends h
  refine ⟨s', ?_, hqueued, hwire⟩
  unfold SendState.SocketSendData
  rw [hrun, Option.bind_some, if_neg]
  rintro ⟨hempty, hcounters⟩
  refine hcounters ⟨hqueued.empty hempty, ?_⟩
  rw [hqueued.size, hempty]
  rfl

theorem framed_ne_nil (crypto : Crypto) (MessageStart pszCommand payload : valtype) :
    SendState.framed crypto MessageStart pszCommand payload ≠ [] := by
  intro hnil
  have hlength := congrArg List.length hnil
  simp only [SendState.framed, memcpy, List.length_append, leBytes_length,
    List.length_nil] at hlength
  omega

theorem pushMessage_spec (crypto : Crypto) (MessageStart : valtype) {frames : List valtype}
    {s : SendState} (h : Queued frames s) (pszCommand payload : valtype) (sends : List ℕ) :
    ∃ s', s.PushMessage crypto MessageStart pszCommand payload sends = some s' ∧
      Queued (frames ++ [SendState.framed crypto MessageStart pszCommand payload]) s' ∧
      s.wire <+: s'.wire := by
  have hdata := framed_ne_nil crypto MessageStart pszCommand payload
  unfold SendState.PushMessage
  generalize SendState.framed crypto MessageStart pszCommand payload = data at hdata ⊢
  have hpushed : Queued (frames ++ [data]) { s with
      vSendMsg := s.vSendMsg ++ [data]
      nSendSize := s.nSendSize + data.length } := by
    have hoffset : s.nSendOffset ≤ s.vSendMsg.flatten.length := by
      cases hqueue : s.vSendMsg with
      | nil => exact (h.empty hqueue).le
      | cons first rest =>
          rw [List.flatten_cons, List.length_append]
          exact (h.offset first rest hqueue).le.trans (Nat.le_add_right _ _)
    refine ⟨?_, ?_, fun other later hqueue => ?_, fun hnil => ?_, fun other hother => ?_⟩
    · dsimp only
      rw [List.flatten_append, List.flatten_append, List.flatten_singleton,
        List.drop_append_of_le_length hoffset, ← List.append_assoc, h.bytes]
    · dsimp only
      rw [List.flatten_append, List.flatten_singleton, List.length_append, h.size]
      exact (Int.natCast_add _ _).symm
    · dsimp only at hqueue ⊢
      cases hold : s.vSendMsg with
      | nil =>
          rw [hold] at hqueue
          obtain ⟨rfl, -⟩ := List.cons.inj hqueue
          rw [h.empty hold]
          exact List.length_pos_of_ne_nil hdata
      | cons first rest =>
          rw [hold] at hqueue
          obtain ⟨rfl, -⟩ := List.cons.inj hqueue
          exact h.offset first rest hold
    · exact absurd hnil (List.append_ne_nil_of_right_ne_nil _ (List.cons_ne_nil data []))
    · rcases List.mem_append.mp hother with hother | hother
      · exact h.data other hother
      · rw [List.mem_singleton.mp hother]
        exact hdata
  dsimp only
  split_ifs with hempty
  · exact socketSendData_spec hpushed sends
  · exact ⟨_, rfl, hpushed, List.prefix_refl _⟩

/-! ### What a message is framed as -/

theorem memcpy_middle {front old bytes rest : valtype} {pos : ℕ} (hpos : front.length = pos)
    (hlength : old.length = bytes.length) :
    memcpy (front ++ (old ++ rest)) pos bytes = front ++ (bytes ++ rest) := by
  subst hpos
  unfold memcpy
  rw [List.take_left, ← List.drop_drop, List.drop_left, ← hlength, List.drop_left,
    List.append_assoc]

/-- The command as it stands in a header. -/
def paddedCommand (pszCommand : valtype) : valtype :=
  (pszCommand ++ List.replicate 12 0).take 12

theorem length_paddedCommand (pszCommand : valtype) : (paddedCommand pszCommand).length = 12 := by
  unfold paddedCommand
  rw [List.length_take, List.length_append, List.length_replicate]
  omega

theorem framed_eq (crypto : Crypto) {MessageStart : valtype} (hstart : MessageStart.length = 4)
    (pszCommand payload : valtype) :
    SendState.framed crypto MessageStart pszCommand payload =
      MessageStart ++ (paddedCommand pszCommand ++ (leBytes 4 (uint32 payload.length) ++
        (leBytes 4 (crypto.Hash payload % 2 ^ 32) ++ payload))) := by
  have hcommand := length_paddedCommand pszCommand
  have hserialize : (CMessageHeader.make MessageStart pszCommand 0).serialize ++ payload =
      (MessageStart ++ paddedCommand pszCommand) ++
        (leBytes 4 0 ++ (leBytes 4 0 ++ payload)) := by
    unfold CMessageHeader.serialize CMessageHeader.make
    simp only [List.append_assoc]
    rfl
  have hsize : ((MessageStart ++ paddedCommand pszCommand) ++
      (leBytes 4 0 ++ (leBytes 4 0 ++ payload))).length - CMessageHeader.HEADER_SIZE =
        payload.length := by
    simp only [List.length_append, leBytes_length, hstart, hcommand, CMessageHeader.HEADER_SIZE]
    omega
  have hfront : (MessageStart ++ paddedCommand pszCommand).length =
      CMessageHeader.MESSAGE_SIZE_OFFSET := by
    rw [List.length_append, hstart, hcommand]
    rfl
  unfold SendState.framed
  dsimp only
  rw [hserialize, hsize, memcpy_middle hfront (by rw [leBytes_length, leBytes_length])]
  have hpayload : ((MessageStart ++ paddedCommand pszCommand) ++
      (leBytes 4 (uint32 payload.length) ++ (leBytes 4 0 ++ payload))).drop
        CMessageHeader.HEADER_SIZE = payload := by
    rw [← List.append_assoc, ← List.append_assoc]
    refine List.drop_left' ?_
    simp only [List.length_append, leBytes_length, hstart, hcommand, CMessageHeader.HEADER_SIZE]
  rw [hpayload, ← List.append_assoc (MessageStart ++ _), memcpy_middle _
    (by rw [leBytes_length, leBytes_length])]
  · simp only [List.append_assoc]
  · simp only [List.length_append, leBytes_length, hstart, hcommand,
      CMessageHeader.CHECKSUM_OFFSET]

end Ziftrcoin.Spec
