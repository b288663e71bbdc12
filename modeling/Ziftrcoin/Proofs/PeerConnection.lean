/-
Module: Ziftrcoin.Proofs.PeerConnection
Purpose: The messages that a node is given are those that its peer pushed, in the
  same order, whatever happens in between.
Trusted boundary: none
Main exports: sendRun_spec, peerMessages_faithful
-/
import Ziftrcoin.Proofs.OrphanPool
import Ziftrcoin.Proofs.PeerFraming

namespace Ziftrcoin.Spec

/-! ### One message -/

/-- A command that a header has room for. -/
def Printable (pszCommand : valtype) : Prop :=
  pszCommand.length ≤ 12 ∧ ∀ c ∈ pszCommand, 0x20 ≤ c ∧ c ≤ 0x7e

instance (pszCommand : valtype) : Decidable (Printable pszCommand) :=
  inferInstanceAs (Decidable (_ ∧ _))

theorem Printable.ne_zero {pszCommand : valtype} (h : Printable pszCommand) :
    ∀ c ∈ pszCommand, c ≠ 0 := by
  rintro _ hc rfl
  exact absurd (h.2 0 hc).1 (by decide)

theorem Printable.padded {pszCommand : valtype} (h : Printable pszCommand) :
    paddedCommand pszCommand = pszCommand ++ List.replicate (12 - pszCommand.length) 0 := by
  unfold paddedCommand
  rw [List.take_append, List.take_of_length_le h.1, List.take_replicate,
    Nat.min_eq_left (Nat.sub_le _ _)]

theorem validCommand_padded {pszCommand : valtype}
    (h : ∀ c ∈ pszCommand, 0x20 ≤ c ∧ c ≤ 0x7e) (n : ℕ) :
    CMessageHeader.validCommand (pszCommand ++ List.replicate n 0) = true := by
  induction pszCommand with
  | nil =>
      cases n with
      | zero => rfl
      | succ n =>
          rw [List.nil_append, List.replicate_succ, CMessageHeader.validCommand, if_pos rfl]
          simp
  | cons c rest ih =>
      obtain ⟨⟨hlow, hhigh⟩, hrest⟩ := List.forall_mem_cons.mp h
      have hzero : c ≠ 0 := by
        rintro rfl
        exact absurd hlow (by decide)
      rw [List.cons_append, CMessageHeader.validCommand, if_neg hzero, if_neg]
      · exact ih hrest
      · exact not_or.mpr ⟨UInt8.not_lt.mpr hlow, UInt8.not_lt.mpr hhigh⟩

/-- The command that is read from a header is the one that was written. -/
theorem getCommand_padded {pszCommand : valtype} (h : Printable pszCommand) {hdr : CMessageHeader}
    (hhdr : hdr.pchCommand = paddedCommand pszCommand) : hdr.GetCommand = pszCommand := by
  unfold CMessageHeader.GetCommand
  rw [hhdr, h.padded]
  by_cases hfull : pszCommand.length = 12
  · rw [hfull, Nat.sub_self, List.replicate_zero, List.append_nil, if_neg]
    intro hlast
    exact h.ne_zero 0 (List.mem_of_getElem? hlast) rfl
  · have hlast : (pszCommand ++ List.replicate (12 - pszCommand.length) 0)[
        CMessageHeader.COMMAND_SIZE - 1]? = some 0 := by
      have hlength := h.1
      rw [List.getElem?_append_right (by unfold CMessageHeader.COMMAND_SIZE; omega),
        List.getElem?_replicate, if_pos (by unfold CMessageHeader.COMMAND_SIZE; omega)]
    rw [if_pos hlast, List.takeWhile_append_of_pos]
    · obtain ⟨n, hn⟩ : ∃ n, 12 - pszCommand.length = n + 1 :=
        ⟨11 - pszCommand.length, by have hlength := h.1; omega⟩
      rw [hn, List.replicate_succ, List.takeWhile_cons_of_neg (by decide), List.append_nil]
    · intro c hc
      exact bne_iff_ne.mpr (h.ne_zero c hc)

section Connection

variable (crypto : Crypto) {MessageStart : valtype}

theorem headerOf_framed (hstart : MessageStart.length = 4) (pszCommand payload : valtype) :
    headerOf (SendState.framed crypto MessageStart pszCommand payload) =
      { pchMessageStart := MessageStart, pchCommand := paddedCommand pszCommand
        nMessageSize := uint32 payload.length
        nChecksum := crypto.Hash payload % 2 ^ 32 } := by
  have hcommand := length_paddedCommand pszCommand
  have hmod : ∀ n, n % 2 ^ 32 % 256 ^ 4 = n % 2 ^ 32 := fun n => Nat.mod_mod _ _
  unfold headerOf
  rw [framed_eq crypto hstart]
  congr 1
  · exact List.take_left' hstart
  · rw [List.drop_left' hstart, List.take_left' hcommand]
  · rw [← List.append_assoc, List.drop_left' (by rw [List.length_append, hstart, hcommand]),
      List.take_left' (leBytes_length 4 _), readLE_leBytes]
    exact hmod _
  · rw [← List.append_assoc, ← List.append_assoc, List.drop_left' (by
      rw [List.length_append, List.length_append, hstart, hcommand, leBytes_length]),
      List.take_left' (leBytes_length 4 _), readLE_leBytes]
    exact hmod _

theorem length_framed (hstart : MessageStart.length = 4) (pszCommand payload : valtype) :
    (SendState.framed crypto MessageStart pszCommand payload).length = 24 + payload.length := by
  rw [framed_eq crypto hstart]
  simp only [List.length_append, leBytes_length, hstart, length_paddedCommand]
  omega

theorem wholeMessage_framed (hstart : MessageStart.length = 4) (pszCommand : valtype)
    {payload : valtype} (hpayload : payload.length ≤ MAX_SIZE) :
    WholeMessage (SendState.framed crypto MessageStart pszCommand payload) := by
  have hsize : uint32 payload.length = payload.length :=
    Nat.mod_eq_of_lt (hpayload.trans_lt (by decide))
  unfold WholeMessage MessageComplete
  rw [headerOf_framed crypto hstart, length_framed crypto hstart, hsize]
  exact ⟨rfl, hpayload⟩

/-- A message that arrived in full is given as it was pushed. -/
theorem messageGiven_framed (hstart : MessageStart.length = 4) {pszCommand payload : valtype}
    (hcommand : Printable pszCommand) (hpayload : payload.length ≤ MAX_SIZE) :
    messageGiven crypto MessageStart (messageOf MessageStart
      (SendState.framed crypto MessageStart pszCommand payload)) = some (pszCommand, payload) := by
  have hwhole := wholeMessage_framed crypto hstart pszCommand hpayload
  have hsize : uint32 payload.length = payload.length :=
    Nat.mod_eq_of_lt (hpayload.trans_lt (by decide))
  have hrecv : (SendState.framed crypto MessageStart pszCommand payload).drop 24 = payload := by
    rw [framed_eq crypto hstart, ← List.append_assoc, ← List.append_assoc, ← List.append_assoc]
    refine List.drop_left' ?_
    simp only [List.length_append, leBytes_length, hstart, length_paddedCommand]
  rw [messageOf_data hwhole.1.le hwhole.part, headerOf_framed crypto hstart, hrecv,
    length_framed crypto hstart, hsize, Nat.add_sub_cancel_left, Nat.sub_self,
    List.replicate_zero, List.append_nil]
  unfold messageGiven
  dsimp only
  rw [if_neg, if_neg, getCommand_padded hcommand rfl]
  · rw [List.take_of_length_le le_rfl]
    exact not_not.mpr rfl
  · unfold CMessageHeader.IsValid
    rw [hcommand.padded, validCommand_padded hcommand.2]
    simpa using hpayload

end Connection

/-! ### Runs -/

section Runs

variable (crypto : Crypto) (MessageStart : valtype)

/-- The messages that are pushed, as they are framed. -/
def pushedFrames (calls : List SendCall) : List valtype :=
  calls.filterMap fun call =>
    match call with
    | .PushMessage pszCommand payload _ =>
        some (SendState.framed crypto MessageStart pszCommand payload)
    | .SocketSendData _ => none

/-- The bytes that are given to `ReceiveMsgBytes`. -/
def arrivedBytes (calls : List ReceiveCall) : valtype :=
  calls.flatMap fun call =>
    match call with
    | .ReceiveMsgBytes pch => pch
    | .ProcessMessages _ => []

/-- The commands and payloads that one node pushes. -/
def pushedPairs (events : List NetEvent) : List (valtype × valtype) :=
  events.filterMap fun event =>
    match event with
    | .send (.PushMessage pszCommand payload _) => some (pszCommand, payload)
    | _ => none

theorem Queued.wire {frames : List valtype} {s : SendState} (h : Queued frames s) :
    s.wire <+: frames.flatten := ⟨_, h.bytes⟩

/-- Sending goes on: no assertion fails, and what was sent remains sent. -/
theorem sendCall_spec {frames : List valtype} {s : SendState} (h : Queued frames s)
    (call : SendCall) :
    ∃ s', call.run crypto MessageStart s = some s' ∧
      Queued (frames ++ pushedFrames crypto MessageStart [call]) s' ∧ s.wire <+: s'.wire := by
  cases call with
  | PushMessage pszCommand payload sends =>
      exact pushMessage_spec crypto MessageStart h pszCommand payload sends
  | SocketSendData sends =>
      obtain ⟨s', hrun, hqueued, hwire⟩ := socketSendData_spec h sends
      exact ⟨s', hrun, (List.append_nil frames).symm ▸ hqueued, hwire⟩

theorem sendRun_spec : ∀ (calls : List SendCall) {frames : List valtype} {s : SendState},
    Queued frames s → ∃ s', calls.foldlM (SendCall.run crypto MessageStart) s = some s' ∧
      Queued (frames ++ pushedFrames crypto MessageStart calls) s'
  | [], frames, s, h => ⟨s, rfl, (List.append_nil frames).symm ▸ h⟩
  | call :: calls, frames, s, h => by
      obtain ⟨s₁, hcall, hqueued, -⟩ := sendCall_spec crypto MessageStart h call
      obtain ⟨s', hrun, hfinal⟩ := sendRun_spec calls hqueued
      refine ⟨s', ?_, ?_⟩
      · rw [List.foldlM_cons, hcall]
        exact hrun
      · rw [List.append_assoc, pushedFrames, pushedFrames, ← List.filterMap_append] at hfinal
        exact hfinal

theorem receiveRun_spec {fuel : ℕ} : ∀ (calls : List ReceiveCall) {done rest : List valtype}
    {s : ReceiveState}, Received crypto MessageStart s done rest →
    (arrivedBytes calls).length ≤ fuel →
    ∃ s' done' rest', calls.foldlM (ReceiveCall.run crypto MessageStart fuel) s =
        some s' ∧
      s'.stream = s.stream ++ arrivedBytes calls ∧
      Received crypto MessageStart s' done' rest'
  | [], done, rest, s, h, _ => ⟨s, done, rest, rfl, (List.append_nil _).symm, h⟩
  | call :: calls, done, rest, s, h, hfuel => by
      have hsplit : arrivedBytes (call :: calls) =
          arrivedBytes [call] ++ arrivedBytes calls := by
        simp only [arrivedBytes, List.flatMap_cons, List.flatMap_nil, List.append_nil]
      rw [hsplit, List.length_append] at hfuel
      obtain ⟨s₁, done₁, rest₁, hcall, hstream, hreceived⟩ : ∃ s₁ done₁ rest₁,
          call.run crypto MessageStart fuel s = some s₁ ∧
          s₁.stream = s.stream ++ arrivedBytes [call] ∧
          Received crypto MessageStart s₁ done₁ rest₁ := by
        cases call with
        | ReceiveMsgBytes pch =>
            have hbytes : arrivedBytes [.ReceiveMsgBytes pch] = pch := List.append_nil pch
            rw [hbytes] at hfuel ⊢
            obtain ⟨s₁, rest₁, hrun, hstream, hreceived⟩ :=
              h.receive (show pch.length ≤ fuel by omega)
            exact ⟨s₁, done, rest₁, hrun, hstream, hreceived⟩
        | ProcessMessages fFull =>
            obtain ⟨s₁, done₁, rest₁, hrun, hstream, hreceived⟩ := h.process fuel fFull
            exact ⟨s₁, done₁, rest₁, hrun, hstream.trans (List.append_nil _).symm, hreceived⟩
      obtain ⟨s', done', rest', hrun, hfinal, hlast⟩ :=
        receiveRun_spec calls hreceived (show (arrivedBytes calls).length ≤ fuel by omega)
      refine ⟨s', done', rest', ?_, ?_, hlast⟩
      · rw [List.foldlM_cons, hcall]
        exact hrun
      · rw [hfinal, hstream, hsplit, List.append_assoc]

/-- The frames of the messages that one node pushes. -/
def framesOf (pairs : List (valtype × valtype)) : List valtype :=
  pairs.map fun pair => SendState.framed crypto MessageStart pair.1 pair.2

/-- Both halves of a connection, with what has arrived being a part of what was sent. -/
structure LinkState (frames : List valtype) (s : SendState × ReceiveState)
    (done rest : List valtype) : Prop where
  queued : Queued frames s.1
  received : Received crypto MessageStart s.2 done rest
  arrived : s.2.stream <+: s.1.wire

theorem netEvent_spec {fuel : ℕ} {frames done rest : List valtype}
    {s : SendState × ReceiveState} (h : LinkState crypto MessageStart frames s done rest)
    (hfuel : frames.flatten.length ≤ fuel) (event : NetEvent) :
    ∃ s' done' rest', event.run crypto MessageStart fuel s = some s' ∧
      LinkState crypto MessageStart
        (frames ++ framesOf crypto MessageStart (pushedPairs [event])) s' done' rest' := by
  have hsame : frames ++ framesOf crypto MessageStart (pushedPairs []) = frames :=
    List.append_nil frames
  cases event with
  | send call =>
      obtain ⟨sender, hrun, hqueued, hwire⟩ := sendCall_spec crypto MessageStart h.queued call
      refine ⟨(sender, s.2), done, rest, ?_, ?_, h.received, h.arrived.trans hwire⟩
      · exact congrArg (Option.map _) hrun
      · cases call <;> exact hqueued
  | arrive n =>
      have hchunk : ((s.1.wire.drop s.2.stream.length).take n).length ≤ fuel := by
        have hwire := h.queued.wire.length_le
        rw [List.length_take, List.length_drop]
        omega
      obtain ⟨receiver, rest', hrun, hstream, hreceived⟩ := h.received.receive hchunk
      refine ⟨(s.1, receiver), done, rest', ?_, hsame.symm ▸ h.queued, hreceived, ?_⟩
      · exact congrArg (Option.map _) hrun
      · obtain ⟨left, hleft⟩ := h.arrived
        rw [hstream, ← hleft, List.drop_left]
        exact List.prefix_append_right_inj _ |>.mpr (List.take_prefix n left)
  | process fFull =>
      obtain ⟨receiver, done', rest', hrun, hstream, hreceived⟩ := h.received.process fuel fFull
      refine ⟨(s.1, receiver), done', rest', ?_, hsame.symm ▸ h.queued, hreceived, ?_⟩
      · exact congrArg (Option.map _) hrun
      · exact hstream.symm ▸ h.arrived

theorem netRun_spec {fuel : ℕ} : ∀ (events : List NetEvent) {frames done rest : List valtype}
    {s : SendState × ReceiveState}, LinkState crypto MessageStart frames s done rest →
    (frames ++ framesOf crypto MessageStart (pushedPairs events)).flatten.length ≤ fuel →
    ∃ s' done' rest', events.foldlM (NetEvent.run crypto MessageStart fuel) s =
        some s' ∧
      LinkState crypto MessageStart
        (frames ++ framesOf crypto MessageStart (pushedPairs events)) s' done' rest'
  | [], frames, done, rest, s, h, _ => ⟨s, done, rest, rfl, (List.append_nil frames).symm ▸ h⟩
  | event :: events, frames, done, rest, s, h, hfuel => by
      have hsplit : frames ++ framesOf crypto MessageStart (pushedPairs (event :: events)) =
          frames ++ framesOf crypto MessageStart (pushedPairs [event]) ++
            framesOf crypto MessageStart (pushedPairs events) := by
        rw [List.append_assoc]
        unfold framesOf pushedPairs
        rw [← List.map_append, ← List.filterMap_append]
        rfl
      have hfirst : frames.flatten.length ≤ fuel := by
        rw [List.flatten_append, List.length_append] at hfuel
        omega
      obtain ⟨s₁, done₁, rest₁, hevent, hconnected⟩ :=
        netEvent_spec crypto MessageStart h hfirst event
      rw [hsplit] at hfuel ⊢
      obtain ⟨s', done', rest', hrun, hfinal⟩ := netRun_spec events hconnected hfuel
      refine ⟨s', done', rest', ?_, hfinal⟩
      rw [List.foldlM_cons, hevent]
      exact hrun

/-- What arrives and is given is the front of what was pushed; the messages that have not
been erased yet are the next ones. -/
theorem LinkState.given {crypto : Crypto} {MessageStart : valtype}
    (hstart : MessageStart.length = 4) {pairs : List (valtype × valtype)}
    (hpairs : ∀ pair ∈ pairs, Printable pair.1 ∧ pair.2.length ≤ MAX_SIZE)
    {s : SendState × ReceiveState} {done rest : List valtype}
    (h : LinkState crypto MessageStart (framesOf crypto MessageStart pairs) s done rest) :
    s.2.fDisconnect = false ∧ done <+: framesOf crypto MessageStart pairs ∧
    s.2.given = pairs.take done.length ∧
    (s.2.stream = (framesOf crypto MessageStart pairs).flatten →
      done ++ rest = framesOf crypto MessageStart pairs) := by
  have hwhole : ∀ frame ∈ framesOf crypto MessageStart pairs, WholeMessage frame := by
    intro frame hframe
    obtain ⟨pair, hpair, rfl⟩ := List.mem_map.mp hframe
    exact wholeMessage_framed crypto hstart pair.1 (hpairs pair hpair).2
  have hall : parse (framesOf crypto MessageStart pairs).flatten [] =
      (true, framesOf crypto MessageStart pairs) := by
    have hnone : ∀ frame ∈ ([] : List valtype), MessageComplete frame :=
      fun _ h => absurd h List.not_mem_nil
    have hparse := parse_flatten [] hnone hwhole
    rw [List.append_nil] at hparse
    exact hparse
  obtain ⟨left, hleft⟩ := h.arrived.trans h.queued.wire
  have hsplit := parse_append s.2.stream left []
  rw [hleft, hall, h.received.stream] at hsplit
  cases hopen : s.2.fDisconnect with
  | true =>
      rw [hopen] at hsplit
      cases hsplit
  | false =>
      rw [hopen, Bool.not_false] at hsplit
      dsimp only at hsplit
      rw [if_pos rfl,
        parse_append_front fun frame hframe => (h.received.whole frame hframe).1] at hsplit
      have hdone : done <+: framesOf crypto MessageStart pairs :=
        ⟨(parse left rest).2, (Prod.mk.inj hsplit).2.symm⟩
      refine ⟨rfl, hdone, ?_, fun hstream => ?_⟩
      · have htake : done = framesOf crypto MessageStart (pairs.take done.length) := by
          unfold framesOf
          rw [List.map_take]
          exact List.prefix_iff_eq_take.mp hdone
        have hgiven : ∀ few : List (valtype × valtype), (∀ pair ∈ few, pair ∈ pairs) →
            ((framesOf crypto MessageStart few).map (messageOf MessageStart)).filterMap
              (messageGiven crypto MessageStart) = few := by
          intro few hfew
          induction few with
          | nil => rfl
          | cons pair few ih =>
              obtain ⟨hpair, hrest⟩ := List.forall_mem_cons.mp hfew
              obtain ⟨hcommand, hpayload⟩ := hpairs pair hpair
              have hone := messageGiven_framed crypto hstart hcommand hpayload
              unfold framesOf at ih ⊢
              rw [List.map_cons, List.map_cons, List.filterMap_cons_some hone, ih hrest]
        have hnow := hgiven (pairs.take done.length) fun _ hpair => List.mem_of_mem_take hpair
        rw [← htake] at hnow
        rw [h.received.given, h.received.erased, hnow]
      · have hstreamAll := h.received.stream
        rw [hstream, hall] at hstreamAll
        exact (Prod.mk.inj hstreamAll).2.symm

/-- Once all the bytes have arrived, each call of `ProcessMessages` that has room to
respond gives the next message. -/
theorem LinkState.next {crypto : Crypto} {MessageStart : valtype}
    (hstart : MessageStart.length = 4) {pairs : List (valtype × valtype)}
    (hpairs : ∀ pair ∈ pairs, Printable pair.1 ∧ pair.2.length ≤ MAX_SIZE)
    {s : SendState × ReceiveState} {done rest : List valtype}
    (h : LinkState crypto MessageStart (framesOf crypto MessageStart pairs) s done rest)
    (hall : done ++ rest = framesOf crypto MessageStart pairs) :
    (ProcessMessages crypto MessageStart false s.2.vRecvMsg).given = pairs[done.length]? := by
  have hrest : rest = framesOf crypto MessageStart (pairs.drop done.length) := by
    unfold framesOf at hall ⊢
    rw [List.map_drop, ← hall, List.drop_left]
  rw [h.received.queue, hrest, ← List.head?_drop]
  cases hleft : pairs.drop done.length with
  | nil => rfl
  | cons pair later =>
      have hpair : pair ∈ pairs := List.mem_of_mem_drop (hleft ▸ List.mem_cons_self)
      obtain ⟨hcommand, hpayload⟩ := hpairs pair hpair
      have hwhole := wholeMessage_framed crypto hstart pair.1 hpayload
      have hcomplete : (messageOf MessageStart
          (SendState.framed crypto MessageStart pair.1 pair.2)).complete = true :=
        (complete_messageOf hwhole.part).mpr hwhole.1
      have hgiven := messageGiven_framed crypto hstart hcommand hpayload
      have hmessage : (messageOf MessageStart
          (SendState.framed crypto MessageStart pair.1 pair.2)).hdr.pchMessageStart =
            MessageStart := by
        rw [messageOf_data hwhole.1.le hwhole.part, headerOf_framed crypto hstart]
      unfold framesOf
      rw [List.map_cons, List.map_cons, ProcessMessages, hcomplete, if_neg (by decide),
        if_neg (not_not.mpr hmessage), hgiven]
      rfl

/-- Sending: whatever `send` takes, no assertion fails, what was sent is the front of the
framed messages and `nSendSize` is the size of the queue.  Receiving: however a stream is
cut and whatever is processed in between, the messages, erased or not, are those of the
stream in one chunk; a chunk is gone over to its end, and refused if and only if the last
byte of a header of a message that is too long is in it.  Both: a node is given the
commands and payloads that its peer pushed, in this order, and in the end all of them. -/
theorem peerMessages_faithful (hstart : MessageStart.length = 4) :
    (∀ calls : List SendCall, ∃ s,
      calls.foldlM (SendCall.run crypto MessageStart) .start = some s ∧
      s.wire <+: (pushedFrames crypto MessageStart calls).flatten ∧
      s.nSendSize = s.vSendMsg.flatten.length) ∧
    (∀ (calls : List ReceiveCall) (fuel : ℕ), (arrivedBytes calls).length ≤ fuel → ∃ s,
      calls.foldlM (ReceiveCall.run crypto MessageStart fuel) .start = some s ∧
      ReceiveMsgBytes MessageStart fuel (arrivedBytes calls) [] =
        some (!s.fDisconnect, s.erased ++ s.vRecvMsg) ∧
      (∀ msg ∈ s.erased, msg.complete = true) ∧
      s.given = s.erased.filterMap (messageGiven crypto MessageStart) ∧
      (s.fDisconnect = false → ∀ pch : valtype, pch.length ≤ fuel → ∃ result vRecvMsg,
        ReceiveMsgBytes MessageStart fuel pch s.vRecvMsg = some (result, vRecvMsg) ∧
        (result = false ↔
          ∃ p, p <+: pch ∧ p ≠ [] ∧ EndsOversized (arrivedBytes calls ++ p)))) ∧
    (∀ (events : List NetEvent) (fuel : ℕ),
      (∀ pair ∈ pushedPairs events, Printable pair.1 ∧ pair.2.length ≤ MAX_SIZE) →
      (framesOf crypto MessageStart (pushedPairs events)).flatten.length ≤ fuel → ∃ s,
      events.foldlM (NetEvent.run crypto MessageStart fuel) (.start, .start) =
        some s ∧
      s.2.fDisconnect = false ∧
      s.2.given <+: pushedPairs events ∧
      (s.2.stream = (framesOf crypto MessageStart (pushedPairs events)).flatten →
        (ProcessMessages crypto MessageStart false s.2.vRecvMsg).given =
          (pushedPairs events)[s.2.given.length]? ∧
        (s.2.vRecvMsg = [] → s.2.given = pushedPairs events))) := by
  refine ⟨fun calls => ?_, fun calls fuel hfuel => ?_, fun events fuel hpairs hfuel => ?_⟩
  · obtain ⟨s, hrun, hqueued⟩ := sendRun_spec crypto MessageStart calls queued_start
    exact ⟨s, hrun, hqueued.wire, hqueued.size⟩
  · obtain ⟨s, done, rest, hrun, hstream, hreceived⟩ :=
      receiveRun_spec crypto MessageStart calls (received_start crypto) hfuel
    have hbytes : s.stream = arrivedBytes calls := hstream
    have hparse := hreceived.stream
    rw [hbytes] at hparse
    refine ⟨s, hrun, ?_, fun msg hmsg => ?_, hreceived.given, fun hopen pch hpch => ?_⟩
    · have hchunk := receiveMsgBytes_spec MessageStart inFrames_nil hfuel
      rw [hparse] at hchunk
      rw [hreceived.erased, hreceived.queue, ← List.map_append]
      exact hchunk
    · rw [hreceived.erased] at hmsg
      obtain ⟨frame, hframe, rfl⟩ := List.mem_map.mp hmsg
      have hwhole := hreceived.whole frame hframe
      exact (complete_messageOf hwhole.part).mpr hwhole.1
    · rw [hopen, Bool.not_false] at hparse
      have hrefused := parse_refused_iff (congrArg Prod.fst hparse) pch
      rw [hparse] at hrefused
      dsimp only at hrefused
      rw [parse_append_front fun frame hframe => (hreceived.whole frame hframe).1] at hrefused
      have hchunk := receiveMsgBytes_spec MessageStart (hreceived.framed hopen) hpch
      rw [← hreceived.queue] at hchunk
      exact ⟨_, _, hchunk, hrefused⟩
  · have hconnected : LinkState crypto MessageStart [] (.start, .start) [] [] :=
      ⟨queued_start, received_start crypto, List.prefix_refl _⟩
    obtain ⟨s, done, rest, hrun, hfinal⟩ := netRun_spec crypto MessageStart events hconnected hfuel
    rw [List.nil_append] at hfinal
    obtain ⟨hopen, hdone, hgiven, hlast⟩ := hfinal.given hstart hpairs
    have hcount : done.length ≤ (pushedPairs events).length := by
      have hlength := hdone.length_le
      rwa [framesOf, List.length_map] at hlength
    have hlength : s.2.given.length = done.length := by
      rw [hgiven, List.length_take, Nat.min_eq_left hcount]
    refine ⟨s, hrun, hopen, hgiven ▸ List.take_prefix _ _, fun hstream => ?_⟩
    have hall := hlast hstream
    rw [hlength]
    refine ⟨hfinal.next hstart hpairs hall, fun hempty => ?_⟩
    have hqueue := hfinal.received.queue
    rw [hempty] at hqueue
    obtain rfl := List.map_eq_nil_iff.mp hqueue.symm
    rw [List.append_nil] at hall
    rw [hgiven, hall, framesOf, List.length_map, List.take_length]

end Runs

/-! ### Two messages in parts -/

/-- Two messages, the second without payload, sent and received in parts that do not
match. -/
def twoMessages : List NetEvent :=
  [.send (.PushMessage [0x70] [1, 2, 3] [5]), .arrive 3, .process false,
    .send (.PushMessage [0x71] [] [7]), .send (.SocketSendData [20, 40]), .arrive 30,
    .process true, .process false, .send (.SocketSendData [11, 50]), .arrive 40, .process false,
    .process false]

theorem peerMessages_faithful_twoMessages :
    ∃ s, twoMessages.foldlM (NetEvent.run readingCrypto [1, 2, 3, 4] 60) (.start, .start) =
        some s ∧
      s.2.fDisconnect = false ∧ s.2.given <+: pushedPairs twoMessages ∧
      s.2.given = [([0x70], [1, 2, 3]), ([0x71], [])] := by
  have hevaluated : (twoMessages.foldlM (NetEvent.run readingCrypto [1, 2, 3, 4] 60)
      (.start, .start)).map (fun s => s.2.given) =
        some [([0x70], [1, 2, 3]), ([0x71], [])] := by decide +kernel
  obtain ⟨-, -, hboth⟩ := peerMessages_faithful readingCrypto [1, 2, 3, 4] rfl
  obtain ⟨s, hrun, hopen, hgiven, -⟩ :=
    hboth twoMessages 60 (by decide +kernel) (by decide +kernel)
  rw [hrun] at hevaluated
  exact ⟨s, hrun, hopen, hgiven, Option.some.inj hevaluated⟩

end Ziftrcoin.Spec
