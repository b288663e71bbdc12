/-
Module: Ziftrcoin.Proofs.InventoryItems
Purpose: Which items of a message are taken up although others in it are of an unknown
  type: all those before the first unknown one.
Trusted boundary: none
Main exports: Overlooks, inventory_items_iff
-/
import Ziftrcoin.Spec.Inventory

namespace Ziftrcoin.Spec

/-! ### Announcements -/

theorem toString_ok {inv : CInv} (h : inv.IsKnownType = true) :
    ∃ text, inv.ToString = .ok text := by
  unfold CInv.ToString CInv.GetCommand
  rw [if_pos h]
  exact ⟨_, rfl⟩

theorem toString_error {inv : CInv} (h : inv.IsKnownType = false) :
    ∃ what, inv.ToString = .error what := by
  unfold CInv.ToString CInv.GetCommand
  rw [if_neg (by simp [h])]
  exact ⟨_, rfl⟩

section

variable {view : InvView}

/-- What is asked for because of an item. -/
def wantedFor (view : InvView) (inv : CInv) : List Wanted :=
  if AlreadyHave view inv = false ∧ view.fImporting = false ∧ view.fReindex = false then
    [if inv.type = MSG_BLOCK then .AddBlockToQueue inv.hash else .AskFor inv]
  else []

/-- The root of an orphan block that is announced again. -/
def rootsFor (view : InvView) (inv : CInv) : List uint256 :=
  if AlreadyHave view inv = true ∧ inv.type = MSG_BLOCK ∧ view.orphanBlocks inv.hash = true then
    [view.GetOrphanRoot inv.hash]
  else []

theorem request_eq (pfrom : InvNode) (inv : CInv) :
    pfrom.request view inv =
      { pfrom with
        wanted := pfrom.wanted ++ wantedFor view inv
        roots := pfrom.roots ++ rootsFor view inv } := by
  unfold InvNode.request wantedFor rootsFor
  cases AlreadyHave view inv
  · by_cases himport : view.fImporting = false ∧ view.fReindex = false
    · by_cases htype : inv.type = MSG_BLOCK <;> simp [himport, htype]
    · simp [himport]
  · by_cases horphan : inv.type = MSG_BLOCK ∧ view.orphanBlocks inv.hash = true <;>
      simp [horphan]

/-- The send buffer is below its limit once these roots have been asked for. -/
def BufferLasts (view : InvView) (roots : List uint256) : Prop :=
  view.nSendSize roots ≤ view.SendBufferSize * 2

instance (view : InvView) (roots : List uint256) : Decidable (BufferLasts view roots) :=
  inferInstanceAs (Decidable (_ ≤ _))

/-- The items that the loop gets to: up to one of an unknown type, or until the send
buffer is over its limit. -/
def taken (view : InvView) : List uint256 → List CInv → List CInv
  | _, [] => []
  | roots, inv :: vInv =>
      if inv.IsKnownType then
        if BufferLasts view (roots ++ rootsFor view inv) then
          inv :: taken view (roots ++ rootsFor view inv) vInv
        else [inv]
      else []

theorem invLoop_wanted (vInv : List CInv) (pfrom : InvNode) :
    (invLoop view vInv pfrom).1.wanted =
      pfrom.wanted ++ (taken view pfrom.roots vInv).flatMap (wantedFor view) := by
  induction vInv generalizing pfrom with
  | nil => simp [invLoop, taken]
  | cons inv vInv ih =>
      cases hknown : inv.IsKnownType with
      | false =>
          obtain ⟨what, hthrow⟩ := toString_error hknown
          simp [invLoop, taken, hthrow, hknown]
      | true =>
          obtain ⟨text, htext⟩ := toString_ok hknown
          by_cases hlasts : BufferLasts view (pfrom.roots ++ rootsFor view inv)
          · have hle : ¬ view.SendBufferSize * 2 <
                view.nSendSize (pfrom.roots ++ rootsFor view inv) := not_lt.mpr hlasts
            simp only [invLoop, htext, request_eq, hle, if_false]
            rw [ih]
            simp [taken, hknown, hlasts]
          · have hlt : view.SendBufferSize * 2 <
                view.nSendSize (pfrom.roots ++ rootsFor view inv) := not_le.mp hlasts
            simp [invLoop, htext, request_eq, hlt, taken, hknown, hlasts]

/-- The loop gets to an item that is asked for, if it leaves out items of unknown types. -/
def Reaches (view : InvView) : List uint256 → List CInv → Prop
  | _, [] => False
  | roots, inv :: vInv =>
      wantedFor view inv ≠ [] ∨
        BufferLasts view (roots ++ rootsFor view inv) ∧
          Reaches view (roots ++ rootsFor view inv) vInv

/-- Behind an item of an unknown type there is one that is asked for, and the send buffer
is not over its limit before. -/
def Overlooks (view : InvView) : List uint256 → List CInv → Prop
  | _, [] => False
  | roots, inv :: vInv =>
      (inv.IsKnownType = false ∧ Reaches view roots vInv) ∨
        BufferLasts view (roots ++ rootsFor view inv) ∧
          Overlooks view (roots ++ rootsFor view inv) vInv

/-- Nothing is done for an unknown type. -/
theorem unknown_type (view : InvView) {inv : CInv} (h : inv.IsKnownType = false) :
    wantedFor view inv = [] ∧ rootsFor view inv = [] := by
  have hknown : ∀ type : ℤ, inv.type = type → CInv.IsKnownType ⟨type, inv.hash⟩ = false := by
    rintro type rfl
    exact h
  have htx : inv.type ≠ MSG_TX := fun heq => absurd (hknown _ heq) (by
    simp [CInv.IsKnownType, MSG_TX, ppszTypeName])
  have hblock : inv.type ≠ MSG_BLOCK := fun heq => absurd (hknown _ heq) (by
    simp [CInv.IsKnownType, MSG_BLOCK, ppszTypeName])
  unfold wantedFor rootsFor AlreadyHave
  simp [htx, hblock]

theorem taken_known_eq_nil_iff (vInv : List CInv) {roots : List uint256}
    (hroots : BufferLasts view roots) :
    (taken view roots (vInv.filter CInv.IsKnownType)).flatMap (wantedFor view) = [] ↔
      ¬ Reaches view roots vInv := by
  induction vInv generalizing roots with
  | nil => simp [taken, Reaches]
  | cons inv vInv ih =>
      cases hknown : inv.IsKnownType with
      | false =>
          obtain ⟨hwanted, hrootsFor⟩ := unknown_type view hknown
          rw [List.filter_cons_of_neg (by simp [hknown]), ih hroots]
          simp [Reaches, hwanted, hrootsFor, hroots]
      | true =>
          rw [List.filter_cons_of_pos hknown]
          by_cases hlasts : BufferLasts view (roots ++ rootsFor view inv)
          · have hrest := ih hlasts
            simp only [taken, hknown, if_true, hlasts, List.flatMap_cons, List.append_eq_nil_iff,
              hrest, Reaches, true_and, not_or, not_not]
          · simp [taken, hknown, hlasts, Reaches]

theorem Overlooks.reaches : ∀ {vInv : List CInv} {roots : List uint256},
    BufferLasts view roots → Overlooks view roots vInv → Reaches view roots vInv
  | inv :: vInv, roots, hroots, h => by
      rcases h with ⟨hknown, hreaches⟩ | ⟨hlasts, hlater⟩
      · obtain ⟨-, hrootsFor⟩ := unknown_type view hknown
        refine .inr ?_
        rw [hrootsFor, List.append_nil]
        exact ⟨hroots, hreaches⟩
      · exact .inr ⟨hlasts, hlater.reaches hlasts⟩

theorem taken_same_iff (vInv : List CInv) {roots : List uint256}
    (hroots : BufferLasts view roots) :
    (taken view roots vInv).flatMap (wantedFor view) =
        (taken view roots (vInv.filter CInv.IsKnownType)).flatMap (wantedFor view) ↔
      ¬ Overlooks view roots vInv := by
  induction vInv generalizing roots with
  | nil => simp [taken, Overlooks]
  | cons inv vInv ih =>
      cases hknown : inv.IsKnownType with
      | false =>
          have hrest := taken_known_eq_nil_iff vInv hroots
          obtain ⟨-, hrootsFor⟩ := unknown_type view hknown
          rw [List.filter_cons_of_neg (by simp [hknown])]
          simp only [taken, hknown, Bool.false_eq_true, if_false, List.flatMap_nil, Overlooks,
            true_and, hrootsFor, List.append_nil, hroots]
          rw [eq_comm, hrest]
          exact not_congr ⟨.inl, fun h => h.elim id (Overlooks.reaches hroots)⟩
      | true =>
          rw [List.filter_cons_of_pos hknown]
          by_cases hlasts : BufferLasts view (roots ++ rootsFor view inv)
          · have hrest := ih hlasts
            simp only [taken, hknown, if_true, hlasts, List.flatMap_cons,
              List.append_cancel_left_eq, hrest, Overlooks, Bool.true_eq_false, false_and,
              false_or, true_and]
          · simp [taken, hknown, hlasts, Overlooks]

theorem inv_wanted_iff {pfrom : InvNode} {vInv : List CInv} (hsize : vInv.length ≤ MAX_INV_SZ)
    (hroom : BufferLasts view pfrom.roots) :
    (ProcessMessage_inv view pfrom vInv).1.wanted =
        (ProcessMessage_inv view pfrom (vInv.filter CInv.IsKnownType)).1.wanted ↔
      ¬ Overlooks view pfrom.roots vInv := by
  have hfilter := (List.length_filter_le CInv.IsKnownType vInv).trans hsize
  unfold ProcessMessage_inv
  rw [if_neg (not_lt.mpr hsize), if_neg (not_lt.mpr hfilter), invLoop_wanted, invLoop_wanted,
    List.append_cancel_left_eq]
  exact taken_same_iff vInv hroom

end

/-! ### Requests -/

/-- The first item, which is written to the log, is of an unknown type, and another one is
of a known type. -/
def FirstUnknown (vInv : List CInv) : Prop :=
  (∃ inv ∈ vInv.head?, inv.IsKnownType = false) ∧ ∃ inv ∈ vInv, inv.IsKnownType = true

/-- The items of known types are put in the queue. -/
theorem getdata_put_iff {fDebug : Bool} {vRecvGetData vInv : List CInv}
    (hsize : vInv.length ≤ MAX_INV_SZ) :
    (ProcessMessage_getdata fDebug vRecvGetData vInv).1.filter CInv.IsKnownType =
        (vRecvGetData ++ vInv).filter CInv.IsKnownType ↔
      ¬ (fDebug = true ∧ FirstUnknown vInv) := by
  have hnone : (vRecvGetData.filter CInv.IsKnownType =
      (vRecvGetData ++ vInv).filter CInv.IsKnownType) ↔
        ¬ ∃ inv ∈ vInv, inv.IsKnownType = true := by
    rw [List.filter_append, List.self_eq_append_right, List.filter_eq_nil_iff]
    push Not
    rfl
  unfold ProcessMessage_getdata
  rw [if_neg (not_lt.mpr hsize)]
  cases vInv with
  | nil => simp [FirstUnknown]
  | cons inv rest =>
      dsimp only
      cases hknown : inv.IsKnownType with
      | true =>
          obtain ⟨text, htext⟩ := toString_ok hknown
          simp only [htext, ite_self, true_iff]
          rintro ⟨-, ⟨first, hfirst, hunknown⟩, -⟩
          obtain rfl := Option.some.inj (Option.mem_def.mp hfirst)
          rw [hknown] at hunknown
          cases hunknown
      | false =>
          obtain ⟨what, hthrow⟩ := toString_error hknown
          have hhead : ∃ first ∈ (inv :: rest).head?, first.IsKnownType = false :=
            ⟨inv, rfl, hknown⟩
          split_ifs with hlog
          · simp only [hthrow]
            rw [hnone]
            unfold FirstUnknown
            refine not_congr ⟨fun h => ⟨?_, hhead, h⟩, fun h => h.2.2⟩
            refine hlog.resolve_right ?_
            rintro rfl
            obtain ⟨other, hmem, hother⟩ := h
            rw [List.mem_singleton.mp hmem, hknown] at hother
            cases hother
          · exact iff_of_true rfl fun h => hlog (.inl h.1)

/-- A request is answered among what has been pushed, with what there is. -/
def Answered (view : GetDataView) (pushed : List Reply) (inv : CInv) : Prop :=
  if inv.type = MSG_BLOCK ∨ inv.type = MSG_FILTERED_BLOCK then
    view.serves inv = true → .block inv ∈ pushed
  else
    match findItem view inv with
    | .ok (some reply) => reply ∈ pushed
    | _ => ∃ vNotFound, .notfound vNotFound ∈ pushed ∧ inv ∈ vNotFound

theorem Answered.mono {view : GetDataView} {pushed pushed' : List Reply} {inv : CInv}
    (hsub : pushed ⊆ pushed') (h : Answered view pushed inv) : Answered view pushed' inv := by
  unfold Answered at h ⊢
  split_ifs with hblock
  · rw [if_pos hblock] at h
    exact fun hserves => hsub (h hserves)
  · rw [if_neg hblock] at h
    split at h
    · exact hsub h
    · obtain ⟨batch, hbatch, hmem⟩ := h
      exact ⟨batch, hsub hbatch, hmem⟩

theorem findItem_ok (view : GetDataView) {inv : CInv} (h : inv.IsKnownType = true) :
    ∃ reply, findItem view inv = .ok reply := by
  unfold findItem CInv.GetCommand
  rw [if_pos h]
  split
  · exact ⟨_, rfl⟩
  · split_ifs
    · exact ⟨_, rfl⟩
    · exact ⟨_, rfl⟩

/-- A request is answered, or it is among those that are not found. -/
def Noted (view : GetDataView) (pushed : List Reply) (vNotFound : List CInv) (inv : CInv) :
    Prop :=
  Answered view pushed inv ∨
    (¬ (inv.type = MSG_BLOCK ∨ inv.type = MSG_FILTERED_BLOCK) ∧
      findItem view inv = .ok none ∧ inv ∈ vNotFound)

/-- The loop returns.  It takes requests from the front, at least one if there is room, and
notes those of known types among them. -/
def LoopNotes (view : GetDataView) (q : List CInv) (pushed : List Reply)
    (vNotFound : List CInv) : Prop :=
  ∃ done rest pushed' vNotFound',
    answerLoop view q pushed vNotFound = .ok (rest, pushed', vNotFound') ∧ q = done ++ rest ∧
    (view.nSendSize pushed < view.SendBufferSize → q ≠ [] → done ≠ []) ∧
    pushed ⊆ pushed' ∧ vNotFound ⊆ vNotFound' ∧
    ∀ inv ∈ done, inv.IsKnownType = true → Noted view pushed' vNotFound' inv

section

variable {view : GetDataView}

theorem LoopNotes.cons {inv : CInv} {q : List CInv} {pushed pushed₁ : List Reply}
    {vNotFound vNotFound₁ : List CInv}
    (hstep : answerLoop view (inv :: q) pushed vNotFound = answerLoop view q pushed₁ vNotFound₁)
    (hpushed : pushed ⊆ pushed₁) (hfound : vNotFound ⊆ vNotFound₁)
    (hinv : inv.IsKnownType = true → ∀ pushed' vNotFound', pushed₁ ⊆ pushed' →
      vNotFound₁ ⊆ vNotFound' → Noted view pushed' vNotFound' inv)
    (h : LoopNotes view q pushed₁ vNotFound₁) : LoopNotes view (inv :: q) pushed vNotFound := by
  obtain ⟨done, rest, pushed', vNotFound', hrun, hq, -, hpushed', hfound', hall⟩ := h
  refine ⟨inv :: done, rest, pushed', vNotFound', hstep.trans hrun, by rw [hq]; rfl, by simp,
    fun _ h => hpushed' (hpushed h), fun _ h => hfound' (hfound h), ?_⟩
  intro other hother hknown
  rcases List.mem_cons.mp hother with rfl | hother
  · exact hinv hknown pushed' vNotFound' hpushed' hfound'
  · exact hall other hother hknown

theorem loopNotes (view : GetDataView) : ∀ (q : List CInv) (pushed : List Reply)
    (vNotFound : List CInv), LoopNotes view q pushed vNotFound
  | [], pushed, vNotFound =>
      ⟨[], [], pushed, vNotFound, rfl, rfl, by simp, fun _ h => h, fun _ h => h, by simp⟩
  | inv :: q, pushed, vNotFound => by
      by_cases hfull : view.SendBufferSize ≤ view.nSendSize pushed
      · exact ⟨[], inv :: q, pushed, vNotFound, if_pos hfull, rfl,
          fun hroom => absurd hfull (not_le.mpr hroom), fun _ h => h, fun _ h => h, by simp⟩
      by_cases hblock : inv.type = MSG_BLOCK ∨ inv.type = MSG_FILTERED_BLOCK
      · refine ⟨[inv], q, if view.serves inv then pushed ++ [.block inv] else pushed,
          vNotFound, by simp [answerLoop, hfull, hblock], rfl, by simp, ?_, fun _ h => h, ?_⟩
        · split_ifs
          · exact List.subset_append_left _ _
          · exact fun _ h => h
        · intro other hother _
          obtain rfl := List.mem_singleton.mp hother
          refine .inl ?_
          unfold Answered
          rw [if_pos hblock]
          intro hserves
          simp [hserves]
      cases hknown : inv.IsKnownType with
      | false =>
          refine LoopNotes.cons ?_ (fun _ h => h) (fun _ h => h) ?_
            (loopNotes view q pushed vNotFound)
          · simp [answerLoop, hfull, hblock, hknown]
          · intro hknown'
            rw [hknown] at hknown'
            cases hknown'
      | true =>
          obtain ⟨reply, hreply⟩ := findItem_ok view hknown
          cases reply with
          | some reply =>
              refine LoopNotes.cons ?_ (List.subset_append_left _ _) (fun _ h => h) ?_
                (loopNotes view q (pushed ++ [reply]) vNotFound)
              · simp [answerLoop, hfull, hblock, hknown, hreply]
              · intro _ pushed' vNotFound' hpushed _
                refine .inl ?_
                unfold Answered
                rw [if_neg hblock, hreply]
                exact hpushed (List.mem_append_right _ (List.mem_singleton_self _))
          | none =>
              refine LoopNotes.cons ?_ (fun _ h => h) (List.subset_append_left _ _) ?_
                (loopNotes view q pushed (vNotFound ++ [inv]))
              · simp [answerLoop, hfull, hblock, hknown, hreply]
              · intro _ pushed' vNotFound' _ hfound
                exact .inr ⟨hblock, hreply,
                  hfound (List.mem_append_right _ (List.mem_singleton_self _))⟩

/-- A call of `ProcessGetData` answers what it takes from the queue. -/
theorem processGetData_spec (view : GetDataView) (q : List CInv) :
    ∃ done rest pushed, ProcessGetData view q = .ok (rest, pushed) ∧ q = done ++ rest ∧
      (view.nSendSize [] < view.SendBufferSize → q ≠ [] → done ≠ []) ∧
      ∀ inv ∈ done, inv.IsKnownType = true → Answered view pushed inv := by
  obtain ⟨done, rest, pushed, vNotFound, hrun, hq, hroom, -, -, hall⟩ :=
    loopNotes view q [] []
  have hsub : pushed ⊆ if vNotFound = [] then pushed else pushed ++ [.notfound vNotFound] := by
    split_ifs
    · exact fun _ h => h
    · exact List.subset_append_left _ _
  refine ⟨done, rest, _, by unfold ProcessGetData; rw [hrun], hq, hroom, ?_⟩
  intro inv hinv hknown
  rcases hall inv hinv hknown with hanswered | ⟨hblock, hnone, hmem⟩
  · exact hanswered.mono hsub
  · unfold Answered
    rw [if_neg hblock, hnone]
    refine ⟨vNotFound, ?_, hmem⟩
    rw [if_neg (List.ne_nil_of_mem hmem)]
    exact List.mem_append_right _ (List.mem_singleton_self _)

end

/-- Calls of `ProcessGetData` one after the other, with what there is at the time: the
requests that are left, and what each call pushes. -/
def answerAll : List GetDataView → List CInv → Except String (List CInv × List (List Reply))
  | [], q => .ok (q, [])
  | view :: views, q => do
      let (rest, pushed) ← ProcessGetData view q
      let (rest, later) ← answerAll views rest
      return (rest, pushed :: later)

/-- After as many calls as there are requests, with room in the send buffer at the start of
each one, all of known types have been answered. -/
theorem getdata_answered : ∀ (views : List GetDataView) (q : List CInv),
    q.length ≤ views.length → (∀ view ∈ views, view.nSendSize [] < view.SendBufferSize) →
    ∃ replies, answerAll views q = .ok ([], replies) ∧
      ∀ inv ∈ q, inv.IsKnownType = true →
        ∃ view pushed, (view, pushed) ∈ views.zip replies ∧ Answered view pushed inv
  | [], q, hlen, _ => by
      obtain rfl := List.eq_nil_of_length_eq_zero (Nat.le_zero.mp hlen)
      exact ⟨[], rfl, by simp⟩
  | view :: views, q, hlen, hroom => by
      obtain ⟨done, rest, pushed, hrun, hq, hsome, hall⟩ := processGetData_spec view q
      have hrest : rest.length ≤ views.length := by
        by_cases hnil : q = []
        · rw [hnil] at hq
          rw [(List.append_eq_nil_iff.mp hq.symm).2]
          exact Nat.zero_le _
        · have hpos := List.length_pos_of_ne_nil
            (hsome (hroom view List.mem_cons_self) hnil)
          rw [hq, List.length_append, List.length_cons] at hlen
          omega
      obtain ⟨replies, hlater, hanswered⟩ := getdata_answered views rest hrest
        fun view' h => hroom view' (List.mem_cons_of_mem view h)
      refine ⟨pushed :: replies, ?_, fun inv hinv hknown => ?_⟩
      · simp only [answerAll, hrun, bind, Except.bind, hlater]
        rfl
      · rw [hq, List.mem_append] at hinv
        rcases hinv with hinv | hinv
        · exact ⟨view, pushed, List.mem_cons_self, hall inv hinv hknown⟩
        · obtain ⟨view', pushed', hmem, hanswer⟩ := hanswered inv hinv hknown
          exact ⟨view', pushed', List.mem_cons_of_mem _ hmem, hanswer⟩

/-- For messages that are not too long and a send buffer with room: the same is asked for
as without the items of unknown types just when none of them stands before one that is
asked for; the requests of known types are queued just when the first item is not one of
an unknown type that is written to the log; and what is queued is answered. -/
theorem inventory_items_iff (view : InvView) (pfrom : InvNode) (vInv : List CInv)
    (hsize : vInv.length ≤ MAX_INV_SZ) (hroom : BufferLasts view pfrom.roots) :
    ((ProcessMessage_inv view pfrom vInv).1.wanted =
        (ProcessMessage_inv view pfrom (vInv.filter CInv.IsKnownType)).1.wanted ↔
      ¬ Overlooks view pfrom.roots vInv) ∧
    (∀ (fDebug : Bool) (vRecvGetData : List CInv),
      (ProcessMessage_getdata fDebug vRecvGetData vInv).1.filter CInv.IsKnownType =
          (vRecvGetData ++ vInv).filter CInv.IsKnownType ↔
        ¬ (fDebug = true ∧ FirstUnknown vInv)) ∧
    ∀ (views : List GetDataView) (q : List CInv), q.length ≤ views.length →
      (∀ view ∈ views, view.nSendSize [] < view.SendBufferSize) →
      ∃ replies, answerAll views q = .ok ([], replies) ∧
        ∀ inv ∈ q, inv.IsKnownType = true →
          ∃ view pushed, (view, pushed) ∈ views.zip replies ∧ Answered view pushed inv :=
  ⟨inv_wanted_iff hsize hroom, fun _ _ => getdata_put_iff hsize, getdata_answered⟩

/-! ### An unknown type in front -/

/-- A node that has nothing, with an empty send buffer. -/
def emptyView : InvView where
  fImporting := false
  fReindex := false
  mempoolExists _ := false
  orphanTransactions _ := false
  HaveCoins _ := false
  blockIndex _ := false
  orphanBlocks _ := false
  GetOrphanRoot hash := hash
  SendBufferSize := 1000000
  nSendSize _ := 0

def newPeer : InvNode :=
  { setInventoryKnown := [], wanted := [], roots := [], inventory := [], nMisbehavior := 0 }

/-- The unknown type comes last. -/
theorem inventory_items_unknownLast :
    (ProcessMessage_inv emptyView newPeer [⟨MSG_TX, 5⟩, ⟨7, 6⟩]).1.wanted =
      (ProcessMessage_inv emptyView newPeer
        ([⟨MSG_TX, 5⟩, ⟨7, 6⟩].filter CInv.IsKnownType)).1.wanted :=
  (inventory_items_iff emptyView newPeer [⟨MSG_TX, 5⟩, ⟨7, 6⟩] (by decide) (by decide)).1.mpr (by
    simp [Overlooks, Reaches, CInv.IsKnownType, MSG_TX, ppszTypeName])

/-- The unknown type comes first: nothing is asked for, and with `-debug` the request for
the transaction is not queued either. -/
theorem inventory_items_unknownFirst :
    (ProcessMessage_inv emptyView newPeer [⟨7, 6⟩, ⟨MSG_TX, 5⟩]).1.wanted = [] ∧
      (ProcessMessage_inv emptyView newPeer
        ([⟨7, 6⟩, ⟨MSG_TX, 5⟩].filter CInv.IsKnownType)).1.wanted =
          [.AskFor ⟨MSG_TX, 5⟩] ∧
      (ProcessMessage_getdata true [] [⟨7, 6⟩, ⟨MSG_TX, 5⟩]).1 = [] := by
  decide

end Ziftrcoin.Spec
