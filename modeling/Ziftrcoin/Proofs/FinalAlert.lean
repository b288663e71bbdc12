/-
Module: Ziftrcoin.Proofs.FinalAlert
Purpose: The final alert, the one with the reserved number, cannot be overridden
  by an alert that does not name this number.
Trusted boundary: none
Main exports: runAlerts, finalAlert_irrevocable
-/
import Ziftrcoin.Spec.Alerts
import Mathlib.Data.List.Induction

namespace Ziftrcoin.Spec

/-! ### Runs -/

/-- Calls of `ProcessAlert`, each with the adjusted time it reads. -/
def runAlerts (calls : AlertCalls) (alerts : List (ℤ × CAlert)) (mapAlerts : MapAlerts) :
    MapAlerts :=
  alerts.foldl (fun mapAlerts call => (ProcessAlert calls call.1 call.2 mapAlerts).2) mapAlerts

@[simp] theorem runAlerts_concat (calls : AlertCalls) (alerts : List (ℤ × CAlert))
    (call : ℤ × CAlert) (mapAlerts : MapAlerts) :
    runAlerts calls (alerts ++ [call]) mapAlerts =
      (ProcessAlert calls call.1 call.2 (runAlerts calls alerts mapAlerts)).2 := by
  rw [runAlerts, List.foldl_concat]
  rfl

/-- An alert that names the reserved number among those it cancels. -/
def NamesReserved (alert : CUnsignedAlert) : Prop :=
  INT_MAX ≤ alert.nCancel ∨ INT_MAX ∈ alert.setCancel

/-- A call before the reserved expiration, of an alert that does not name the
reserved number. -/
def Harmless (calls : AlertCalls) (call : ℤ × CAlert) : Prop :=
  call.1 < INT_MAX ∧ ∀ alert, calls.Unserialize call.2.vchMsg = some alert →
    ¬ NamesReserved alert

/-! ### What a call does to the map -/

section
variable {calls : AlertCalls} {nAdjustedTime : ℤ} {alert : CAlert} {this : CUnsignedAlert}
  {mapAlerts : MapAlerts} {hash : uint256}

/-- A call does nothing, or checks an alert that it could read. -/
theorem processAlert_cases (calls : AlertCalls) (nAdjustedTime : ℤ) (alert : CAlert)
    (mapAlerts : MapAlerts) :
    ProcessAlert calls nAdjustedTime alert mapAlerts = (false, mapAlerts) ∨
      ∃ this, calls.Unserialize alert.vchMsg = some this ∧
        ProcessAlert calls nAdjustedTime alert mapAlerts =
          processChecked nAdjustedTime (calls.Hash alert.vchMsg) this mapAlerts := by
  unfold ProcessAlert
  split
  · exact .inl rfl
  · cases hthis : calls.Unserialize alert.vchMsg with
    | none => exact .inl rfl
    | some this => exact .inr ⟨this, rfl, rfl⟩

/-- What a checked call can do. -/
theorem processChecked_cases (nAdjustedTime : ℤ) (hash : uint256) (this : CUnsignedAlert)
    (mapAlerts : MapAlerts) :
    processChecked nAdjustedTime hash this mapAlerts = (false, mapAlerts) ∨
      this.IsInEffect nAdjustedTime = true ∧ (this.nID = INT_MAX → this.ReservedForm = true) ∧
        ((cancelPrevious nAdjustedTime this mapAlerts).any
            (fun item => item.2.Cancels nAdjustedTime this) = true ∧
          processChecked nAdjustedTime hash this mapAlerts =
            (false, cancelPrevious nAdjustedTime this mapAlerts) ∨
        (cancelPrevious nAdjustedTime this mapAlerts).any
            (fun item => item.2.Cancels nAdjustedTime this) = false ∧
          processChecked nAdjustedTime hash this mapAlerts =
            (true, insertAlert hash this (cancelPrevious nAdjustedTime this mapAlerts))) := by
  unfold processChecked
  split
  · exact .inl rfl
  · next heffect =>
      split
      · exact .inl rfl
      · next hform =>
          refine .inr ⟨by simpa using heffect, fun hID => ?_, ?_⟩
          · by_contra hno
            exact hform ⟨hID, by simpa using hno⟩
          · dsimp only
            split
            · next hcancelled => exact .inl ⟨hcancelled, rfl⟩
            · next hcancelled => exact .inr ⟨by simpa using hcancelled, rfl⟩

theorem mem_cancelPrevious {item : uint256 × CUnsignedAlert} :
    item ∈ cancelPrevious nAdjustedTime this mapAlerts ↔ item ∈ mapAlerts ∧
      this.Cancels nAdjustedTime item.2 = false ∧ item.2.IsInEffect nAdjustedTime = true := by
  simp [cancelPrevious]

theorem mem_insertAlert {item : uint256 × CUnsignedAlert}
    (h : item ∈ insertAlert hash this mapAlerts) : item ∈ mapAlerts ∨ item = (hash, this) := by
  unfold insertAlert at h
  split at h
  · exact .inl h
  · exact (List.mem_append.mp h).imp_right List.mem_singleton.mp

theorem subset_insertAlert {item : uint256 × CUnsignedAlert} (h : item ∈ mapAlerts) :
    item ∈ insertAlert hash this mapAlerts := by
  unfold insertAlert
  split
  · exact h
  · exact List.mem_append_left _ h

/-! ### Maps of a run -/

/-- Every entry is an alert that was read, under the hash of its message, and
one with the reserved number has the reserved form. -/
def AlertsRead (calls : AlertCalls) (read : CAlert → Prop) (mapAlerts : MapAlerts) : Prop :=
  ∀ item ∈ mapAlerts, (∃ alert, read alert ∧ item.1 = calls.Hash alert.vchMsg ∧
    calls.Unserialize alert.vchMsg = some item.2) ∧
    (item.2.nID = INT_MAX → item.2.ReservedForm = true)

theorem AlertsRead.processAlert {read : CAlert → Prop} (h : AlertsRead calls read mapAlerts)
    (hread : read alert) :
    AlertsRead calls read (ProcessAlert calls nAdjustedTime alert mapAlerts).2 := by
  rcases processAlert_cases calls nAdjustedTime alert mapAlerts with heq | ⟨this, hthis, heq⟩
  · rw [heq]
    exact h
  rcases processChecked_cases nAdjustedTime (calls.Hash alert.vchMsg) this mapAlerts with
    hchecked | ⟨_, hform, ⟨_, hchecked⟩ | ⟨_, hchecked⟩⟩
  · rw [heq, hchecked]
    exact h
  · rw [heq, hchecked]
    exact fun item hitem => h item (mem_cancelPrevious.mp hitem).1
  · rw [heq, hchecked]
    intro item hitem
    rcases mem_insertAlert hitem with hitem | rfl
    · exact h item (mem_cancelPrevious.mp hitem).1
    · exact ⟨⟨alert, hread, rfl, hthis⟩, hform⟩

theorem AlertsRead.run {read : CAlert → Prop} (h : AlertsRead calls read mapAlerts)
    (alerts : List (ℤ × CAlert)) (hread : ∀ call ∈ alerts, read call.2) :
    AlertsRead calls read (runAlerts calls alerts mapAlerts) := by
  induction alerts generalizing mapAlerts with
  | nil => exact h
  | cons call alerts ih =>
      exact ih (h.processAlert (hread call List.mem_cons_self))
        fun c hc => hread c (List.mem_cons_of_mem _ hc)

/-! ### Maps of final alerts -/

/-- All entries are final alerts. -/
def OnlyFinal (mapAlerts : MapAlerts) : Prop :=
  ∀ item ∈ mapAlerts, item.2.nID = INT_MAX ∧ item.2.ReservedForm = true

theorem reservedForm_fields {alert : CUnsignedAlert}
    (h : alert.ReservedForm = true) :
    alert.nExpiration = INT_MAX ∧ alert.nCancel = INT_MAX - 1 := by
  simp only [CUnsignedAlert.ReservedForm, Bool.and_eq_true, beq_iff_eq] at h
  exact ⟨h.1.1.1.1.1.1, h.1.1.1.1.1.2⟩

/-- Final alerts are in effect until the reserved expiration. -/
theorem OnlyFinal.cancelPrevious_eq (h : OnlyFinal mapAlerts) (htime : nAdjustedTime < INT_MAX)
    (hnames : ¬ NamesReserved this) :
    cancelPrevious nAdjustedTime this mapAlerts = mapAlerts := by
  rw [cancelPrevious, List.filter_eq_self]
  intro item hitem
  obtain ⟨hID, hform⟩ := h item hitem
  have hnot : INT_MAX ∉ this.setCancel := fun hmem => hnames (.inr hmem)
  have hlt : ¬ INT_MAX ≤ this.nCancel := fun hle => hnames (.inl hle)
  simp [CUnsignedAlert.Cancels, CUnsignedAlert.IsInEffect, hID,
    (reservedForm_fields hform).1, hlt, hnot, htime]

/-- The step lemma: a harmless call keeps the map, or adds a final alert. -/
theorem OnlyFinal.processChecked (h : OnlyFinal mapAlerts) (htime : nAdjustedTime < INT_MAX)
    (hnames : ¬ NamesReserved this) (hle : this.nID ≤ INT_MAX)
    {item : uint256 × CUnsignedAlert} (hitem : item ∈ mapAlerts) :
    OnlyFinal (processChecked nAdjustedTime hash this mapAlerts).2 ∧
      item ∈ (Spec.processChecked nAdjustedTime hash this mapAlerts).2 ∧
      (this.nID < INT_MAX →
        Spec.processChecked nAdjustedTime hash this mapAlerts = (false, mapAlerts)) := by
  have hcancel := h.cancelPrevious_eq htime hnames
  rcases processChecked_cases nAdjustedTime hash this mapAlerts with
    hchecked | ⟨_, hform, ⟨_, hchecked⟩ | ⟨hany, hchecked⟩⟩
  · rw [hchecked]
    exact ⟨h, hitem, fun _ => rfl⟩
  · rw [hchecked, hcancel]
    exact ⟨h, hitem, fun _ => rfl⟩
  · rw [hcancel] at hchecked hany
    have hreserved : ¬ this.nID < INT_MAX := by
      intro hlt
      obtain ⟨_, hform'⟩ := h item hitem
      have hcancels : item.2.Cancels nAdjustedTime this = true := by
        have hlow : this.nID ≤ INT_MAX - 1 := by omega
        simp [CUnsignedAlert.Cancels, CUnsignedAlert.IsInEffect, reservedForm_fields hform',
          htime, hlow]
      rw [List.any_eq_false] at hany
      exact hany item hitem hcancels
    have hID : this.nID = INT_MAX := by omega
    rw [hchecked]
    refine ⟨fun item' hitem' => ?_, subset_insertAlert hitem, fun hlt => absurd hlt hreserved⟩
    rcases mem_insertAlert hitem' with hitem' | rfl
    · exact h item' hitem'
    · exact ⟨hID, hform hID⟩

end

/-! ### The final alert -/

/-- After each of the calls the entry is in the map, and each call of an alert
below the reserved number is refused and leaves the map as it is. -/
def Irrevocable (calls : AlertCalls) (item : uint256 × CUnsignedAlert)
    (mapAlerts : MapAlerts) (later : List (ℤ × CAlert)) : Prop :=
  item ∈ runAlerts calls later mapAlerts ∧
    ∀ front call back, later = front ++ call :: back →
      item ∈ runAlerts calls front mapAlerts ∧
      ∀ alert, calls.Unserialize call.2.vchMsg = some alert → alert.nID < INT_MAX →
        ProcessAlert calls call.1 call.2 (runAlerts calls front mapAlerts) =
          (false, runAlerts calls front mapAlerts)

section
variable {calls : AlertCalls} {mapAlerts : MapAlerts} {item : uint256 × CUnsignedAlert}

/-- The step lemma for the calls of a run. -/
theorem OnlyFinal.processAlert (h : OnlyFinal mapAlerts) (hitem : item ∈ mapAlerts)
    {call : ℤ × CAlert} (hharmless : Harmless calls call) :
    OnlyFinal (ProcessAlert calls call.1 call.2 mapAlerts).2 ∧
      item ∈ (ProcessAlert calls call.1 call.2 mapAlerts).2 ∧
      ∀ alert, calls.Unserialize call.2.vchMsg = some alert → alert.nID < INT_MAX →
        ProcessAlert calls call.1 call.2 mapAlerts = (false, mapAlerts) := by
  rcases processAlert_cases calls call.1 call.2 mapAlerts with heq | ⟨this, hthis, heq⟩
  · rw [heq]
    exact ⟨h, hitem, fun _ _ _ => rfl⟩
  · rw [heq]
    obtain ⟨honly, hkept, hrefused⟩ := h.processChecked hharmless.1
      (hharmless.2 this hthis) (calls.nID_le _ _ hthis) hitem
    refine ⟨honly, hkept, fun alert halert hlt => hrefused ?_⟩
    rw [hthis, Option.some.injEq] at halert
    exact halert ▸ hlt

/-- The run lemma. -/
theorem OnlyFinal.irrevocable (h : OnlyFinal mapAlerts) (hitem : item ∈ mapAlerts)
    {later : List (ℤ × CAlert)} (hharmless : ∀ call ∈ later, Harmless calls call) :
    Irrevocable calls item mapAlerts later := by
  have hrun : ∀ front, front <+: later →
      OnlyFinal (runAlerts calls front mapAlerts) ∧ item ∈ runAlerts calls front mapAlerts := by
    intro front
    induction front using List.reverseRecOn with
    | nil => exact fun _ => ⟨h, hitem⟩
    | append_singleton front call ih =>
        intro hprefix
        obtain ⟨honly, hmem⟩ := ih ((List.prefix_append front [call]).trans hprefix)
        have hcall : call ∈ later := hprefix.subset (by simp)
        rw [runAlerts_concat]
        obtain ⟨honly', hmem', _⟩ := honly.processAlert hmem (hharmless call hcall)
        exact ⟨honly', hmem'⟩
  refine ⟨(hrun later List.prefix_rfl).2, ?_⟩
  rintro front call back rfl
  obtain ⟨honly, hmem⟩ := hrun front (List.prefix_append _ _)
  exact ⟨hmem, (honly.processAlert hmem (hharmless call (by simp))).2.2⟩

end

/-- An accepted alert with the reserved number stays, whatever came before it,
when the later calls are harmless.  Two messages of the run with one hash would
share an entry. -/
theorem finalAlert_irrevocable {calls : AlertCalls} {before later : List (ℤ × CAlert)}
    {nAdjustedTime : ℤ} {final : CAlert} {this : CUnsignedAlert}
    (hthis : calls.Unserialize final.vchMsg = some this) (hID : this.nID = INT_MAX)
    (hhash : ∀ call ∈ before, calls.Hash call.2.vchMsg = calls.Hash final.vchMsg →
      call.2.vchMsg = final.vchMsg)
    (haccepted : (ProcessAlert calls nAdjustedTime final (runAlerts calls before [])).1 = true)
    (hharmless : ∀ call ∈ later, Harmless calls call) :
    Irrevocable calls (calls.Hash final.vchMsg, this)
      (ProcessAlert calls nAdjustedTime final (runAlerts calls before [])).2 later := by
  have hread : AlertsRead calls (fun alert => ∃ call ∈ before, call.2 = alert)
      (runAlerts calls before []) := by
    apply AlertsRead.run
    · exact fun _ hitem => nomatch hitem
    · exact fun call hcall => ⟨call, hcall, rfl⟩
  rcases processAlert_cases calls nAdjustedTime final (runAlerts calls before []) with
    heq | ⟨this', hthis', heq⟩
  · rw [heq] at haccepted
    cases haccepted
  obtain rfl : this = this' := Option.some.inj (hthis.symm.trans hthis')
  rw [heq] at haccepted ⊢
  rcases processChecked_cases nAdjustedTime (calls.Hash final.vchMsg) this
    (runAlerts calls before []) with hchecked | ⟨heffect, hform, ⟨_, hchecked⟩ | ⟨_, hchecked⟩⟩
  · rw [hchecked] at haccepted
    cases haccepted
  · rw [hchecked] at haccepted
    cases haccepted
  rw [hchecked]
  have hcancel := (reservedForm_fields (hform hID)).2
  have honly : OnlyFinal (cancelPrevious nAdjustedTime this (runAlerts calls before [])) := by
    intro item hitem
    obtain ⟨hmem, hkept, _⟩ := mem_cancelPrevious.mp hitem
    obtain ⟨⟨alert, _, _, halert⟩, hitemForm⟩ := hread item hmem
    have hle := calls.nID_le _ _ halert
    have hlow : ¬ item.2.nID ≤ INT_MAX - 1 := by
      intro hlow
      simp [CUnsignedAlert.Cancels, heffect, hcancel, hlow] at hkept
    have hreserved : item.2.nID = INT_MAX := by omega
    exact ⟨hreserved, hitemForm hreserved⟩
  apply OnlyFinal.irrevocable
  · intro item hitem
    rcases mem_insertAlert hitem with hitem | rfl
    · exact honly item hitem
    · exact ⟨hID, hform hID⟩
  · rw [insertAlert]
    split
    · next hthere =>
        obtain ⟨item, hitem, hkey⟩ := List.any_eq_true.mp hthere
        rw [beq_iff_eq] at hkey
        obtain ⟨⟨alert, ⟨call, hcall, rfl⟩, hitemHash, halert⟩, _⟩ :=
          hread item (mem_cancelPrevious.mp hitem).1
        rw [hhash call hcall (hitemHash.symm.trans hkey), hthis, Option.some.injEq] at halert
        have hentry : (calls.Hash final.vchMsg, this) = item := Prod.ext hkey.symm halert
        rw [hentry]
        exact hitem
    · exact List.mem_append_right _ (List.mem_singleton.mpr rfl)
  · exact hharmless

/-! ### An alert that names the reserved number -/

/-- The final alert. -/
def reservedAlert : CUnsignedAlert :=
  { nExpiration := INT_MAX, nID := INT_MAX, nCancel := INT_MAX - 1, setCancel := [],
    nMinVer := 0, nMaxVer := INT_MAX, setSubVer := [], nPriority := INT_MAX,
    strStatusBar := "URGENT: Alert key compromised, upgrade required" }

/-- An alert with number 1 that cancels all numbers up to `nCancel`. -/
def lowAlert (nCancel : ℤ) : CUnsignedAlert :=
  { nExpiration := INT_MAX, nID := 1, nCancel, setCancel := [], nMinVer := 0,
    nMaxVer := INT_MAX, setSubVer := [], nPriority := 0, strStatusBar := "all is well" }

/-- The empty message is the final alert, and one more byte makes a message the
other one; all signatures are valid. -/
def twoAlerts (nCancel : ℤ) : AlertCalls where
  Hash vchMsg := vchMsg.length
  Verify _ _ := true
  Unserialize vchMsg := some (if vchMsg = [] then reservedAlert else lowAlert nCancel)
  nID_le vchMsg alert h := by
    rw [Option.some.injEq] at h
    subst h
    split
    · exact le_rfl
    · show (1 : ℤ) ≤ 2147483647
      decide

/-- An alert that cancels all numbers below the reserved one comes too late. -/
theorem finalAlert_irrevocable_lowAlert :
    Irrevocable (twoAlerts (INT_MAX - 1)) (0, reservedAlert)
      (ProcessAlert (twoAlerts (INT_MAX - 1)) 5 ⟨[], []⟩
        (runAlerts (twoAlerts (INT_MAX - 1)) [(4, ⟨[0], []⟩)] [])).2 [(6, ⟨[0], []⟩)] := by
  have hother : ∀ call ∈ [((4 : ℤ), (⟨[0], []⟩ : CAlert))],
      (twoAlerts (INT_MAX - 1)).Hash call.2.vchMsg =
        (twoAlerts (INT_MAX - 1)).Hash (⟨[], []⟩ : CAlert).vchMsg →
      call.2.vchMsg = (⟨[], []⟩ : CAlert).vchMsg := by
    intro call hcall hhash
    rw [List.mem_singleton.mp hcall] at hhash
    cases hhash
  apply @finalAlert_irrevocable (twoAlerts (INT_MAX - 1)) [(4, ⟨[0], []⟩)] _ 5 ⟨[], []⟩
    reservedAlert rfl rfl hother (by decide)
  intro call hcall
  rw [List.mem_singleton.mp hcall]
  refine ⟨by decide, fun alert halert => ?_⟩
  obtain rfl : lowAlert (INT_MAX - 1) = alert := Option.some.inj halert
  simp [NamesReserved, lowAlert]

/-- An alert with number 1 whose `nCancel` is the reserved number removes the
final alert and is accepted. -/
theorem not_finalAlert_irrevocable :
    (ProcessAlert (twoAlerts INT_MAX) 5 ⟨[], []⟩ []).1 = true ∧
      ProcessAlert (twoAlerts INT_MAX) 6 ⟨[0], []⟩
        (ProcessAlert (twoAlerts INT_MAX) 5 ⟨[], []⟩ []).2 =
          (true, [(1, lowAlert INT_MAX)]) ∧
      ¬ Irrevocable (twoAlerts INT_MAX) (0, reservedAlert)
        (ProcessAlert (twoAlerts INT_MAX) 5 ⟨[], []⟩ []).2 [(6, ⟨[0], []⟩)] := by
  refine ⟨by decide, by decide, fun h => ?_⟩
  have hgone : (0, reservedAlert) ∉ runAlerts (twoAlerts INT_MAX) [(6, ⟨[0], []⟩)]
      (ProcessAlert (twoAlerts INT_MAX) 5 ⟨[], []⟩ []).2 := by decide
  exact hgone h.1

end Ziftrcoin.Spec
