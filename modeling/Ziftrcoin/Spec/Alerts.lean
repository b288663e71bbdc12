/-
Module: Ziftrcoin.Spec.Alerts
Purpose: Network alerts: which ones are accepted, and which ones they cancel.
Trusted boundary: human-reviewed model of src/alert.h, src/alert.cpp
Main exports: CUnsignedAlert, CAlert, IsInEffect
-/
import Ziftrcoin.Spec.Bytes

namespace Ziftrcoin.Spec

/-- `std::numeric_limits<int>::max()`. -/
def INT_MAX : Int := 2147483647

/-- The fields of an alert that decide about its acceptance. -/
structure CUnsignedAlert where
  nExpiration : Int
  nID : Int
  nCancel : Int
  setCancel : List Int
  nMinVer : Int
  nMaxVer : Int
  setSubVer : List String
  nPriority : Int
  strStatusBar : String
deriving Repr, DecidableEq, Inhabited

/-- An alert as it is sent. -/
structure CAlert where
  vchMsg : valtype
  vchSig : valtype
deriving Repr, DecidableEq, Inhabited

/-- What alerts depend on outside of `alert.cpp`: the hash of a message, the
alert key, and the deserialisation of an alert, which throws on `none`.  The
number of an alert is read into an `int`. -/
structure AlertCalls where
  Hash : valtype → uint256
  Verify : uint256 → valtype → Bool
  Unserialize : valtype → Option CUnsignedAlert
  nID_le : ∀ vchMsg alert, Unserialize vchMsg = some alert → alert.nID ≤ INT_MAX

namespace CUnsignedAlert

def IsInEffect (nAdjustedTime : Int) (alert : CUnsignedAlert) : Bool :=
  decide (nAdjustedTime < alert.nExpiration)

/-- `this->Cancels(alert)`. -/
def Cancels (nAdjustedTime : Int) (this alert : CUnsignedAlert) : Bool :=
  this.IsInEffect nAdjustedTime &&
    (decide (alert.nID ≤ this.nCancel) || this.setCancel.contains alert.nID)

/-- The only form in which the reserved number is accepted. -/
def ReservedForm (alert : CUnsignedAlert) : Bool :=
  alert.nExpiration == INT_MAX && alert.nCancel == INT_MAX - 1 &&
    alert.nMinVer == 0 && alert.nMaxVer == INT_MAX && alert.setSubVer.isEmpty &&
    alert.nPriority == INT_MAX &&
    alert.strStatusBar == "URGENT: Alert key compromised, upgrade required"

end CUnsignedAlert

/-- `mapAlerts`. -/
abbrev MapAlerts := List (uint256 × CUnsignedAlert)

/-- The loop that cancels previous alerts. -/
def cancelPrevious (nAdjustedTime : Int) (this : CUnsignedAlert)
    (mapAlerts : MapAlerts) : MapAlerts :=
  mapAlerts.filter fun item =>
    !this.Cancels nAdjustedTime item.2 && item.2.IsInEffect nAdjustedTime

/-- `mapAlerts.insert`, which leaves an entry that is there. -/
def insertAlert (hash : uint256) (this : CUnsignedAlert)
    (mapAlerts : MapAlerts) : MapAlerts :=
  if mapAlerts.any (fun item => item.1 == hash) then mapAlerts
  else mapAlerts ++ [(hash, this)]

/-- `CAlert::ProcessAlert` behind the signature check. -/
def processChecked (nAdjustedTime : Int) (hash : uint256)
    (this : CUnsignedAlert) (mapAlerts : MapAlerts) : Bool × MapAlerts :=
  if this.IsInEffect nAdjustedTime = false then (false, mapAlerts)
  else if this.nID = INT_MAX ∧ this.ReservedForm = false then (false, mapAlerts)
  else
    let mapAlerts := cancelPrevious nAdjustedTime this mapAlerts
    if mapAlerts.any (fun item => item.2.Cancels nAdjustedTime this) then
      (false, mapAlerts)
    else (true, insertAlert hash this mapAlerts)

/-- `CAlert::ProcessAlert`: whether it returns true, and the map it leaves.  An
alert that cannot be deserialised makes it throw before it comes to the map. -/
def ProcessAlert (calls : AlertCalls) (nAdjustedTime : Int) (alert : CAlert)
    (mapAlerts : MapAlerts) : Bool × MapAlerts :=
  if calls.Verify (calls.Hash alert.vchMsg) alert.vchSig = false then
    (false, mapAlerts)
  else
    match calls.Unserialize alert.vchMsg with
    | none => (false, mapAlerts)
    | some this =>
        processChecked nAdjustedTime (calls.Hash alert.vchMsg) this mapAlerts

end Ziftrcoin.Spec
