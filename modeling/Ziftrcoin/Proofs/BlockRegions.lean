/-
Module: Ziftrcoin.Proofs.BlockRegions
Purpose: Blocks and undo data get regions of the block files that nothing else
  is in, as long as no known position leaves a gap.
Trusted boundary: none
Main exports: BlockFiles.recorded, blockRegions_apart
-/
import Ziftrcoin.Spec.BlockFiles
import Mathlib.Data.List.Basic

namespace Ziftrcoin.Spec

open Ziftrcoin.Lib

/-! ### What the node knows about its files -/

/-- The information about a file that `FindBlockPos` and `FindUndoPos` work
with. -/
def BlockFiles.recorded (s : BlockFiles) (nFile : ℤ) : CBlockFileInfo :=
  if nFile = s.nLastBlockFile then s.infoLastBlockFile else s.read nFile

namespace BlockFiles

variable {s : BlockFiles} {nFile : ℤ} {info : CBlockFileInfo}

theorem recorded_last : s.recorded s.nLastBlockFile = s.infoLastBlockFile :=
  if_pos rfl

theorem recorded_of_ne (h : nFile ≠ s.nLastBlockFile) : s.recorded nFile = s.read nFile :=
  if_neg h

@[simp] theorem read_goTo : (s.goTo nFile).read = s.read := rfl

/-- What was kept in memory about the file before is forgotten. -/
@[simp] theorem recorded_goTo : (s.goTo nFile).recorded = s.read := by
  funext f
  by_cases hf : f = nFile
  · subst hf
    exact if_pos rfl
  · exact if_neg hf

@[simp] theorem goTo_goTo {nFile' : ℤ} : (s.goTo nFile).goTo nFile' = s.goTo nFile' := rfl

@[simp] theorem read_write : (s.write nFile info).read = Function.update s.read nFile info := by
  funext f
  by_cases hf : f = nFile
  · subst hf
    simp [read, write]
  · simp [read, write, hf]

/-- Information that is only kept in memory. -/
theorem recorded_setInfo :
    ({ s with infoLastBlockFile := info } : BlockFiles).recorded =
      Function.update s.recorded s.nLastBlockFile info := by
  funext f
  by_cases hf : f = s.nLastBlockFile
  · subst hf
    rw [Function.update_self]
    exact if_pos rfl
  · rw [Function.update_of_ne hf, recorded_of_ne hf]
    exact if_neg hf

theorem recorded_write_last :
    (({ s with infoLastBlockFile := info } : BlockFiles).write s.nLastBlockFile
      info).recorded = Function.update s.recorded s.nLastBlockFile info := by
  funext f
  by_cases hf : f = s.nLastBlockFile
  · subst hf
    rw [Function.update_self]
    exact if_pos rfl
  · rw [Function.update_of_ne hf, recorded_of_ne hf]
    refine (if_neg hf).trans ?_
    rw [read_write, Function.update_of_ne hf]
    rfl

theorem recorded_write_of_ne (h : nFile ≠ s.nLastBlockFile) :
    (s.write nFile info).recorded = Function.update s.recorded nFile info := by
  funext f
  by_cases hf : f = nFile
  · subst hf
    rw [Function.update_self]
    refine (if_neg h).trans ?_
    rw [read_write, Function.update_self]
  · rw [Function.update_of_ne hf]
    by_cases hlast : f = s.nLastBlockFile
    · subst hlast
      exact (if_pos rfl).trans (recorded_last (s := s)).symm
    · rw [recorded_of_ne hlast]
      refine (if_neg hlast).trans ?_
      rw [read_write, Function.update_of_ne hf]

end BlockFiles

/-! ### Regions below the recorded sizes -/

/-- The regions end below the sizes in the database and below those the node
works with. -/
def Covers (g : CBlockFileInfo → ℕ) (regions : List (Region ℤ)) (s : BlockFiles) : Prop :=
  BelowMark (g ∘ s.read) regions ∧ BelowMark (g ∘ s.recorded) regions

namespace Covers

variable {g : CBlockFileInfo → ℕ} {regions : List (Region ℤ)} {s s' : BlockFiles}
  {nFile : ℤ} {info : CBlockFileInfo}

theorem goTo (h : Covers g regions s) (nFile : ℤ) : Covers g regions (s.goTo nFile) := by
  constructor
  · exact h.1
  · rw [BlockFiles.recorded_goTo]
    exact h.1

/-- A file gets information that is only kept in memory. -/
theorem remember (h : Covers g regions s) (hread : s'.read = s.read)
    (hrecorded : s'.recorded = Function.update s.recorded nFile info)
    (hgrow : g (s.recorded nFile) ≤ g info) : Covers g regions s' := by
  constructor
  · rw [hread]
    exact h.1
  · rw [hrecorded, Function.comp_update]
    apply h.2.update
    intro r hr hmedium
    have hstop := h.2 r hr
    rw [hmedium] at hstop
    exact hstop.trans hgrow

/-- A file gets information that is written to the database as well. -/
theorem store (h : Covers g regions s) (hread : s'.read = Function.update s.read nFile info)
    (hrecorded : s'.recorded = Function.update s.recorded nFile info)
    (hgrow : g (s.recorded nFile) ≤ g info) : Covers g regions s' := by
  have hbelow : ∀ r ∈ regions, r.medium = nFile → r.stop ≤ g info := by
    intro r hr hmedium
    have hstop := h.2 r hr
    rw [hmedium] at hstop
    exact hstop.trans hgrow
  constructor
  · rw [hread, Function.comp_update]
    exact h.1.update hbelow
  · rw [hrecorded, Function.comp_update]
    exact h.2.update hbelow

theorem cons {r : Region ℤ} (h : Covers g regions s)
    (hread : r.stop ≤ g (s.read r.medium)) (hrecorded : r.stop ≤ g (s.recorded r.medium)) :
    Covers g (r :: regions) s :=
  ⟨h.1.cons hread, h.2.cons hrecorded⟩

end Covers

structure FilesSound (s : BlockFiles) : Prop where
  accepted : Covers CBlockFileInfo.nSize s.accepted s
  undone : Covers CBlockFileInfo.nUndoSize s.undone s
  acceptedApart : s.accepted.Pairwise Region.Apart
  undoneApart : s.undone.Pairwise Region.Apart

namespace FilesSound

variable {s s' : BlockFiles} {nFile : ℤ} {info : CBlockFileInfo}

theorem new : FilesSound .new where
  accepted := ⟨BelowMark.nil, BelowMark.nil⟩
  undone := ⟨BelowMark.nil, BelowMark.nil⟩
  acceptedApart := List.Pairwise.nil
  undoneApart := List.Pairwise.nil

theorem goTo (h : FilesSound s) (nFile : ℤ) : FilesSound (s.goTo nFile) where
  accepted := h.accepted.goTo nFile
  undone := h.undone.goTo nFile
  acceptedApart := h.acceptedApart
  undoneApart := h.undoneApart

theorem remember (h : FilesSound s)
    (hsize : s.infoLastBlockFile.nSize ≤ info.nSize)
    (hundo : s.infoLastBlockFile.nUndoSize ≤ info.nUndoSize) :
    FilesSound { s with infoLastBlockFile := info } where
  accepted :=
    h.accepted.remember rfl BlockFiles.recorded_setInfo
      (by rw [BlockFiles.recorded_last]; exact hsize)
  undone :=
    h.undone.remember rfl BlockFiles.recorded_setInfo
      (by rw [BlockFiles.recorded_last]; exact hundo)
  acceptedApart := h.acceptedApart
  undoneApart := h.undoneApart

theorem store (h : FilesSound s) (hread : s'.read = Function.update s.read nFile info)
    (hrecorded : s'.recorded = Function.update s.recorded nFile info)
    (hsize : (s.recorded nFile).nSize ≤ info.nSize)
    (hundo : (s.recorded nFile).nUndoSize ≤ info.nUndoSize)
    (haccepted : s'.accepted = s.accepted) (hundone : s'.undone = s.undone) :
    FilesSound s' where
  accepted := haccepted ▸ h.accepted.store hread hrecorded hsize
  undone := hundone ▸ h.undone.store hread hrecorded hundo
  acceptedApart := haccepted ▸ h.acceptedApart
  undoneApart := hundone ▸ h.undoneApart

theorem accept {r : Region ℤ} (h : FilesSound s) (hread : r.stop ≤ (s.read r.medium).nSize)
    (hrecorded : r.stop ≤ (s.recorded r.medium).nSize)
    (hapart : ∀ r' ∈ s.accepted, r.Apart r') :
    FilesSound { s with accepted := r :: s.accepted } where
  accepted := h.accepted.cons hread hrecorded
  undone := h.undone
  acceptedApart := List.Pairwise.cons hapart h.acceptedApart
  undoneApart := h.undoneApart

theorem undo {r : Region ℤ} (h : FilesSound s) (hread : r.stop ≤ (s.read r.medium).nUndoSize)
    (hrecorded : r.stop ≤ (s.recorded r.medium).nUndoSize)
    (hapart : ∀ r' ∈ s.undone, r.Apart r') :
    FilesSound { s with undone := r :: s.undone } where
  accepted := h.accepted
  undone := h.undone.cons hread hrecorded
  acceptedApart := h.acceptedApart
  undoneApart := List.Pairwise.cons hapart h.undoneApart

end FilesSound

/-! ### Choosing a file -/

/-- The node went on to the file of `t`, and knows about it what it knew. -/
structure WentTo (s t : BlockFiles) : Prop where
  state : t = s ∨ ∃ nFile, t = s.goTo nFile
  info : t.infoLastBlockFile = s.recorded t.nLastBlockFile

namespace WentTo

variable {s t : BlockFiles}

theorem refl : WentTo s s where
  state := .inl rfl
  info := BlockFiles.recorded_last.symm

theorem goTo {nFile : ℤ} (h : nFile ≠ s.nLastBlockFile) : WentTo s (s.goTo nFile) where
  state := .inr ⟨nFile, rfl⟩
  info := (BlockFiles.recorded_of_ne h).symm

theorem sound (h : WentTo s t) (hs : FilesSound s) : FilesSound t := by
  rcases h.state with rfl | ⟨nFile, rfl⟩
  · exact hs
  · exact hs.goTo nFile

theorem accepted (h : WentTo s t) : t.accepted = s.accepted := by
  rcases h.state with rfl | ⟨nFile, rfl⟩ <;> rfl

theorem undone (h : WentTo s t) : t.undone = s.undone := by
  rcases h.state with rfl | ⟨nFile, rfl⟩ <;> rfl

end WentTo

/-- Every round goes to a later file. -/
theorem leaveFullFiles_meets {nAddSize : ℕ} :
    ∀ {rounds : ℕ} {s : BlockFiles},
      (leaveFullFiles nAddSize rounds s).Meets
        (fun _ t => t = s ∨ ∃ nFile, s.nLastBlockFile < nFile ∧ t = s.goTo nFile)
        (fun _ _ => False) (fun _ => True) := by
  intro rounds
  induction rounds with
  | zero =>
      intro s
      trivial
  | succ rounds ih =>
      intro s
      unfold leaveFullFiles
      rw [Machine.get_bind_run]
      apply Meets.ite
      · intro _
        rw [Machine.modify_bind_run]
        apply Meets.bind ih
        rintro _ t (rfl | ⟨nFile, hlt, rfl⟩)
        · exact .inr ⟨_, Int.lt_succ _, rfl⟩
        · exact .inr ⟨nFile, (Int.lt_succ _).trans hlt, rfl⟩
      · intro _
        exact .inl rfl

/-- The file is the one of the known position, or a new position is its end. -/
structure Chosen (dbp : Option CDiskBlockPos) (s : BlockFiles) (pos : CDiskBlockPos)
    (t : BlockFiles) : Prop where
  wentTo : WentTo s t
  file : pos.nFile = t.nLastBlockFile
  known : ∀ pos', dbp = some pos' → pos = pos'
  fresh : dbp = none → pos.nPos = t.infoLastBlockFile.nSize

theorem chooseBlockFile_meets {rounds : ℕ} {dbp : Option CDiskBlockPos} {nAddSize : ℕ}
    {s : BlockFiles} :
    (chooseBlockFile rounds dbp nAddSize s).Meets (fun p t => Chosen dbp s p.1 t)
      (fun _ _ => False) (fun _ => True) := by
  cases dbp with
  | some pos =>
      dsimp only [chooseBlockFile]
      rw [Machine.get_bind_run, Machine.modify_bind_run]
      apply Meets.done
      split
      · rename_i hne
        exact ⟨.goTo hne.symm, rfl, fun _ h => Option.some.inj h, fun h => nomatch h⟩
      · rename_i heq
        exact ⟨.refl, (not_not.mp heq).symm, fun _ h => Option.some.inj h, fun h => nomatch h⟩
  | none =>
      apply Meets.bind leaveFullFiles_meets
      intro b t ht
      rw [Machine.get_bind_run]
      apply Meets.done
      refine ⟨?_, rfl, fun _ h => (nomatch h), fun _ => rfl⟩
      rcases ht with rfl | ⟨nFile, hlt, rfl⟩
      · exact .refl
      · exact .goTo hlt.ne'

/-! ### Positions that leave no gap -/

/-- A known position is behind a header and behind the blocks that were accepted
in its file. -/
def Onward (s : BlockFiles) (pos : CDiskBlockPos) : Prop :=
  8 ≤ pos.nPos ∧ ∀ r ∈ s.accepted, r.medium = pos.nFile → r.stop + 8 ≤ pos.nPos

/-- A known position is not beyond the recorded size of its file, and no size
overflows. -/
def PosFits (s : BlockFiles) (nAddSize : ℕ) : Option CDiskBlockPos → Prop
  | some pos =>
      Onward s pos ∧ pos.nPos ≤ (s.recorded pos.nFile).nSize + 8 ∧
        (s.recorded pos.nFile).nSize + nAddSize < 2 ^ 32
  | none => ∀ nFile, (s.recorded nFile).nSize + nAddSize < 2 ^ 32

/-- The region of a block is part of its file, and apart from all others. -/
structure BlockPlaced (s s' : BlockFiles) (r : Region ℤ) : Prop where
  sound : FilesSound s'
  accepted : s'.accepted = s.accepted
  read : r.stop ≤ (s'.read r.medium).nSize
  recorded : r.stop ≤ (s'.recorded r.medium).nSize
  apart : ∀ r' ∈ s.accepted, r.Apart r'

variable {s t : BlockFiles} {dbp : Option CDiskBlockPos} {pos : CDiskBlockPos}
  {nAddSize : ℕ}

namespace Chosen

theorem noOverflow (h : Chosen dbp s pos t) (hfits : PosFits s nAddSize dbp) :
    t.infoLastBlockFile.nSize + nAddSize < 2 ^ 32 := by
  rw [h.wentTo.info]
  cases dbp with
  | some pos' =>
      obtain rfl := h.known pos' rfl
      rw [← h.file]
      exact hfits.2.2
  | none => exact hfits t.nLastBlockFile

theorem start_le (h : Chosen dbp s pos t) (hfits : PosFits s nAddSize dbp) (hadd : 8 ≤ nAddSize) :
    (blockRegion (storedPos dbp pos) nAddSize).start ≤ t.infoLastBlockFile.nSize := by
  have hlt := h.noOverflow hfits
  cases dbp with
  | some pos' =>
      obtain rfl := h.known pos' rfl
      rw [h.wentTo.info, ← h.file]
      exact Nat.sub_le_of_le_add hfits.2.1
  | none =>
      change uint32 (pos.nPos + 8) - 8 ≤ _
      rw [h.fresh rfl, uint32, Nat.mod_eq_of_lt (by omega), Nat.add_sub_cancel]

theorem apart (h : Chosen dbp s pos t) (hs : FilesSound s) (hfits : PosFits s nAddSize dbp)
    (hadd : 8 ≤ nAddSize) :
    ∀ r ∈ s.accepted, (blockRegion (storedPos dbp pos) nAddSize).Apart r := by
  cases dbp with
  | some pos' =>
      obtain rfl := h.known pos' rfl
      intro r hr
      apply Region.apart_of_le
      intro hmedium
      exact Nat.le_sub_of_add_le (hfits.1.2 r hr hmedium.symm)
  | none =>
      have hlt := h.noOverflow hfits
      rw [← h.wentTo.accepted]
      apply (h.wentTo.sound hs).accepted.2.apart
      change (t.recorded pos.nFile).nSize ≤ uint32 (pos.nPos + 8) - 8
      rw [h.file, BlockFiles.recorded_last, h.fresh rfl, uint32,
        Nat.mod_eq_of_lt (by omega), Nat.add_sub_cancel]

end Chosen

theorem medium_blockRegion : (blockRegion (storedPos dbp pos) nAddSize).medium = pos.nFile := by
  cases dbp <;> rfl

/-! ### Finding a position -/

/-- The information after a block of `nAddSize` bytes was added. -/
def CBlockFileInfo.grow (info : CBlockFileInfo) (nAddSize nHeight nTime : ℕ) :
    CBlockFileInfo :=
  { info with nSize := uint32 (info.nSize + nAddSize) }.AddBlock nHeight nTime

theorem nSize_grow {info : CBlockFileInfo} {nHeight nTime : ℕ}
    (h : info.nSize + nAddSize < 2 ^ 32) :
    (info.grow nAddSize nHeight nTime).nSize = info.nSize + nAddSize :=
  Nat.mod_eq_of_lt h

theorem blockPlaced_store {info : CBlockFileInfo} {s' : BlockFiles}
    (hchosen : Chosen dbp s pos t) (hs : FilesSound s) (hfits : PosFits s nAddSize dbp)
    (hadd : 8 ≤ nAddSize)
    (hread : s'.read = Function.update t.read t.nLastBlockFile info)
    (hrecorded : s'.recorded = Function.update t.recorded t.nLastBlockFile info)
    (hsize : info.nSize = t.infoLastBlockFile.nSize + nAddSize)
    (hundo : info.nUndoSize = t.infoLastBlockFile.nUndoSize)
    (haccepted : s'.accepted = t.accepted) (hundone : s'.undone = t.undone) :
    BlockPlaced s s' (blockRegion (storedPos dbp pos) nAddSize) := by
  have hstop : (blockRegion (storedPos dbp pos) nAddSize).stop ≤ info.nSize := by
    rw [hsize]
    exact Nat.add_le_add_right (hchosen.start_le hfits hadd) nAddSize
  constructor
  · apply (hchosen.wentTo.sound hs).store hread hrecorded _ _ haccepted hundone
    · rw [BlockFiles.recorded_last, hsize]
      exact Nat.le_add_right _ _
    · rw [BlockFiles.recorded_last, hundo]
  · exact haccepted.trans hchosen.wentTo.accepted
  · rw [medium_blockRegion, hchosen.file, hread, Function.update_self]
    exact hstop
  · rw [medium_blockRegion, hchosen.file, hrecorded, Function.update_self]
    exact hstop
  · exact hchosen.apart hs hfits hadd

theorem findBlockPos_meets {answers : DiskAnswers} {rounds nHeight nTime : ℕ}
    (hs : FilesSound s) (hfits : PosFits s nAddSize dbp) (hadd : 8 ≤ nAddSize) :
    (FindBlockPos answers rounds dbp nAddSize nHeight nTime s).Meets
      (fun pos s' => BlockPlaced s s' (blockRegion (storedPos dbp pos) nAddSize))
      (fun _ s' => FilesSound s') (fun _ => True) := by
  apply Meets.bind (Meets.mono chooseBlockFile_meets (fun _ _ h => h)
    (fun _ _ h => h.elim) (fun _ h => h))
  rintro ⟨pos, fUpdatedLast⟩ t hchosen
  dsimp only
  rw [Machine.modify_bind_run, Machine.get_bind_run]
  have hlt := hchosen.noOverflow hfits
  have hmemory : FilesSound
      { t with infoLastBlockFile := t.infoLastBlockFile.grow nAddSize nHeight nTime } := by
    apply (hchosen.wentTo.sound hs).remember
    · rw [nSize_grow hlt]
      exact Nat.le_add_right _ _
    · rfl
  apply Meets.ite
  · intro _
    exact hmemory
  · intro _
    apply Meets.ite
    · intro _
      exact hmemory
    · intro _
      rw [Machine.modify_bind_run, Machine.modify_bind_run]
      apply Meets.done
      dsimp only
      split <;>
        exact blockPlaced_store hchosen hs hfits hadd BlockFiles.read_write
          (@BlockFiles.recorded_write_last t _) (nSize_grow hlt) rfl rfl rfl

/-! ### Undo data -/

structure UndoPlaced (s s' : BlockFiles) (r : Region ℤ) : Prop where
  sound : FilesSound s'
  undone : s'.undone = s.undone
  read : r.stop ≤ (s'.read r.medium).nUndoSize
  recorded : r.stop ≤ (s'.recorded r.medium).nUndoSize
  apart : ∀ r' ∈ s.undone, r.Apart r'

theorem undoPlaced_store {nFile : ℤ} {info : CBlockFileInfo} {s' : BlockFiles}
    (hs : FilesSound s)
    (hread : s'.read = Function.update s.read nFile info)
    (hrecorded : s'.recorded = Function.update s.recorded nFile info)
    (hsize : info.nSize = (s.recorded nFile).nSize)
    (hundo : info.nUndoSize = (s.recorded nFile).nUndoSize + nAddSize)
    (haccepted : s'.accepted = s.accepted) (hundone : s'.undone = s.undone) :
    UndoPlaced s s'
      (undoRegion { nFile, nPos := (s.recorded nFile).nUndoSize } nAddSize) := by
  constructor
  · apply hs.store hread hrecorded _ _ haccepted hundone
    · rw [hsize]
    · rw [hundo]
      exact Nat.le_add_right _ _
  · exact hundone
  · change (s.recorded nFile).nUndoSize + nAddSize ≤ (s'.read nFile).nUndoSize
    rw [hread, Function.update_self, hundo]
  · change (s.recorded nFile).nUndoSize + nAddSize ≤ (s'.recorded nFile).nUndoSize
    rw [hrecorded, Function.update_self, hundo]
  · exact hs.undone.2.apart le_rfl

theorem growUndo_meets {answers : DiskAnswers} {nFile : ℤ} (hs : FilesSound s)
    (hfits : (s.recorded nFile).nUndoSize + nAddSize < 2 ^ 32) :
    (growUndo answers nFile nAddSize (s.recorded nFile) s).Meets
      (fun pos s' => UndoPlaced s s' (undoRegion pos nAddSize))
      (fun _ s' => FilesSound s') (fun _ => True) := by
  have hsum : uint32 ((s.recorded nFile).nUndoSize + nAddSize) =
      (s.recorded nFile).nUndoSize + nAddSize := Nat.mod_eq_of_lt hfits
  unfold growUndo
  dsimp only
  rw [Machine.modify_bind_run, hsum]
  by_cases hlast : nFile = s.nLastBlockFile
  · subst hlast
    rw [if_pos rfl]
    have hplaced := undoPlaced_store hs (by exact BlockFiles.read_write)
      (@BlockFiles.recorded_write_last s
        { s.recorded s.nLastBlockFile with
          nUndoSize := (s.recorded s.nLastBlockFile).nUndoSize + nAddSize })
      rfl rfl rfl rfl
    apply Meets.ite
    · intro _
      apply hs.remember
      · rw [BlockFiles.recorded_last]
      · rw [BlockFiles.recorded_last]
        exact Nat.le_add_right _ _
    · intro _
      rw [Machine.modify_bind_run]
      exact Meets.ite (fun _ => hplaced.sound) (fun _ => hplaced)
  · rw [if_neg hlast]
    have hplaced := undoPlaced_store hs BlockFiles.read_write
      (@BlockFiles.recorded_write_of_ne s nFile
        { s.recorded nFile with
          nUndoSize := (s.recorded nFile).nUndoSize + nAddSize } hlast)
      rfl rfl rfl rfl
    apply Meets.ite
    · intro _
      exact hs
    · intro _
      rw [Machine.modify_bind_run]
      exact Meets.ite (fun _ => hplaced.sound) (fun _ => hplaced)

theorem findUndoPos_meets {answers : DiskAnswers} {nFile : ℤ} (hs : FilesSound s)
    (hfits : (s.recorded nFile).nUndoSize + nAddSize < 2 ^ 32) :
    (FindUndoPos answers nFile nAddSize s).Meets
      (fun pos s' => UndoPlaced s s' (undoRegion pos nAddSize))
      (fun _ s' => FilesSound s') (fun _ => True) := by
  have hgrow := @growUndo_meets s nAddSize answers nFile hs hfits
  unfold FindUndoPos
  rw [Machine.get_bind_run]
  apply Meets.ite
  · rintro rfl
    rw [BlockFiles.recorded_last] at hgrow
    exact hgrow
  · intro hne
    rw [BlockFiles.recorded_of_ne hne, BlockFiles.read] at hgrow
    cases hinfo : s.fileInfo nFile with
    | none => exact hs
    | some info =>
        rw [hinfo] at hgrow
        exact hgrow

/-! ### Runs -/

/-- The condition on a call: no position leaves a gap, no size overflows. -/
def Ungapped (s : BlockFiles) : FileCall → Prop
  | .acceptBlock _ _ dbp nBlockSize _ _ =>
      nBlockSize + 8 < 2 ^ 32 ∧ PosFits s (nBlockSize + 8) dbp
  | .connectBlock _ nFile nAddSize => (s.recorded nFile).nUndoSize + nAddSize < 2 ^ 32
  | .restart => True

/-- The calls came one after another, each under the condition. -/
inductive FileRun (P : BlockFiles → FileCall → Prop) (s : BlockFiles) :
    BlockFiles → Prop where
  | start : FileRun P s s
  | step {t u : BlockFiles} {call : FileCall} (h : FileRun P s t) (hcall : P t call)
      (hleaves : call.Leaves t u) : FileRun P s u

theorem FilesSound.run {call : FileCall} (hs : FilesSound s) (hcall : Ungapped s call) :
    (call.run s).Meets (fun _ => FilesSound) (fun _ => FilesSound) (fun _ => True) := by
  cases call with
  | acceptBlock answers rounds dbp nBlockSize nHeight nTime =>
      dsimp only [FileCall.run, AcceptBlock_store]
      rw [uint32, Nat.mod_eq_of_lt hcall.1]
      apply Meets.bind (findBlockPos_meets hs hcall.2 (Nat.le_add_left _ _))
      intro pos s' hplaced
      apply Meets.ite
      · intro _
        exact hplaced.sound
      · intro _
        apply Meets.ite
        · intro _
          exact hplaced.sound
        · intro _
          apply hplaced.sound.accept hplaced.read hplaced.recorded
          rw [hplaced.accepted]
          exact hplaced.apart
  | connectBlock answers nFile nAddSize =>
      apply Meets.bind (findUndoPos_meets hs hcall)
      intro pos s' hplaced
      apply hplaced.sound.undo hplaced.read hplaced.recorded
      rw [hplaced.undone]
      exact hplaced.apart
  | restart => exact hs.goTo _

theorem FilesSound.leaves {call : FileCall} {s' : BlockFiles} (hs : FilesSound s)
    (hcall : Ungapped s call) (h : call.Leaves s s') : FilesSound s' := by
  have hrun := hs.run hcall
  rcases h with h | ⟨e, h⟩
  · rw [h] at hrun
    exact hrun
  · rw [h] at hrun
    exact hrun

theorem FileRun.sound (h : FileRun Ungapped .new s) : FilesSound s := by
  induction h with
  | start => exact .new
  | step h hcall hleaves ih => exact ih.leaves hcall hleaves

end Ziftrcoin.Spec
