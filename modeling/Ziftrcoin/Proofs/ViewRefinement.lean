/-
Module: Ziftrcoin.Proofs.ViewRefinement
Purpose: A stack of caches shows what a flat map would, as long as no cache
  above an update has a copy of its own of what is updated.
Trusted boundary: none
Main exports: ViewStack.visible, viewStack_refines
-/
import Ziftrcoin.Spec.ViewStack
import Ziftrcoin.Proofs.UnspentOutputs

namespace Ziftrcoin.Spec

/-! ### What a view shows -/

/-- The output at a position, when it is available. -/
def outputOf (coins : Option CCoins) (n : ℕ) : Option CTxOut :=
  coins.bind fun coins => coins.output n

namespace ViewStack

/-- The coins that are found for a transaction. -/
def visible : ViewStack → uint256 → Option CCoins
  | .db base => base.coins
  | .cache layer base => fun txid => (layer.cacheCoins txid).or (base.visible txid)

/-- The best block that is found. -/
def best : ViewStack → uint256
  | .db base => base.hashBestChain.getD 0
  | .cache layer base => if layer.hashBlock = 0 then base.best else layer.hashBlock

/-- A cache that was asked for its best block knows it, or there is none. -/
def WellAsked : ViewStack → Prop
  | .db _ => True
  | .cache layer base =>
      (layer.fAsked = true → layer.hashBlock = 0 → base.best = 0) ∧ base.WellAsked

/-- Nobody has asked any of the caches yet. -/
def Unasked : ViewStack → Prop
  | .db _ => True
  | .cache layer base => layer.fAsked = false ∧ base.Unasked

theorem Unasked.wellAsked {view : ViewStack} (h : view.Unasked) : view.WellAsked := by
  induction view with
  | db base => trivial
  | cache layer base ih => exact ⟨fun hasked => by simp [h.1] at hasked, ih h.2⟩

/-- Every view shows what it showed before, and the caches that were asked know
their best blocks. -/
def Like : ViewStack → ViewStack → Prop
  | .db a, .db b => a = b
  | .cache layer a, .cache layer' b =>
      (ViewStack.cache layer a).visible = (ViewStack.cache layer' b).visible ∧
        (ViewStack.cache layer a).best = (ViewStack.cache layer' b).best ∧
        ((layer.fAsked = true → layer.hashBlock = 0 → a.best = 0) →
          layer'.fAsked = true → layer'.hashBlock = 0 → b.best = 0) ∧ Like a b
  | _, _ => False

namespace Like

variable {a b c : ViewStack} {layer : CacheLayer}

theorem refl : ∀ view : ViewStack, Like view view
  | .db _ => rfl
  | .cache _ base => ⟨rfl, rfl, fun h => h, refl base⟩

theorem visible_eq : ∀ {a b : ViewStack}, Like a b → a.visible = b.visible
  | .db _, .db _, h => congrArg (fun d => (ViewStack.db d).visible) h
  | .cache _ _, .cache _ _, h => h.1
  | .db _, .cache _ _, h => h.elim
  | .cache _ _, .db _, h => h.elim

theorem best_eq : ∀ {a b : ViewStack}, Like a b → a.best = b.best
  | .db _, .db _, h => congrArg (fun d => (ViewStack.db d).best) h
  | .cache _ _, .cache _ _, h => h.2.1
  | .db _, .cache _ _, h => h.elim
  | .cache _ _, .db _, h => h.elim

theorem trans : ∀ {a b c : ViewStack}, Like a b → Like b c → Like a c
  | .db _, .db _, .db _, h, h' => Eq.trans h h'
  | .cache _ _, .cache _ _, .cache _ _, h, h' =>
      ⟨h.1.trans h'.1, h.2.1.trans h'.2.1, fun hasked => h'.2.2.1 (h.2.2.1 hasked),
        trans h.2.2.2 h'.2.2.2⟩
  | .db _, .db _, .cache _ _, _, h' => h'.elim
  | .db _, .cache _ _, _, h, _ => h.elim
  | .cache _ _, .db _, _, h, _ => h.elim
  | .cache _ _, .cache _ _, .db _, _, h' => h'.elim

/-- What is below a cache was read. -/
theorem cache (layer : CacheLayer) (h : Like a b) : Like (.cache layer a) (.cache layer b) := by
  refine ⟨?_, ?_, fun hasked => ?_, h⟩
  · funext txid
    exact congrArg (fun found => (layer.cacheCoins txid).or (found txid)) h.visible_eq
  · exact congrArg (fun hash => if layer.hashBlock = 0 then hash else layer.hashBlock) h.best_eq
  · rw [← h.best_eq]
    exact hasked

theorem wellAsked : ∀ {a b : ViewStack}, Like a b → a.WellAsked → b.WellAsked
  | .db _, .db _, _, _ => trivial
  | .cache _ _, .cache _ _, h, hasked => ⟨h.2.2.1 hasked.1, wellAsked h.2.2.2 hasked.2⟩
  | .db _, .cache _ _, h, _ => h.elim
  | .cache _ _, .db _, h, _ => h.elim

end Like

/-! ### Reading -/

theorem getCoins_found : ∀ (view : ViewStack) (txid : uint256),
    (view.GetCoins txid).1 = view.visible txid
  | .db _, _ => rfl
  | .cache layer base, txid => by
      have hbase := getCoins_found base txid
      unfold GetCoins visible
      cases hlayer : layer.cacheCoins txid with
      | some coins => rfl
      | none =>
          dsimp only
          rw [Option.none_or, ← hbase]
          cases (base.GetCoins txid).1 <;> rfl

theorem getCoins_like : ∀ (view : ViewStack) (txid : uint256),
    Like view (view.GetCoins txid).2
  | .db _, _ => rfl
  | .cache layer base, txid => by
      have hbase := getCoins_like base txid
      have hfound := getCoins_found base txid
      unfold GetCoins
      cases hlayer : layer.cacheCoins txid with
      | some coins => exact Like.refl _
      | none =>
          dsimp only
          cases hbelow : (base.GetCoins txid).1 with
          | none => exact hbase.cache layer
          | some coins =>
              refine (hbase.cache layer).trans ⟨?_, rfl, fun h => h, Like.refl _⟩
              funext txid'
              by_cases htxid : txid' = txid
              · subst htxid
                rw [hbelow, hbase.visible_eq] at hfound
                simp [visible, hlayer, ← hfound]
              · simp [visible, Function.update_of_ne htxid]

theorem haveCoins_like (view : ViewStack) (txid : uint256) :
    Like view (view.HaveCoins txid).2 :=
  getCoins_like view txid

theorem getBestBlock_found : ∀ view : ViewStack, view.GetBestBlock.1 = view.best
  | .db _ => rfl
  | .cache layer base => by
      unfold GetBestBlock best
      split
      · exact getBestBlock_found base
      · rfl

theorem getBestBlock_like : ∀ view : ViewStack, Like view view.GetBestBlock.2
  | .db _ => rfl
  | .cache layer base => by
      have hbase := getBestBlock_like base
      have hfound := getBestBlock_found base
      unfold GetBestBlock
      by_cases hzero : layer.hashBlock = 0
      · rw [if_pos hzero]
        dsimp only
        rw [hfound]
        refine (hbase.cache layer).trans ⟨rfl, ?_, fun _ _ hbest => ?_, Like.refl _⟩
        · simp only [best, hzero, if_true]
          split
          · rename_i hbest
            rw [← hbase.best_eq, hbest]
          · exact hbase.best_eq.symm
        · exact hbase.best_eq.symm.trans hbest
      · rw [if_neg hzero]
        exact ⟨rfl, rfl, fun _ _ hfalse => absurd hfalse hzero, Like.refl base⟩

theorem haveAllCoins_like : ∀ (vin : List CTxIn) (view : ViewStack),
    Like view (view.haveAllCoins vin).2
  | [], view => Like.refl view
  | txin :: vin, view => by
      have hfirst := haveCoins_like view txin.prevout.hash
      unfold haveAllCoins
      dsimp only
      split
      · exact hfirst.trans (haveAllCoins_like vin _)
      · exact hfirst

theorem haveAllOutputs_like : ∀ (vin : List CTxIn) (view : ViewStack),
    Like view (view.haveAllOutputs vin).2
  | [], view => Like.refl view
  | txin :: vin, view => by
      have hfirst := getCoins_like view txin.prevout.hash
      unfold haveAllOutputs
      dsimp only
      split
      · exact hfirst.trans (haveAllOutputs_like vin _)
      · exact hfirst

theorem haveInputs_like (view : ViewStack) (tx : CTransaction) :
    Like view (view.HaveInputs tx).2 := by
  have hcoins := haveAllCoins_like tx.vin view
  unfold HaveInputs
  split
  · exact Like.refl view
  · dsimp only
    split
    · exact hcoins.trans (haveAllOutputs_like tx.vin _)
    · exact hcoins

theorem atDepth_like {call : ViewStack → Option ViewStack}
    (hcall : ∀ view view', call view = some view' → Like view view') :
    ∀ {k : ℕ} {view view' : ViewStack}, atDepth call k view = some view' → Like view view' := by
  intro k
  induction k with
  | zero => exact fun h => hcall _ _ h
  | succ k ih =>
      intro view view' h
      cases view with
      | db base => cases h
      | cache layer base =>
          obtain ⟨base', hbase, rfl⟩ := Option.map_eq_some_iff.mp h
          exact (ih hbase).cache layer

end ViewStack

/-! ### Flat maps -/

/-- The map of what a view shows. -/
def ViewStack.shown (view : ViewStack) : CCoinsViewCache :=
  { hashBlock := view.best, coins := view.visible }

/-- Maps with the same outputs and the same best block; coins that are in the
first one are in the second. -/
structure Within (f g : CCoinsViewCache) : Prop where
  outputs : ∀ txid n, outputOf (f.coins txid) n = outputOf (g.coins txid) n
  found : ∀ txid, (f.coins txid).isSome = true → (g.coins txid).isSome = true
  best : f.hashBlock = g.hashBlock

namespace Within

variable {f g h : CCoinsViewCache}

theorem refl (f : CCoinsViewCache) : Within f f :=
  ⟨fun _ _ => rfl, fun _ h => h, rfl⟩

theorem trans (hfg : Within f g) (hgh : Within g h) : Within f h where
  outputs := fun txid n => (hfg.outputs txid n).trans (hgh.outputs txid n)
  found := fun txid hsome => hgh.found txid (hfg.found txid hsome)
  best := hfg.best.trans hgh.best

end Within

/-- The view shows the outputs and the best block of the map. -/
def Shows (view : ViewStack) (flat : CCoinsViewCache) : Prop := Within view.shown flat

/-- Every view of the stack shows its map. -/
def ShowsAll : ViewStack → List CCoinsViewCache → Prop
  | .db base, [flat] => Shows (.db base) flat
  | .cache layer base, flat :: flats => Shows (.cache layer base) flat ∧ ShowsAll base flats
  | _, _ => False

/-- What the views of a stack show, the one on top first. -/
def ViewStack.flats : ViewStack → List CCoinsViewCache
  | .db base => [(ViewStack.db base).shown]
  | .cache layer base => (ViewStack.cache layer base).shown :: base.flats

/-- Coins that went through a flush: pruned ones may be gone, all others may
have been read back from the database. -/
inductive Fades : Option CCoins → Option CCoins → Prop where
  | same (coins : Option CCoins) : Fades coins coins
  | erased {coins : CCoins} (h : coins.IsPruned = true) : Fades (some coins) none
  | readBack (coins : CCoins) : Fades (some coins) (some coins.readBack)

theorem Fades.outputOf_eq {a b : Option CCoins} (h : Fades a b) (n : ℕ) :
    outputOf b n = outputOf a n := by
  cases h with
  | same coins => rfl
  | erased hpruned => exact (CCoins.output_eq_none_of_isPruned hpruned n).symm
  | readBack coins => exact CCoins.output_readBack coins n

theorem Fades.isSome {a b : Option CCoins} (h : Fades a b) (hb : b.isSome = true) :
    a.isSome = true := by
  cases h with
  | same coins => exact hb
  | erased hpruned => rfl
  | readBack coins => rfl

/-- A flush further down: what is seen may have faded. -/
structure Faded (a b : ViewStack) : Prop where
  visible : ∀ txid, Fades (a.visible txid) (b.visible txid)
  best : b.best = a.best

theorem Faded.within {a b : ViewStack} (h : Faded a b) : Within b.shown a.shown where
  outputs := fun txid n => (h.visible txid).outputOf_eq n
  found := fun txid hsome => (h.visible txid).isSome hsome
  best := h.best

theorem Shows.faded {a b : ViewStack} {flat : CCoinsViewCache} (h : Shows a flat)
    (hfaded : Faded a b) : Shows b flat :=
  hfaded.within.trans h

theorem Faded.cache {a b : ViewStack} (layer : CacheLayer) (h : Faded a b) :
    Faded (.cache layer a) (.cache layer b) where
  visible := by
    intro txid
    simp only [ViewStack.visible]
    cases layer.cacheCoins txid with
    | some coins => exact .same _
    | none => simpa using h.visible txid
  best := by
    simp only [ViewStack.best]
    rw [h.best]

theorem ViewStack.Like.faded {a b : ViewStack} (h : ViewStack.Like a b) : Faded a b where
  visible := by
    intro txid
    rw [h.visible_eq]
    exact .same _
  best := h.best_eq.symm

theorem ShowsAll.like : ∀ {a b : ViewStack} {flats : List CCoinsViewCache},
    ShowsAll a flats → ViewStack.Like a b → ShowsAll b flats
  | .db _, .db _, [_], h, hlike => h.faded hlike.faded
  | .cache _ _, .cache _ _, _ :: _, h, hlike =>
      ⟨h.1.faded hlike.faded, like h.2 hlike.2.2.2⟩
  | .db _, .cache _ _, _, _, hlike => hlike.elim
  | .cache _ _, .db _, _, _, hlike => hlike.elim
  | .db _, .db _, [], h, _ => h.elim
  | .db _, .db _, _ :: _ :: _, h, _ => h.elim
  | .cache _ _, .cache _ _, [], h, _ => h.elim

theorem ShowsAll.flats : ∀ view : ViewStack, ShowsAll view view.flats
  | .db _ => Within.refl _
  | .cache _ base => ⟨Within.refl _, flats base⟩

/-! ### Flushing -/

namespace ViewStack

variable {layer : CacheLayer} {base view view' : ViewStack} {mapCoins : uint256 → Option CCoins}
  {hash : uint256}

theorem visible_batchWrite (txid : uint256) :
    Fades ((mapCoins txid).or (base.visible txid))
      ((base.BatchWrite mapCoins hash).visible txid) := by
  cases base with
  | db base =>
      simp only [BatchWrite, visible, CoinsDatabase.writeCoins]
      cases mapCoins txid with
      | none => exact .same _
      | some coins =>
          dsimp only [Option.some_or]
          split
          · rename_i hpruned
            exact .erased hpruned
          · exact .readBack coins
  | cache layer base =>
      simp only [BatchWrite, visible, Option.or_assoc]
      exact .same _

/-- Below a best block of zero nobody knows another one. -/
theorem best_of_zero (h : (ViewStack.cache layer base).best = 0) (hzero : layer.hashBlock = 0) :
    base.best = 0 := by
  rw [best, if_pos hzero] at h
  exact h

theorem hashBlock_of_best_zero (h : (ViewStack.cache layer base).best = 0) :
    layer.hashBlock = 0 := by
  rw [best] at h
  by_contra hne
  rw [if_neg hne] at h
  exact hne h

theorem best_batchWrite (h : hash = 0 → base.best = 0) :
    (base.BatchWrite mapCoins hash).best = hash := by
  cases base with
  | db base =>
      simp only [BatchWrite, best]
      by_cases hzero : hash = 0
      · rw [if_neg (not_not.mpr hzero), hzero]
        exact h hzero
      · rw [if_pos hzero]
        rfl
  | cache layer base =>
      simp only [BatchWrite, best]
      by_cases hzero : hash = 0
      · rw [if_pos hzero, hzero]
        exact best_of_zero (h hzero) (hashBlock_of_best_zero (h hzero))
      · rw [if_neg hzero]

theorem wellAsked_batchWrite (hasked : base.WellAsked) (h : hash = 0 → base.best = 0) :
    (base.BatchWrite mapCoins hash).WellAsked := by
  cases base with
  | db base => trivial
  | cache layer base =>
      refine ⟨fun _ hzero => ?_, hasked.2⟩
      exact best_of_zero (h hzero) (hashBlock_of_best_zero (h hzero))

/-- The cache was asked, so it has something to say about the best block. -/
structure Ready (layer : CacheLayer) (base : ViewStack) : Prop where
  best : layer.hashBlock = 0 → base.best = 0
  wellAsked : base.WellAsked

namespace Ready

theorem of_asked (hasked : (ViewStack.cache layer base).WellAsked)
    (h : layer.fAsked = true) : Ready layer base :=
  ⟨hasked.1 h, hasked.2⟩

theorem best_cache (h : Ready layer base) :
    (ViewStack.cache layer base).best = layer.hashBlock := by
  rw [ViewStack.best]
  split
  · rename_i hzero
    rw [h.best hzero, hzero]
  · rfl

theorem faded_below (h : Ready layer base) :
    Faded (.cache layer base) (base.BatchWrite layer.cacheCoins layer.hashBlock) where
  visible := visible_batchWrite
  best := (best_batchWrite h.best).trans h.best_cache.symm

theorem faded (h : Ready layer base) :
    Faded (.cache layer base)
      (.cache { layer with cacheCoins := fun _ => none }
        (base.BatchWrite layer.cacheCoins layer.hashBlock)) where
  visible := by
    intro txid
    simpa [ViewStack.visible] using h.faded_below.visible txid
  best := by
    rw [h.best_cache, ViewStack.best, best_batchWrite h.best]
    simp

theorem showsAll (h : Ready layer base) {flats : List CCoinsViewCache}
    (hshows : ShowsAll (.cache layer base) flats) :
    ShowsAll (.cache { layer with cacheCoins := fun _ => none }
      (base.BatchWrite layer.cacheCoins layer.hashBlock)) (applyAll flats (.flush 0)) := by
  cases flats with
  | nil => exact hshows.elim
  | cons flat flats =>
      obtain ⟨htop, hbase⟩ := hshows
      refine ⟨htop.faded h.faded, ?_⟩
      have hbelow := htop.faded h.faded_below
      cases base with
      | db base =>
          match flats, hbase with
          | [_], _ => exact hbelow
      | cache layer' base =>
          match flats, hbase with
          | _ :: _, hbase => exact ⟨hbelow, hbase.2⟩

end Ready

theorem applyAll_flush_cons (flat : CCoinsViewCache) (flats : List CCoinsViewCache) (k : ℕ) :
    applyAll (flat :: flats) (.flush (k + 1)) = flat :: applyAll flats (.flush k) := by
  simp only [applyAll, List.getElem?_cons_succ]
  cases flats[k]? <;> rfl

/-- What a flush at any depth does: nothing is seen of it at that depth or above
it, and the view below shows what the flushed one does. -/
structure Flushed (k : ℕ) (view view' : ViewStack) : Prop where
  faded : Faded view view'
  wellAsked : view'.WellAsked
  showsAll : ∀ {flats}, ShowsAll view flats → ShowsAll view' (applyAll flats (.flush k))

theorem flush_flushed : ∀ {k : ℕ} {view view' : ViewStack}, view.WellAsked →
    (CoinsOp.flush k).Prepared view → atDepth Flush k view = some view' →
      Flushed k view view' := by
  intro k
  induction k with
  | zero =>
      intro view view' hasked hprepared h
      cases view with
      | db base => cases h
      | cache layer base =>
          obtain ⟨_, ⟨⟩, hlayer⟩ := hprepared
          cases h
          have hready := Ready.of_asked hasked hlayer
          refine ⟨hready.faded, ⟨fun _ hzero => ?_, ?_⟩, hready.showsAll⟩
          · rw [best_batchWrite hready.best]
            exact hzero
          · exact wellAsked_batchWrite hready.wellAsked hready.best
  | succ k ih =>
      intro view view' hasked hprepared h
      cases view with
      | db base => cases h
      | cache layer base =>
          obtain ⟨base', hbase, rfl⟩ := Option.map_eq_some_iff.mp h
          have hflushed := ih hasked.2 hprepared hbase
          refine ⟨hflushed.faded.cache layer, ⟨fun hlayer hzero => ?_, hflushed.wellAsked⟩, ?_⟩
          · rw [hflushed.faded.best]
            exact hasked.1 hlayer hzero
          · intro flats hshows
            cases flats with
            | nil => exact hshows.elim
            | cons flat flats =>
                rw [applyAll_flush_cons]
                exact ⟨hshows.1.faded (hflushed.faded.cache layer),
                  hflushed.showsAll hshows.2⟩

end ViewStack

/-! ### Updates -/

/-- What a change does to the available outputs depends on them only, as with
spending an output or restoring one. -/
def ActsOnOutputs (change : CCoins → CCoins) : Prop :=
  ∀ a b : CCoins, (∀ n, a.output n = b.output n) →
    ∀ n, (change a).output n = (change b).output n

namespace CoinsOp

/-- The cache has no copy of its own of what is updated below it. -/
def Passes (layer : CacheLayer) : CoinsOp → Prop
  | .setCoins _ txid _ => layer.cacheCoins txid = none
  | .mutate _ txid _ => layer.cacheCoins txid = none
  | .setBestBlock _ _ => layer.hashBlock = 0 ∧ layer.fAsked = false
  | _ => True

/-- None of the caches above depth `k` has a copy of its own of what is updated
there. -/
def Reaches (op : CoinsOp) : ℕ → ViewStack → Prop
  | 0, _ => True
  | _ + 1, .db _ => True
  | k + 1, .cache layer base => op.Passes layer ∧ op.Reaches k base

/-- No best block is set to zero. -/
def Nonzero : CoinsOp → Prop
  | .setBestBlock _ hashBlock => hashBlock ≠ 0
  | _ => True

/-- Changes in place are about outputs. -/
def OnOutputs : CoinsOp → Prop
  | .mutate _ _ change => ActsOnOutputs change
  | _ => True

/-- A change in place is made to coins that are there. -/
def Applies (flat : CCoinsViewCache) : CoinsOp → Prop
  | .mutate _ txid _ => (flat.coins txid).isSome = true
  | _ => True

/-- An update as the code makes it. -/
structure Regular (view : ViewStack) (op : CoinsOp) : Prop where
  reaches : op.Reaches op.depth view
  nonzero : op.Nonzero
  onOutputs : op.OnOutputs

end CoinsOp

theorem CCoinsViewCache.apply_setCoins (flat : CCoinsViewCache) (k : ℕ) (txid : uint256)
    (coins : CCoins) :
    flat.apply (.setCoins k txid coins) =
      { flat with coins := Function.update flat.coins txid (some coins) } := rfl

theorem CCoinsViewCache.apply_mutate (flat : CCoinsViewCache) (k : ℕ) (txid : uint256)
    (change : CCoins → CCoins) :
    flat.apply (.mutate k txid change) =
      { flat with
        coins := Function.update flat.coins txid ((flat.coins txid).map change) } := rfl

/-- Maps stay alike when an entry of both is written. -/
theorem Within.update {f g : CCoinsViewCache} {txid : uint256} {a b : CCoins}
    (h : Within f g) (hab : ∀ n, a.output n = b.output n) :
    Within { f with coins := Function.update f.coins txid (some a) }
      { g with coins := Function.update g.coins txid (some b) } where
  outputs := by
    intro txid' n
    by_cases htxid : txid' = txid
    · simpa [htxid, outputOf] using hab n
    · simpa [htxid] using h.outputs txid' n
  found := by
    intro txid'
    by_cases htxid : txid' = txid
    · simp [htxid]
    · simpa [htxid] using h.found txid'
  best := h.best

/-- Maps stay alike when both are updated. -/
theorem Within.apply {f g : CCoinsViewCache} {op : CoinsOp} (h : Within f g)
    (happlies : op.Applies f) (hop : op.OnOutputs) : Within (f.apply op) (g.apply op) := by
  cases op with
  | setCoins k txid coins => exact h.update fun _ => rfl
  | mutate k txid change =>
      obtain ⟨a, ha⟩ := Option.isSome_iff_exists.mp happlies
      obtain ⟨b, hb⟩ := Option.isSome_iff_exists.mp (h.found txid happlies)
      have houtputs : ∀ n, a.output n = b.output n := by
        intro n
        have hn := h.outputs txid n
        rw [ha, hb] at hn
        exact hn
      rw [CCoinsViewCache.apply_mutate, CCoinsViewCache.apply_mutate, ha, hb]
      exact h.update (hop a b houtputs)
  | setBestBlock k hashBlock => exact ⟨h.outputs, h.found, rfl⟩
  | _ => exact h

/-- What an update at depth `k` does to a stack. -/
structure Written (op : CoinsOp) (k : ℕ) (view view' : ViewStack) : Prop where
  applies : op.Applies view.shown
  shown : view'.shown = view.shown.apply op
  wellAsked : view.WellAsked → view'.WellAsked
  showsAll : ∀ {flats}, ShowsAll view flats → ShowsAll view' (applyTo op k flats)

section

variable {op : CoinsOp} {layer layer' : CacheLayer} {base base' view view' : ViewStack}
  {txid : uint256} {coins : CCoins} {k : ℕ}

/-- The cache that is updated; below it only reading happens. -/
theorem Written.top (hop : op.OnOutputs) (happlies : op.Applies (ViewStack.cache layer base).shown)
    (hshown : (ViewStack.cache layer' base').shown = (ViewStack.cache layer base).shown.apply op)
    (hasked : (ViewStack.cache layer base).WellAsked → (ViewStack.cache layer' base').WellAsked)
    (hbase : ViewStack.Like base base') :
    Written op 0 (.cache layer base) (.cache layer' base') := by
  refine ⟨happlies, hshown, hasked, fun {flats} hshows => ?_⟩
  cases flats with
  | nil => exact hshows.elim
  | cons flat flats =>
      refine ⟨?_, hshows.2.like hbase⟩
      unfold Shows
      rw [hshown]
      exact hshows.1.apply happlies hop

theorem or_update {a b : uint256 → Option CCoins} (ha : a txid = none) (found : Option CCoins) :
    (fun txid' => (a txid').or (Function.update b txid found txid')) =
      Function.update (fun txid' => (a txid').or (b txid')) txid found := by
  funext txid'
  by_cases htxid : txid' = txid
  · simp [htxid, ha]
  · simp [htxid]

theorem CoinsOp.Passes.shown (hpasses : op.Passes layer)
    (h : base'.shown = base.shown.apply op) :
    (ViewStack.cache layer base').shown = (ViewStack.cache layer base).shown.apply op := by
  have hvisible : base'.visible = (base.shown.apply op).coins := by rw [← h]; rfl
  have hbest : base'.best = (base.shown.apply op).hashBlock := by rw [← h]; rfl
  unfold ViewStack.shown
  simp only [ViewStack.visible, ViewStack.best, hvisible, hbest]
  cases op with
  | setCoins k txid coins =>
      have hnone : layer.cacheCoins txid = none := hpasses
      rw [CCoinsViewCache.apply_setCoins, CCoinsViewCache.apply_setCoins]
      dsimp only [ViewStack.shown]
      rw [or_update hnone]
  | mutate k txid change =>
      have hnone : layer.cacheCoins txid = none := hpasses
      rw [CCoinsViewCache.apply_mutate, CCoinsViewCache.apply_mutate]
      dsimp only [ViewStack.shown]
      rw [or_update hnone, hnone, Option.none_or]
  | setBestBlock k hashBlock =>
      simp [CCoinsViewCache.apply, CCoinsViewCache.SetBestBlock, hpasses.1, ViewStack.shown]
  | _ => rfl

theorem CoinsOp.Passes.applies (hpasses : op.Passes layer) (h : op.Applies base.shown) :
    op.Applies (ViewStack.cache layer base).shown := by
  cases op with
  | mutate k txid change =>
      have hnone : layer.cacheCoins txid = none := hpasses
      simpa [Applies, ViewStack.shown, ViewStack.visible, hnone] using h
  | _ => trivial

theorem CoinsOp.Passes.best (hpasses : op.Passes layer)
    (h : base'.shown = base.shown.apply op) (hlayer : layer.fAsked = true) :
    base'.best = base.best := by
  have hbest : base'.best = (base.shown.apply op).hashBlock := by rw [← h]; rfl
  rw [hbest]
  cases op with
  | setBestBlock k hashBlock =>
      have hunasked : layer.fAsked = false := hpasses.2
      simp [hunasked] at hlayer
  | _ => rfl

/-- A cache above the one that is updated. -/
theorem Written.cache (hop : op.OnOutputs) (hpasses : op.Passes layer)
    (h : Written op k base base') :
    Written op (k + 1) (.cache layer base) (.cache layer base') where
  applies := hpasses.applies h.applies
  shown := hpasses.shown h.shown
  wellAsked := by
    refine fun hasked => ⟨fun hlayer hzero => ?_, h.wellAsked hasked.2⟩
    rw [hpasses.best h.shown hlayer]
    exact hasked.1 hlayer hzero
  showsAll := by
    intro flats hshows
    cases flats with
    | nil => exact hshows.elim
    | cons flat flats =>
        refine ⟨?_, h.showsAll hshows.2⟩
        unfold Shows
        rw [hpasses.shown h.shown]
        exact hshows.1.apply (hpasses.applies h.applies) hop

theorem written_atDepth {call : ViewStack → Option ViewStack} (hop : op.OnOutputs)
    (hcall : ∀ view view', call view = some view' → Written op 0 view view') :
    ∀ {k : ℕ} {view view' : ViewStack}, op.Reaches k view →
      ViewStack.atDepth call k view = some view' → Written op k view view' := by
  intro k
  induction k with
  | zero => exact fun _ h => hcall _ _ h
  | succ k ih =>
      intro view view' hreaches h
      cases view with
      | db base => cases h
      | cache layer base =>
          obtain ⟨base', hbase, rfl⟩ := Option.map_eq_some_iff.mp h
          exact (ih hreaches.2 hbase).cache hop hreaches.1

theorem ViewStack.shown_update (layer : CacheLayer) (base : ViewStack) (txid : uint256)
    (coins : CCoins) :
    (ViewStack.cache
      { layer with
        cacheCoins := Function.update layer.cacheCoins txid (some coins) } base).shown =
      (ViewStack.cache layer base).shown.SetCoins txid coins := by
  unfold ViewStack.shown CCoinsViewCache.SetCoins
  congr 1
  funext txid'
  by_cases htxid : txid' = txid
  · simp [ViewStack.visible, htxid]
  · simp [ViewStack.visible, htxid]

theorem written_setCoins (h : view.SetCoins txid coins = some view') :
    Written (.setCoins k txid coins) 0 view view' := by
  cases view with
  | db base => cases h
  | cache layer base =>
      obtain rfl := Option.some.inj h
      exact .top trivial trivial (ViewStack.shown_update layer base txid coins)
        (fun hasked => hasked) (ViewStack.Like.refl base)

theorem written_setBestBlock {hashBlock : uint256} (hnonzero : hashBlock ≠ 0)
    (h : view.SetBestBlock hashBlock = some view') :
    Written (.setBestBlock k hashBlock) 0 view view' := by
  cases view with
  | db base => cases h
  | cache layer base =>
      obtain rfl := Option.some.inj h
      refine .top trivial trivial ?_ (fun hasked => ⟨fun _ hzero => ?_, hasked.2⟩)
        (ViewStack.Like.refl base)
      · simp [ViewStack.shown, ViewStack.best, hnonzero, ViewStack.visible,
          CCoinsViewCache.apply, CCoinsViewCache.SetBestBlock]
      · exact absurd hzero hnonzero

theorem ViewStack.Like.shown_eq (h : ViewStack.Like view view') : view'.shown = view.shown := by
  unfold ViewStack.shown
  rw [h.visible_eq, h.best_eq]

theorem written_mutate {change : CCoins → CCoins} (hchange : ActsOnOutputs change)
    (h : view.mutate txid change = some view') :
    Written (.mutate k txid change) 0 view view' := by
  have hlike := ViewStack.getCoins_like view txid
  have hfound := ViewStack.getCoins_found view txid
  unfold ViewStack.mutate at h
  split at h
  · rename_i coins layer base hget
    obtain rfl := Option.some.inj h
    rw [hget] at hlike hfound
    have hcoins : view.shown.coins txid = some coins := hfound.symm
    cases view with
    | db base => exact hlike.elim
    | cache layer₀ base₀ =>
        refine .top hchange ?_ ?_ (fun hasked => hlike.wellAsked hasked) hlike.2.2.2
        · exact Option.isSome_iff_exists.mpr ⟨coins, hcoins⟩
        · rw [ViewStack.shown_update, hlike.shown_eq, CCoinsViewCache.apply_mutate, hcoins]
          rfl
  · cases h

end

/-! ### Steps -/

theorem CoinsOp.reads_like {op : CoinsOp} {view view' : ViewStack}
    (hread : (∃ k txid, op = .getCoins k txid) ∨ (∃ k txid, op = .haveCoins k txid) ∨
      (∃ k tx, op = .haveInputs k tx) ∨ ∃ k, op = .getBestBlock k)
    (h : op.run view = some view') : ViewStack.Like view view' := by
  rcases hread with ⟨k, txid, rfl⟩ | ⟨k, txid, rfl⟩ | ⟨k, tx, rfl⟩ | ⟨k, rfl⟩
  all_goals
    apply ViewStack.atDepth_like _ h
    rintro view _ ⟨⟩
  · exact ViewStack.getCoins_like view txid
  · exact ViewStack.haveCoins_like view txid
  · exact ViewStack.haveInputs_like view tx
  · exact ViewStack.getBestBlock_like view

/-- The views of a stack show at least one map. -/
theorem ShowsAll.cons {view : ViewStack} {flats : List CCoinsViewCache}
    (h : ShowsAll view flats) : ∃ flat rest, flats = flat :: rest ∧ Shows view flat := by
  cases flats with
  | nil => cases view <;> exact h.elim
  | cons flat flats =>
      refine ⟨flat, flats, rfl, ?_⟩
      cases view with
      | cache layer base => exact h.1
      | db base =>
          cases flats with
          | nil => exact h
          | cons _ _ => exact h.elim

theorem applyAll_read {flats : List CCoinsViewCache} {view : ViewStack} {op : CoinsOp}
    (h : ShowsAll view flats) (hop : ∀ flat flats, applyAll (flat :: flats) op = flat :: flats) :
    applyAll flats op = flats := by
  obtain ⟨flat, rest, rfl, -⟩ := h.cons
  exact hop flat rest

/-- What an operation leaves: the caches know what they were asked, and every
view shows its map. -/
structure Refined (view : ViewStack) (flats : List CCoinsViewCache) : Prop where
  wellAsked : view.WellAsked
  showsAll : ShowsAll view flats

theorem Refined.like {a b : ViewStack} {flats : List CCoinsViewCache} (h : Refined a flats)
    (hlike : ViewStack.Like a b) : Refined b flats :=
  ⟨hlike.wellAsked h.wellAsked, h.showsAll.like hlike⟩

theorem Refined.read {op : CoinsOp} {view view' : ViewStack} {flats : List CCoinsViewCache}
    (h : Refined view flats) (hlike : ViewStack.Like view view')
    (hop : ∀ flat flats, applyAll (flat :: flats) op = flat :: flats) :
    Refined view' (applyAll flats op) := by
  rw [applyAll_read h.showsAll hop]
  exact h.like hlike

theorem Refined.written {op : CoinsOp} {k : ℕ} {view view' : ViewStack}
    {flats : List CCoinsViewCache} (h : Refined view flats) (hwritten : Written op k view view') :
    Refined view' (applyTo op k flats) :=
  ⟨hwritten.wellAsked h.wellAsked, hwritten.showsAll h.showsAll⟩

theorem Shows.push {view : ViewStack} {flat : CCoinsViewCache} (h : Shows view flat) :
    Shows (.cache .new view) flat :=
  ⟨h.outputs, h.found, h.best⟩

theorem Refined.step {op : CoinsOp} {view view' : ViewStack} {flats : List CCoinsViewCache}
    (h : Refined view flats) (hop : op.Regular view) (hprepared : op.Prepared view)
    (hrun : op.run view = some view') : Refined view' (applyAll flats op) := by
  cases op with
  | getCoins k txid =>
      exact h.read (CoinsOp.reads_like (.inl ⟨k, txid, rfl⟩) hrun) fun _ _ => rfl
  | haveCoins k txid =>
      exact h.read (CoinsOp.reads_like (.inr (.inl ⟨k, txid, rfl⟩)) hrun) fun _ _ => rfl
  | haveInputs k tx =>
      exact h.read (CoinsOp.reads_like (.inr (.inr (.inl ⟨k, tx, rfl⟩))) hrun) fun _ _ => rfl
  | getBestBlock k =>
      exact h.read (CoinsOp.reads_like (.inr (.inr (.inr ⟨k, rfl⟩))) hrun) fun _ _ => rfl
  | setCoins k txid coins =>
      exact h.written (written_atDepth hop.onOutputs (fun _ _ => written_setCoins) hop.reaches hrun)
  | mutate k txid change =>
      exact h.written (written_atDepth hop.onOutputs (fun _ _ => written_mutate hop.onOutputs)
        hop.reaches hrun)
  | setBestBlock k hashBlock =>
      exact h.written (written_atDepth hop.onOutputs (fun _ _ => written_setBestBlock hop.nonzero)
        hop.reaches hrun)
  | flush k =>
      have hflushed := ViewStack.flush_flushed h.wellAsked hprepared hrun
      exact ⟨hflushed.wellAsked, hflushed.showsAll h.showsAll⟩
  | push =>
      obtain rfl := Option.some.inj hrun
      obtain ⟨flat, rest, rfl, htop⟩ := h.showsAll.cons
      exact ⟨⟨fun hasked => (nomatch hasked), h.wellAsked⟩, htop.push, h.showsAll⟩
  | drop =>
      cases view with
      | db base => cases hrun
      | cache layer base =>
          obtain rfl := Option.some.inj hrun
          cases flats with
          | nil => exact h.showsAll.elim
          | cons flat flats => exact ⟨h.wellAsked.2, h.showsAll.2⟩

theorem CoinsRun.refined {P : ViewStack → CoinsOp → Prop} {ops : List CoinsOp}
    {view view' : ViewStack} {flats : List CCoinsViewCache}
    (hP : ∀ view op, P view op → op.Regular view) (hrun : CoinsRun P view ops view')
    (h : Refined view flats) : Refined view' (ops.foldl applyAll flats) := by
  induction hrun generalizing flats with
  | nil view => exact h
  | cons hop hprepared hstep hrest ih => exact ih (h.step (hP _ _ hop) hprepared hstep)

/-! ### What readers see -/

/-- The outputs and the best block that two views give their readers are the
same. -/
def SameSeen (a b : ViewStack) : Prop :=
  (∀ txid n, outputOf (a.GetCoins txid).1 n = outputOf (b.GetCoins txid).1 n) ∧
    a.GetBestBlock.1 = b.GetBestBlock.1

/-- A reader of the view sees the outputs and the best block of the map. -/
def SeenAs (view : ViewStack) (flat : CCoinsViewCache) : Prop :=
  (∀ txid n, outputOf (view.GetCoins txid).1 n = outputOf (flat.coins txid) n) ∧
    view.GetBestBlock.1 = flat.hashBlock

/-- The map that a reader of the view sees. -/
def ViewStack.flat (view : ViewStack) : CCoinsViewCache :=
  { hashBlock := view.GetBestBlock.1, coins := fun txid => (view.GetCoins txid).1 }

theorem Shows.seenAs {view : ViewStack} {flat : CCoinsViewCache} (h : Shows view flat) :
    SeenAs view flat := by
  constructor
  · intro txid n
    rw [ViewStack.getCoins_found]
    exact h.outputs txid n
  · rw [ViewStack.getBestBlock_found]
    exact h.best

theorem SeenAs.sameSeen {a b : ViewStack} {flat : CCoinsViewCache} (ha : SeenAs a flat)
    (hb : SeenAs b flat) : SameSeen a b :=
  ⟨fun txid n => (ha.1 txid n).trans (hb.1 txid n).symm, ha.2.trans hb.2.symm⟩

theorem Faded.sameSeen {a b : ViewStack} (h : Faded a b) : SameSeen a b := by
  constructor
  · intro txid n
    rw [ViewStack.getCoins_found, ViewStack.getCoins_found]
    exact ((h.visible txid).outputOf_eq n).symm
  · rw [ViewStack.getBestBlock_found, ViewStack.getBestBlock_found]
    exact h.best.symm

theorem ViewStack.flats_eq (view : ViewStack) : ∃ rest, view.flats = view.flat :: rest := by
  have hflat : view.flat = { hashBlock := view.best, coins := view.visible } := by
    unfold ViewStack.flat
    rw [getBestBlock_found]
    congr 1
    funext txid
    exact getCoins_found view txid
  rw [hflat]
  cases view with
  | db base => exact ⟨[], rfl⟩
  | cache layer base => exact ⟨base.flats, rfl⟩

theorem applyTo_head {flat : CCoinsViewCache} {flats : List CCoinsViewCache} (op : CoinsOp) :
    ∀ k : ℕ, ∃ rest, applyTo op k (flat :: flats) = flat.apply op :: rest
  | 0 => ⟨flats, rfl⟩
  | k + 1 => ⟨applyTo op k flats, rfl⟩

/-- As long as no cache is destroyed, the map on top is a single one. -/
theorem applyAll_head {flat : CCoinsViewCache} {flats : List CCoinsViewCache} {op : CoinsOp}
    (hop : op ≠ .drop) : ∃ rest, applyAll (flat :: flats) op = flat.apply op :: rest := by
  cases op with
  | flush k =>
      simp only [applyAll]
      cases (flat :: flats)[k]? with
      | none => exact ⟨flats, rfl⟩
      | some flat' => exact ⟨flats.set k flat', rfl⟩
  | drop => exact absurd rfl hop
  | push => exact ⟨_, rfl⟩
  | _ => exact applyTo_head _ _

theorem foldl_applyAll_head :
    ∀ {ops : List CoinsOp} {flat : CCoinsViewCache} {flats : List CCoinsViewCache},
      (∀ op ∈ ops, op ≠ .drop) →
        ∃ rest, ops.foldl applyAll (flat :: flats) =
          ops.foldl CCoinsViewCache.apply flat :: rest := by
  intro ops
  induction ops with
  | nil => exact fun _ => ⟨_, rfl⟩
  | cons op ops ih =>
      intro flat flats hops
      obtain ⟨rest, hhead⟩ := @applyAll_head flat flats op (hops op List.mem_cons_self)
      rw [List.foldl_cons, List.foldl_cons, hhead]
      exact ih fun op' hop' => hops op' (List.mem_cons_of_mem op hop')

/-! ### Layers that are left alone -/

/-- An operation that neither writes to the lowest `m` views nor destroys the
last cache above them. -/
def CoinsOp.StaysAbove (m : ℕ) (view : ViewStack) : CoinsOp → Prop
  | .flush k => k + 1 + m < view.height
  | .drop => m + 1 < view.height
  | op => op.depth + m < view.height

theorem ShowsAll.length : ∀ {view : ViewStack} {flats : List CCoinsViewCache},
    ShowsAll view flats → flats.length = view.height
  | .db _, [_], _ => rfl
  | .cache _ _, _ :: _, h => congrArg (· + 1) (length h.2)
  | .db _, [], h => h.elim
  | .db _, _ :: _ :: _, h => h.elim
  | .cache _ _, [], h => h.elim

theorem applyTo_append {op : CoinsOp} {lower : List CCoinsViewCache} :
    ∀ {k : ℕ} {upper : List CCoinsViewCache}, k < upper.length →
      applyTo op k (upper ++ lower) = applyTo op k upper ++ lower
  | _, [], h => absurd h (Nat.not_lt_zero _)
  | 0, _ :: _, _ => rfl
  | _ + 1, flat :: _, h =>
      congrArg (flat.apply op :: ·) (applyTo_append (Nat.lt_of_succ_lt_succ h))

theorem applyTo_lower {op : CoinsOp} {k : ℕ} {view : ViewStack} {flat : CCoinsViewCache}
    {upper lower : List CCoinsViewCache} (hk : k + lower.length < view.height)
    (hheight : (flat :: upper ++ lower).length = view.height) :
    ∃ flat' upper', applyTo op k (flat :: upper ++ lower) = flat' :: upper' ++ lower := by
  rw [← hheight, List.length_append] at hk
  rw [applyTo_append (Nat.lt_of_add_lt_add_right hk)]
  obtain ⟨upper', hupper⟩ := @applyTo_head flat upper op k
  exact ⟨flat.apply op, upper', by rw [hupper]⟩

/-- The maps of the lower views stay, with at least one map above them. -/
theorem applyAll_lower {view : ViewStack} {op : CoinsOp} {flat : CCoinsViewCache}
    {upper lower : List CCoinsViewCache} (hop : op.StaysAbove lower.length view)
    (hheight : (flat :: upper ++ lower).length = view.height) :
    ∃ flat' upper', applyAll (flat :: upper ++ lower) op = flat' :: upper' ++ lower := by
  cases op with
  | flush k =>
      have hlt : k + 1 + lower.length < view.height := hop
      rw [← hheight, List.length_append] at hlt
      simp only [applyAll]
      cases (flat :: upper ++ lower)[k]? with
      | none => exact ⟨flat, upper, rfl⟩
      | some flushed =>
          dsimp only
          rw [List.set_append_left _ _ (by omega)]
          exact ⟨flat, upper.set k flushed, rfl⟩
  | drop =>
      have hlt : lower.length + 1 < view.height := hop
      rw [← hheight] at hlt
      cases upper with
      | nil => simp at hlt
      | cons flat' upper => exact ⟨flat', upper, rfl⟩
  | push => exact ⟨flat, flat :: upper, rfl⟩
  | _ => exact applyTo_lower hop hheight

theorem CoinsRun.lower {m : ℕ} {ops : List CoinsOp} {view view' : ViewStack}
    {flat : CCoinsViewCache} {upper lower : List CCoinsViewCache} (hm : lower.length = m)
    (hrun : CoinsRun (fun view op => op.Regular view ∧ op.StaysAbove m view) view ops view')
    (h : Refined view (flat :: upper ++ lower)) :
    ∃ flat' upper', Refined view' (flat' :: upper' ++ lower) := by
  induction hrun generalizing flat upper with
  | nil view => exact ⟨flat, upper, h⟩
  | cons hop hprepared hstep hrest ih =>
      have hrefined := h.step hop.1 hprepared hstep
      obtain ⟨flat', upper', heq⟩ := applyAll_lower (by rw [hm]; exact hop.2) h.showsAll.length
      rw [heq] at hrefined
      exact ih hrefined

theorem ShowsAll.under : ∀ {j : ℕ} {view under : ViewStack} {flats : List CCoinsViewCache},
    ShowsAll view flats → view.under j = some under →
      ∃ flat, flats[j]? = some flat ∧ Shows under flat := by
  intro j
  induction j with
  | zero =>
      rintro view _ flats h ⟨⟩
      obtain ⟨flat, rest, rfl, htop⟩ := h.cons
      exact ⟨flat, rfl, htop⟩
  | succ j ih =>
      intro view under flats h hunder
      cases view with
      | db base => cases hunder
      | cache layer base =>
          cases flats with
          | nil => exact h.elim
          | cons flat flats => exact ih h.2 hunder

/-- Two stacks that show the same maps look the same at every depth. -/
theorem ShowsAll.sameSeen {a b u u' : ViewStack} {flats : List CCoinsViewCache} {j : ℕ}
    (ha : ShowsAll a flats) (hb : ShowsAll b flats) (hu : a.under j = some u)
    (hu' : b.under j = some u') : SameSeen u u' := by
  obtain ⟨flat, hflat, hshows⟩ := ha.under hu
  obtain ⟨flat', hflat', hshows'⟩ := hb.under hu'
  rw [hflat] at hflat'
  obtain rfl := Option.some.inj hflat'
  exact hshows.seenAs.sameSeen hshows'.seenAs

theorem under_of_flush : ∀ {j k : ℕ} {view view' u u' : ViewStack}, j ≤ k →
    ViewStack.atDepth ViewStack.Flush k view = some view' → view.under j = some u →
      view'.under j = some u' → ViewStack.atDepth ViewStack.Flush (k - j) u = some u' := by
  intro j
  induction j with
  | zero =>
      rintro k view view' _ _ _ h ⟨⟩ ⟨⟩
      exact h
  | succ j ih =>
      intro k view view' u u' hle h hu hu'
      obtain ⟨k, rfl⟩ := Nat.exists_eq_add_of_le' (Nat.one_le_of_lt hle)
      cases view with
      | db base => cases hu
      | cache layer base =>
          obtain ⟨base', hbase, rfl⟩ := Option.map_eq_some_iff.mp h
          rw [Nat.add_sub_add_right]
          exact ih (Nat.le_of_succ_le_succ hle) hbase hu hu'

theorem wellAsked_under : ∀ {j : ℕ} {view u : ViewStack}, view.WellAsked →
    view.under j = some u → u.WellAsked := by
  intro j
  induction j with
  | zero =>
      rintro view _ h ⟨⟩
      exact h
  | succ j ih =>
      intro view u h hu
      cases view with
      | db base => cases hu
      | cache layer base => exact ih h.2 hu

theorem under_under : ∀ {j k : ℕ} {view u : ViewStack}, view.under j = some u →
    view.under (j + k) = u.under k := by
  intro j
  induction j with
  | zero =>
      rintro k view _ ⟨⟩
      rw [Nat.zero_add]
  | succ j ih =>
      intro k view u hu
      cases view with
      | db base => cases hu
      | cache layer base =>
          rw [Nat.succ_add]
          exact ih hu

/-! ### The main result -/

theorem showsAll_of_drop {v w v' : ViewStack} {flat : CCoinsViewCache}
    {upper : List CCoinsViewCache} (h : Refined w (flat :: upper ++ v.flats))
    (hheight : w.height = v.height + 1) (hdrop : w.drop = some v') : ShowsAll v' v.flats := by
  have hlength := h.showsAll.length
  have hlower := (ShowsAll.flats v).length
  rw [hheight, List.length_append, hlower, List.length_cons] at hlength
  obtain rfl : upper = [] := List.length_eq_zero_iff.mp (by omega)
  cases w with
  | db base => cases hdrop
  | cache layer base =>
      obtain rfl := Option.some.inj hdrop
      exact h.showsAll.2

/-- The refinement of a stack of caches to flat maps, for updates as the code
makes them. -/
theorem viewStack_refines {v₀ v : ViewStack} {ops : List CoinsOp} (h₀ : v₀.Unasked)
    (hrun : CoinsRun CoinsOp.Regular v₀ ops v) :
    ShowsAll v (ops.foldl applyAll v₀.flats) ∧
      ((∀ op ∈ ops, op ≠ .drop) → SeenAs v (ops.foldl CCoinsViewCache.apply v₀.flat)) ∧
      (∀ k v', (CoinsOp.flush k).Prepared v → (CoinsOp.flush k).run v = some v' →
        ∀ j ≤ k, ∀ u u', v.under j = some u → v'.under j = some u' → SameSeen u u') ∧
      ∀ ops' w v',
        CoinsRun (fun view op => op.Regular view ∧ op.StaysAbove v.height view)
          (.cache .new v) ops' w →
        w.height = v.height + 1 → w.drop = some v' →
          ∀ j u u', v.under j = some u → v'.under j = some u' → SameSeen u u' := by
  have hrefined : Refined v (ops.foldl applyAll v₀.flats) :=
    hrun.refined (fun _ _ hop => hop) ⟨h₀.wellAsked, ShowsAll.flats v₀⟩
  refine ⟨hrefined.showsAll, fun hops => ?_, fun k v' hprepared hflush j hj u u' hu hu' => ?_,
    fun ops' w v' hsegment hheight hdrop j u u' hu hu' => ?_⟩
  · obtain ⟨rest, hflats⟩ := v₀.flats_eq
    obtain ⟨rest', hfold⟩ := @foldl_applyAll_head ops v₀.flat rest hops
    have hshows := hrefined.showsAll
    rw [hflats, hfold] at hshows
    obtain ⟨flat, rest'', heq, hshows⟩ := hshows.cons
    rw [(List.cons.inj heq).1]
    exact hshows.seenAs
  · have hasked := wellAsked_under hrefined.wellAsked hu
    have hrun' := under_of_flush hj hflush hu hu'
    have hprepared' : (CoinsOp.flush (k - j)).Prepared u := by
      obtain ⟨flushed, hflushed, hlayer⟩ := hprepared
      refine ⟨flushed, ?_, hlayer⟩
      rw [← under_under hu, Nat.add_sub_cancel' hj]
      exact hflushed
    exact (ViewStack.flush_flushed hasked hprepared' hrun').faded.sameSeen
  · have htop : Refined (.cache .new v) (v.shown :: [] ++ v.flats) :=
      ⟨⟨fun hasked => (nomatch hasked), hrefined.wellAsked⟩, Within.refl _, ShowsAll.flats v⟩
    obtain ⟨flat, upper, hlower⟩ := hsegment.lower (ShowsAll.flats v).length htop
    exact ShowsAll.sameSeen (ShowsAll.flats v) (showsAll_of_drop hlower hheight hdrop) hu hu'

/-- Coins with a single output of 5. -/
def oneOutput (nVersion : ℤ) : CCoins :=
  { fCoinBase := false, vout := [{ nValue := 5, scriptPubKey := [] }], nHeight := 3, nVersion }

/-- A cache over the database. -/
def cacheOver (base : CoinsDatabase) : ViewStack := .cache .new (.db base)

/-- An output is added and written to the database; another one is forgotten
with the cache that it is in. -/
theorem viewStack_refines_oneOutput :
    ∃ v v' v'' : ViewStack,
      SeenAs v ([CoinsOp.setCoins 0 1 (oneOutput 1), .setBestBlock 0 7].foldl
        CCoinsViewCache.apply (cacheOver ⟨fun _ => none, none⟩).flat) ∧
      outputOf (v.GetCoins 1).1 0 = (oneOutput 1).output 0 ∧
      (CoinsOp.flush 0).run v = some v' ∧ SameSeen v v' ∧
      (∃ w, (CoinsOp.setCoins 0 2 (oneOutput 1)).run (.cache .new v) = some w ∧
        w.drop = some v'') ∧ SameSeen v v'' := by
  have hregular : ∀ (view : ViewStack) (txid : uint256),
      (CoinsOp.setCoins 0 txid (oneOutput 1)).Regular view :=
    fun _ _ => ⟨trivial, trivial, trivial⟩
  have hbest : ∀ view : ViewStack, (CoinsOp.setBestBlock 0 7).Regular view :=
    fun _ => ⟨trivial, Nat.succ_ne_zero 6, trivial⟩
  have h := @viewStack_refines (cacheOver ⟨fun _ => none, none⟩) _ _ ⟨rfl, trivial⟩
    (.cons (hregular _ 1) trivial rfl (.cons (hbest _) trivial rfl (.nil _)))
  refine ⟨_, _, _, h.2.1 (by simp), rfl, rfl, ?_, ⟨_, rfl, rfl⟩, ?_⟩
  · exact h.2.2.1 0 _ ⟨_, rfl, rfl⟩ rfl 0 le_rfl _ _ rfl rfl
  · exact h.2.2.2 _ _ _ (.cons ⟨hregular _ 2, Nat.lt_succ_self 2⟩ trivial rfl (.nil _))
      rfl rfl 0 _ _ rfl rfl

/-- A run without a cache destroyed ends with what the flat map has. -/
def RefinesWhen (P : ViewStack → CoinsOp → Prop) : Prop :=
  ∀ (v₀ : ViewStack) (ops : List CoinsOp) (v : ViewStack), v₀.Unasked → CoinsRun P v₀ ops v →
    (∀ op ∈ ops, op ≠ .drop) → SeenAs v (ops.foldl CCoinsViewCache.apply v₀.flat)

/-- An update below a copy is not seen, a best block of zero is the one below,
and a version that was negative is read back as another one. -/
theorem not_viewStack_refines :
    ¬ RefinesWhen (fun _ op => op.Nonzero ∧ op.OnOutputs) ∧
      ¬ RefinesWhen (fun view op => op.Reaches op.depth view ∧ op.OnOutputs) ∧
      ¬ RefinesWhen (fun view op => op.Reaches op.depth view ∧ op.Nonzero) := by
  refine ⟨fun h => ?_, fun h => ?_, fun h => ?_⟩
  · have hseen := h (.cache .new (cacheOver ⟨fun _ => some (oneOutput 1), none⟩))
      [.getCoins 0 1, .setCoins 1 1 CCoins.empty] _ ⟨rfl, rfl, trivial⟩
      (.cons ⟨trivial, trivial⟩ trivial rfl (.cons ⟨trivial, trivial⟩ trivial rfl (.nil _)))
      (by simp)
    have hfalse := hseen.1 1 0
    revert hfalse
    decide
  · have hseen := h (cacheOver ⟨fun _ => none, some 7⟩) [.setBestBlock 0 0] _ ⟨rfl, trivial⟩
      (.cons ⟨trivial, trivial⟩ trivial rfl (.nil _)) (by simp)
    have hfalse := hseen.2
    revert hfalse
    decide
  · have hseen := h (cacheOver ⟨fun _ => none, none⟩)
      [.setCoins 0 1 (oneOutput (-1)), .setBestBlock 0 7, .flush 0,
        .mutate 0 1 fun coins => if coins.nVersion = -1 then CCoins.empty else coins] _
      ⟨rfl, trivial⟩
      (.cons ⟨trivial, trivial⟩ trivial rfl (.cons ⟨trivial, Nat.succ_ne_zero 6⟩ trivial rfl
        (.cons ⟨trivial, trivial⟩ ⟨_, rfl, rfl⟩ rfl
          (.cons ⟨trivial, trivial⟩ trivial rfl (.nil _))))) (by simp)
    have hfalse := hseen.1 1 0
    revert hfalse
    decide

end Ziftrcoin.Spec
