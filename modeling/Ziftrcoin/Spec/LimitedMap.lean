/-
Module: Ziftrcoin.Spec.LimitedMap
Purpose: The map that is to keep only the elements with the highest values, as the
  table of requested inventory uses it.
Trusted boundary: human-reviewed model of src/limitedmap.h.  An iterator of `map` is the
  key of its element, `rmap` has its elements in the order of a multimap, and the order
  of the keys in `map` is not used
Main exports: limitedmap, limitedmap.insert, limitedmap.erase
-/
import Mathlib.Data.List.Basic
import Mathlib.Order.Lattice

namespace Ziftrcoin.Spec

variable {K V : Type} [DecidableEq K] [LinearOrder V]

/-- `rmap` holds for each element of `map` a node with its value and an iterator. -/
structure limitedmap (K V : Type) where
  map : List (K × V)
  rmap : List (V × K)
  nMaxSize : ℕ
deriving DecidableEq

namespace limitedmap

/-- Where a call leaves the defined behaviour. -/
inductive Fault where
  /-- `assert(0)`. -/
  | assert0
  /-- `rmap.begin()` of an empty `rmap`. -/
  | beginOfEmpty
deriving DecidableEq

/-- The constructor. -/
def empty (nMaxSizeIn : ℕ) : limitedmap K V := ⟨[], [], nMaxSizeIn⟩

def size (m : limitedmap K V) : ℕ := m.map.length

/-- `map.find(k)`. -/
def find (m : limitedmap K V) (k : K) : Option (K × V) := m.map.find? fun x => x.1 = k

/-- `map.erase` of an iterator. -/
def eraseKey (k : K) (map : List (K × V)) : List (K × V) := map.eraseP fun x => x.1 = k

/-- `rmap.insert`: behind the nodes of equal value. -/
def insertNode (v : V) (k : K) : List (V × K) → List (V × K)
  | [] => [(v, k)]
  | node :: rmap => if node.1 ≤ v then node :: insertNode v k rmap else (v, k) :: node :: rmap

/-- `map.erase(rmap.begin()->second); rmap.erase(rmap.begin());`. -/
def eraseLowest (m : limitedmap K V) : Except Fault (limitedmap K V) :=
  match m.rmap with
  | [] => .error .beginOfEmpty
  | node :: rmap => .ok { m with map := eraseKey node.2 m.map, rmap }

def insert (m : limitedmap K V) (x : K × V) : Except Fault (limitedmap K V) :=
  match m.find x.1 with
  | some _ => .ok m
  | none => do
      let m := { m with map := m.map ++ [x] }
      let m ← if m.nMaxSize ≠ 0 ∧ m.size = m.nMaxSize then m.eraseLowest else .ok m
      .ok { m with rmap := insertNode x.2 x.1 m.rmap }

/-- `rmap.erase` of the node that the loop over `equal_range` finds. -/
def eraseNode (v : V) (k : K) (rmap : List (V × K)) : Except Fault (List (V × K)) :=
  if (v, k) ∈ rmap then .ok (rmap.erase (v, k)) else .error .assert0

def erase (m : limitedmap K V) (k : K) : Except Fault (limitedmap K V) :=
  match m.find k with
  | none => .ok m
  | some itTarget => do
      let rmap ← eraseNode itTarget.2 k m.rmap
      .ok { m with map := eraseKey k m.map, rmap }

/-- `itTarget->second = v`. -/
def assign (k : K) (v : V) (map : List (K × V)) : List (K × V) :=
  map.map fun x => if x.1 = k then (k, v) else x

/-- `update` of the element that `itIn` points at, which has the key `k`. -/
def update (m : limitedmap K V) (k : K) (v : V) : Except Fault (limitedmap K V) :=
  match m.find k with
  | none => .ok m
  | some itTarget => do
      let rmap ← eraseNode itTarget.2 k m.rmap
      .ok { m with map := assign k v m.map, rmap := insertNode v k rmap }

/-- `while (map.size() > s)`: an iteration takes a node off `rmap`. -/
def shrink (s : ℕ) : (rmap : List (V × K)) → (map : List (K × V)) →
    Except Fault (List (K × V) × List (V × K))
  | [], map => if s < map.length then .error .beginOfEmpty else .ok (map, [])
  | node :: rmap, map =>
      if s < map.length then shrink s rmap (eraseKey node.2 map) else .ok (map, node :: rmap)

/-- `max_size(s)`. -/
def set_max_size (m : limitedmap K V) (s : ℕ) : Except Fault (limitedmap K V) :=
  if s ≠ 0 then do
    let (map, rmap) ← shrink s m.rmap m.map
    .ok ⟨map, rmap, s⟩
  else .ok { m with nMaxSize := s }

/-! ### Runs -/

/-- The calls that change the map. -/
inductive Call (K V : Type) where
  | insert (x : K × V)
  | erase (k : K)
  | update (k : K) (v : V)
  | max_size (s : ℕ)

def step (m : limitedmap K V) : Call K V → Except Fault (limitedmap K V)
  | .insert x => m.insert x
  | .erase k => m.erase k
  | .update k v => m.update k v
  | .max_size s => m.set_max_size s

def run (m : limitedmap K V) (calls : List (Call K V)) : Except Fault (limitedmap K V) :=
  calls.foldlM step m

end limitedmap
end Ziftrcoin.Spec
