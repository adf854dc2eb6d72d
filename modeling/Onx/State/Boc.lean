import Onx.Lib.Dfs
import Onx.Lib.OrdMap
import Onx.State.Cell

/-!
# Bags of cells

A root hash with the cells under their hashes.  `verifyDag_iff`: the bags without infinite descent
below their root are those that pass the cycle check, whose recursion never runs out of fuel.
-/

namespace Onx

structure BagOfCells where
  rootHash : Uint256
  cells : OrdMap Uint256 Cell

namespace BagOfCells

/-- the references of the cell under a hash; a hash without a cell has none -/
def refsIn (cells : OrdMap Uint256 Cell) (h : Uint256) : List Uint256 :=
  match cells.get? h with
  | some cell => cell.cellRefs
  | none => []

/-- the depth-first search of `verify_dag`; a path without repetition has at most `size + 1` nodes -/
def verifyDag (self : BagOfCells) : Except StateModelError Unit :=
  match Dfs.check (refsIn self.cells) StateModelError.cyclicCellReference (self.cells.size + 1)
      self.rootHash ([], []) with
  | .ok _ => .ok ()
  | .error (.fail e) => .error e
  | .error .fuel => .error .cyclicCellReference

def new (rootHash : Uint256) (cells : OrdMap Uint256 Cell) : Except StateModelError BagOfCells :=
  if !cells.contains rootHash then
    .error (.deserializationError "Root cell hash not found in cell map")
  else
    match verifyDag ⟨rootHash, cells⟩ with
    | .error e => .error e
    | .ok () => .ok ⟨rootHash, cells⟩

def getCell (self : BagOfCells) (hash : Uint256) : Option Cell := self.cells.get? hash

section
variable (c : Crypto)

/-- only the root is collected, and nothing is checked -/
def fromRoot (root : Cell) : BagOfCells :=
  ⟨root.hash c, OrdMap.empty.insert (root.hash c) root⟩

/-- the hash, and the bag the call leaves behind, which holds the cell also when the check fails -/
def addCell (self : BagOfCells) (cell : Cell) : Except StateModelError Uint256 × BagOfCells :=
  let after : BagOfCells := ⟨self.rootHash, self.cells.insert (cell.hash c) cell⟩
  match after.verifyDag with
  | .error e => (.error e, after)
  | .ok () => (.ok (cell.hash c), after)

end

/-- only stored cells have references -/
theorem refsIn_support {cells : OrdMap Uint256 Cell} (x : Uint256) (hx : refsIn cells x ≠ []) :
    x ∈ cells.keys.toFinset := by
  cases hg : cells.get? x with
  | none =>
    unfold refsIn at hx
    rw [hg] at hx
    exact absurd rfl hx
  | some cell => exact List.mem_toFinset.mpr (OrdMap.mem_keys_iff.mpr ⟨cell, hg⟩)

theorem acyclic_iff {self : BagOfCells} : Dfs.Acyclic (refsIn self.cells) self.rootHash
    ↔ Acc (fun a b => a ∈ refsIn self.cells b) self.rootHash :=
  ⟨Dfs.acc_of_acyclic refsIn_support, Dfs.acyclic_of_acc⟩

/-- no more hashes than cells -/
theorem card_keys_le (self : BagOfCells) :
    (self.cells.keys.toFinset.filter (· ∉ ([] : List Uint256))).card ≤ self.cells.size := by
  have hle := Finset.card_filter_le self.cells.keys.toFinset (· ∉ ([] : List Uint256))
  have hlen := List.toFinset_card_le self.cells.keys
  rw [OrdMap.length_keys] at hlen
  exact hle.trans hlen

theorem verifyDag_ok {self : BagOfCells}
    (h : Acc (fun a b => a ∈ refsIn self.cells b) self.rootHash) : self.verifyDag = .ok () := by
  have hcard := Nat.lt_succ_of_le (card_keys_le self)
  obtain ⟨visited, hv⟩ := Dfs.check_ok (e := StateModelError.cyclicCellReference) refsIn_support
    (self.cells.size + 1) self.rootHash [] [] h (fun _ hy => nomatch hy) hcard
  unfold verifyDag
  rw [hv]

theorem verifyDag_iff {self : BagOfCells} :
    self.verifyDag = .ok () ↔ Acc (fun a b => a ∈ refsIn self.cells b) self.rootHash := by
  refine ⟨fun h => ?_, verifyDag_ok⟩
  unfold verifyDag at h
  cases hc : Dfs.check (refsIn self.cells) StateModelError.cyclicCellReference
      (self.cells.size + 1) self.rootHash ([], []) with
  | error o =>
    rw [hc] at h
    cases o <;> cases h
  | ok r => exact (Dfs.check_acc _ _ _ _ _ _ (fun _ hy => absurd hy List.not_mem_nil) hc).1

end BagOfCells

end Onx
