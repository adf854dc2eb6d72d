import Onx.State.Decode

/-!
# Cycles of references

The graph of a bag: the hashes of its map, whatever they are, and the references of the cells under
them.  References to absent hashes lead nowhere.

* `HasCycle`                a cycle of stored cells below the root;
* `check_decides`           the search decides it, with fuel above the number of cells;
* `cycle_detection_exact`   **the cycle check is exact**;
* `addCell_restores_iff`    **when a cell that is refused leaves the bag as it was**: if it closes no
                            cycle, or was there before;
* `rejected_stays`          a cell that is refused, and stored.
-/

namespace Onx.BagOfCells

/-- the cell under a hash refers to another -/
def Refers (cells : OrdMap Uint256 Cell) (a b : Uint256) : Prop :=
  ∃ cell, cells.get? a = some cell ∧ b ∈ cell.cellRefs

/-- a cycle below the root; each of its hashes has a cell -/
def HasCycle (self : BagOfCells) : Prop :=
  ∃ h, Relation.ReflTransGen (Refers self.cells) self.rootHash h
    ∧ Relation.TransGen (Refers self.cells) h h

theorem refers_iff {cells : OrdMap Uint256 Cell} {a b : Uint256} :
    Refers cells a b ↔ b ∈ refsIn cells a := by
  unfold Refers refsIn
  cases cells.get? a with
  | none => exact iff_of_false (fun ⟨_, h, _⟩ => nomatch h) List.not_mem_nil
  | some cell =>
    refine ⟨fun ⟨cell', h, hb⟩ => ?_, fun hb => ⟨cell, rfl, hb⟩⟩
    cases h
    exact hb

theorem not_hasCycle_iff {self : BagOfCells} :
    ¬ self.HasCycle ↔ Dfs.Acyclic (refsIn self.cells) self.rootHash := by
  have hrel : Refers self.cells = fun a b => b ∈ refsIn self.cells a := by
    funext a b
    exact propext refers_iff
  unfold HasCycle Dfs.Acyclic Dfs.Reach
  rw [hrel]
  push Not
  rfl

/-! ## the check -/

section
variable {self : BagOfCells}

/-- **The search for a cycle ends, and finds one exactly if there is one.** -/
theorem check_decides {fuel : Nat} (hfuel : self.cells.size < fuel) :
    (¬ self.HasCycle ∧ ∃ way, Dfs.check (refsIn self.cells) StateModelError.cyclicCellReference fuel
        self.rootHash ([], []) = .ok way) ∨
    (self.HasCycle ∧ Dfs.check (refsIn self.cells) StateModelError.cyclicCellReference fuel
        self.rootHash ([], []) = .error (.fail .cyclicCellReference)) := by
  have hcard : (self.cells.keys.toFinset.filter (· ∉ ([] : List Uint256))).card < fuel :=
    (card_keys_le self).trans_lt hfuel
  by_cases hcycle : self.HasCycle
  · refine .inr ⟨hcycle, ?_⟩
    cases hcheck : Dfs.check (refsIn self.cells) StateModelError.cyclicCellReference fuel
        self.rootHash ([], []) with
    | ok way =>
      obtain ⟨hacc, _⟩ := Dfs.check_acc _ _ _ _ _ _ (fun _ hy => absurd hy List.not_mem_nil) hcheck
      exact absurd hcycle (not_hasCycle_iff.mpr (acyclic_iff.mpr hacc))
    | error o =>
      cases o with
      | fuel => exact absurd hcheck (Dfs.check_ne_fuel refsIn_support _ _ _ _ hcard)
      | fail e => rw [Dfs.check_fail _ _ _ _ hcheck]
  · have hacc := acyclic_iff.mp (not_hasCycle_iff.mp hcycle)
    obtain ⟨visited, hcheck⟩ := Dfs.check_ok refsIn_support fuel self.rootHash [] [] hacc
      (fun _ hy => absurd hy List.not_mem_nil) hcard
    exact .inl ⟨hcycle, _, hcheck⟩

/-- the two results of the check -/
theorem verifyDag_cases :
    (¬ self.HasCycle ∧ self.verifyDag = .ok ()) ∨
    (self.HasCycle ∧ self.verifyDag = .error .cyclicCellReference) := by
  unfold verifyDag
  rcases @check_decides self _ (Nat.lt_succ_self _) with ⟨hcycle, way, hcheck⟩ | ⟨hcycle, hcheck⟩
  · rw [hcheck]
    exact .inl ⟨hcycle, rfl⟩
  · rw [hcheck]
    exact .inr ⟨hcycle, rfl⟩

end

/-- **Cycle detection is exact.**  On every root hash and map the search ends, with the error if a
cycle of stored cells is within reach of the root, and without one otherwise. -/
theorem cycle_detection_exact (self : BagOfCells) :
    (∀ fuel, self.cells.size < fuel → Dfs.check (refsIn self.cells)
      StateModelError.cyclicCellReference fuel self.rootHash ([], []) ≠ .error .fuel)
    ∧ (self.verifyDag = .error .cyclicCellReference ↔ self.HasCycle)
    ∧ (self.verifyDag = .ok () ↔ ¬ self.HasCycle) := by
  refine ⟨fun fuel hfuel hcheck => ?_, ?_⟩
  · rcases check_decides hfuel with ⟨_, way, hok⟩ | ⟨_, herror⟩
    · rw [hcheck] at hok
      cases hok
    · rw [hcheck] at herror
      cases herror
  · rcases @verifyDag_cases self with ⟨hcycle, hok⟩ | ⟨hcycle, herror⟩
    · rw [hok]
      exact ⟨iff_of_false nofun hcycle, iff_of_true rfl hcycle⟩
    · rw [herror]
      exact ⟨iff_of_true rfl hcycle, iff_of_false nofun (not_not.mpr hcycle)⟩

/-! ## cells that are refused -/

section
variable (c : Crypto) (self : BagOfCells) (cell : Cell)

/-- an addition is refused where it leaves a cycle -/
theorem addCell_cases :
    (¬ HasCycle ⟨self.rootHash, self.cells.insert (cell.hash c) cell⟩
      ∧ (self.addCell c cell).1 = .ok (cell.hash c)) ∨
    (HasCycle ⟨self.rootHash, self.cells.insert (cell.hash c) cell⟩
      ∧ (self.addCell c cell).1 = .error .cyclicCellReference) := by
  unfold addCell
  dsimp only
  rcases @verifyDag_cases ⟨self.rootHash, self.cells.insert (cell.hash c) cell⟩ with
    ⟨hcycle, hok⟩ | ⟨hcycle, herror⟩
  · rw [hok]
    exact .inl ⟨hcycle, rfl⟩
  · rw [herror]
    exact .inr ⟨hcycle, rfl⟩

/-- the bag is the same after an addition if it held the cell before -/
theorem addCell_same_iff : (self.addCell c cell).2 = self ↔ self.getCell (cell.hash c) = some cell := by
  obtain ⟨rootHash, cells⟩ := self
  rw [addCell_snd, BagOfCells.mk.injEq, and_iff_right rfl]
  unfold getCell
  constructor
  · intro h
    have hget := OrdMap.get?_insert_self cells (cell.hash c) cell
    rwa [h] at hget
  · exact OrdMap.insert_get?_self

/-- **When a cell that is refused leaves the bag as it was.** -/
theorem addCell_restores_iff :
    (∀ e, (self.addCell c cell).1 = .error e → (self.addCell c cell).2 = self)
      ↔ ¬ HasCycle ⟨self.rootHash, self.cells.insert (cell.hash c) cell⟩
        ∨ self.getCell (cell.hash c) = some cell := by
  rw [addCell_same_iff]
  rcases addCell_cases c self cell with ⟨hcycle, hok⟩ | ⟨hcycle, herror⟩
  · rw [hok]
    exact iff_of_true nofun (.inl hcycle)
  · rw [herror, or_iff_right (not_not.mpr hcycle)]
    exact ⟨fun h => h _ rfl, fun h _ _ => h⟩

end

/-- it refers to the hash 5 -/
def backCell : Cell := ⟨[], [5], false, Nat.zero_le _, by decide⟩

/-- a cell under the key 5, whose only reference is the hash of `backCell` -/
def forwardBag : BagOfCells :=
  ⟨5, OrdMap.empty.insert 5 ⟨[], [backCell.hash sampleCrypto], false, Nat.zero_le _, by decide⟩⟩

/-- **The second cell of a cycle is refused, and is in the bag.** -/
theorem rejected_stays :
    BagOfCells.new 5 forwardBag.cells = .ok forwardBag
    ∧ (forwardBag.addCell sampleCrypto backCell).1 = .error .cyclicCellReference
    ∧ (forwardBag.addCell sampleCrypto backCell).2 ≠ forwardBag := by
  refine ⟨new_ok (by decide +kernel) (by decide +kernel), by decide +kernel, fun h => ?_⟩
  have hget := (addCell_same_iff sampleCrypto forwardBag backCell).mp h
  exact absurd hget (by decide +kernel)

end Onx.BagOfCells
