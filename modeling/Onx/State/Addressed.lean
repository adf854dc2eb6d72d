import Onx.State.Decode

/-!
# Content addressing in memory

Bags come from a constructor and calls of `add_cell`, which keeps the cell also when it refuses it.

* `Origin`, `states`        the constructors, and the bags that additions leave;
* `addCell_addressed_iff`   an addition is harmless unless the cell closes a cycle below the root;
* `addressed_iff`           **all bags of a run are content addressed and acyclic** exactly if the
                            constructor was given hashes as keys and no addition closes a cycle;
* `new_misKeyed`            `new` takes a cell under a key that is not its hash.
-/

namespace Onx.BagOfCells
section
variable (c : Crypto)

/-- the constructors with their arguments -/
inductive Origin where
  | new (rootHash : Uint256) (cells : OrdMap Uint256 Cell)
  | fromRoot (root : Cell)
  | fromBytes (slice : Bytes)

def Origin.build : Origin → Except StateModelError BagOfCells
  | .new rootHash cells => BagOfCells.new rootHash cells
  | .fromRoot root => .ok (BagOfCells.fromRoot c root)
  | .fromBytes slice =>
    match BagOfCells.fromBytes c slice with
    | .error e => .error e
    | .ok (boc, _) => .ok boc

/-- a bag and what the calls of `add_cell` make of it, failed ones included -/
def states : BagOfCells → List Cell → List BagOfCells
  | self, [] => [self]
  | self, cell :: rest => self :: states (self.addCell c cell).2 rest

/-- what the constructors leave unchecked -/
def Origin.Clean : Origin → Prop
  | .new _ cells => ∀ h d, cells.get? h = some d → d.hash c = h
  | .fromRoot root => root.hash c ∉ root.cellRefs
  | .fromBytes _ => True

/-- the root reaches the hash of the cell, and one of its references reaches it too, or a cycle -/
def Closes (self : BagOfCells) (cell : Cell) : Prop :=
  Dfs.Reach (refsIn self.cells) self.rootHash (cell.hash c) ∧
    ∃ r ∈ cell.cellRefs, Dfs.Reach (refsIn self.cells) r (cell.hash c)
      ∨ ¬ Dfs.Acyclic (refsIn self.cells) r

def NoneCloses : BagOfCells → List Cell → Prop
  | _, [] => True
  | self, cell :: rest => ¬ self.Closes c cell ∧ NoneCloses (self.addCell c cell).2 rest

end

section
variable {c : Crypto}

theorem build_fromBytes_iff {slice : Bytes} {self : BagOfCells} :
    (Origin.fromBytes slice).build c = .ok self
      ↔ ∃ n, BagOfCells.fromBytes c slice = .ok (self, n) := by
  unfold Origin.build
  dsimp only
  cases BagOfCells.fromBytes c slice with
  | error e => exact ⟨fun h => (nomatch h), fun ⟨_, h⟩ => (nomatch h)⟩
  | ok r =>
    obtain ⟨boc, n⟩ := r
    refine ⟨fun h => ?_, fun ⟨_, h⟩ => ?_⟩
    · cases h
      exact ⟨n, rfl⟩
    · cases h
      rfl

theorem mem_states_self (self : BagOfCells) (added : List Cell) : self ∈ states c self added := by
  cases added with
  | nil => exact List.mem_singleton_self self
  | cons cell rest => exact List.mem_cons_self

/-- the bags of these runs are all there are -/
theorem built_iff {boc : BagOfCells} : Built c boc ↔
    ∃ origin self added, Origin.build c origin = .ok self ∧ boc ∈ states c self added := by
  constructor
  · intro h
    induction h with
    | @new rootHash cells boc hnew =>
      exact ⟨.new rootHash cells, boc, [], hnew, List.mem_singleton_self boc⟩
    | fromRoot root => exact ⟨.fromRoot root, _, [], rfl, List.mem_singleton_self _⟩
    | @fromBytes slice boc n hread =>
      exact ⟨.fromBytes slice, boc, [], build_fromBytes_iff.mpr ⟨n, hread⟩,
        List.mem_singleton_self boc⟩
    | @addCell boc cell _ ih =>
      obtain ⟨origin, self, added, hbuild, hmem⟩ := ih
      -- the additions up to `boc`, and one more
      have hmore : ∀ added self, boc ∈ states c self added →
          ∃ added', (boc.addCell c cell).2 ∈ states c self added' := by
        intro added
        induction added with
        | nil =>
          intro self hmem
          cases List.mem_singleton.mp hmem
          exact ⟨[cell], List.mem_cons_of_mem _ (mem_states_self _ [])⟩
        | cons first rest ihs =>
          intro self hmem
          rcases List.mem_cons.mp hmem with rfl | hmem
          · exact ⟨[cell], List.mem_cons_of_mem _ (mem_states_self _ [])⟩
          · obtain ⟨added', hmem'⟩ := ihs _ hmem
            exact ⟨first :: added', List.mem_cons_of_mem _ hmem'⟩
      obtain ⟨added', hmem'⟩ := hmore added self hmem
      exact ⟨origin, self, added', hbuild, hmem'⟩
  · rintro ⟨origin, self, added, hbuild, hmem⟩
    have hself : Built c self := by
      cases origin with
      | new rootHash cells => exact .new hbuild
      | fromRoot root =>
        cases hbuild
        exact .fromRoot root
      | fromBytes slice =>
        obtain ⟨n, hread⟩ := build_fromBytes_iff.mp hbuild
        exact .fromBytes hread
    clear hbuild
    induction added generalizing self with
    | nil =>
      cases List.mem_singleton.mp hmem
      exact hself
    | cons cell rest ih =>
      rcases List.mem_cons.mp hmem with rfl | hmem
      · exact hself
      · exact ih _ hmem (hself.addCell cell)

/-! ## one addition -/

theorem refsIn_insert_self (cells : OrdMap Uint256 Cell) (h : Uint256) (cell : Cell) :
    refsIn (cells.insert h cell) h = cell.cellRefs := by
  unfold refsIn
  rw [OrdMap.get?_insert_self]

theorem refsIn_insert_of_ne (cells : OrdMap Uint256 Cell) {h : Uint256} (cell : Cell) (x : Uint256)
    (hx : x ≠ h) : refsIn (cells.insert h cell) x = refsIn cells x := by
  unfold refsIn
  rw [OrdMap.get?_insert_of_ne cells cell hx]

/-- **An addition keeps a bag acyclic** unless the cell closes a cycle. -/
theorem addCell_addressed_iff {self : BagOfCells} (h : self.Addressed c) (cell : Cell) :
    (self.addCell c cell).2.Addressed c ↔ ¬ self.Closes c cell := by
  have hacc := acyclic_iff.mp h.acyclic
  have hchange := Dfs.acc_changed_iff
    (fun x hx => refsIn_insert_of_ne self.cells (h:=cell.hash c) cell x hx) hacc
  rw [refsIn_insert_self] at hchange
  have hacyclic : Dfs.Acyclic (refsIn (self.addCell c cell).2.cells) (self.addCell c cell).2.rootHash
      ↔ ¬ self.Closes c cell := by
    rw [acyclic_iff, addCell_snd]
    refine hchange.trans ?_
    unfold Closes
    push Not
    refine forall_congr' fun _ => forall₂_congr fun r _ => and_congr_right fun _ => ?_
    exact ⟨Dfs.acyclic_of_acc, Dfs.acc_of_acyclic refsIn_support⟩
  exact ⟨fun hafter => hacyclic.mp hafter.acyclic,
    fun hnot => ⟨addCell_wellKeyed h.keyed cell, hacyclic.mpr hnot⟩⟩

theorem states_addressed_iff (added : List Cell) {self : BagOfCells} (h : self.Addressed c) :
    (∀ boc ∈ states c self added, boc.Addressed c) ↔ NoneCloses c self added := by
  induction added generalizing self with
  | nil =>
    refine ⟨fun _ => trivial, fun _ boc hboc => ?_⟩
    rw [List.mem_singleton.mp hboc]
    exact h
  | cons cell rest ih =>
    unfold states NoneCloses
    rw [List.forall_mem_cons]
    constructor
    · rintro ⟨_, hall⟩
      have hnext := hall _ (mem_states_self _ rest)
      exact ⟨(addCell_addressed_iff h cell).mp hnext, (ih hnext).mp hall⟩
    · rintro ⟨hnot, hrest⟩
      exact ⟨h, (ih ((addCell_addressed_iff h cell).mpr hnot)).mpr hrest⟩

/-! ## constructors -/

/-- a bag of one cell has a cycle if the cell refers to itself -/
theorem fromRoot_acyclic_iff (root : Cell) :
    Dfs.Acyclic (refsIn (fromRoot c root).cells) (fromRoot c root).rootHash
      ↔ root.hash c ∉ root.cellRefs := by
  have hleaf : ∀ x, Acc (fun a b => a ∈ refsIn OrdMap.empty b) x :=
    fun x => Acc.intro x fun _ hy => absurd hy List.not_mem_nil
  have hreach : ∀ x, Dfs.Reach (refsIn OrdMap.empty) x (root.hash c) ↔ x = root.hash c := by
    intro x
    refine ⟨fun h => ?_, fun h => h ▸ Dfs.Reach.refl _ x⟩
    rcases Relation.ReflTransGen.cases_head h with h | ⟨_, hy, _⟩
    · exact h
    · exact absurd hy List.not_mem_nil
  rw [acyclic_iff]
  refine (Dfs.acc_changed_iff (fun x hx => refsIn_insert_of_ne OrdMap.empty (h:=root.hash c) root x hx)
    (hleaf (root.hash c))).trans ?_
  rw [refsIn_insert_self]
  constructor
  · intro h hself
    exact (h (Dfs.Reach.refl _ _) _ hself).1 (Dfs.Reach.refl _ _)
  · intro hnot _ y hy
    refine ⟨fun hr => hnot ?_, hleaf y⟩
    rw [← (hreach y).mp hr]
    exact hy

theorem build_addressed_iff {origin : Origin} {self : BagOfCells}
    (h : origin.build c = .ok self) : self.Addressed c ↔ origin.Clean c := by
  cases origin with
  | new rootHash cells =>
    have hacyclic := acyclic_iff.mpr (verifyDag_iff.mp (new_verified h))
    rw [new_eq h] at hacyclic ⊢
    exact ⟨fun ha => ha.keyed, fun hkeyed => ⟨hkeyed, hacyclic⟩⟩
  | fromRoot root =>
    cases h
    exact ⟨fun ha => (fromRoot_acyclic_iff root).mp ha.acyclic,
      fun hnot => ⟨fromRoot_wellKeyed root, (fromRoot_acyclic_iff root).mpr hnot⟩⟩
  | fromBytes slice =>
    obtain ⟨n, hread⟩ := build_fromBytes_iff.mp h
    exact ⟨fun _ => trivial, fun _ => fromBytes_addressed hread⟩

/-- **Content addressing in memory.**  All bags of a run have hashes as keys and no cycle below the
root exactly if `new` was given hashes as keys, `from_root` a cell that does not refer to itself,
and no cell that is added closes a cycle. -/
theorem addressed_iff {origin : Origin} {self : BagOfCells} (h : origin.build c = .ok self)
    (added : List Cell) :
    (∀ boc ∈ states c self added, boc.Addressed c) ↔ origin.Clean c ∧ NoneCloses c self added := by
  rw [← build_addressed_iff h]
  constructor
  · intro hall
    have hself := hall self (mem_states_self self added)
    exact ⟨hself, (states_addressed_iff added hself).mp hall⟩
  · rintro ⟨hself, hnone⟩
    exact (states_addressed_iff added hself).mpr hnone

/-- a root, and the leaf that it refers to -/
theorem addressed_sample : (states sampleCrypto (fromRoot sampleCrypto Cell.sampleRoot)
      [Cell.sampleLeaf]).length = 2
    ∧ ∀ boc ∈ states sampleCrypto (fromRoot sampleCrypto Cell.sampleRoot) [Cell.sampleLeaf],
      boc.Addressed sampleCrypto := by
  have hself : Cell.sampleRoot.hash sampleCrypto ∉ Cell.sampleRoot.cellRefs := by decide +kernel
  refine ⟨rfl, (@addressed_iff sampleCrypto (.fromRoot Cell.sampleRoot) _ rfl
    [Cell.sampleLeaf]).mpr ⟨hself, ?_, trivial⟩⟩
  rintro ⟨_, r, hr, _⟩
  exact absurd hr List.not_mem_nil

/-- `new` takes a cell under a key that is not its hash, whatever the hash function -/
theorem misKeyed (c : Crypto) : ∃ boc,
    BagOfCells.new (Cell.sampleLeaf.hash c + 1)
        (OrdMap.empty.insert (Cell.sampleLeaf.hash c + 1) Cell.sampleLeaf) = .ok boc
      ∧ boc.getCell (Cell.sampleLeaf.hash c + 1) = some Cell.sampleLeaf
      ∧ Built c boc ∧ ¬ boc.Addressed c := by
  have hget := OrdMap.get?_insert_self OrdMap.empty (Cell.sampleLeaf.hash c + 1) Cell.sampleLeaf
  have hacc : Acc (fun a b => a ∈ refsIn (OrdMap.empty.insert (Cell.sampleLeaf.hash c + 1)
      Cell.sampleLeaf) b) (Cell.sampleLeaf.hash c + 1) := by
    refine Acc.intro _ fun y hy => ?_
    rw [refsIn_insert_self] at hy
    exact absurd hy List.not_mem_nil
  have hnew := new_ok (OrdMap.contains_iff.mpr ⟨_, hget⟩) (verifyDag_ok hacc)
  refine ⟨_, hnew, hget, .new hnew, fun h => ?_⟩
  have hkey := h.keyed _ _ hget
  bv_omega

end

/-- **A leaf under another key than its hash**, in a bag that `new` builds. -/
theorem new_misKeyed : ∃ boc,
    BagOfCells.new (Cell.sampleLeaf.hash sampleCrypto + 1)
        (OrdMap.empty.insert (Cell.sampleLeaf.hash sampleCrypto + 1) Cell.sampleLeaf) = .ok boc
      ∧ boc.getCell (Cell.sampleLeaf.hash sampleCrypto + 1) = some Cell.sampleLeaf
      ∧ Built sampleCrypto boc ∧ ¬ boc.Addressed sampleCrypto :=
  misKeyed sampleCrypto

end Onx.BagOfCells
