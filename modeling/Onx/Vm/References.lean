import Onx.Vm.Builders

/-!
# The cells behind references

A cell holds the hashes of its children, and a slice none of the children themselves: `LDREF`
makes a cell around the hash.

* `Advanced`            the slices of a cell, by how many references were loaded;
* `advanced_slice`      what they are;
* `referenceCell`       the cell that `LDREF` makes; `LoadsRef`, `loadsRef_cell`;
* `Hashes`              what `HASHCELL` pushes for a cell;
* `Write.refs`          the cells given to a builder; `applies_references`;
* `CommitsToItself`     a hash that is the hash of the cell around it;
* `references_kept_iff` **when a reference keeps its identity**;
* `ldRef_fabricates`    a cell and what its reference gives.
-/

namespace Onx.Vm
open Machine

/-! ## slices of a cell -/

/-- a slice from `CTOS`, advanced by loads, the `n` of them that load references counted -/
inductive Advanced (c : Crypto) (cell : Cell) : Nat → Slice → Prop where
  | cToS {s t : Interpreter} {slice : Slice} {rest rest' : List StackValue}
      (hop : opcodeAt s = some .cToS) (hstack : s.stack = .cell cell :: rest)
      (hstep : step c s = .ok true t) (hresult : t.stack = .slice slice :: rest') :
      Advanced c cell 0 slice
  | load {n : Nat} {s t : Interpreter} {op : Opcode} {width : Uint16} {slice slice' : Slice}
      {v : StackValue} {rest rest' : List StackValue} (h : Advanced c cell n slice)
      (hload : op = .ldU ∨ op = .ldI) (hop : opcodeAt s = some op)
      (hwidth : widthAt s.currentCode (s.pcBits + 8) = some width)
      (hstack : s.stack = .slice slice :: rest) (hstep : step c s = .ok true t)
      (hresult : t.stack = v :: .slice slice' :: rest') : Advanced c cell n slice'
  | ldRef {n : Nat} {s t : Interpreter} {slice slice' : Slice} {v : StackValue}
      {rest rest' : List StackValue} (h : Advanced c cell n slice)
      (hop : opcodeAt s = some .ldRef) (hstack : s.stack = .slice slice :: rest)
      (hstep : step c s = .ok true t) (hresult : t.stack = v :: .slice slice' :: rest') :
      Advanced c cell (n + 1) slice'

/-- the cell that `LDREF` pushes for a slice -/
def LoadsRef (c : Crypto) (slice : Slice) (child : Cell) : Prop :=
  ∃ s t rest rest', opcodeAt s = some .ldRef ∧ s.stack = .slice slice :: rest
    ∧ step c s = .ok true t ∧ t.stack = .cell child :: rest'

/-- what `HASHCELL` pushes for a cell -/
def Hashes (c : Crypto) (cell : Cell) (v : Uint256) : Prop :=
  ∃ s t rest rest', opcodeAt s = some .hashCell ∧ s.stack = .cell cell :: rest
    ∧ step c s = .ok true t ∧ t.stack = .integer v :: rest'

/-- a cell with nothing but a reference -/
def referenceCell (hash : Uint256) : Cell := 
  ⟨[], [hash], false, Nat.zero_le _, Nat.le_of_ble_eq_true rfl⟩

/-- the hash of the cell around a hash is that hash -/
def CommitsToItself (c : Crypto) (hash : Uint256) : Prop := (referenceCell hash).hash c = hash

section
variable {c : Crypto} {s t : Interpreter} {cell child : Cell} {slice slice' : Slice} {n : Nat}
  {v : StackValue} {rest rest' : List StackValue} {b b' : Builder} {xs : List Write}

/-- what two pushes leave on the stack -/
theorem top_of_pushes {w : StackValue} {u : Interpreter} {a : Unit}
    (h : (push (.slice slice) >>= fun _ => push w) u = .ok a t) :
    t.stack = w :: .slice slice :: u.stack := by
  obtain ⟨_, mid, hpush, hlast⟩ := bind_eq_ok.mp h
  rw [push_eq_ok hlast, push_eq_ok hpush]

/-- a slice without children makes a cell around the hash -/
theorem refCell_apply (hchildren : slice.childCells = []) (s : Interpreter) :
    refCell slice s = match slice.cell.cellRefs[slice.refOffset]? with
      | some hash => .ok (referenceCell hash) s
      | none => .panic := by
  have hnone : ¬ slice.refOffset < slice.childCells.length := by
    rw [hchildren]
    exact Nat.not_lt_zero _
  unfold refCell
  rw [if_neg hnone]
  cases slice.cell.cellRefs[slice.refOffset]? <;> rfl

/-- what a reference that is loaded leaves on the stack -/
theorem ldRef_ok (hchildren : slice.childCells = []) (hop : opcodeAt s = some .ldRef)
    (hstack : s.stack = .slice slice :: rest) (hstep : step c s = .ok true t) :
    ∃ hash, slice.cell.cellRefs[slice.refOffset]? = some hash
      ∧ t.stack = .cell (referenceCell hash)
        :: .slice { slice with refOffset := slice.refOffset + 1 } :: rest := by
  rw [step_ldRef hop (hasGas_of_step hop rfl hstep) hstack] at hstep
  obtain ⟨_, hload⟩ := failIf_bind_eq_ok.mp (goneOn_eq_ok.mp hstep).2
  rw [bind_apply, refCell_apply hchildren] at hload
  cases hhash : slice.cell.cellRefs[slice.refOffset]? with
  | none =>
    rw [hhash] at hload
    cases hload
  | some hash =>
    rw [hhash] at hload
    exact ⟨hash, rfl, top_of_pushes hload⟩

/-- **The slices of a cell** have its references still, and no children. -/
theorem advanced_slice (h : Advanced c cell n slice) :
    slice.cell = cell ∧ slice.refOffset = n ∧ slice.childCells = [] := by
  induction h with
  | @cToS s t slice rest _ hop hstack hstep hresult =>
    rw [step_cToS hop (hasGas_of_step hop rfl hstep) hstack] at hstep
    obtain ⟨_, hpush⟩ := failIf_bind_eq_ok.mp (goneOn_eq_ok.mp hstep).2
    rw [StackValue.slice.inj (eq_of_push hpush hresult)]
    exact ⟨rfl, rfl, rfl⟩
  | @load n s t op width slice slice' v rest _ h hload hop hwidth hstack hstep hresult ih =>
    have hexec : exec c op = goesOn load := by rcases hload with rfl | rfl <;> rfl
    rw [step_load hload hop (hasGas_of_step hop hexec hstep) hwidth hstack] at hstep
    obtain ⟨r, next, hread, hpush⟩ := onLocal_bind_eq_ok.mp (goneOn_eq_ok.mp hstep).2
    rw [top_of_pushes hpush] at hresult
    injection hresult with _ htail
    injection htail with hslice
    injection hslice with hslice
    rw [← hslice, (readBits_ok hread).2]
    exact ih
  | @ldRef n s t slice slice' v rest _ h hop hstack hstep hresult ih =>
    obtain ⟨hcell, hoffset, hchildren⟩ := ih
    obtain ⟨hash, _, htop⟩ := ldRef_ok hchildren hop hstack hstep
    rw [htop] at hresult
    injection hresult with _ htail
    injection htail with hslice
    injection hslice with hslice
    rw [← hslice]
    exact ⟨hcell, congrArg (· + 1) hoffset, hchildren⟩

/-- the cell that is loaded is the cell around the hash -/
theorem loadsRef_cell (h : Advanced c cell n slice) (hloads : LoadsRef c slice child) :
    ∃ hash, cell.cellRefs[n]? = some hash ∧ child = referenceCell hash := by
  obtain ⟨hcell, hoffset, hchildren⟩ := advanced_slice h
  obtain ⟨s, t, rest, rest', hop, hstack, hstep, hresult⟩ := hloads
  obtain ⟨hash, hhash, htop⟩ := ldRef_ok hchildren hop hstack hstep
  rw [hcell, hoffset] at hhash
  rw [htop] at hresult
  injection hresult with hchild
  injection hchild with hchild
  exact ⟨hash, hhash, hchild.symm⟩

theorem hashes_iff {v : Uint256} : Hashes c cell v ↔ cell.hash c = v := by
  constructor
  · rintro ⟨s, t, rest, rest', hop, hstack, hstep, hresult⟩
    rw [step_hashCell hop (hasGas_of_step hop rfl hstep) hstack] at hstep
    exact (StackValue.integer.inj (eq_of_push (goneOn_eq_ok.mp hstep).2 hresult)).symm
  · rintro rfl
    have hop := opcodeAt_oneInstruction .hashCell (codeOf [0x61] (by decide))
      (by decide) [.cell cell]
    have hstep := step_hashCell (c := c) hop (Nat.le_of_ble_eq_true rfl) rfl
    exact ⟨_, _, _, _, hop, rfl, hstep.trans rfl, rfl⟩

end

/-! ## builders -/

/-- the cells that are given as references -/
def Write.refs : Write → List Cell
  | .ref cell => [cell]
  | _ => []

theorem applies_references {xs : List Write} {b b' : Builder} (h : Applies xs b b') :
    b'.references = b.references ++ xs.flatMap Write.refs := by
  induction xs generalizing b with
  | nil =>
    rw [show b' = b from h, List.flatMap_nil, List.append_nil]
  | cons x xs ih =>
    obtain ⟨mid, hx, hxs⟩ := h
    have hmid : mid.references = b.references ++ x.refs := by
      cases x with
      | bits widthBits valBytes =>
        obtain ⟨_, data, _, rfl⟩ := appendBits_ok hx
        exact (List.append_nil _).symm
      | bytes v =>
        obtain ⟨_, rfl⟩ := (show _ ∧ mid = _ from hx)
        exact (List.append_nil _).symm
      | ref cell =>
        obtain ⟨_, rfl⟩ := (show _ ∧ mid = _ from hx)
        rfl
    rw [ih hxs, hmid, List.flatMap_cons, List.append_assoc]

/-- **When a reference keeps its identity**: the cell that `LDREF` pushes has the hash that the cell
commits to, and for a cell from a builder the hash of the cell that was given. -/
theorem references_kept_iff (c : Crypto) {cell child : Cell} {n : Nat} {slice : Slice}
    (hadvanced : Advanced c cell n slice) (hloads : LoadsRef c slice child) :
    ∃ hash, cell.cellRefs[n]? = some hash ∧ (child.hash c = hash ↔ CommitsToItself c hash)
      ∧ ∀ xs b, Built c xs b → Ended c b cell →
        ∃ given, (xs.flatMap Write.refs)[n]? = some given ∧ hash = given.hash c
          ∧ (Hashes c child (given.hash c) ↔ CommitsToItself c hash) := by
  obtain ⟨hash, hhash, rfl⟩ := loadsRef_cell hadvanced hloads
  refine ⟨hash, hhash, Iff.rfl, fun xs b hbuilt hended => ?_⟩
  have hrefs := applies_references (applies_of_built hbuilt)
  rw [show Builder.default.references = [] from rfl, List.nil_append] at hrefs
  rw [(ended_cell hended).2.1, hrefs, List.getElem?_map] at hhash
  obtain ⟨given, hgiven, hhash⟩ := Option.map_eq_some_iff.mp hhash
  refine ⟨given, hgiven, hhash.symm, ?_⟩
  rw [hashes_iff, hhash]
  exact Iff.rfl

/-- a cell with one reference -/
def parentCell : Cell := referenceCell 7

theorem advanced_parent : Advanced sampleCrypto parentCell 0 (Slice.new parentCell) :=
  .cToS (s := oneInstruction (codeOf [0x45] (by decide)) [.cell parentCell])
    (opcodeAt_oneInstruction _ _ (by decide) _) rfl rfl rfl

theorem loadsRef_parent : LoadsRef sampleCrypto (Slice.new parentCell) (referenceCell 7) :=
  ⟨oneInstruction (codeOf [0x48] (by decide)) [.slice (Slice.new parentCell)], _, _, _,
    opcodeAt_oneInstruction .ldRef _ (by decide) _, rfl, rfl, rfl⟩

theorem references_kept_sample :
    (referenceCell 7).hash sampleCrypto = 7 ↔ CommitsToItself sampleCrypto 7 := by
  obtain ⟨hash, hhash, hiff, _⟩ := references_kept_iff sampleCrypto advanced_parent loadsRef_parent
  cases hhash
  exact hiff

/-- the cell that the reference 7 gives does not hash to 7 -/
theorem ldRef_fabricates :
    (referenceCell 7).hash sampleCrypto ≠ 7
    ∧ ¬ ∀ c cell child n slice, Advanced c cell n slice → LoadsRef c slice child →
      ∃ hash, cell.cellRefs[n]? = some hash ∧ child.hash c = hash := by
  have hne : (referenceCell 7).hash sampleCrypto ≠ 7 := by decide +kernel
  refine ⟨hne, fun h => ?_⟩
  obtain ⟨hash, hhash, hchild⟩ := h _ _ _ _ _ advanced_parent loadsRef_parent
  cases hhash
  exact hne hchild

end Onx.Vm
