import Onx.Lib.Machine
import Onx.Lib.Patricia
import Onx.Lib.ByteBits
import Onx.Vm.Types

/-!
# Dictionaries

Patricia dictionaries from keys of a fixed number of bits to cells, with the cell that commits to
them.  An index or a range out of bounds panics; the programs on nodes run on the previous value.

* `Dictionary.get`, `set`, `delete`   the operations;
* `insertNode`, `removeNode`          on a node, with the edges split and merged again;
* `serialize`                         the cell of a node; long labels go on in a cell of their own.
-/

namespace Onx.Vm
open Machine

inductive DictionaryError where
  | invalidKeyLength
  | invalidKey
  | cell
deriving DecidableEq

abbrev Node := Patricia Cell

structure Dictionary where
  keyBits : Nat
  root : Option Node
  rootCell : Option Cell
deriving DecidableEq

/-- `&bits[start..]` -/
def sliceFrom (bits : List Bool) (start : Nat) : Option (List Bool) :=
  if start ≤ bits.length then some (bits.drop start) else none

/-- `&bits[..stop]` -/
def sliceTo (bits : List Bool) (stop : Nat) : Option (List Bool) :=
  if stop ≤ bits.length then some (bits.take stop) else none

/-! ## keys -/

section
variable {σ : Type}

/-- the first bits of a key, each byte from its highest one -/
def keyBits (key : Bytes) (width : Nat) : Prog σ DictionaryError (List Bool) := do
  Prog.failIf (key.length * 8 < width ∨ key.length * 8 ≥ width + 8) .invalidKey
  Prog.expect ((List.range width).mapM fun i =>
    key[i / 8]?.map fun b => b.getLsbD (7 - i % 8))

def common (a b : List Bool) : Nat := ((a.zip b).takeWhile fun (x, y) => x == y).length

/-! ## nodes -/

def getNode : Node → List Bool → Prog σ DictionaryError (Option Cell)
  | .leaf suffix value, bits => pure (if suffix = bits then some value else none)
  | .branch label zero one, bits =>
    if label.isPrefixOf bits ∧ bits.length > label.length then do
      let bit ← Prog.expect bits[label.length]?
      let rest ← Prog.expect (sliceFrom bits (label.length + 1))
      if bit then getNode one rest else getNode zero rest
    else pure none

end

/-- programs on nodes, with the previous value of the key -/
abbrev Edit (α : Type) := Prog (Option Cell) DictionaryError α

/-- `Some(node)` of `insert` -/
def insertNode : Node → List Bool → Cell → Edit Node
  | .leaf suffix prior, bits, value =>
    let n := common suffix bits
    if n = suffix.length ∧ n = bits.length then do
      Prog.modify (fun _ => some prior)
      pure (.leaf suffix value)
    else do
      let oldBit ← Prog.expect suffix[n]?
      let oldLeaf := Patricia.leaf (← Prog.expect (sliceFrom suffix (n + 1))) prior
      let newLeaf := Patricia.leaf (← Prog.expect (sliceFrom bits (n + 1))) value
      let label ← Prog.expect (sliceTo suffix n)
      pure (if oldBit then .branch label newLeaf oldLeaf else .branch label oldLeaf newLeaf)
  | .branch label zero one, bits, value =>
    let n := common label bits
    if n < label.length then do
      let oldBit ← Prog.expect label[n]?
      let old := Patricia.branch (← Prog.expect (sliceFrom label (n + 1))) zero one
      let new := Patricia.leaf (← Prog.expect (sliceFrom bits (n + 1))) value
      let label ← Prog.expect (sliceTo label n)
      pure (if oldBit then .branch label new old else .branch label old new)
    else do
      let index := label.length
      let bit ← Prog.expect bits[index]?
      let rest ← Prog.expect (sliceFrom bits (index + 1))
      if bit then do
        let one ← insertNode one rest value
        pure (.branch label zero one)
      else do
        let zero ← insertNode zero rest value
        pure (.branch label zero one)

def insert (node : Option Node) (bits : List Bool) (value : Cell) : Edit Node :=
  match node with
  | none => pure (.leaf bits value)
  | some node => insertNode node bits value

/-- the edge to an only child becomes part of its label -/
def prepend (label : List Bool) (edge : Bool) : Node → Node
  | .leaf suffix value => .leaf (label ++ [edge] ++ suffix) value
  | .branch childLabel zero one => .branch (label ++ [edge] ++ childLabel) zero one

/-- `Some(node)` of `remove` -/
def removeNode : Node → List Bool → Edit (Option Node)
  | .leaf suffix value, bits =>
    if suffix = bits then do
      Prog.modify (fun _ => some value)
      pure none
    else pure (some (.leaf suffix value))
  | .branch label zero one, bits =>
    if ¬ label.isPrefixOf bits ∨ bits.length ≤ label.length then
      pure (some (.branch label zero one))
    else do
      let i := label.length
      let bit ← Prog.expect bits[i]?
      let rest ← Prog.expect (sliceFrom bits (i + 1))
      if bit then do
        match ← removeNode one rest with
        | some child => pure (some (.branch label zero child))
        | none => pure (some (prepend label false zero))
      else do
        match ← removeNode zero rest with
        | some child => pure (some (.branch label child one))
        | none => pure (some (prepend label true one))

def remove (node : Option Node) (bits : List Bool) : Edit (Option Node) :=
  match node with
  | none => pure none
  | some node => removeNode node bits

/-! ## cells -/

def pack (bits : List Bool) : Bytes := ByteBits.pack ByteBits.msbFirst bits

/-- `Cell::new`, with one error for all of its errors -/
def newCell (data : Bytes) (refs : List Uint256) : Except DictionaryError Cell :=
  (Cell.new data refs).mapError fun _ => .cell

section
variable (c : Crypto)

/-- the rest of a label, 1000 bits a cell -/
def labelTail (bits : List Bool) : Except DictionaryError Cell :=
  let first := min bits.length 1000
  if _h : first < bits.length then do
    let tail ← labelTail (bits.drop first)
    newCell (0xD2 :: pack (bits.take first)) [tail.hash c]
  else newCell (0xD2 :: pack (bits.take first)) []
termination_by bits.length
decreasing_by
  rw [List.length_drop]
  omega

/-- the references, behind the one to the tail of a label of more than 1000 bits -/
def labelRefs (bits : List Bool) (refs : List Uint256) : Except DictionaryError (List Uint256) :=
  let first := min bits.length 1000
  if first < bits.length then do
    let tail ← labelTail c (bits.drop first)
    pure (tail.hash c :: refs)
  else pure refs

/-- tag, label length, up to 1000 bits of the label -/
def nodeCell (tag : Byte) (bits : List Bool) (refs : List Uint256) :
    Except DictionaryError Cell := do
  let first := min bits.length 1000
  let refs ← labelRefs c bits refs
  newCell (tag :: (beBytes 2 bits.length ++ pack (bits.take first))) refs

def serialize : Node → Except DictionaryError Cell
  | .leaf suffix value => nodeCell c 0xD0 suffix [value.hash c]
  | .branch label zero one => do
    let zero ← serialize zero
    let one ← serialize one
    nodeCell c 0xD1 label [zero.hash c, one.hash c]

/-! ## operations -/

namespace Dictionary

def new (keyBits : Nat) : Except DictionaryError Dictionary :=
  if 1 ≤ keyBits ∧ keyBits ≤ 1023 then .ok ⟨keyBits, none, none⟩ else .error .invalidKeyLength

def get (key : Bytes) : Prog Dictionary DictionaryError (Option Cell) := do
  let self ← Prog.get
  let bits ← Vm.keyBits key self.keyBits
  match self.root with
  | none => pure none
  | some node => getNode node bits

/-- the root is taken out while the new one is made -/
def set (key : Bytes) (value : Cell) : Prog Dictionary DictionaryError (Option Cell) := do
  let self ← Prog.get
  let bits ← Vm.keyBits key self.keyBits
  Prog.modify (fun self => { self with root := none })
  let (root, old) ← Prog.onLocal (insert self.root bits value) none
  Prog.modify (fun self => { self with root := some root })
  let cell ← Prog.ofExcept (serialize c root)
  Prog.modify (fun self => { self with rootCell := some cell })
  pure old

def delete (key : Bytes) : Prog Dictionary DictionaryError (Option Cell) := do
  let self ← Prog.get
  let bits ← Vm.keyBits key self.keyBits
  Prog.modify (fun self => { self with root := none })
  let (root, old) ← Prog.onLocal (remove self.root bits) none
  Prog.modify (fun self => { self with root := root })
  let rootCell ← match root with
    | none => pure none
    | some node => do
      let cell ← Prog.ofExcept (serialize c node)
      pure (some cell)
  Prog.modify (fun self => { self with rootCell := rootCell })
  pure old

end Dictionary

end

end Onx.Vm
