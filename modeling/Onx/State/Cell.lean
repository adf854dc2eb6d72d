import Onx.Primitives

/-!
# Cells

Up to 128 data bytes and up to four references by hash, with their serialization.

* `Cell.fromBytes_toBytes`   a serialized cell reads back, whatever follows it;
* `Cell.toBytes_inj`         so the bytes, which are what is hashed, determine the cell.
-/

namespace Onx

inductive StateModelError where
  | invalidDescriptor
  | dataTooLarge (length max : Nat)
  | tooManyReferences (count max : Nat)
  | deserializationError (message : String)
  | trailingBytes (remaining : Nat)
  | invalidStateType (code : BitVec 8)
  | invalidStateTransition (message : String)
  | logicalTimeRegression (current next : Uint64)
  | balanceUnderflow
  | cyclicCellReference
  | stateRootMismatch (expected actual : Uint256)
  | invalidMerkleProof (message : String)
deriving DecidableEq

def MAX_CELL_DATA_BYTES : Nat := 128
def MAX_CELL_REFS : Nat := 4

def ONX_CELL_HASH_V1_TAG : DomainTag := DomainTag.fromAscii "ONX_CELL_HASH_V1" (by decide)

structure Cell where
  dataBytes : Bytes
  cellRefs : List Uint256
  isSpecial : Bool
  data_le : dataBytes.length ≤ MAX_CELL_DATA_BYTES
  refs_le : cellRefs.length ≤ MAX_CELL_REFS
deriving DecidableEq

namespace Cell

def newWithSpecial (data : Bytes) (refs : List Uint256) (special : Bool) :
    Except StateModelError Cell :=
  if hd : data.length > MAX_CELL_DATA_BYTES then
    .error (.dataTooLarge data.length MAX_CELL_DATA_BYTES)
  else if hr : refs.length > MAX_CELL_REFS then
    .error (.tooManyReferences refs.length MAX_CELL_REFS)
  else .ok ⟨data, refs, special, Nat.not_lt.mp hd, Nat.not_lt.mp hr⟩

def new (data : Bytes) (refs : List Uint256) : Except StateModelError Cell :=
  newWithSpecial data refs false

theorem newWithSpecial_eq {data : Bytes} {refs : List Uint256} {special : Bool}
    (hd : data.length ≤ MAX_CELL_DATA_BYTES) (hr : refs.length ≤ MAX_CELL_REFS) :
    newWithSpecial data refs special = .ok ⟨data, refs, special, hd, hr⟩ := by
  unfold newWithSpecial
  rw [dif_neg (Nat.not_lt.mpr hd), dif_neg (Nat.not_lt.mpr hr)]

variable (self : Cell)

/-- reference count and special flag, and data length -/
def descriptorBytes : Byte × Byte :=
  let count := BitVec.ofNat 8 self.cellRefs.length
  (if self.isSpecial then count ||| 0x08 else count, BitVec.ofNat 8 self.dataBytes.length)

def refsBytes (refs : List Uint256) : Bytes := refs.flatMap (encodeWord 32)

/-- the descriptor as the two bytes of a big-endian `u16`, data and references -/
def toBytes : Bytes :=
  self.descriptorBytes.1 :: self.descriptorBytes.2 :: (self.dataBytes ++ refsBytes self.cellRefs)

/-- the hashed payload is the serialized cell -/
def hash (c : Crypto) (self : Cell) : Uint256 := domainHash c ONX_CELL_HASH_V1_TAG self.toBytes

/-- the reference loop of `from_bytes` -/
def readRefs : Nat → Bytes → List Uint256
  | 0, _ => []
  | n + 1, bs => decodeWord 256 (bs.take 32) :: readRefs n (bs.drop 32)

def fromBytes : Bytes → Except StateModelError (Cell × Nat)
  | d1 :: d2 :: payload =>
    let refCount := (d1 &&& 0x07).toNat
    let isSpecial := d1 &&& 0x08 != 0
    let dataLen := d2.toNat
    if refCount > MAX_CELL_REFS then .error (.tooManyReferences refCount MAX_CELL_REFS)
    else if dataLen > MAX_CELL_DATA_BYTES then .error (.dataTooLarge dataLen MAX_CELL_DATA_BYTES)
    else
      let requiredLen := 2 + dataLen + refCount * 32
      let sliceLen := 2 + payload.length
      if sliceLen < requiredLen then
        .error (.deserializationError
          s!"Truncated Cell payload: expected {requiredLen} bytes, got {sliceLen}")
      else match newWithSpecial (payload.take dataLen) (readRefs refCount (payload.drop dataLen))
          isSpecial with
        | .error e => .error e
        | .ok cell => .ok (cell, requiredLen)
  | _ => .error (.deserializationError "Slice too short for cell descriptor")

/-! ## round trip -/

theorem length_refsBytes (refs : List Uint256) : (refsBytes refs).length = refs.length * 32 := by
  induction refs with
  | nil => rfl
  | cons r refs ih =>
    show (encodeWord 32 r ++ refsBytes refs).length = _
    rw [List.length_append, ih, length_encodeWord, List.length_cons]
    omega

theorem readRefs_refsBytes (refs : List Uint256) (suffix : Bytes) :
    readRefs refs.length (refsBytes refs ++ suffix) = refs := by
  induction refs with
  | nil => rfl
  | cons r refs ih =>
    show decodeWord 256 ((encodeWord 32 r ++ refsBytes refs ++ suffix).take 32)
      :: readRefs refs.length ((encodeWord 32 r ++ refsBytes refs ++ suffix).drop 32) = _
    rw [List.append_assoc, List.take_left' (length_encodeWord 32 r),
      List.drop_left' (length_encodeWord 32 r), ih, decodeWord_encodeWord (n:=32) rfl r]

theorem descriptor_refs : ((self.descriptorBytes.1) &&& 0x07).toNat = self.cellRefs.length := by
  have hr := self.refs_le
  unfold descriptorBytes
  dsimp only
  generalize self.cellRefs.length = n at hr
  have hn : n = 0 ∨ n = 1 ∨ n = 2 ∨ n = 3 ∨ n = 4 := by
    unfold MAX_CELL_REFS at hr
    omega
  rcases hn with rfl | rfl | rfl | rfl | rfl <;> cases self.isSpecial <;> rfl

theorem descriptor_special : (self.descriptorBytes.1 &&& 0x08 != 0) = self.isSpecial := by
  have hr := self.refs_le
  unfold descriptorBytes
  dsimp only
  generalize self.cellRefs.length = n at hr
  have hn : n = 0 ∨ n = 1 ∨ n = 2 ∨ n = 3 ∨ n = 4 := by
    unfold MAX_CELL_REFS at hr
    omega
  rcases hn with rfl | rfl | rfl | rfl | rfl <;> cases self.isSpecial <;> rfl

theorem descriptor_data : self.descriptorBytes.2.toNat = self.dataBytes.length := by
  have hd : self.dataBytes.length ≤ 128 := self.data_le
  show (BitVec.ofNat 8 self.dataBytes.length).toNat = _
  rw [BitVec.toNat_ofNat]
  omega

theorem length_toBytes :
    self.toBytes.length = 2 + self.dataBytes.length + self.cellRefs.length * 32 := by
  unfold toBytes
  rw [List.length_cons, List.length_cons, List.length_append, length_refsBytes]
  omega

/-- **A serialized cell reads back**, and the rest of the input is not consumed. -/
theorem fromBytes_toBytes (suffix : Bytes) :
    fromBytes (self.toBytes ++ suffix) = .ok (self, self.toBytes.length) := by
  have hd : self.dataBytes.length ≤ MAX_CELL_DATA_BYTES := self.data_le
  have hr : self.cellRefs.length ≤ MAX_CELL_REFS := self.refs_le
  rw [length_toBytes]
  unfold toBytes
  rw [List.cons_append, List.cons_append, List.append_assoc]
  unfold fromBytes
  dsimp only
  rw [descriptor_refs, descriptor_special, descriptor_data, if_neg (Nat.not_lt.mpr hr),
    if_neg (Nat.not_lt.mpr hd), if_neg, List.take_left' rfl, List.drop_left' rfl,
    readRefs_refsBytes, newWithSpecial_eq hd hr]
  rw [List.length_append, List.length_append, length_refsBytes]
  omega

theorem toBytes_inj {a b : Cell} (h : a.toBytes = b.toBytes) : a = b := by
  have ha := fromBytes_toBytes a []
  have hb := fromBytes_toBytes b []
  rw [h, hb] at ha
  exact (Prod.mk.inj (Except.ok.inj ha)).1.symm

/-! ## two sample cells -/

def sampleLeaf : Cell := ⟨[1], [], false, by decide, by decide⟩

/-- a special cell over the leaf -/
def sampleRoot : Cell := ⟨[], [sampleLeaf.hash sampleCrypto], true, by decide, by decide⟩

end Cell

end Onx
