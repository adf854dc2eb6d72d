import Mathlib.Data.Finset.Card
import Onx.Lib.ByteBits
import Onx.Lib.OrdMap
import Onx.Lib.Pieces
import Onx.Networking.Identity

/-!
# Large datagrams in frames

A payload is cut into chunks of one size, each sent in a frame of its own.  The receiver
acknowledges with a bit for each chunk, and the sender repeats what is not acknowledged.

* `RldpDataFrame`, `RldpAckFrame`   the frames and their bytes; `RldpDataFrame.decode_encode`;
* `RldpSender`                      the frames of a payload, sent round by round;
* `RldpReceiver`                    chunks by number, the payload once they are complete.

A `usize` is a natural number: no product or sum below comes near `2^64`.
-/

namespace Onx

def DATA_TAG : Uint32 := 0x71d2b841
def ACK_TAG : Uint32 := 0x3a4f1092
def DEFAULT_CHUNK_SIZE : Nat := 1024
def MAX_TRANSFER_SIZE : Nat := 16 * 1024 * 1024
def DATA_HEADER_LEN : Nat := 4 + 32 + 32 + 4 + 2 + 2 + 2 + 2
def ACK_HEADER_LEN : Nat := 4 + 32 + 4 + 2 + 2

/-- the most bytes a vector may take up, `isize::MAX` -/
def ISIZE_MAX : Nat := 2^63 - 1

structure RldpConfig where
  chunkSize : Nat := DEFAULT_CHUNK_SIZE
  redundancy : Nat := 3
  packetsPerRound : Nat := 128
  maxRounds : Nat := 20

/-! ## frames -/

structure RldpDataFrame where
  transferId : Uint256
  payloadDigest : Uint256
  totalSize : Uint32
  chunkSize : Uint16
  chunkCount : Uint16
  seqNo : Uint16
  chunkData : Bytes
deriving DecidableEq

def validateDimensions (totalSize : Uint32) (chunkSize chunkCount : Uint16) :
    Except NetworkError Unit :=
  if totalSize = 0 ∨ totalSize.toNat > MAX_TRANSFER_SIZE ∨ chunkSize = 0 ∨ chunkCount = 0
      ∨ totalSize.toNat ⌈/⌉ chunkSize.toNat ≠ chunkCount.toNat
  then .error .malformedRldpFrame
  else .ok ()

def RldpDataFrame.encode (self : RldpDataFrame) : Except NetworkError Bytes := do
  validateDimensions self.totalSize self.chunkSize self.chunkCount
  if self.seqNo ≥ self.chunkCount ∨ self.chunkData.length ≠ self.chunkSize.toNat then
    .error .malformedRldpFrame
  else
    .ok (encodeWord 4 DATA_TAG ++ (encodeWord 32 self.transferId ++ (encodeWord 32 self.payloadDigest
      ++ (encodeWord 4 self.totalSize ++ (encodeWord 2 self.chunkSize
      ++ (encodeWord 2 self.chunkCount ++ (encodeWord 2 self.seqNo
      ++ (encodeWord 2 (BitVec.ofNat 16 self.chunkData.length) ++ self.chunkData))))))))

def RldpDataFrame.decode (wire : Bytes) : Except NetworkError RldpDataFrame :=
  if wire.length < DATA_HEADER_LEN ∨ decodeWord 32 (field wire 0 4) ≠ DATA_TAG then
    .error .malformedRldpFrame
  else do
    let totalSize := decodeWord 32 (field wire 68 72)
    let chunkSize := decodeWord 16 (field wire 72 74)
    let chunkCount := decodeWord 16 (field wire 74 76)
    let seqNo := decodeWord 16 (field wire 76 78)
    let dataLen := (decodeWord 16 (field wire 78 80)).toNat
    validateDimensions totalSize chunkSize chunkCount
    if seqNo ≥ chunkCount ∨ dataLen ≠ chunkSize.toNat ∨ wire.length ≠ DATA_HEADER_LEN + dataLen then
      .error .malformedRldpFrame
    else
      .ok {
        transferId := decodeWord 256 (field wire 4 36)
        payloadDigest := decodeWord 256 (field wire 36 68)
        totalSize := totalSize
        chunkSize := chunkSize
        chunkCount := chunkCount
        seqNo := seqNo
        chunkData := wire.drop 80 }

/-- what is encoded is read back -/
theorem RldpDataFrame.decode_encode {f : RldpDataFrame} {wire : Bytes} (h : f.encode = .ok wire) :
    RldpDataFrame.decode wire = .ok f := by
  unfold RldpDataFrame.encode at h
  cases hv : validateDimensions f.totalSize f.chunkSize f.chunkCount with
  | error e =>
    rw [hv] at h
    cases h
  | ok u =>
    rw [hv] at h
    replace h : (if _ then _ else _) = _ := h
    split_ifs at h with hbad
    push Not at hbad
    obtain ⟨hseq, hlen⟩ := hbad
    cases h
    have hword : (BitVec.ofNat 16 f.chunkData.length).toNat = f.chunkSize.toNat := by
      rw [BitVec.toNat_ofNat, hlen]
      exact Nat.mod_eq_of_lt f.chunkSize.isLt
    unfold RldpDataFrame.decode DATA_HEADER_LEN
    simp only [field_head, field_skip, drop_skip, decodeWord_encodeWord, length_encodeWord,
      List.length_append, Nat.reduceLeDiff, Nat.reduceMul, Nat.reduceSub, hv, hword]
    rw [if_neg (by simp; omega)]
    show (if _ then _ else _) = _
    rw [if_neg]
    · rfl
    · push Not
      exact ⟨hseq, rfl, by omega⟩

structure RldpAckFrame where
  transferId : Uint256
  ackSeq : Uint32
  receivedMask : Bytes
deriving DecidableEq

def RldpAckFrame.encode (self : RldpAckFrame) : Bytes :=
  encodeWord 4 ACK_TAG ++ (encodeWord 32 self.transferId ++ (encodeWord 4 self.ackSeq
    ++ (encodeWord 2 (BitVec.ofNat 16 self.receivedMask.length) ++ self.receivedMask)))

def RldpAckFrame.decode (wire : Bytes) : Except NetworkError RldpAckFrame :=
  if wire.length < ACK_HEADER_LEN ∨ decodeWord 32 (field wire 0 4) ≠ ACK_TAG then
    .error .malformedRldpFrame
  else
    let len := (decodeWord 16 (field wire 40 42)).toNat
    if wire.length ≠ ACK_HEADER_LEN + len then .error .malformedRldpFrame
    else .ok ⟨decodeWord 256 (field wire 4 36), decodeWord 32 (field wire 36 40), wire.drop 42⟩

/-- the length that is checked is not the length that is written -/
theorem RldpAckFrame.decode_encode (a : RldpAckFrame) :
    RldpAckFrame.decode a.encode = .error .malformedRldpFrame := by
  have hlen : a.encode.length = 42 + a.receivedMask.length := by
    simp only [RldpAckFrame.encode, List.length_append, length_encodeWord]
    omega
  have hword : decodeWord 16 (field a.encode 40 42) = BitVec.ofNat 16 a.receivedMask.length := by
    simp [RldpAckFrame.encode, field_head, field_skip, decodeWord_encodeWord]
  unfold RldpAckFrame.decode ACK_HEADER_LEN
  rw [hlen, hword, BitVec.toNat_ofNat]
  split_ifs with hshort
  · rfl
  · have hne : 42 + a.receivedMask.length
        ≠ 4 + 32 + 4 + 2 + 2 + a.receivedMask.length % 2^16 := by omega
    exact if_pos hne

/-! ## the sender -/

structure RldpSender where
  frames : List RldpDataFrame
  transferId : Uint256
  acknowledged : Finset Uint16
  lastAckSeq : Uint32
  config : RldpConfig
  cursor : Nat

/-- a part of the payload, filled up with zeros; `index` is below the number of chunks, so that
`start` is within the payload -/
def chunkAt (payload : Bytes) (chunkSize index : Nat) : Bytes :=
  let start := index * chunkSize
  let stop := min (start + chunkSize) payload.length
  (payload.drop start).take (stop - start) ++ List.replicate (chunkSize - (stop - start)) 0

def frameAt (c : Crypto) (transferId : Uint256) (payload : Bytes) (config : RldpConfig)
    (index : Nat) : RldpDataFrame where
  transferId := transferId
  payloadDigest := c.sha256 payload
  totalSize := BitVec.ofNat 32 payload.length
  chunkSize := BitVec.ofNat 16 config.chunkSize
  chunkCount := BitVec.ofNat 16 (payload.length ⌈/⌉ config.chunkSize)
  seqNo := BitVec.ofNat 16 index
  chunkData := chunkAt payload config.chunkSize index

namespace RldpSender

def new (c : Crypto) (transferId : Uint256) (payload : Bytes) (config : RldpConfig) :
    Except NetworkError RldpSender :=
  if payload = [] ∨ payload.length > MAX_TRANSFER_SIZE ∨ config.chunkSize = 0
      ∨ config.chunkSize > 2^16 - 1 ∨ config.redundancy = 0 ∨ config.packetsPerRound = 0 then
    .error .malformedRldpFrame
  else if payload.length ⌈/⌉ config.chunkSize > 2^16 - 1 then .error .malformedRldpFrame
  else .ok {
    frames := (List.range (payload.length ⌈/⌉ config.chunkSize)).map
      (frameAt c transferId payload config)
    transferId := transferId
    acknowledged := ∅
    lastAckSeq := 0
    config := config
    cursor := 0 }

def isComplete (self : RldpSender) : Bool := self.acknowledged.card = self.frames.length

/-- the copies of one frame in a round; none where `expect` panics -/
def emit (packetsPerRound : Nat) (frame : RldpDataFrame) : Nat → List Bytes → Option (List Bytes)
  | 0, packets => some packets
  | copies + 1, packets =>
    if packets.length = packetsPerRound then some packets
    else match frame.encode with
      | .ok wire => emit packetsPerRound frame copies (packets ++ [wire])
      | .error _ => none

/-- the `while` of a round, with `left` frames to inspect -/
def roundLoop (self : RldpSender) : Nat → Nat → List Bytes → Option (Nat × List Bytes)
  | 0, cursor, packets => some (cursor, packets)
  | left + 1, cursor, packets =>
    if packets.length < self.config.packetsPerRound then do
      let frame ← self.frames[cursor]?
      let next := (cursor + 1) % self.frames.length
      if frame.seqNo ∈ self.acknowledged then roundLoop self left next packets
      else
        let packets ← emit self.config.packetsPerRound frame self.config.redundancy packets
        roundLoop self left next packets
    else some (cursor, packets)

/-- The datagrams of a round.  None where the code panics: a vector for so many packets, of 24 bytes
each, cannot be reserved. -/
def nextRound (self : RldpSender) : Option (RldpSender × List Bytes) :=
  if self.config.packetsPerRound * 24 > ISIZE_MAX then none
  else do
    let (cursor, packets) ← roundLoop self self.frames.length self.cursor []
    some ({ self with cursor := cursor }, packets)

/-- the numbers of the bits that are set, in one byte of a mask -/
def applyByte (frames : Nat) (acknowledged : Finset Uint16) (byteAndIndex : Byte × Nat) :
    Finset Uint16 :=
  (List.range 8).foldl (fun acknowledged bit =>
    let seq := byteAndIndex.2 * 8 + bit
    if seq < frames ∧ byteAndIndex.1 &&& (1#8 <<< bit) ≠ 0 then
      insert (BitVec.ofNat 16 seq) acknowledged
    else acknowledged) acknowledged

def applyAck (self : RldpSender) (ack : RldpAckFrame) : Except NetworkError RldpSender :=
  if ack.transferId ≠ self.transferId ∨ ack.ackSeq ≤ self.lastAckSeq then .ok self
  else if ack.receivedMask.length ≠ self.frames.length ⌈/⌉ 8 then .error .malformedRldpFrame
  else .ok { self with
    lastAckSeq := ack.ackSeq
    acknowledged := ack.receivedMask.zipIdx.foldl (applyByte self.frames.length) self.acknowledged }

def maxRounds (self : RldpSender) : Nat := self.config.maxRounds

end RldpSender

/-! ## the receiver -/

structure RldpReceiver where
  transferId : Uint256
  digest : Uint256
  totalSize : Nat
  chunkSize : Nat
  chunkCount : Nat
  chunks : OrdMap Uint16 Bytes
  ackSeq : Uint32

namespace RldpReceiver

def fromFrame (frame : RldpDataFrame) : Except NetworkError RldpReceiver := do
  validateDimensions frame.totalSize frame.chunkSize frame.chunkCount
  .ok {
    transferId := frame.transferId
    digest := frame.payloadDigest
    totalSize := frame.totalSize.toNat
    chunkSize := frame.chunkSize.toNat
    chunkCount := frame.chunkCount.toNat
    chunks := ∅
    ackSeq := 0 }

/-- the chunks with the given numbers, one behind the other -/
def gather (chunks : OrdMap Uint16 Bytes) : List Nat → Except NetworkError Bytes
  | [] => .ok []
  | seq :: rest =>
    match chunks.get? (BitVec.ofNat 16 seq) with
    | none => .error .malformedRldpFrame
    | some data => do .ok (data ++ (← gather chunks rest))

/-- `entry(..).or_insert(..)` -/
def keep (chunks : OrdMap Uint16 Bytes) (seqNo : Uint16) (data : Bytes) : OrdMap Uint16 Bytes :=
  if chunks.contains seqNo then chunks else chunks.insert seqNo data

/-- the payload, once all chunks are there -/
def payload (c : Crypto) (self : RldpReceiver) : Except NetworkError (Option Bytes) :=
  if self.chunks.size ≠ self.chunkCount then .ok none
  else do
    let gathered ← gather self.chunks (List.range (BitVec.ofNat 16 self.chunkCount).toNat)
    let payload := gathered.take self.totalSize
    if c.sha256 payload ≠ self.digest then .error .payloadDigestMismatch
    else .ok (some payload)

def ingest (c : Crypto) (self : RldpReceiver) (frame : RldpDataFrame) :
    RldpReceiver × Except NetworkError (Option Bytes) :=
  if frame.transferId ≠ self.transferId ∨ frame.payloadDigest ≠ self.digest
      ∨ frame.totalSize.toNat ≠ self.totalSize ∨ frame.chunkSize.toNat ≠ self.chunkSize
      ∨ frame.chunkCount.toNat ≠ self.chunkCount then
    (self, .error .malformedRldpFrame)
  else
    let self := { self with chunks := keep self.chunks frame.seqNo frame.chunkData }
    (self, self.payload c)

/-- the bits of the given numbers; none where an index is out of bounds -/
def mark : List Uint16 → Bytes → Option Bytes
  | [], mask => some mask
  | seq :: rest, mask =>
    if seq.toNat / 8 < mask.length then mark rest (ByteBits.setBit ByteBits.lsbFirst mask seq.toNat)
    else none

def ack (self : RldpReceiver) : Option (RldpReceiver × RldpAckFrame) := do
  let ackSeq := self.ackSeq + 1
  let mask ← mark self.chunks.keys (ByteBits.zeros (self.chunkCount ⌈/⌉ (8 : Nat)))
  some ({ self with ackSeq := ackSeq }, ⟨self.transferId, ackSeq, mask⟩)

end RldpReceiver

end Onx
