import Onx.Primitives
import Onx.Lib.OrdMap
import Onx.Lib.BitPrefix
import Mathlib.Data.Prod.Lex

/-!
# Workchains, shards and accounts

Identifiers, their byte encodings, and the accounts of a shard.

* `ShardIdent.toBytes_inj`       the 12 bytes determine the workchain and the prefix;
* `ShardIdent.prefixLen_ok`      an identifier that has a length is the marked word of a prefix;
* `containsAccount_ofPrefix`     it contains the accounts whose identifiers start with the prefix.
-/

namespace Onx

structure WorkchainIdent where
  id : Int32
deriving DecidableEq

namespace WorkchainIdent

def MASTERCHAIN : WorkchainIdent := ⟨BitVec.ofInt 32 (-1)⟩
def BASIC : WorkchainIdent := ⟨0⟩

def isMasterchain (w : WorkchainIdent) : Bool := w.id == BitVec.ofInt 32 (-1)

def toBytes (w : WorkchainIdent) : Bytes := encodeWord 4 w.id

@[simp] theorem length_toBytes (w : WorkchainIdent) : w.toBytes.length = 4 :=
  length_encodeWord 4 w.id

theorem toBytes_inj {w w' : WorkchainIdent} (h : w.toBytes = w'.toBytes) : w = w' := by
  obtain ⟨i⟩ := w
  obtain ⟨i'⟩ := w'
  have hi : i = i' := encodeWord_inj (n:=4) rfl h
  rw [hi]

end WorkchainIdent

structure ShardIdent where
  workchainId : WorkchainIdent
  shardPrefixIdent : Uint64
deriving DecidableEq

namespace ShardIdent

def ROOT_PREFIX : Uint64 := 0x8000000000000000

def root (w : WorkchainIdent) : ShardIdent := ⟨w, ROOT_PREFIX⟩

def toBytes (s : ShardIdent) : Bytes := s.workchainId.toBytes ++ encodeWord 8 s.shardPrefixIdent

@[simp] theorem length_toBytes (s : ShardIdent) : s.toBytes.length = 12 := by
  rw [toBytes, List.length_append, WorkchainIdent.length_toBytes, length_encodeWord]

theorem toBytes_inj {s s' : ShardIdent} (h : s.toBytes = s'.toBytes) : s = s' := by
  obtain ⟨w, p⟩ := s
  obtain ⟨w', p'⟩ := s'
  obtain ⟨h1, h2⟩ := append_inj_be (by simp) h
  have hw : w = w' := WorkchainIdent.toBytes_inj h1
  have hp : p = p' := encodeWord_inj (n:=8) rfl h2
  rw [hw, hp]

end ShardIdent

/-- a 256-bit account identifier -/
structure AccountId where
  id : Uint256
deriving DecidableEq

namespace AccountId

def toBytes (a : AccountId) : Bytes := encodeWord 32 a.id

@[simp] theorem length_toBytes (a : AccountId) : a.toBytes.length = 32 := length_encodeWord 32 a.id

theorem toBytes_inj {a a' : AccountId} (h : a.toBytes = a'.toBytes) : a = a' := by
  obtain ⟨i⟩ := a
  obtain ⟨i'⟩ := a'
  have hi : i = i' := encodeWord_inj (n:=32) rfl h
  rw [hi]

end AccountId

instance : LinearOrder AccountId :=
  LinearOrder.lift' AccountId.id (fun a b h => by cases a; cases b; cases h; rfl)

/-- an account in its workchain -/
structure FullAddress where
  workchainId : WorkchainIdent
  accountId : AccountId
deriving DecidableEq

/-- by signed number -/
instance : LinearOrder WorkchainIdent :=
  LinearOrder.lift' (fun w => w.id.toInt)
    (fun a b h => by cases a; cases b; exact congrArg WorkchainIdent.mk (BitVec.eq_of_toInt_eq h))

/-- by workchain, then by account -/
instance : LinearOrder FullAddress :=
  LinearOrder.lift' (fun a => toLex (a.workchainId, a.accountId))
    (fun a b h => by cases a; cases b; cases h; rfl)

namespace FullAddress

def toBytes (a : FullAddress) : Bytes := a.workchainId.toBytes ++ a.accountId.toBytes

@[simp] theorem length_toBytes (a : FullAddress) : a.toBytes.length = 36 := by
  rw [toBytes, List.length_append, WorkchainIdent.length_toBytes, AccountId.length_toBytes]

theorem toBytes_inj {a a' : FullAddress} (h : a.toBytes = a'.toBytes) : a = a' := by
  obtain ⟨w, i⟩ := a
  obtain ⟨w', i'⟩ := a'
  obtain ⟨h1, h2⟩ := append_inj_be (by simp) h
  have hw : w = w' := WorkchainIdent.toBytes_inj h1
  have hi : i = i' := AccountId.toBytes_inj h2
  rw [hw, hi]

end FullAddress

/-! ## the accounts of a shard -/

inductive DataStructureError where
  | primitive (e : PrimitiveError)
  | invalidShardMarker
  | shardPrefixLengthExceeded (length : Nat)
  | addressShardMismatch
  | invalidMessageType (tag : Byte)
  | truncatedInput (expected got : Nat)
  | trailingBytes (remaining : Nat)
  | headerMagicMismatch (magic : Uint32)
  | mergeParentReferenceInconsistency
deriving DecidableEq

namespace ShardIdent

/-- the number of bits before the marker, which is the lowest bit that is set -/
def prefixLen (s : ShardIdent) : Except DataStructureError Nat :=
  let val := s.shardPrefixIdent
  if val = 0 then .error .invalidShardMarker
  else
    let len := 63 - BitPrefix.trailingZeros val
    if len > 60 then .error (.shardPrefixLengthExceeded len) else .ok len

def validate (s : ShardIdent) : Except DataStructureError Unit :=
  match s.prefixLen with
  | .error e => .error e
  | .ok _ => .ok ()

def fromPrefixBits (workchainId : WorkchainIdent) (bits : Uint64) (len : Nat) :
    Except DataStructureError ShardIdent :=
  if len > 60 then .error (.shardPrefixLengthExceeded len)
  else
    let markerBit := (1 : Uint64) <<< (63 - len)
    let mask := if len = 0 then 0 else (~~~0 : Uint64) <<< (64 - len)
    .ok ⟨workchainId, (bits &&& mask) ||| markerBit⟩

def containsAccount (s : ShardIdent) (accountId : AccountId) : Except DataStructureError Bool :=
  match s.prefixLen with
  | .error e => .error e
  | .ok len =>
    if len = 0 then .ok true
    else
      let acctMsb : Uint64 := decodeWord 64 (accountId.toBytes.take 8)
      let mask := (~~~0 : Uint64) <<< (64 - len)
      .ok (s.shardPrefixIdent &&& mask == acctMsb &&& mask)

def validateAccountId (s : ShardIdent) (accountId : AccountId) : Except DataStructureError Unit :=
  match s.containsAccount accountId with
  | .error e => .error e
  | .ok true => .ok ()
  | .ok false => .error .addressShardMismatch

def validateFullAddress (s : ShardIdent) (address : FullAddress) : Except DataStructureError Unit :=
  if s.workchainId ≠ address.workchainId then .error .addressShardMismatch
  else s.validateAccountId address.accountId

/-- the identifier of a prefix -/
def ofPrefix (w : WorkchainIdent) (p : BitPrefix) : ShardIdent := ⟨w, BitPrefix.marked 64 p⟩

theorem root_eq (w : WorkchainIdent) : root w = ofPrefix w BitPrefix.root := rfl

variable {w : WorkchainIdent} {p : BitPrefix}

theorem prefixLen_ofPrefix (hlen : p.len ≤ 60) : (ofPrefix w p).prefixLen = .ok p.len := by
  have h64 : p.len < 64 := by omega
  unfold prefixLen ofPrefix
  dsimp only
  rw [if_neg (BitPrefix.marked_ne_zero h64), BitPrefix.trailingZeros_marked h64]
  have hval : 63 - (64 - 1 - p.len) = p.len := by omega
  rw [hval, if_neg (by omega)]

theorem prefixLen_ok {s : ShardIdent} {len : Nat} (h : s.prefixLen = .ok len) :
    ∃ p : BitPrefix, p.len = len ∧ p.len ≤ 60 ∧ s = ofPrefix s.workchainId p := by
  unfold prefixLen at h
  dsimp only at h
  split_ifs at h with hzero hlen
  obtain ⟨p, hp, hmark⟩ := BitPrefix.exists_marked hzero
  rw [hmark, BitPrefix.trailingZeros_marked hp] at h hlen
  cases h
  refine ⟨p, by omega, by omega, ?_⟩
  obtain ⟨wc, val⟩ := s
  exact congrArg (ShardIdent.mk wc) hmark

theorem not_zero_shiftLeft (len : Nat) : (~~~0 : Uint64) <<< (64 - len) = BitPrefix.topMask 64 len := rfl

/-- the first eight bytes of an account are its first 64 bits -/
theorem toNat_acctMsb (a : AccountId) :
    (decodeWord 64 (a.toBytes.take 8)).toNat = a.id.toNat / 2^192 := by
  have hlt : a.id.toNat / 2^192 < 2^64 := by
    have := a.id.isLt
    omega
  have htake : a.toBytes.take 8 = beBytes 8 (a.id.toNat / 256^(32 - 8)) :=
    take_beBytes a.id.toNat (by omega)
  rw [htake, decodeWord, BitVec.toNat_ofNat, beNat_beBytes]
  have hpow : (256 : Nat)^(32 - 8) = 2^192 := by norm_num
  have hpow8 : (256 : Nat)^8 = 2^64 := by norm_num
  rw [hpow, hpow8, Nat.mod_eq_of_lt hlt, Nat.mod_eq_of_lt hlt]

theorem containsAccount_ofPrefix (hlen : p.len ≤ 60) (a : AccountId) :
    (ofPrefix w p).containsAccount a = .ok (decide (p.covers 256 a.id.toNat)) := by
  have h64 : p.len < 64 := by omega
  unfold containsAccount
  rw [prefixLen_ofPrefix hlen]
  dsimp only
  split_ifs with hzero
  · have hroot : p = BitPrefix.root := by
      refine BitPrefix.ext hzero ?_
      have hlt := p.lt
      rw [hzero] at hlt
      show p.bits = 0
      omega
    rw [hroot, decide_eq_true (BitPrefix.covers_root a.id.isLt)]
  · rw [not_zero_shiftLeft]
    congr 1
    rw [Bool.eq_iff_iff, beq_iff_eq, decide_eq_true_iff]
    show BitPrefix.marked 64 p &&& _ = _ ↔ _
    rw [BitPrefix.and_topMask_eq_iff h64.le, BitPrefix.ofWord_marked h64, BitPrefix.ext_iff]
    show _ ∧ p.bits = (decodeWord 64 (a.toBytes.take 8)).toNat / 2^(64 - p.len) ↔ _
    have hsplit : 2^192 * 2^(64 - p.len) = 2^(256 - p.len) := by
      rw [← Nat.pow_add]
      congr 1
      omega
    rw [toNat_acctMsb, Nat.div_div_eq_div_mul, hsplit]
    exact ⟨fun h => h.2.symm, fun h => ⟨rfl, h.symm⟩⟩

theorem fromPrefixBits_ofPrefix {b : Bool} (hlen : p.len ≤ 60) :
    fromPrefixBits w (BitPrefix.marked 64 (p.child b)) p.len = .ok (ofPrefix w p) := by
  have h64 : p.len < 64 := by omega
  have hmask : (if p.len = 0 then 0 else (~~~0 : Uint64) <<< (64 - p.len))
      = BitPrefix.topMask 64 p.len := by
    split_ifs with hzero
    · rw [hzero]
      decide
    · rfl
  unfold fromPrefixBits
  rw [if_neg (by omega)]
  dsimp only
  rw [hmask]
  have hword := BitPrefix.marked_ofWord h64 (BitPrefix.marked 64 (p.child b))
  rw [BitPrefix.ofWord_marked_child (by omega)] at hword
  exact congrArg (fun x => Except.ok (ShardIdent.mk w x)) hword

end ShardIdent

end Onx
