import Onx.Lib.BigEndian

/-!
# Protocol primitives

Machine words, domain tags, and the two cryptographic functions the protocol is built on.

* `Uint16` .. `Uint256`    words; `Uint256` is the number whose 32 big-endian bytes the source
                           stores;
* `satAdd`, `satMul`       `saturating_add` and `saturating_mul` at any width;
* `DomainTag.fromAscii`    zero-padded tags, `domainHash` = SHA-256 of tag and data;
* `Crypto`                 SHA-256 and strict Ed25519 verification: code of other packages, so
                           parameters of everything that hashes or verifies;
* `Crypto.Binds`           a signature that verifies one byte string only.
-/

namespace Onx

abbrev Uint16 := BitVec 16
abbrev Uint32 := BitVec 32
abbrev Uint64 := BitVec 64
abbrev Uint128 := BitVec 128
abbrev Uint256 := BitVec 256

/-- two's complement -/
abbrev Int32 := BitVec 32

/-- `saturating_add` -/
def satAdd {w : Nat} (a b : BitVec w) : BitVec w :=
  if a.toNat + b.toNat < 2^w then a + b else BitVec.allOnes w

theorem toNat_satAdd {w : Nat} (a b : BitVec w) :
    (satAdd a b).toNat = min (a.toNat + b.toNat) (2^w - 1) := by
  unfold satAdd
  split_ifs with h
  · rw [BitVec.toNat_add, Nat.mod_eq_of_lt h]
    omega
  · rw [BitVec.toNat_allOnes]
    omega

theorem toNat_satAdd_of_le {w : Nat} {a b : BitVec w} (h : a.toNat + b.toNat ≤ 2^w - 1) :
    (satAdd a b).toNat = a.toNat + b.toNat := by
  rw [toNat_satAdd]
  omega

/-- `saturating_mul` -/
def satMul {w : Nat} (a b : BitVec w) : BitVec w :=
  if a.toNat * b.toNat < 2^w then a * b else BitVec.allOnes w

theorem toNat_satMul_of_lt {w : Nat} {a b : BitVec w} (h : a.toNat * b.toNat < 2^w) :
    (satMul a b).toNat = a.toNat * b.toNat := by
  unfold satMul
  rw [if_pos h, BitVec.toNat_mul, Nat.mod_eq_of_lt h]

/-! ## domain separation -/

def ascii (s : String) : Bytes := s.toList.map (fun c => BitVec.ofNat 8 c.toNat)

/-- a 32-byte, zero-padded ASCII tag -/
structure DomainTag where
  bytes : Bytes
  length_eq : bytes.length = 32

/-- `DomainTag::from_ascii`, whose assertion on the length is the argument `h` -/
def DomainTag.fromAscii (tag : String) (h : (ascii tag).length ≤ 32) : DomainTag where
  bytes := ascii tag ++ List.replicate (32 - (ascii tag).length) 0
  length_eq := by
    rw [List.length_append, List.length_replicate]
    omega

def BLOCK_HEADER_V1 : DomainTag := DomainTag.fromAscii "ONX_BLK_HDR_V1" (by decide)
def TX_BODY_V1 : DomainTag := DomainTag.fromAscii "ONX_TX_BODY_V1" (by decide)
def VALIDATOR_SIGN_V1 : DomainTag := DomainTag.fromAscii "ONX_VALIDATOR_SIGN_V1" (by decide)

/-- a 32-byte Ed25519 public key -/
structure PublicKey where
  bytes : Uint256
deriving DecidableEq

theorem PublicKey.ext {k k' : PublicKey} (h : k.bytes = k'.bytes) : k = k' := by
  cases k
  cases k'
  exact congrArg PublicKey.mk h

/-- a 64-byte Ed25519 signature -/
structure Signature where
  bytes : BitVec 512
deriving DecidableEq

inductive PrimitiveError where
  | truncated (expected actual : Nat)
  | trailingBytes (consumed actual : Nat)
  | lengthOutOfRange (declared max : Nat)
  | nonCanonicalEncoding
  | invalidDomainTag
  | signatureVerificationFailed
deriving DecidableEq

/-- SHA-256 and Ed25519 -/
structure Crypto where
  sha256 : Bytes → Uint256
  /-- the 32 bytes decode to a point (`VerifyingKey::from_bytes`) -/
  validKey : Uint256 → Bool
  verifyStrict : PublicKey → Bytes → Signature → Bool

section
variable (c : Crypto)

/-- SHA-256 over the tag and the data -/
def domainHash (tag : DomainTag) (data : Bytes) : Uint256 := c.sha256 (tag.bytes ++ data)

def domainSeparatedMessage (tag : DomainTag) (message : Bytes) : Bytes := tag.bytes ++ message

/-- the length check of `decode_exact` -/
def exactLength (n : Nat) (bytes : Bytes) : Except PrimitiveError Unit :=
  if bytes.length < n then .error (.truncated n bytes.length)
  else if bytes.length > n then .error (.trailingBytes n bytes.length)
  else .ok ()

def PublicKey.decodeExact (bytes : Bytes) : Except PrimitiveError PublicKey := do
  exactLength 32 bytes
  let buf := decodeWord 256 bytes
  if c.validKey buf then .ok ⟨buf⟩ else .error .nonCanonicalEncoding

def Signature.decodeExact (bytes : Bytes) : Except PrimitiveError Signature := do
  exactLength 64 bytes
  .ok ⟨decodeWord 512 bytes⟩

def PublicKey.verify (k : PublicKey) (tag : DomainTag) (message : Bytes) (s : Signature) : Bool :=
  c.verifyStrict k (domainSeparatedMessage tag message) s

end

/-- no two byte strings verify with the signature, under whatever keys -/
def Crypto.Binds (c : Crypto) (s : Signature) : Prop :=
  ∀ k k' m m', c.verifyStrict k m s = true → c.verifyStrict k' m' s = true → m = m'

theorem Crypto.Binds.message_eq {c : Crypto} {s : Signature} (h : c.Binds s) {k k' : PublicKey}
    {tag : DomainTag} {m m' : Bytes} (hk : k.verify c tag m s = true) (hk' : k'.verify c tag m' s = true) :
    m = m' := List.append_cancel_left (h k k' _ _ hk hk')

/-! ## a sample scheme to evaluate the model at -/

/-- one signature for each key and message -/
def sampleSign (k : PublicKey) (tag : DomainTag) (message : Bytes) : Signature :=
  ⟨BitVec.ofNat 512 (k.bytes.toNat * 2^256
    + beNat (domainSeparatedMessage tag message) % (2^256 - 189))⟩

def sampleCrypto : Crypto where
  sha256 m := BitVec.ofNat 256 (beNat m % (2^256 - 189))
  validKey _ := true
  verifyStrict k m s := decide (s.bytes = BitVec.ofNat 512 (k.bytes.toNat * 2^256
    + beNat m % (2^256 - 189)))

/-- the scheme when one byte string has been signed, by the listed keys -/
def signedOnce (m : Bytes) (signed : List (PublicKey × Signature)) : Crypto :=
  { sampleCrypto with verifyStrict := fun k m' s => decide (m' = m) && decide ((k, s) ∈ signed) }

theorem binds_signedOnce (m : Bytes) (signed : List (PublicKey × Signature)) (s : Signature) :
    (signedOnce m signed).Binds s := by
  intro k k' m₁ m₂ h₁ h₂
  have h₁ := of_decide_eq_true (Bool.and_eq_true_iff.mp h₁).1
  exact h₁.trans (of_decide_eq_true (Bool.and_eq_true_iff.mp h₂).1).symm

end Onx
