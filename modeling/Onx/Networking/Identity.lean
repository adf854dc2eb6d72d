import Onx.Primitives

/-!
# Network identities

Errors of the network, the key description whose hash is the address of a node, and the identifier
of the channel between two nodes.
-/

namespace Onx

inductive NetworkError where
  | truncatedPacket
  | abstractAddressMismatch
  | decryptionFailed
  | invalidSignature
  | expiredTimestamp
  | zeroChannelAbuse
  | malformedRldpFrame
  | payloadDigestMismatch
  | rldpTimeout
  | dhtRecordExpired
  | dhtMalformedRecord
  | dhtUnknownRecordKind
  | dhtRpcFailed
deriving DecidableEq

structure KeyDescription where
  constructorTag : Uint32
  publicKey : PublicKey
deriving DecidableEq

def KeyDescription.ED25519_TAG : Uint32 := 0x48a30121

def KeyDescription.DOMAIN_TAG : DomainTag :=
  DomainTag.fromAscii "ONX_ADNL_KEY_DESC_V1" (by decide)

def KeyDescription.newEd25519 (publicKey : PublicKey) : KeyDescription := ⟨ED25519_TAG, publicKey⟩

def KeyDescription.toBytes (k : KeyDescription) : Bytes :=
  encodeWord 4 k.constructorTag ++ encodeWord 32 k.publicKey.bytes

section
variable (c : Crypto)

def KeyDescription.computeAbstractAddress (k : KeyDescription) : Uint256 :=
  domainHash c DOMAIN_TAG k.toBytes

def ADNL_CHANNEL_TAG : DomainTag := DomainTag.fromAscii "ONX_ADNL_CHANNEL_V1" (by decide)

def deriveChannelId (sharedSecret senderAddress recipientAddress : Uint256) : Uint256 :=
  domainHash c ADNL_CHANNEL_TAG
    (encodeWord 32 sharedSecret ++ encodeWord 32 senderAddress ++ encodeWord 32 recipientAddress)

end

end Onx
