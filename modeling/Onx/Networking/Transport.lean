import Onx.Lib.OrdMap
import Onx.Lib.StreamCipher
import Onx.Networking.Identity

/-!
# Packets between nodes

A full packet is encrypted to the public key of its recipient and carries a signature.  A fast
packet is encrypted with the secret of a channel and carries a hash of its payload.

* `AdnlCrypto`              X25519 and the key stream of AES-256-CTR besides SHA-256 and Ed25519:
                            code of other packages;
* `FullPacket`, `FastPacket`  the packets and their bytes;
* `AdnlTransportNode`       a node with its sessions: `connectPeer`, `sendDatagram`, `recvDatagram`;
* `FastPacket.decode_iff`   **which bytes are a fast packet**: those whose encrypted part is the
                            encryption of hash, length and payload.

What the code draws at random is an argument here.
-/

namespace Onx
open StreamCipher

/-- an Ed25519 seed -/
structure SecretKey where
  seed : Uint256
deriving DecidableEq

structure AdnlCrypto extends Crypto where
  publicKey : SecretKey → PublicKey
  /-- the Montgomery form of a point -/
  toMontgomery : PublicKey → Uint256
  toScalarBytes : SecretKey → Uint256
  x25519Public : Uint256 → Uint256
  /-- secret, public key of the other side -/
  diffieHellman : Uint256 → Uint256 → Uint256
  /-- the bytes that AES-256-CTR adds to a text, of a key and an initial counter block -/
  keystream : Uint256 → Uint128 → Nat → Byte

def ADNL_SHARED_SECRET_TAG : DomainTag :=
  DomainTag.fromAscii "ONX_ADNL_SHARED_SECRET_V1" (by decide)

def ADNL_PAYLOAD_TAG : DomainTag := DomainTag.fromAscii "ONX_ADNL_PAYLOAD_V1" (by decide)

section
variable (c : AdnlCrypto)

def ed25519ToX25519Public (pk : PublicKey) : Except NetworkError Uint256 :=
  if c.validKey pk.bytes then .ok (c.toMontgomery pk) else .error .invalidSignature

def ed25519ToX25519Secret (sk : SecretKey) : Uint256 := c.toScalarBytes sk

def deriveSymmetricKeyIv (sharedSecret nonce : Uint256) : Uint256 × Uint128 :=
  let keyHash := domainHash c.toCrypto ADNL_SHARED_SECRET_TAG
    (encodeWord 32 sharedSecret ++ encodeWord 32 nonce)
  let ivHash := domainHash c.toCrypto ADNL_SHARED_SECRET_TAG
    (encodeWord 32 nonce ++ encodeWord 32 sharedSecret)
  (keyHash, decodeWord 128 (field (encodeWord 32 ivHash) 0 16))

def applyAes256Ctr (keyIv : Uint256 × Uint128) (buf : Bytes) : Bytes :=
  xorStream (c.keystream keyIv.1 keyIv.2) buf

end

/-! ## full packets -/

structure FullPacket where
  recipientAddress : Uint256
  senderAddress : Uint256
  timestamp : Uint32
  nonce : Uint32
  payload : Bytes
  signature : Signature
deriving DecidableEq

namespace FullPacket

def toSignableBytes (senderAddress : Uint256) (timestamp nonce : Uint32) (payload : Bytes) : Bytes :=
  encodeWord 32 senderAddress ++ (encodeWord 4 timestamp ++ (encodeWord 4 nonce
    ++ (encodeWord 2 (BitVec.ofNat 16 payload.length) ++ payload)))

/-- what is encrypted -/
def body (self : FullPacket) : Bytes :=
  toSignableBytes self.senderAddress self.timestamp self.nonce self.payload
    ++ encodeWord 64 self.signature.bytes

/-- none where `unwrap` panics, on a recipient key that is no point -/
def encode (c : AdnlCrypto) (self : FullPacket) (recipientPublicKey : PublicKey)
    (ephemeralSecret nonce : Uint256) : Option Bytes := do
  let recipientX25519 ← (ed25519ToX25519Public c recipientPublicKey).toOption
  let sharedSecret := c.diffieHellman ephemeralSecret recipientX25519
  let encrypted := applyAes256Ctr c (deriveSymmetricKeyIv c sharedSecret nonce) self.body
  some (encodeWord 32 self.recipientAddress ++ (encodeWord 32 (c.x25519Public ephemeralSecret)
    ++ (encodeWord 32 nonce ++ encrypted)))

/-- the fields of a decrypted packet -/
def parse (recipientAddress : Uint256) (decrypted : Bytes) : Except NetworkError FullPacket :=
  if decrypted.length < 32 + 4 + 4 + 2 + 64 then .error .truncatedPacket
  else
    let payloadLen := (decodeWord 16 (field decrypted 40 42)).toNat
    if decrypted.length < 42 + payloadLen + 64 then .error .truncatedPacket
    else
      match Signature.decodeExact (field decrypted (42 + payloadLen) (42 + payloadLen + 64)) with
      | .error _ => .error .invalidSignature
      | .ok signature => .ok {
          recipientAddress := recipientAddress
          senderAddress := decodeWord 256 (field decrypted 0 32)
          timestamp := decodeWord 32 (field decrypted 32 36)
          nonce := decodeWord 32 (field decrypted 36 40)
          payload := field decrypted 42 (42 + payloadLen)
          signature := signature }

def decode (c : AdnlCrypto) (wire : Bytes) (recipientSecretKey : SecretKey) :
    Except NetworkError FullPacket :=
  if wire.length < 32 + 32 + 32 + 32 + 4 + 4 + 2 + 64 then .error .truncatedPacket
  else
    let recipientAddress := decodeWord 256 (field wire 0 32)
    let ephemeralPublic := decodeWord 256 (field wire 32 64)
    let nonce := decodeWord 256 (field wire 64 96)
    let sharedSecret :=
      c.diffieHellman (ed25519ToX25519Secret c recipientSecretKey) ephemeralPublic
    parse recipientAddress
      (applyAes256Ctr c (deriveSymmetricKeyIv c sharedSecret nonce) (wire.drop 96))

theorem decodeExact_field {bytes : Bytes} {start : Nat} (h : start + 64 ≤ bytes.length) :
    Signature.decodeExact (field bytes start (start + 64))
      = .ok ⟨decodeWord 512 (field bytes start (start + 64))⟩ := by
  have hlen : (field bytes start (start + 64)).length = 64 := by
    rw [length_field h, Nat.add_sub_cancel_left]
  unfold Signature.decodeExact exactLength
  rw [hlen]
  rfl

theorem length_signable (pkt : FullPacket) :
    (toSignableBytes pkt.senderAddress pkt.timestamp pkt.nonce pkt.payload).length
      = 42 + pkt.payload.length := by
  simp [toSignableBytes]
  omega

theorem length_body (pkt : FullPacket) : pkt.body.length = 42 + pkt.payload.length + 64 := by
  unfold body
  rw [List.length_append, length_signable, length_encodeWord]

/-- the bytes behind the signed ones -/
theorem field_signature (pkt : FullPacket) (rest : Bytes) :
    decodeWord 512 (field (pkt.body ++ rest) (42 + pkt.payload.length)
      (42 + pkt.payload.length + 64)) = pkt.signature.bytes := by
  have hlen := length_signable pkt
  unfold body
  rw [List.append_assoc, field_skip (le_of_eq hlen), hlen, Nat.sub_self,
    Nat.add_sub_cancel_left, field_head (length_encodeWord 64 _),
    decodeWord_encodeWord (n:=64) rfl]

/-- the bytes of a packet have its fields, whatever follows -/
theorem parse_body (pkt : FullPacket) (rest : Bytes) (h : pkt.payload.length < 2^16) :
    parse pkt.recipientAddress (pkt.body ++ rest) = .ok pkt := by
  have hlength : (pkt.body ++ rest).length = 42 + pkt.payload.length + 64 + rest.length := by
    rw [List.length_append, length_body]
  have hcount : (decodeWord 16 (field (pkt.body ++ rest) 40 42)).toNat = pkt.payload.length := by
    have hword : (BitVec.ofNat 16 pkt.payload.length).toNat = pkt.payload.length := by
      rw [BitVec.toNat_ofNat, Nat.mod_eq_of_lt h]
    rw [← hword]
    simp [body, toSignableBytes, field_skip, field_head, decodeWord_encodeWord]
  have hsender : decodeWord 256 (field (pkt.body ++ rest) 0 32) = pkt.senderAddress := by
    simp [body, toSignableBytes, field_head, decodeWord_encodeWord]
  have htimestamp : decodeWord 32 (field (pkt.body ++ rest) 32 36) = pkt.timestamp := by
    simp [body, toSignableBytes, field_skip, field_head, decodeWord_encodeWord]
  have hnonce : decodeWord 32 (field (pkt.body ++ rest) 36 40) = pkt.nonce := by
    simp [body, toSignableBytes, field_skip, field_head, decodeWord_encodeWord]
  have hpayload : field (pkt.body ++ rest) 42 (42 + pkt.payload.length) = pkt.payload := by
    simp only [body, toSignableBytes, List.append_assoc, field_skip, length_encodeWord,
      Nat.reduceLeDiff, Nat.reduceSub, le_refl, Nat.sub_self]
    exact field_head (by omega)
  unfold parse
  rw [if_neg (by omega)]
  dsimp only
  rw [hcount, if_neg (by omega), decodeExact_field (by omega)]
  dsimp only
  rw [hsender, htimestamp, hnonce, hpayload, field_signature]

/-- fields that are read are those of the bytes -/
theorem body_of_parse {recipientAddress : Uint256} {decrypted : Bytes} {pkt : FullPacket}
    (h : parse recipientAddress decrypted = .ok pkt) :
    pkt.recipientAddress = recipientAddress ∧ pkt.payload.length < 2^16
      ∧ ∃ rest, decrypted = pkt.body ++ rest := by
  unfold parse at h
  split_ifs at h with hshort
  dsimp only at h
  split_ifs at h with htruncated
  have htruncated := Nat.not_lt.mp htruncated
  rw [decodeExact_field htruncated] at h
  cases h
  have hlen : (field decrypted 42 (42 + (decodeWord 16 (field decrypted 40 42)).toNat)).length
      = (decodeWord 16 (field decrypted 40 42)).toNat := by
    rw [length_field (by omega), Nat.add_sub_cancel_left]
  have hword : encodeWord 2 (BitVec.ofNat 16 (decodeWord 16 (field decrypted 40 42)).toNat)
      = field decrypted 40 42 := by
    rw [BitVec.ofNat_toNat, BitVec.setWidth_eq]
    exact encodeWord_field rfl (by omega) rfl
  refine ⟨rfl, ?_, decrypted.drop (42 + (decodeWord 16 (field decrypted 40 42)).toNat + 64), ?_⟩
  · dsimp only
    rw [hlen]
    exact (decodeWord 16 (field decrypted 40 42)).isLt
  · dsimp only [body, toSignableBytes]
    rw [hlen, hword, encodeWord_field (n:=32) rfl (by omega) rfl,
      encodeWord_field (n:=4) rfl (by omega) rfl, encodeWord_field (n:=4) rfl (by omega) rfl,
      encodeWord_field (n:=64) rfl htruncated (Nat.add_sub_cancel_left _ _), field_zero]
    simp only [← List.append_assoc]
    rw [take_append_field _ (by decide), take_append_field _ (by decide),
      take_append_field _ (by decide), take_append_field _ (Nat.le_add_right _ _),
      take_append_field _ (Nat.le_add_right _ _), List.take_append_drop]

/-- which bytes have the fields of a packet -/
theorem parse_iff {recipientAddress : Uint256} {decrypted : Bytes} {pkt : FullPacket} :
    parse recipientAddress decrypted = .ok pkt
      ↔ pkt.recipientAddress = recipientAddress ∧ pkt.payload.length < 2^16
        ∧ ∃ rest, decrypted = pkt.body ++ rest := by
  constructor
  · exact body_of_parse
  · rintro ⟨rfl, hlen, rest, rfl⟩
    exact parse_body pkt rest hlen

/-- **Which bytes are a full packet**: nothing in them is checked but lengths. -/
theorem decode_iff {c : AdnlCrypto} {wire : Bytes} {sk : SecretKey} {pkt : FullPacket} :
    decode c wire sk = .ok pkt ↔ pkt.payload.length < 2^16 ∧ ∃ ephemeralPublic nonce rest,
      wire = encodeWord 32 pkt.recipientAddress ++ (encodeWord 32 ephemeralPublic
        ++ (encodeWord 32 nonce ++ applyAes256Ctr c (deriveSymmetricKeyIv c
          (c.diffieHellman (ed25519ToX25519Secret c sk) ephemeralPublic) nonce)
            (pkt.body ++ rest))) := by
  constructor
  · intro h
    unfold decode at h
    split_ifs at h with hshort
    obtain ⟨hrecipient, hlen, rest, hrest⟩ := parse_iff.mp h
    refine ⟨hlen, decodeWord 256 (field wire 32 64), decodeWord 256 (field wire 64 96), rest, ?_⟩
    rw [← hrest, hrecipient, encodeWord_field (n:=32) rfl (by omega) rfl,
      encodeWord_field (n:=32) rfl (by omega) rfl, encodeWord_field (n:=32) rfl (by omega) rfl,
      field_zero]
    unfold applyAes256Ctr
    rw [xorStream_xorStream]
    simp only [← List.append_assoc]
    rw [take_append_field _ (by decide), take_append_field _ (by decide), List.take_append_drop]
  · rintro ⟨hlen, ephemeralPublic, nonce, rest, rfl⟩
    unfold decode
    rw [if_neg]
    · simp only [field_head, field_skip, drop_skip, decodeWord_encodeWord, length_encodeWord,
        Nat.reduceLeDiff, Nat.reduceMul, Nat.reduceSub]
      refine parse_iff.mpr ⟨rfl, hlen, rest, ?_⟩
      unfold applyAes256Ctr
      simp
    · simp [applyAes256Ctr, body, toSignableBytes]
      omega

end FullPacket

/-! ## fast packets -/

structure FastPacket where
  channelOrRecipientId : Uint256
  senderAddress : Uint256
  nonce : Uint256
  payload : Bytes
deriving DecidableEq

namespace FastPacket

/-- hash, length and payload -/
def plaintext (c : AdnlCrypto) (payload : Bytes) : Bytes :=
  encodeWord 32 (domainHash c.toCrypto ADNL_PAYLOAD_TAG payload)
    ++ (encodeWord 2 (BitVec.ofNat 16 payload.length) ++ payload)

/-- what is not encrypted -/
def header (self : FastPacket) : Bytes :=
  encodeWord 32 self.channelOrRecipientId
    ++ (encodeWord 32 self.senderAddress ++ encodeWord 32 self.nonce)

def encryptedPart (c : AdnlCrypto) (self : FastPacket) (sharedSecret : Uint256) : Bytes :=
  applyAes256Ctr c (deriveSymmetricKeyIv c sharedSecret self.nonce) (plaintext c self.payload)

def encode (c : AdnlCrypto) (self : FastPacket) (sharedSecret : Uint256) : Bytes :=
  self.header ++ self.encryptedPart c sharedSecret

/-- the payload of a decrypted packet -/
def parse (c : AdnlCrypto) (decrypted : Bytes) : Except NetworkError Bytes :=
  if decrypted.length < 34 then .error .truncatedPacket
  else
    let payloadLen := (decodeWord 16 (field decrypted 32 34)).toNat
    if decrypted.length < 34 + payloadLen then .error .truncatedPacket
    else
      let payload := field decrypted 34 (34 + payloadLen)
      if domainHash c.toCrypto ADNL_PAYLOAD_TAG payload ≠ decodeWord 256 (field decrypted 0 32) then
        .error .decryptionFailed
      else .ok payload

def decode (c : AdnlCrypto) (wire : Bytes) (sharedSecret : Uint256) :
    Except NetworkError FastPacket :=
  if wire.length < 32 + 32 + 32 + 32 + 2 then .error .truncatedPacket
  else do
    let nonce := decodeWord 256 (field wire 64 96)
    let payload ← parse c
      (applyAes256Ctr c (deriveSymmetricKeyIv c sharedSecret nonce) (wire.drop 96))
    .ok {
      channelOrRecipientId := decodeWord 256 (field wire 0 32)
      senderAddress := decodeWord 256 (field wire 32 64)
      nonce := nonce
      payload := payload }

/-- which bytes have a payload -/
theorem parse_iff {c : AdnlCrypto} {decrypted payload : Bytes} :
    parse c decrypted = .ok payload
      ↔ payload.length < 2^16 ∧ ∃ rest, decrypted = plaintext c payload ++ rest := by
  constructor
  · intro h
    unfold parse at h
    split_ifs at h with hshort
    dsimp only at h
    split_ifs at h with htruncated hhash
    cases h
    have hlen : (field decrypted 34 (34 + (decodeWord 16 (field decrypted 32 34)).toNat)).length
        = (decodeWord 16 (field decrypted 32 34)).toNat := by
      rw [length_field (Nat.not_lt.mp htruncated), Nat.add_sub_cancel_left]
    have hword : encodeWord 2 (BitVec.ofNat 16 (decodeWord 16 (field decrypted 32 34)).toNat)
        = field decrypted 32 34 := by
      rw [BitVec.ofNat_toNat, BitVec.setWidth_eq]
      exact encodeWord_field rfl (Nat.not_lt.mp hshort) rfl
    refine ⟨?_, decrypted.drop (34 + (decodeWord 16 (field decrypted 32 34)).toNat), ?_⟩
    · rw [hlen]
      exact (decodeWord 16 (field decrypted 32 34)).isLt
    · unfold plaintext
      rw [not_not.mp hhash, hlen, hword, encodeWord_field (n:=32) rfl (by omega) rfl, field_zero,
        ← List.append_assoc (decrypted.take 32), take_append_field _ (by decide),
        take_append_field _ (Nat.le_add_right _ _), List.take_append_drop]
  · rintro ⟨hlen, rest, rfl⟩
    have hword : (BitVec.ofNat 16 payload.length).toNat = payload.length := by
      rw [BitVec.toNat_ofNat, Nat.mod_eq_of_lt hlen]
    have hpayload : field (plaintext c payload ++ rest) 34 (34 + payload.length) = payload := by
      simp only [plaintext, List.append_assoc, field_skip, length_encodeWord, Nat.reduceLeDiff,
        Nat.reduceSub, le_refl, Nat.sub_self]
      exact field_head (by omega)
    have hhash : decodeWord 256 (field (plaintext c payload ++ rest) 0 32)
        = domainHash c.toCrypto ADNL_PAYLOAD_TAG payload := by
      simp [plaintext, field_head, decodeWord_encodeWord]
    have hcount : (decodeWord 16 (field (plaintext c payload ++ rest) 32 34)).toNat
        = payload.length := by
      rw [← hword]
      simp [plaintext, field_skip, field_head, decodeWord_encodeWord]
    have hlength : (plaintext c payload ++ rest).length = 34 + payload.length + rest.length := by
      simp [plaintext]
      omega
    unfold parse
    rw [if_neg (by omega)]
    dsimp only
    rw [hcount, if_neg (by omega), hpayload, hhash, if_neg (not_not.mpr rfl)]

@[simp] theorem length_header (self : FastPacket) : self.header.length = 96 := by
  simp [header]

/-- **Which bytes are a fast packet.** -/
theorem decode_iff {c : AdnlCrypto} {wire : Bytes} {sharedSecret : Uint256} {pkt : FastPacket} :
    decode c wire sharedSecret = .ok pkt ↔ pkt.payload.length < 2^16 ∧ ∃ rest,
      wire = pkt.header ++ applyAes256Ctr c (deriveSymmetricKeyIv c sharedSecret pkt.nonce)
        (plaintext c pkt.payload ++ rest) := by
  constructor
  · intro h
    unfold decode at h
    split_ifs at h with hshort
    dsimp only at h
    cases hparse : parse c (applyAes256Ctr c (deriveSymmetricKeyIv c sharedSecret
        (decodeWord 256 (field wire 64 96))) (wire.drop 96)) with
    | error e =>
      rw [hparse] at h
      cases h
    | ok payload =>
      rw [hparse] at h
      cases h
      obtain ⟨hlen, rest, hrest⟩ := parse_iff.mp hparse
      refine ⟨hlen, rest, ?_⟩
      dsimp only [header]
      rw [← hrest, encodeWord_field (n:=32) rfl (by omega) rfl,
        encodeWord_field (n:=32) rfl (by omega) rfl, encodeWord_field (n:=32) rfl (by omega) rfl,
        field_zero, ← List.append_assoc (wire.take 32), take_append_field _ (by decide),
        take_append_field _ (by decide)]
      unfold applyAes256Ctr
      rw [xorStream_xorStream, List.take_append_drop]
  · rintro ⟨hlen, rest, rfl⟩
    have hdrop : ∀ body, (pkt.header ++ body).drop 96 = body := fun body =>
      List.drop_left' (length_header pkt)
    have hnonce : ∀ body, decodeWord 256 (field (pkt.header ++ body) 64 96) = pkt.nonce := by
      intro body
      simp [header, field_skip, field_head, decodeWord_encodeWord]
    have hchannel : ∀ body,
        decodeWord 256 (field (pkt.header ++ body) 0 32) = pkt.channelOrRecipientId := by
      intro body
      simp [header, field_head, decodeWord_encodeWord]
    have hsender : ∀ body,
        decodeWord 256 (field (pkt.header ++ body) 32 64) = pkt.senderAddress := by
      intro body
      simp [header, field_skip, field_head, decodeWord_encodeWord]
    unfold decode
    rw [hnonce, hchannel, hsender, hdrop, if_neg]
    · dsimp only
      unfold applyAes256Ctr
      rw [xorStream_xorStream, parse_iff.mpr ⟨hlen, rest, rfl⟩]
      rfl
    · simp [applyAes256Ctr, plaintext]
      omega

end FastPacket

/-! ## nodes -/

structure PeerSession (SocketAddr : Type) where
  peerAddress : Uint256
  peerPublicKey : PublicKey
  remoteEndpoint : SocketAddr
  channelId : Uint256
  sharedSecret : Uint256

structure AdnlTransportNode (SocketAddr : Type) where
  secretKey : SecretKey
  publicKey : PublicKey
  keyDescription : KeyDescription
  abstractAddress : Uint256
  sessions : OrdMap Uint256 (PeerSession SocketAddr)
  channelToPeer : OrdMap Uint256 Uint256

namespace AdnlTransportNode
variable {SocketAddr : Type} (c : AdnlCrypto)

def bind (secretKey : SecretKey) : AdnlTransportNode SocketAddr where
  secretKey := secretKey
  publicKey := c.publicKey secretKey
  keyDescription := KeyDescription.newEd25519 (c.publicKey secretKey)
  abstractAddress :=
    (KeyDescription.newEd25519 (c.publicKey secretKey)).computeAbstractAddress c.toCrypto
  sessions := ∅
  channelToPeer := ∅

/-- none where `unwrap` panics, on a peer key that is no point -/
def connectPeer (self : AdnlTransportNode SocketAddr) (peerPublicKey : PublicKey)
    (remoteEndpoint : SocketAddr) :
    Option (AdnlTransportNode SocketAddr × PeerSession SocketAddr) :=
  let peerAddress := (KeyDescription.newEd25519 peerPublicKey).computeAbstractAddress c.toCrypto
  match self.sessions.get? peerAddress with
  | some session => some (self, session)
  | none => do
    let peerX25519Pub ← (ed25519ToX25519Public c peerPublicKey).toOption
    let sharedSecret := c.diffieHellman (ed25519ToX25519Secret c self.secretKey) peerX25519Pub
    let channelId :=
      if self.abstractAddress < peerAddress then
        deriveChannelId c.toCrypto sharedSecret self.abstractAddress peerAddress
      else deriveChannelId c.toCrypto sharedSecret peerAddress self.abstractAddress
    let session : PeerSession SocketAddr :=
      ⟨peerAddress, peerPublicKey, remoteEndpoint, channelId, sharedSecret⟩
    some ({ self with
      sessions := self.sessions.insert peerAddress session
      channelToPeer := self.channelToPeer.insert channelId peerAddress }, session)

/-- the datagram for a payload -/
def sendDatagram (self : AdnlTransportNode SocketAddr) (peerPublicKey : PublicKey)
    (remoteEndpoint : SocketAddr) (payload : Bytes) (nonce : Uint256) :
    Option (AdnlTransportNode SocketAddr × Bytes) := do
  let (node, session) ← connectPeer c self peerPublicKey remoteEndpoint
  let fastPkt : FastPacket := ⟨session.channelId, self.abstractAddress, nonce, payload⟩
  some (node, fastPkt.encode c session.sharedSecret)

/-- the session of a channel -/
def sessionOf (self : AdnlTransportNode SocketAddr) (headerId : Uint256) :
    Option (PeerSession SocketAddr) :=
  (self.channelToPeer.get? headerId).bind self.sessions.get?

/-- the full packet that a datagram is read as -/
def fullPacketOf (self : AdnlTransportNode SocketAddr) (wire : Bytes) : Option FullPacket :=
  if decodeWord 256 (field wire 0 32) = self.abstractAddress then
    (FullPacket.decode c wire self.secretKey).toOption
  else none

/-- what a datagram from `srcAddr` is taken for -/
def recvDatagram (self : AdnlTransportNode SocketAddr) (wire : Bytes) (srcAddr : SocketAddr) :
    Except NetworkError (Uint256 × Bytes × SocketAddr) :=
  if wire.length < 32 then .error .truncatedPacket
  else
    match fullPacketOf c self wire with
    | some fullPkt => .ok (fullPkt.senderAddress, fullPkt.payload, srcAddr)
    | none =>
      match sessionOf self (decodeWord 256 (field wire 0 32)) with
      | some session => do
        let pkt ← FastPacket.decode c wire session.sharedSecret
        .ok (pkt.senderAddress, pkt.payload, srcAddr)
      | none => .error .decryptionFailed

end AdnlTransportNode

/-! ## a sample scheme to evaluate the model at -/

def sampleAdnl : AdnlCrypto where
  toCrypto := sampleCrypto
  publicKey sk := ⟨sk.seed⟩
  toMontgomery pk := pk.bytes
  toScalarBytes sk := sk.seed
  x25519Public secret := secret
  diffieHellman secret other := secret + other
  keystream key iv n := BitVec.ofNat 8 (key.toNat + 3 * iv.toNat + 5 * n)

end Onx
