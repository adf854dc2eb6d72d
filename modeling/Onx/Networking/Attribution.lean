import Onx.Networking.Transport

/-!
# Who a datagram comes from

The sender of a datagram is read out of it.  Nothing ties it to a key: the signature of a full
packet is not looked at, and the sender of a fast packet is not compared with the session.

* `Attributed`        the sender of a datagram is who it comes from;
* `Misleads`          the datagrams with an unsigned sender, or with one that is not the peer;
* `attributed_iff`    **these are the ones that are misattributed**;
* `full_forgeable`, `channel_forgeable`   every sender can be put into a datagram to any node;
* `forged_sender`     one that is.
-/

namespace Onx
open StreamCipher AdnlTransportNode

section
variable {SocketAddr : Type} (c : AdnlCrypto) (signed : PublicKey → Bytes → Signature → Bool)
  (node : AdnlTransportNode SocketAddr)

/-- the packet is signed with a key of its sender -/
def FullPacket.SignedBySender (pkt : FullPacket) : Prop :=
  ∃ pk, (KeyDescription.newEd25519 pk).computeAbstractAddress c.toCrypto = pkt.senderAddress
    ∧ signed pk (toSignableBytes pkt.senderAddress pkt.timestamp pkt.nonce pkt.payload)
      pkt.signature = true

/-- a sender and a payload come of a signed full packet, or of a packet on the channel of the
sender; `signed` says how signatures are checked -/
def Attributed (wire : Bytes) (sender : Uint256) (payload : Bytes) : Prop :=
  (∃ pkt, fullPacketOf c node wire = some pkt ∧ sender = pkt.senderAddress
    ∧ payload = pkt.payload ∧ pkt.SignedBySender c signed)
  ∨ ∃ session pkt, fullPacketOf c node wire = none
    ∧ sessionOf node (decodeWord 256 (field wire 0 32)) = some session
    ∧ FastPacket.decode c wire session.sharedSecret = .ok pkt ∧ payload = pkt.payload
    ∧ sender = session.peerAddress

/-- a full packet that its sender has not signed, or one on a channel with another sender in clear
than the peer of the channel -/
inductive Misleads (wire : Bytes) : Prop where
  | full {pkt : FullPacket} (hfull : fullPacketOf c node wire = some pkt)
      (hsigned : ¬ pkt.SignedBySender c signed)
  | channel {session : PeerSession SocketAddr} {pkt : FastPacket}
      (hfull : fullPacketOf c node wire = none)
      (hsession : sessionOf node (decodeWord 256 (field wire 0 32)) = some session)
      (hpkt : FastPacket.decode c wire session.sharedSecret = .ok pkt)
      (hsender : decodeWord 256 (field wire 32 64) ≠ session.peerAddress)

variable {c signed node} {wire payload : Bytes} {srcAddr srcAddr' : SocketAddr} {sender : Uint256}

theorem FastPacket.senderAddress_eq {sharedSecret : Uint256} {pkt : FastPacket}
    (h : FastPacket.decode c wire sharedSecret = .ok pkt) :
    pkt.senderAddress = decodeWord 256 (field wire 32 64) := by
  obtain ⟨_, rest, rfl⟩ := FastPacket.decode_iff.mp h
  simp [header, field_skip, field_head, decodeWord_encodeWord]

theorem recvDatagram_full {pkt : FullPacket} (h : fullPacketOf c node wire = some pkt) :
    recvDatagram c node wire srcAddr = .ok (pkt.senderAddress, pkt.payload, srcAddr) := by
  have hlong : ¬ wire.length < 32 := by
    intro hshort
    unfold fullPacketOf FullPacket.decode at h
    rw [if_pos (by omega : wire.length < 32 + 32 + 32 + 32 + 4 + 4 + 2 + 64)] at h
    split_ifs at h
    cases h
  unfold recvDatagram
  rw [if_neg hlong, h]

theorem recvDatagram_channel {session : PeerSession SocketAddr} {pkt : FastPacket}
    (hfull : fullPacketOf c node wire = none)
    (hsession : sessionOf node (decodeWord 256 (field wire 0 32)) = some session)
    (hpkt : FastPacket.decode c wire session.sharedSecret = .ok pkt) :
    recvDatagram c node wire srcAddr = .ok (pkt.senderAddress, pkt.payload, srcAddr) := by
  have hlong : ¬ wire.length < 32 := by
    intro hshort
    unfold FastPacket.decode at hpkt
    rw [if_pos (by omega : wire.length < 32 + 32 + 32 + 32 + 2)] at hpkt
    cases hpkt
  unfold recvDatagram
  rw [if_neg hlong, hfull, hsession]
  dsimp only
  rw [hpkt]
  rfl

/-- the two ways a datagram is received -/
theorem recvDatagram_ok (h : recvDatagram c node wire srcAddr = .ok (sender, payload, srcAddr')) :
    (∃ pkt, fullPacketOf c node wire = some pkt ∧ sender = pkt.senderAddress
      ∧ payload = pkt.payload)
    ∨ ∃ session pkt, fullPacketOf c node wire = none
      ∧ sessionOf node (decodeWord 256 (field wire 0 32)) = some session
      ∧ FastPacket.decode c wire session.sharedSecret = .ok pkt ∧ payload = pkt.payload
      ∧ sender = pkt.senderAddress := by
  unfold recvDatagram at h
  split_ifs at h with hshort
  cases hfull : fullPacketOf c node wire with
  | some pkt =>
    rw [hfull] at h
    cases h
    exact Or.inl ⟨pkt, rfl, rfl, rfl⟩
  | none =>
    rw [hfull] at h
    dsimp only at h
    cases hsession : sessionOf node (decodeWord 256 (field wire 0 32)) with
    | none =>
      rw [hsession] at h
      cases h
    | some session =>
      rw [hsession] at h
      dsimp only at h
      cases hpkt : FastPacket.decode c wire session.sharedSecret with
      | error e =>
        rw [hpkt] at h
        cases h
      | ok pkt =>
        rw [hpkt] at h
        cases h
        exact Or.inr ⟨session, pkt, rfl, rfl, hpkt, rfl, rfl⟩

/-- **A datagram is attributed to its real sender** unless it misleads: the code does not tell. -/
theorem attributed_iff (c : AdnlCrypto) (signed : PublicKey → Bytes → Signature → Bool)
    (node : AdnlTransportNode SocketAddr) (wire : Bytes) (srcAddr : SocketAddr) :
    (∀ sender payload srcAddr',
      recvDatagram c node wire srcAddr = .ok (sender, payload, srcAddr') →
        Attributed c signed node wire sender payload)
      ↔ ¬ Misleads c signed node wire := by
  constructor
  · intro h hmisleads
    cases hmisleads with
    | full hfull hsigned =>
      rcases h _ _ _ (recvDatagram_full hfull) with ⟨pkt, hpkt, _, _, hgood⟩ | ⟨_, _, hnone, _⟩
      · rw [hfull] at hpkt
        cases hpkt
        exact hsigned hgood
      · rw [hfull] at hnone
        cases hnone
    | channel hfull hsession hpkt hsender =>
      rcases h _ _ _ (recvDatagram_channel hfull hsession hpkt) with
        ⟨_, hsome, _⟩ | ⟨session, pkt, _, hsession', _, _, hgood⟩
      · rw [hfull] at hsome
        cases hsome
      · rw [hsession] at hsession'
        cases hsession'
        rw [FastPacket.senderAddress_eq hpkt] at hgood
        exact hsender hgood
  · intro h sender payload srcAddr' hrecv
    rcases recvDatagram_ok hrecv with
      ⟨pkt, hfull, hsender, hpayload⟩ | ⟨session, pkt, hfull, hsession, hpkt, hpayload, hsender⟩
    · refine Or.inl ⟨pkt, hfull, hsender, hpayload, ?_⟩
      by_contra hsigned
      exact h (.full hfull hsigned)
    · refine Or.inr ⟨session, pkt, hfull, hsession, hpkt, hpayload, ?_⟩
      by_contra hother
      rw [hsender, FastPacket.senderAddress_eq hpkt] at hother
      exact h (.channel hfull hsession hpkt hother)

/-! ## forged senders -/

/-- any full packet can be sent to a node by who knows its public key, also one that nobody has
signed; `hagree` is the agreement of the two sides of X25519 -/
theorem full_forgeable {pkt : FullPacket} {ephemeralSecret nonce : Uint256}
    (hrecipient : pkt.recipientAddress = node.abstractAddress)
    (hlen : pkt.payload.length < 2^16) (hkey : c.validKey node.publicKey.bytes = true)
    (hagree : c.diffieHellman (c.toScalarBytes node.secretKey) (c.x25519Public ephemeralSecret)
      = c.diffieHellman ephemeralSecret (c.toMontgomery node.publicKey)) :
    ∃ wire, pkt.encode c node.publicKey ephemeralSecret nonce = some wire
      ∧ recvDatagram c node wire srcAddr = .ok (pkt.senderAddress, pkt.payload, srcAddr) := by
  have hpublic : ed25519ToX25519Public c node.publicKey = .ok (c.toMontgomery node.publicKey) :=
    if_pos hkey
  unfold FullPacket.encode
  rw [hpublic]
  refine ⟨_, rfl, recvDatagram_full ?_⟩
  unfold fullPacketOf
  rw [field_head (length_encodeWord 32 _), decodeWord_encodeWord (n:=32) rfl, if_pos hrecipient]
  have hdecode : FullPacket.decode c (encodeWord 32 pkt.recipientAddress
      ++ (encodeWord 32 (c.x25519Public ephemeralSecret) ++ (encodeWord 32 nonce
        ++ applyAes256Ctr c (deriveSymmetricKeyIv c (c.diffieHellman ephemeralSecret
          (c.toMontgomery node.publicKey)) nonce) pkt.body))) node.secretKey = .ok pkt := by
    refine FullPacket.decode_iff.mpr ⟨hlen, c.x25519Public ephemeralSecret, nonce, [], ?_⟩
    unfold ed25519ToX25519Secret
    rw [hagree, List.append_nil]
  rw [hdecode]
  rfl

/-- any sender can be put into a packet on a channel -/
theorem channel_forgeable {session : PeerSession SocketAddr} {pkt : FastPacket}
    (hother : pkt.channelOrRecipientId ≠ node.abstractAddress)
    (hsession : sessionOf node pkt.channelOrRecipientId = some session)
    (hlen : pkt.payload.length < 2^16) :
    recvDatagram c node (pkt.encode c session.sharedSecret) srcAddr
      = .ok (pkt.senderAddress, pkt.payload, srcAddr) := by
  have hid : decodeWord 256 (field (pkt.encode c session.sharedSecret) 0 32)
      = pkt.channelOrRecipientId := by
    simp [FastPacket.encode, FastPacket.header, field_head, decodeWord_encodeWord]
  refine recvDatagram_channel ?_ (?_ : sessionOf node _ = some session) ?_
  · unfold fullPacketOf
    rw [hid, if_neg hother]
  · rw [hid]
    exact hsession
  · refine FastPacket.decode_iff.mpr ⟨hlen, [], ?_⟩
    rw [List.append_nil]
    rfl

end

/-! ## a forged sender -/

/-- how signatures are checked elsewhere: under the tag of validators, over the bytes or their
hash -/
def checkSignature (c : Crypto) (pk : PublicKey) (message : Bytes) (s : Signature) : Bool :=
  pk.verify c VALIDATOR_SIGN_V1 message s
    || pk.verify c VALIDATOR_SIGN_V1
      (encodeWord 32 (domainHash c ADNL_SHARED_SECRET_TAG message)) s

def sampleNode : AdnlTransportNode Unit := AdnlTransportNode.bind sampleAdnl ⟨1⟩

/-- a packet with a signature of zeros -/
def unsignedPacket : FullPacket := ⟨sampleNode.abstractAddress, 2, 3, 4, [5], ⟨0⟩⟩

def unsignedWire : Bytes := (unsignedPacket.encode sampleAdnl sampleNode.publicKey 6 7).getD []

theorem eq_zero_of_ofNat {w n : Nat} (hlt : n < 2^w) (h : (0 : BitVec w) = BitVec.ofNat w n) :
    n = 0 :=
  (BitVec.eq_of_ofNat_eq (Nat.two_pow_pos w) hlt h).symm

theorem mul_add_lt {a b n : Nat} (ha : a < 2^n) (hb : b < 2^n) : a * 2^n + b < 2^(n + n) := by
  calc a * 2^n + b
      < a * 2^n + 2^n := Nat.add_lt_add_left hb _
    _ = (a + 1) * 2^n := (Nat.succ_mul _ _).symm
    _ ≤ 2^n * 2^n := Nat.mul_le_mul_right _ ha
    _ = 2^(n + n) := (Nat.pow_add 2 n n).symm

theorem sampleCrypto_verify_zero {pk : PublicKey} {message : Bytes}
    (h : sampleCrypto.verifyStrict pk message ⟨0⟩ = true) : beNat message % (2^256 - 189) = 0 := by
  have hrest : beNat message % (2^256 - 189) < 2^256 - 189 := Nat.mod_lt _ (by decide)
  have hlt := mul_add_lt pk.bytes.isLt (hrest.trans_le (Nat.sub_le _ _))
  unfold sampleCrypto at h
  simp only [decide_eq_true_eq] at h
  have hzero := eq_zero_of_ofNat (w:=256 + 256) hlt h
  omega

theorem unsignedPacket_not_signed :
    ¬ unsignedPacket.SignedBySender sampleAdnl (checkSignature sampleCrypto) := by
  rintro ⟨pk, _, hcheck⟩
  rcases Bool.or_eq_true_iff.mp hcheck with hplain | hhash
  · exact absurd (sampleCrypto_verify_zero hplain) (by decide +kernel)
  · exact absurd (sampleCrypto_verify_zero hhash) (by decide +kernel)

/-- the datagram is received from node 2, which has not signed it -/
theorem forged_sender :
    recvDatagram sampleAdnl sampleNode unsignedWire () = .ok (2, [5], ())
    ∧ ¬ Attributed sampleAdnl (checkSignature sampleCrypto) sampleNode unsignedWire 2 [5]
    ∧ ¬ ∀ (c : AdnlCrypto) (node : AdnlTransportNode Unit) (wire : Bytes) (sender : Uint256)
      (payload : Bytes), recvDatagram c node wire () = .ok (sender, payload, ()) →
        Attributed c (checkSignature c.toCrypto) node wire sender payload := by
  have hrecv : recvDatagram sampleAdnl sampleNode unsignedWire () = .ok (2, [5], ()) := by
    decide +kernel
  have hfull : fullPacketOf sampleAdnl sampleNode unsignedWire = some unsignedPacket := by
    decide +kernel
  have hforged : ¬ Attributed sampleAdnl (checkSignature sampleCrypto) sampleNode unsignedWire
      2 [5] := by
    rintro (⟨pkt, hpkt, _, _, hsigned⟩ | ⟨_, _, hnone, _⟩)
    · rw [hfull] at hpkt
      rw [← Option.some.inj hpkt] at hsigned
      exact unsignedPacket_not_signed hsigned
    · rw [hfull] at hnone
      exact absurd hnone (Option.some_ne_none _)
  exact ⟨hrecv, hforged, fun h => hforged (h _ _ _ _ _ hrecv)⟩

end Onx
