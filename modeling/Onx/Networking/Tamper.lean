import Onx.Networking.Transport

/-!
# Altered fast packets

The payload of a fast packet is protected by its hash, which is encrypted with it.  The hash has no
key, and the cipher adds a key stream: hash and payload can be altered together.

* `Yields`               an encrypted part behind the header of a packet has a payload;
* `yields_iff`           which encrypted parts these are;
* `yields_altered`       who knows a payload replaces it, without the secret;
* `tampering_detected`   **what is detected**: altered bytes behind the hash, or an altered hash,
                         but not both;
* `replaced_payload`     a packet with both altered.
-/

namespace Onx
open StreamCipher

section
variable {c : AdnlCrypto} {sharedSecret : Uint256} {p : FastPacket} {encrypted payload : Bytes}

/-- `encrypted` behind the header of `p` is a packet with that payload -/
def Yields (c : AdnlCrypto) (sharedSecret : Uint256) (p : FastPacket) (encrypted payload : Bytes) :
    Prop :=
  ∃ pkt, FastPacket.decode c (p.header ++ encrypted) sharedSecret = .ok pkt
    ∧ pkt.payload = payload

/-- two payloads with one hash -/
def Collides (c : AdnlCrypto) (payload payload' : Bytes) : Prop :=
  payload ≠ payload' ∧ domainHash c.toCrypto ADNL_PAYLOAD_TAG payload
    = domainHash c.toCrypto ADNL_PAYLOAD_TAG payload'

theorem header_inj {p q : FastPacket} (h : p.header = q.header) :
    p.channelOrRecipientId = q.channelOrRecipientId ∧ p.senderAddress = q.senderAddress
      ∧ p.nonce = q.nonce := by
  unfold FastPacket.header at h
  obtain ⟨hid, hrest⟩ := append_inj_be (by simp) h
  obtain ⟨hsender, hnonce⟩ := append_inj_be (by simp) hrest
  exact ⟨encodeWord_inj rfl hid, encodeWord_inj rfl hsender, encodeWord_inj rfl hnonce⟩

/-- **Which encrypted parts have a payload.** -/
theorem yields_iff : Yields c sharedSecret p encrypted payload ↔ payload.length < 2^16
    ∧ ∃ rest, encrypted = applyAes256Ctr c (deriveSymmetricKeyIv c sharedSecret p.nonce)
      (FastPacket.plaintext c payload ++ rest) := by
  constructor
  · rintro ⟨pkt, hdecode, rfl⟩
    obtain ⟨hlen, rest, hwire⟩ := FastPacket.decode_iff.mp hdecode
    obtain ⟨hheader, hbody⟩ := append_inj_be (by simp) hwire
    rw [(header_inj hheader).2.2]
    exact ⟨hlen, rest, hbody⟩
  · rintro ⟨hlen, rest, rfl⟩
    exact ⟨{ p with payload := payload }, FastPacket.decode_iff.mpr ⟨hlen, rest, rfl⟩, rfl⟩

/-- who knows the payload puts another of that length in its place -/
theorem yields_altered (hsame : payload.length = p.payload.length) (hlen : payload.length < 2^16) :
    Yields c sharedSecret p (xorBytes (p.encryptedPart c sharedSecret)
      (xorBytes (FastPacket.plaintext c p.payload) (FastPacket.plaintext c payload))) payload := by
  refine yields_iff.mpr ⟨hlen, [], ?_⟩
  unfold FastPacket.encryptedPart applyAes256Ctr
  rw [List.append_nil]
  refine xorStream_malleable _ ?_
  simp [FastPacket.plaintext, hsame]

/-- the bytes behind the hash determine the payload -/
theorem payload_of_tail {rest : Bytes} (hlen : payload.length < 2^16)
    (hlen' : p.payload.length < 2^16)
    (h : (FastPacket.plaintext c payload ++ rest).drop 32
      = (FastPacket.plaintext c p.payload).drop 32) : payload = p.payload ∧ rest = [] := by
  have hdrop : ∀ q tail : Bytes, (FastPacket.plaintext c q ++ tail).drop 32
      = encodeWord 2 (BitVec.ofNat 16 q.length) ++ (q ++ tail) := by
    intro q tail
    simp [FastPacket.plaintext]
  have h' := hdrop p.payload []
  rw [List.append_nil, List.append_nil] at h'
  rw [hdrop, h'] at h
  obtain ⟨hword, hbytes⟩ := append_inj_be (by simp) h
  have hnat := BitVec.eq_of_ofNat_eq hlen hlen' (encodeWord_inj rfl hword)
  have hrest : p.payload = p.payload ++ [] := (List.append_nil _).symm
  rw [hrest] at hbytes
  exact append_inj_be hnat hbytes

/-- with the encrypted hash as it was -/
theorem payload_of_hash (hkept : encrypted.take 32 = (p.encryptedPart c sharedSecret).take 32)
    (h : Yields c sharedSecret p encrypted payload) :
    payload = p.payload ∨ Collides c payload p.payload := by
  obtain ⟨_, rest, rfl⟩ := yields_iff.mp h
  have htake : ∀ q tail : Bytes, (FastPacket.plaintext c q ++ tail).take 32
      = encodeWord 32 (domainHash c.toCrypto ADNL_PAYLOAD_TAG q) := by
    intro q tail
    simp [FastPacket.plaintext]
  have hplain : (FastPacket.plaintext c payload ++ rest).take 32
      = (FastPacket.plaintext c p.payload ++ []).take 32 := by
    rw [List.append_nil]
    unfold FastPacket.encryptedPart applyAes256Ctr at hkept
    rw [take_xorStream, take_xorStream] at hkept
    exact xorStream_inj _ hkept
  rw [htake, htake] at hplain
  have hhash := encodeWord_inj rfl hplain
  by_cases heq : payload = p.payload
  · exact Or.inl heq
  · exact Or.inr ⟨heq, hhash⟩

/-- with what is behind the encrypted hash as it was -/
theorem encrypted_of_tail (hlen : p.payload.length < 2^16)
    (hkept : encrypted.drop 32 = (p.encryptedPart c sharedSecret).drop 32)
    (h : Yields c sharedSecret p encrypted payload) :
    encrypted = p.encryptedPart c sharedSecret := by
  obtain ⟨hlen', rest, rfl⟩ := yields_iff.mp h
  unfold FastPacket.encryptedPart applyAes256Ctr at hkept
  obtain ⟨rfl, rfl⟩ := payload_of_tail hlen' hlen (drop_xorStream_inj _ hkept)
  rw [List.append_nil]
  rfl

end

/-- **Tampering that is detected.**  What is behind the header of a packet has another payload only
if it is the encryption of that payload with its own hash; with the encrypted hash as it was, or
with all behind it as it was, it has not. -/
theorem tampering_detected (c : AdnlCrypto) (sharedSecret : Uint256) (p : FastPacket)
    (encrypted payload : Bytes) :
    (Yields c sharedSecret p encrypted payload ↔ payload.length < 2^16
      ∧ ∃ rest, encrypted = applyAes256Ctr c (deriveSymmetricKeyIv c sharedSecret p.nonce)
        (FastPacket.plaintext c payload ++ rest))
    ∧ (encrypted.take 32 = (p.encryptedPart c sharedSecret).take 32 →
      Yields c sharedSecret p encrypted payload →
      payload = p.payload ∨ Collides c payload p.payload)
    ∧ (encrypted.drop 32 = (p.encryptedPart c sharedSecret).drop 32 → p.payload.length < 2^16 →
      Yields c sharedSecret p encrypted payload → encrypted = p.encryptedPart c sharedSecret) :=
  ⟨yields_iff, payload_of_hash, fun hkept hlen h => encrypted_of_tail hlen hkept h⟩

/-! ## a replaced payload -/

def samplePacket : FastPacket := ⟨1, 2, 3, [4]⟩

/-- made of the packet and of the two payloads, without the secret -/
def replacedPart : Bytes :=
  xorBytes ((samplePacket.encode sampleAdnl 9).drop 96)
    (xorBytes (FastPacket.plaintext sampleAdnl [4]) (FastPacket.plaintext sampleAdnl [5]))

/-- the packet is accepted with the other payload -/
theorem replaced_payload :
    FastPacket.decode sampleAdnl (samplePacket.header ++ replacedPart) 9
      = .ok { samplePacket with payload := [5] }
    ∧ ¬ Collides sampleAdnl [5] [4]
    ∧ ¬ ∀ (c : AdnlCrypto) (sharedSecret : Uint256) (p pkt : FastPacket) (encrypted : Bytes),
      FastPacket.decode c (p.header ++ encrypted) sharedSecret = .ok pkt →
        pkt.payload = p.payload := by
  have hdecode : FastPacket.decode sampleAdnl (samplePacket.header ++ replacedPart) 9
      = .ok { samplePacket with payload := [5] } := by
    decide +kernel
  have hhash : domainHash sampleAdnl.toCrypto ADNL_PAYLOAD_TAG [5]
      ≠ domainHash sampleAdnl.toCrypto ADNL_PAYLOAD_TAG [4] := by
    decide +kernel
  refine ⟨hdecode, fun h => hhash h.2, fun h => ?_⟩
  have hpayload := h _ _ _ _ _ hdecode
  cases hpayload

end Onx
