import Onx.DataStructures.Shard

/-!
# Messages

The message record, its layout with count-prefixed extra currencies, and the message hash.
`Message.toBytes_inj`: the bytes determine the message, so two messages with one hash are equal or
a SHA-256 collision.
-/

namespace Onx

inductive MessageType where
  | internal
  | externalInbound
  | externalOutbound
deriving DecidableEq

structure Message where
  msgType : MessageType
  srcAddress : FullAddress
  destAddress : FullAddress
  amountNanos : Uint128
  /-- currency ids and values -/
  extraCurrencies : List (Uint32 × Uint128)
  createdLt : Uint64
  bodyCellHash : Uint256
deriving DecidableEq

namespace MessageType

def tag : MessageType → Byte
  | .internal => 0x01
  | .externalInbound => 0x02
  | .externalOutbound => 0x03

theorem tag_inj {t t' : MessageType} (h : t.tag = t'.tag) : t = t' := by
  cases t <;> cases t' <;> first | rfl | exact absurd h (by decide)

end MessageType

namespace Message

def DOMAIN_TAG : DomainTag := DomainTag.fromAscii "ONX_MSG_HASH_V1" (by decide)

/-- an extra currency: its id and value -/
def currencyBytes (pair : Uint32 × Uint128) : Bytes := encodeWord 4 pair.1 ++ encodeWord 16 pair.2

def currenciesBytes (pairs : List (Uint32 × Uint128)) : Bytes := pairs.flatMap currencyBytes

def toBytes (m : Message) : Bytes :=
  [m.msgType.tag] ++ m.srcAddress.toBytes ++ m.destAddress.toBytes ++ encodeWord 16 m.amountNanos
    ++ encodeWord 4 (BitVec.ofNat 32 m.extraCurrencies.length)
    ++ currenciesBytes m.extraCurrencies ++ encodeWord 8 m.createdLt
    ++ encodeWord 32 m.bodyCellHash

theorem length_currencyBytes (pair : Uint32 × Uint128) : (currencyBytes pair).length = 20 := by
  simp [currencyBytes]

@[simp] theorem length_currenciesBytes (pairs : List (Uint32 × Uint128)) :
    (currenciesBytes pairs).length = 20 * pairs.length := by
  unfold currenciesBytes
  rw [length_flatMap_be length_currencyBytes, Nat.mul_comm]

theorem length_toBytes (m : Message) : m.toBytes.length = 133 + 20 * m.extraCurrencies.length := by
  simp [toBytes]
  omega

theorem currencyBytes_inj (p q : Uint32 × Uint128) (h : currencyBytes p = currencyBytes q) : p = q := by
  obtain ⟨h1, h2⟩ := append_inj_be (by simp) h
  exact Prod.ext (encodeWord_inj (n:=4) rfl h1) (encodeWord_inj (n:=16) rfl h2)

theorem currenciesBytes_inj {ps qs : List (Uint32 × Uint128)}
    (h : currenciesBytes ps = currenciesBytes qs) : ps = qs :=
  flatMap_inj_be (by omega) length_currencyBytes currencyBytes_inj h

/-- **The serialized message determines the message.** -/
theorem toBytes_inj {m m' : Message} (h : m.toBytes = m'.toBytes) : m = m' := by
  have hcount : m.extraCurrencies.length = m'.extraCurrencies.length := by
    have hlen := congrArg List.length h
    rw [length_toBytes, length_toBytes] at hlen
    omega
  unfold toBytes at h
  obtain ⟨h, hbody⟩ := append_inj_be (by simp [hcount]) h
  obtain ⟨h, hlt⟩ := append_inj_be (by simp [hcount]) h
  obtain ⟨h, hextra⟩ := append_inj_be (by simp) h
  obtain ⟨h, _⟩ := append_inj_be (by simp) h
  obtain ⟨h, hamount⟩ := append_inj_be (by simp) h
  obtain ⟨h, hdest⟩ := append_inj_be (by simp) h
  obtain ⟨htag, hsrc⟩ := append_inj_be (by simp) h
  obtain ⟨type, src, dest, amount, extra, lt, body⟩ := m
  rw [Message.mk.injEq]
  exact ⟨MessageType.tag_inj (by simpa using htag), FullAddress.toBytes_inj hsrc,
    FullAddress.toBytes_inj hdest, encodeWord_inj (n:=16) rfl hamount, currenciesBytes_inj hextra,
    encodeWord_inj (n:=8) rfl hlt, encodeWord_inj (n:=32) rfl hbody⟩

/-- domain-separated hash of the canonical bytes -/
def messageHash (c : Crypto) (m : Message) : Uint256 := domainHash c DOMAIN_TAG m.toBytes

def validateSourceShard (m : Message) (shard : ShardIdent) : Except DataStructureError Unit :=
  shard.validateFullAddress m.srcAddress

def validateDestShard (m : Message) (shard : ShardIdent) : Except DataStructureError Unit :=
  shard.validateFullAddress m.destAddress

end Message

end Onx
