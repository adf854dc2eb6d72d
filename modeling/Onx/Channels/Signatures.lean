import Onx.Channels.Arbiter
import Onx.Lib.PrefixFree

/-!
# What a channel signature covers

The bytes of a state have no length in front and two fields that may be missing.  Each field can be split
off the front nevertheless, so that the bytes determine the state.

* `prefixFree`              the bytes of a state, with anything behind them, determine it;
* `channel_signatures`      **two signatures cover one state**, if the hash does not collide.
-/

namespace Onx.Channels
open Codes

namespace ChannelState

theorem encodeWord_prefixFree {n w : Nat} (hw : w = 8 * n) :
    PrefixFree (encodeWord n : BitVec w → Bytes) :=
  .of_length (length_encodeWord n) fun _ _ => encodeWord_inj hw

theorem optionBytes_prefixFree {n w : Nat} (hw : w = 8 * n) :
    PrefixFree (optionBytes n : Option (BitVec w) → Bytes) := by
  have hoption := Tells.option (show (1 : Byte) ≠ 0 by decide) (encodeWord_prefixFree hw)
  intro o o' r s h
  refine hoption o o' r s ?_
  cases o <;> cases o' <;> exact h

/-- **The bytes of a state determine it.** -/
theorem prefixFree : PrefixFree toBytes := by
  have hid := (encodeWord_prefixFree (n:=32) rfl).comp channelId
  have hsequence := (encodeWord_prefixFree (n:=8) rfl).comp sequence
  have hbalanceA := (encodeWord_prefixFree (n:=16) rfl).comp balancePartyA
  have hbalanceB := (encodeWord_prefixFree (n:=16) rfl).comp balancePartyB
  have hcondition := (optionBytes_prefixFree (n:=32) rfl).comp conditionHash
  have hexpiry := (optionBytes_prefixFree (n:=8) rfl).comp expiryLt
  have hall := ((((hid.append hsequence).append hbalanceA).append hbalanceB).append hcondition).append hexpiry
  refine Tells.prefixFree hall fun x y h => ?_
  obtain ⟨⟩ := x
  obtain ⟨⟩ := y
  simp only [id, Prod.mk.injEq] at h
  simp [h]

/-- the bytes that each party signs -/
def signedMessage (c : Crypto) (x : ChannelState) : Bytes :=
  domainSeparatedMessage TX_BODY_V1 (encodeWord 32 (x.hash c))

end ChannelState

/-- the hash does not collide on the two encodings -/
def HashSeparates (c : Crypto) (x y : ChannelState) : Prop :=
  domainHash c ChannelState.DOMAIN_TAG x.toBytes = domainHash c ChannelState.DOMAIN_TAG y.toBytes →
    x.toBytes = y.toBytes

/-- what is claimed of the bytes and the signatures of two states -/
structure Covers (c : Crypto) (x y : ChannelState) : Prop where
  bytes : x.toBytes = y.toBytes → x = y
  messages : HashSeparates c x y → x.signedMessage c = y.signedMessage c → x = y
  /-- whichever arbiters accept the signatures, if one of them binds the bytes that were signed -/
  signatures : HashSeparates c x y → ∀ (self other : PaymentChannelArbiter) (sigA sigB : Signature),
    c.Binds sigA ∨ c.Binds sigB → self.verifyDualSignatures c x sigA sigB = .ok () →
    other.verifyDualSignatures c y sigA sigB = .ok () → x = y

/-- **Two signatures cover one state**: no other channel, allocation, sequence, condition or expiry. -/
theorem channel_signatures (c : Crypto) (x y : ChannelState) : Covers c x y := by
  have hbytes : x.toBytes = y.toBytes → x = y := fun h => ChannelState.prefixFree.injective h
  have hhash : HashSeparates c x y → encodeWord 32 (x.hash c) = encodeWord 32 (y.hash c) → x = y :=
    fun hfree h => hbytes (hfree (encodeWord_inj (n:=32) rfl h))
  refine ⟨hbytes, fun hfree h => hhash hfree (List.append_cancel_left h), ?_⟩
  intro hfree self other sigA sigB hbinds hx hy
  obtain ⟨hxA, hxB⟩ := (self.verifyDualSignatures_ok c).mp hx
  obtain ⟨hyA, hyB⟩ := (other.verifyDualSignatures_ok c).mp hy
  rcases hbinds with hA | hB
  · exact hhash hfree (hA.message_eq hxA hyA)
  · exact hhash hfree (hB.message_eq hxB hyB)

/-- a state of a channel with a deposit of 100, and the arbiter of the keys 1 and 2 -/
def splitState (balancePartyA balancePartyB : Uint128) : ChannelState :=
  ⟨7, 1, balancePartyA, balancePartyB, none, none⟩

def splitArbiter : PaymentChannelArbiter :=
  .new 7 ⟨WorkchainIdent.BASIC, ⟨0⟩⟩ ⟨WorkchainIdent.BASIC, ⟨0⟩⟩ ⟨1⟩ ⟨2⟩ 100 10

/-- both parties have signed that 60 of 100 belong to party A -/
def splitCrypto : Crypto :=
  signedOnce ((splitState 60 40).signedMessage sampleCrypto) [(⟨1⟩, ⟨11⟩), (⟨2⟩, ⟨12⟩)]

theorem channel_signatures_sample :
    splitArbiter.verifyDualSignatures splitCrypto (splitState 60 40) ⟨11⟩ ⟨12⟩ = .ok ()
    ∧ splitArbiter.verifyDualSignatures splitCrypto (splitState 40 60) ⟨11⟩ ⟨12⟩ ≠ .ok () := by
  have haccepted : splitArbiter.verifyDualSignatures splitCrypto (splitState 60 40) ⟨11⟩ ⟨12⟩ = .ok () := by
    decide +kernel
  refine ⟨haccepted, fun h => ?_⟩
  have hfree : HashSeparates splitCrypto (splitState 60 40) (splitState 40 60) := fun hhash =>
    absurd hhash (by decide +kernel)
  have hcovers := channel_signatures splitCrypto (splitState 60 40) (splitState 40 60)
  have heq := hcovers.signatures hfree splitArbiter splitArbiter ⟨11⟩ ⟨12⟩ (.inl (binds_signedOnce _ _ _))
    haccepted h
  exact absurd heq (by decide)

end Onx.Channels
