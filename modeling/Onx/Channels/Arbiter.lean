import Onx.DataStructures.Shard

/-!
# The payment channel arbiter

The on-chain side of a channel: the latest state both parties signed, the start of a dispute and
the settled flag.  Calls return their result with the arbiter they leave behind.

* `ChannelState.hash`                what both parties sign;
* `PaymentChannelArbiter.covers`     the checks that every submission shares: channel, deposit and
                                     both signatures;
* `cooperativeSettle_cases`, `submitUncooperativeState_cases`, `finalize_cases`   all a call can do.
-/

namespace Onx.Channels

inductive ChannelError where
  | invalidSignature
  | nonIncreasingSequence
  | allocationExceedsDeposit
  | expiredCondition
  | mismatchedChannelId
  | invalidProof
  | challengePeriodActive
  | challengePeriodExpired
deriving DecidableEq

structure ChannelState where
  channelId : Uint256
  sequence : Uint64
  balancePartyA : Uint128
  balancePartyB : Uint128
  conditionHash : Option Uint256
  expiryLt : Option Uint64
deriving DecidableEq

namespace ChannelState

def DOMAIN_TAG : DomainTag := DomainTag.fromAscii "ONX_CHANNEL_STATE_V1" (by decide)

/-- a presence byte and the field behind it -/
def optionBytes {w : Nat} (n : Nat) : Option (BitVec w) → Bytes
  | some x => 1 :: encodeWord n x
  | none => [0]

def toBytes (s : ChannelState) : Bytes :=
  encodeWord 32 s.channelId ++ encodeWord 8 s.sequence ++ encodeWord 16 s.balancePartyA
    ++ encodeWord 16 s.balancePartyB ++ optionBytes 32 s.conditionHash ++ optionBytes 8 s.expiryLt

def hash (c : Crypto) (s : ChannelState) : Uint256 := domainHash c DOMAIN_TAG s.toBytes

end ChannelState

structure PaymentChannelArbiter where
  channelId : Uint256
  partyA : FullAddress
  partyB : FullAddress
  pubkeyA : PublicKey
  pubkeyB : PublicKey
  totalDeposit : Uint128
  challengeWindowLt : Uint64
  latestState : ChannelState
  challengeStartLt : Option Uint64
  isSettled : Bool
deriving DecidableEq

namespace PaymentChannelArbiter

/-- the whole deposit belongs to party A at sequence 0 -/
def new (channelId : Uint256) (partyA partyB : FullAddress) (pubkeyA pubkeyB : PublicKey)
    (totalDeposit : Uint128) (challengeWindowLt : Uint64) : PaymentChannelArbiter where
  channelId := channelId
  partyA := partyA
  partyB := partyB
  pubkeyA := pubkeyA
  pubkeyB := pubkeyB
  totalDeposit := totalDeposit
  challengeWindowLt := challengeWindowLt
  latestState := ⟨channelId, 0, totalDeposit, 0, none, none⟩
  challengeStartLt := none
  isSettled := false

variable (c : Crypto) (self : PaymentChannelArbiter)

def verifyDualSignatures (state : ChannelState) (sigA sigB : Signature) :
    Except ChannelError Unit :=
  let stateHash := encodeWord 32 (state.hash c)
  if !self.pubkeyA.verify c TX_BODY_V1 stateHash sigA then .error .invalidSignature
  else if !self.pubkeyB.verify c TX_BODY_V1 stateHash sigB then .error .invalidSignature
  else .ok ()

/-- the balances of a state exceed the deposit -/
def exceedsDeposit (state : ChannelState) : Bool :=
  decide ((satAdd state.balancePartyA state.balancePartyB).toNat > self.totalDeposit.toNat)

def cooperativeSettle (state : ChannelState) (sigA sigB : Signature) :
    Except ChannelError Unit × PaymentChannelArbiter :=
  if state.channelId ≠ self.channelId then (.error .mismatchedChannelId, self)
  else if self.exceedsDeposit state then (.error .allocationExceedsDeposit, self)
  else match self.verifyDualSignatures c state sigA sigB with
  | .error e => (.error e, self)
  | .ok () => (.ok (), { self with latestState := state, isSettled := true })

def submitUncooperativeState (state : ChannelState) (sigA sigB : Signature) (currentLt : Uint64) :
    Except ChannelError Unit × PaymentChannelArbiter :=
  if state.channelId ≠ self.channelId then (.error .mismatchedChannelId, self)
  else if state.sequence.toNat ≤ self.latestState.sequence.toNat then
    (.error .nonIncreasingSequence, self)
  else if self.exceedsDeposit state then (.error .allocationExceedsDeposit, self)
  else match self.verifyDualSignatures c state sigA sigB with
  | .error e => (.error e, self)
  | .ok () => (.ok (), { self with latestState := state, challengeStartLt := some currentLt })

def finalizeUncooperativeSettlement (currentLt : Uint64) :
    Except ChannelError Unit × PaymentChannelArbiter :=
  match self.challengeStartLt with
  | none => (.error .challengePeriodActive, self)
  | some startLt =>
    if currentLt.toNat < (satAdd startLt self.challengeWindowLt).toNat then
      (.error .challengePeriodActive, self)
    else (.ok (), { self with isSettled := true })

/-! ## what a call can do -/

/-- the state is for this channel, within the deposit and signed by both parties -/
def covers (state : ChannelState) (sigA sigB : Signature) : Bool :=
  decide (state.channelId = self.channelId) && !self.exceedsDeposit state
    && self.pubkeyA.verify c TX_BODY_V1 (encodeWord 32 (state.hash c)) sigA
    && self.pubkeyB.verify c TX_BODY_V1 (encodeWord 32 (state.hash c)) sigB

theorem verifyDualSignatures_ok {state : ChannelState} {sigA sigB : Signature} :
    self.verifyDualSignatures c state sigA sigB = .ok ()
      ↔ self.pubkeyA.verify c TX_BODY_V1 (encodeWord 32 (state.hash c)) sigA = true
        ∧ self.pubkeyB.verify c TX_BODY_V1 (encodeWord 32 (state.hash c)) sigB = true := by
  unfold verifyDualSignatures
  cases hA : self.pubkeyA.verify c TX_BODY_V1 (encodeWord 32 (state.hash c)) sigA <;>
    cases hB : self.pubkeyB.verify c TX_BODY_V1 (encodeWord 32 (state.hash c)) sigB <;>
    simp [hA, hB]

theorem covers_iff {state : ChannelState} {sigA sigB : Signature} :
    self.covers c state sigA sigB = true ↔ state.channelId = self.channelId
      ∧ self.exceedsDeposit state = false ∧ self.verifyDualSignatures c state sigA sigB = .ok () := by
  rw [verifyDualSignatures_ok]
  simp [covers, and_assoc]

theorem covers_of_error {state : ChannelState} {sigA sigB : Signature} {e : ChannelError}
    (h : self.verifyDualSignatures c state sigA sigB = .error e) :
    self.covers c state sigA sigB = false := by
  rw [Bool.eq_false_iff]
  intro hc
  rw [((self.covers_iff c).mp hc).2.2] at h
  cases h

theorem cooperativeSettle_cases (state : ChannelState) (sigA sigB : Signature) :
    (self.covers c state sigA sigB = false
      ∧ ∃ e, self.cooperativeSettle c state sigA sigB = (.error e, self)) ∨
    (self.covers c state sigA sigB = true ∧ self.cooperativeSettle c state sigA sigB
      = (.ok (), { self with latestState := state, isSettled := true })) := by
  unfold cooperativeSettle
  by_cases hid : state.channelId = self.channelId
  swap
  · exact Or.inl ⟨by simp [covers, hid], .mismatchedChannelId, by simp [hid]⟩
  by_cases hdep : self.exceedsDeposit state = true
  · exact Or.inl ⟨by simp [covers, hdep], .allocationExceedsDeposit, by simp [hid, hdep]⟩
  cases hsig : self.verifyDualSignatures c state sigA sigB with
  | error e => exact Or.inl ⟨self.covers_of_error c hsig, e, by simp [hid, hdep]⟩
  | ok u =>
    have hyes := (self.covers_iff c).mpr ⟨hid, by simpa using hdep, hsig⟩
    exact Or.inr ⟨hyes, by simp [hid, hdep]⟩

theorem submitUncooperativeState_cases (state : ChannelState) (sigA sigB : Signature)
    (currentLt : Uint64) :
    (¬(self.covers c state sigA sigB = true
        ∧ self.latestState.sequence.toNat < state.sequence.toNat)
      ∧ ∃ e, self.submitUncooperativeState c state sigA sigB currentLt = (.error e, self)) ∨
    ((self.covers c state sigA sigB = true
        ∧ self.latestState.sequence.toNat < state.sequence.toNat)
      ∧ self.submitUncooperativeState c state sigA sigB currentLt
        = (.ok (), { self with latestState := state, challengeStartLt := some currentLt })) := by
  unfold submitUncooperativeState
  by_cases hid : state.channelId = self.channelId
  swap
  · exact Or.inl ⟨by simp [covers, hid], .mismatchedChannelId, by simp [hid]⟩
  by_cases hseq : state.sequence.toNat ≤ self.latestState.sequence.toNat
  · refine Or.inl ⟨fun h => ?_, .nonIncreasingSequence, by simp [hid, hseq]⟩
    omega
  by_cases hdep : self.exceedsDeposit state = true
  · exact Or.inl ⟨by simp [covers, hdep], .allocationExceedsDeposit, by simp [hid, hseq, hdep]⟩
  cases hsig : self.verifyDualSignatures c state sigA sigB with
  | error e =>
    exact Or.inl ⟨by simp [self.covers_of_error c hsig], e, by simp [hid, hseq, hdep]⟩
  | ok u =>
    have hyes := (self.covers_iff c).mpr ⟨hid, by simpa using hdep, hsig⟩
    exact Or.inr ⟨⟨hyes, by omega⟩, by simp [hid, hseq, hdep]⟩

theorem finalize_cases (currentLt : Uint64) :
    (∃ e, self.finalizeUncooperativeSettlement currentLt = (.error e, self)) ∨
    self.finalizeUncooperativeSettlement currentLt = (.ok (), { self with isSettled := true }) := by
  unfold finalizeUncooperativeSettlement
  cases self.challengeStartLt with
  | none => exact Or.inl ⟨_, rfl⟩
  | some startLt =>
    dsimp only
    split_ifs
    · exact Or.inl ⟨_, rfl⟩
    · exact Or.inr rfl

end PaymentChannelArbiter

end Onx.Channels
