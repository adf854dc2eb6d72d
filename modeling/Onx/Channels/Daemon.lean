import Onx.Channels.Arbiter

/-!
# The payment channel daemon

The off-chain side: an arbiter and the latest state the daemon has seen for its channel.  The
mirror is written next to the arbiter, but the arbiter is a public field and may be called
without the daemon.

* `PaymentChannelDaemon.latestState`   the mirror, or the arbiter's state when there is none;
* `exchangeSignedState_cases`, `submitUncooperativeDispute_cases`, ...   all a call can do to the
                                       arbiter.
-/

namespace Onx.Channels

structure SignedStateEnvelope where
  state : ChannelState
  sigA : Signature
  sigB : Signature
deriving DecidableEq

structure PaymentChannelDaemon where
  arbiter : PaymentChannelArbiter
  latestByChannel : OrdMap Uint256 ChannelState

namespace PaymentChannelDaemon

def new (arbiter : PaymentChannelArbiter) : PaymentChannelDaemon :=
  ⟨arbiter, OrdMap.empty.insert arbiter.channelId arbiter.latestState⟩

variable (c : Crypto) (self : PaymentChannelDaemon)

def latestState : ChannelState :=
  (self.latestByChannel.get? self.arbiter.channelId).getD self.arbiter.latestState

/-- the daemon with the state of its arbiter in the mirror -/
def track (arbiter : PaymentChannelArbiter) : PaymentChannelDaemon :=
  ⟨arbiter, self.latestByChannel.insert arbiter.channelId arbiter.latestState⟩

def exchangeSignedState (envelope : SignedStateEnvelope) :
    Except ChannelError Unit × PaymentChannelDaemon :=
  if envelope.state.channelId ≠ self.arbiter.channelId then (.error .mismatchedChannelId, self)
  else match self.arbiter.verifyDualSignatures c envelope.state envelope.sigA envelope.sigB with
  | .error e => (.error e, self)
  | .ok () =>
    if envelope.state.sequence.toNat ≤ self.latestState.sequence.toNat then
      (.error .nonIncreasingSequence, self)
    else if self.arbiter.exceedsDeposit envelope.state then
      (.error .allocationExceedsDeposit, self)
    else (.ok (), self.track { self.arbiter with latestState := envelope.state })

def exchangeCooperativeSettlement (envelope : SignedStateEnvelope) :
    Except ChannelError Unit × PaymentChannelDaemon :=
  match self.arbiter.cooperativeSettle c envelope.state envelope.sigA envelope.sigB with
  | (.error e, arbiter) => (.error e, { self with arbiter := arbiter })
  | (.ok (), arbiter) => (.ok (), self.track arbiter)

def receiveSignedStateAndTrack (envelope : SignedStateEnvelope) :
    Except ChannelError Unit × PaymentChannelDaemon :=
  self.exchangeSignedState c envelope

/-- newer than the mirror, with other balances -/
def isStaleSubmission (state : ChannelState) : Bool :=
  decide (state.sequence.toNat > self.latestState.sequence.toNat)
    && (decide (state.balancePartyA ≠ self.latestState.balancePartyA)
      || decide (state.balancePartyB ≠ self.latestState.balancePartyB))

def submitUncooperativeDispute (envelope : SignedStateEnvelope) (currentLt : Uint64) :
    Except ChannelError Unit × PaymentChannelDaemon :=
  match self.arbiter.submitUncooperativeState c envelope.state envelope.sigA envelope.sigB
      currentLt with
  | (.error e, arbiter) => (.error e, { self with arbiter := arbiter })
  | (.ok (), arbiter) => (.ok (), self.track arbiter)

def finalizeDisputeIfDue (currentLt : Uint64) : Except ChannelError Unit × PaymentChannelDaemon :=
  if self.arbiter.challengeStartLt.isSome then
    match self.arbiter.finalizeUncooperativeSettlement currentLt with
    | (r, arbiter) => (r, { self with arbiter := arbiter })
  else (.ok (), self)

/-- `none` is the panic of the unchecked `+`, which comes after the dispute is recorded -/
def runFlow (envelope : SignedStateEnvelope) (currentLt : Uint64) :
    Option (Except ChannelError Unit) × PaymentChannelDaemon :=
  if self.isStaleSubmission envelope.state then
    match self.submitUncooperativeDispute c envelope currentLt with
    | (.error e, daemon) => (some (.error e), daemon)
    | (.ok (), daemon) =>
      if currentLt.toNat + daemon.arbiter.challengeWindowLt.toNat < 2^64 then
        match daemon.finalizeDisputeIfDue (currentLt + daemon.arbiter.challengeWindowLt) with
        | (r, daemon) => (some r, daemon)
      else (none, daemon)
  else
    match self.exchangeSignedState c envelope with
    | (r, daemon) => (some r, daemon)

/-! ## what a call can do to the arbiter -/

/-- the checks of the arbiter on an envelope -/
def admits (envelope : SignedStateEnvelope) : Bool :=
  self.arbiter.covers c envelope.state envelope.sigA envelope.sigB

/-- an envelope is newer than the arbiter's state -/
def newer (envelope : SignedStateEnvelope) : Bool :=
  decide (self.arbiter.latestState.sequence.toNat < envelope.state.sequence.toNat)

/-- an envelope is newer than the mirror -/
def newerThanMirror (envelope : SignedStateEnvelope) : Bool :=
  decide (self.latestState.sequence.toNat < envelope.state.sequence.toNat)

theorem exchangeSignedState_cases (envelope : SignedStateEnvelope) :
    ((self.admits c envelope && self.newerThanMirror envelope) = false
      ∧ (self.exchangeSignedState c envelope).2 = self) ∨
    ((self.admits c envelope && self.newerThanMirror envelope) = true
      ∧ (self.exchangeSignedState c envelope).2.arbiter
        = { self.arbiter with latestState := envelope.state }) := by
  unfold exchangeSignedState admits newerThanMirror
  by_cases hid : envelope.state.channelId = self.arbiter.channelId
  swap
  · exact Or.inl ⟨by simp [PaymentChannelArbiter.covers, hid], by simp [hid]⟩
  cases hsig : self.arbiter.verifyDualSignatures c envelope.state envelope.sigA envelope.sigB with
  | error e =>
    exact Or.inl ⟨by rw [self.arbiter.covers_of_error c hsig, Bool.false_and], by simp [hid]⟩
  | ok u =>
    by_cases hseq : envelope.state.sequence.toNat ≤ self.latestState.sequence.toNat
    · exact Or.inl ⟨by simp [Nat.not_lt.mpr hseq], by simp [hid, hseq]⟩
    by_cases hdep : self.arbiter.exceedsDeposit envelope.state = true
    · exact Or.inl ⟨by simp [PaymentChannelArbiter.covers, hdep], by simp [hid, hseq, hdep]⟩
    · have hyes := (self.arbiter.covers_iff c).mpr ⟨hid, by simpa using hdep, hsig⟩
      exact Or.inr ⟨by simp [hyes, Nat.not_le.mp hseq], by simp [hid, hseq, hdep, track]⟩

theorem exchangeCooperativeSettlement_cases (envelope : SignedStateEnvelope) :
    (self.admits c envelope = false ∧ (self.exchangeCooperativeSettlement c envelope).2 = self) ∨
    (self.admits c envelope = true ∧ (self.exchangeCooperativeSettlement c envelope).2.arbiter
      = { self.arbiter with latestState := envelope.state, isSettled := true }) := by
  unfold exchangeCooperativeSettlement admits
  rcases self.arbiter.cooperativeSettle_cases c envelope.state envelope.sigA envelope.sigB with
    ⟨hno, e, hr⟩ | ⟨hyes, hr⟩
  · rw [hr]
    exact Or.inl ⟨hno, rfl⟩
  · rw [hr]
    exact Or.inr ⟨hyes, rfl⟩

theorem submitUncooperativeDispute_cases (envelope : SignedStateEnvelope) (currentLt : Uint64) :
    ((self.admits c envelope && self.newer envelope) = false
      ∧ ∃ e, self.submitUncooperativeDispute c envelope currentLt = (.error e, self)) ∨
    ((self.admits c envelope && self.newer envelope) = true
      ∧ self.submitUncooperativeDispute c envelope currentLt = (.ok (), self.track
        { self.arbiter with latestState := envelope.state, challengeStartLt := some currentLt })) := by
  unfold submitUncooperativeDispute admits newer
  rcases self.arbiter.submitUncooperativeState_cases c envelope.state envelope.sigA envelope.sigB
    currentLt with ⟨hno, e, hr⟩ | ⟨hyes, hr⟩
  · rw [hr]
    exact Or.inl ⟨by simpa using hno, e, rfl⟩
  · rw [hr]
    exact Or.inr ⟨by simpa using hyes, rfl⟩

/-- finalization writes the settled flag or nothing -/
theorem finalizeDisputeIfDue_cases (currentLt : Uint64) :
    (self.finalizeDisputeIfDue currentLt).2 = self ∨
    (self.finalizeDisputeIfDue currentLt).2.arbiter = { self.arbiter with isSettled := true } := by
  unfold finalizeDisputeIfDue
  split_ifs
  · rcases self.arbiter.finalize_cases currentLt with ⟨e, hr⟩ | hr <;> rw [hr]
    · exact Or.inl rfl
    · exact Or.inr rfl
  · exact Or.inl rfl

/-- `run_flow` is a dispute, with or without its finalization, or an exchange -/
theorem runFlow_cases (envelope : SignedStateEnvelope) (currentLt : Uint64) :
    (self.isStaleSubmission envelope.state = false
      ∧ (self.runFlow c envelope currentLt).2 = (self.exchangeSignedState c envelope).2) ∨
    (self.isStaleSubmission envelope.state = true
      ∧ (self.admits c envelope && self.newer envelope) = false
      ∧ (self.runFlow c envelope currentLt).2 = self) ∨
    (self.isStaleSubmission envelope.state = true
      ∧ (self.admits c envelope && self.newer envelope) = true
      ∧ ∃ settled, (self.arbiter.isSettled = true → settled = true)
        ∧ (self.runFlow c envelope currentLt).2.arbiter = { self.arbiter with
          latestState := envelope.state, challengeStartLt := some currentLt
          isSettled := settled }) := by
  unfold runFlow
  cases hstale : self.isStaleSubmission envelope.state with
  | false => exact Or.inl ⟨rfl, rfl⟩
  | true =>
    rcases self.submitUncooperativeDispute_cases c envelope currentLt with ⟨hno, e, hr⟩ | ⟨hyes, hr⟩
    · rw [hr]
      exact Or.inr (Or.inl ⟨rfl, hno, rfl⟩)
    · rw [hr]
      refine Or.inr (Or.inr ⟨rfl, hyes, ?_⟩)
      rw [if_pos rfl]
      dsimp only
      split_ifs
      · rcases finalizeDisputeIfDue_cases (self.track { self.arbiter with
          latestState := envelope.state, challengeStartLt := some currentLt }) (currentLt
            + self.arbiter.challengeWindowLt) with hf | hf
        · exact ⟨self.arbiter.isSettled, fun h => h, congrArg arbiter hf⟩
        · exact ⟨true, fun _ => rfl, hf⟩
      · exact ⟨self.arbiter.isSettled, fun h => h, rfl⟩

end PaymentChannelDaemon

end Onx.Channels
