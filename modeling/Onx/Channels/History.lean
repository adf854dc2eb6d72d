import Onx.Channels.Daemon
import Onx.Lib.Runs

/-!
# Channel histories

Runs of arbiter and daemon calls over one channel, in any order and with any signed states.

* `Op`, `Op.apply`        every call that changes a channel;
* `never_goes_back_iff`   when no call of a run replaces the latest state by an older one;
* `settlement_final_iff`  when no call of a run changes a settled channel;
* `goes_back`, `settlement_rewritten`   runs in which the code does these things.
-/

namespace Onx.Channels

/-- a call to the arbiter inside the daemon, or to the daemon -/
inductive Op where
  | cooperativeSettle (envelope : SignedStateEnvelope)
  | submitUncooperativeState (envelope : SignedStateEnvelope) (currentLt : Uint64)
  | finalizeUncooperativeSettlement (currentLt : Uint64)
  | attach
  | exchangeSignedState (envelope : SignedStateEnvelope)
  | exchangeCooperativeSettlement (envelope : SignedStateEnvelope)
  | receiveSignedStateAndTrack (envelope : SignedStateEnvelope)
  | submitUncooperativeDispute (envelope : SignedStateEnvelope) (currentLt : Uint64)
  | finalizeDisputeIfDue (currentLt : Uint64)
  | runFlow (envelope : SignedStateEnvelope) (currentLt : Uint64)

section
variable (c : Crypto)

/-- the channel after a call; `attach` is a new daemon on the same arbiter -/
def Op.apply (d : PaymentChannelDaemon) : Op → PaymentChannelDaemon
  | .cooperativeSettle v =>
    { d with arbiter := (d.arbiter.cooperativeSettle c v.state v.sigA v.sigB).2 }
  | .submitUncooperativeState v lt =>
    { d with arbiter := (d.arbiter.submitUncooperativeState c v.state v.sigA v.sigB lt).2 }
  | .finalizeUncooperativeSettlement lt =>
    { d with arbiter := (d.arbiter.finalizeUncooperativeSettlement lt).2 }
  | .attach => PaymentChannelDaemon.new d.arbiter
  | .exchangeSignedState v => (d.exchangeSignedState c v).2
  | .exchangeCooperativeSettlement v => (d.exchangeCooperativeSettlement c v).2
  | .receiveSignedStateAndTrack v => (d.receiveSignedStateAndTrack c v).2
  | .submitUncooperativeDispute v lt => (d.submitUncooperativeDispute c v lt).2
  | .finalizeDisputeIfDue lt => (d.finalizeDisputeIfDue lt).2
  | .runFlow v lt => (d.runFlow c v lt).2

/-! ## what an accepted call writes -/

/-- the ways into the latest state -/
inductive Route where
  | settlement
  | dispute
  | exchange
deriving DecidableEq

/-- the envelope a call presents and the way it takes; `run_flow` picks one by the mirror -/
def Op.route (d : PaymentChannelDaemon) : Op → Option (Route × SignedStateEnvelope)
  | .cooperativeSettle v => some (.settlement, v)
  | .exchangeCooperativeSettlement v => some (.settlement, v)
  | .submitUncooperativeState v _ => some (.dispute, v)
  | .submitUncooperativeDispute v _ => some (.dispute, v)
  | .exchangeSignedState v => some (.exchange, v)
  | .receiveSignedStateAndTrack v => some (.exchange, v)
  | .runFlow v _ => some (if d.isStaleSubmission v.state then .dispute else .exchange, v)
  | .finalizeUncooperativeSettlement _ => none
  | .finalizeDisputeIfDue _ => none
  | .attach => none

/-- the checks of a route: a settlement looks at no sequence, an exchange at the mirror's -/
def Route.passes (d : PaymentChannelDaemon) (v : SignedStateEnvelope) : Route → Bool
  | .settlement => d.admits c v
  | .dispute => d.admits c v && d.newer v
  | .exchange => d.admits c v && d.newerThanMirror v

/-- the envelope a call presents with success -/
def Op.accepted (d : PaymentChannelDaemon) (op : Op) : Option (Route × SignedStateEnvelope) :=
  (op.route d).filter (fun x => x.1.passes c d x.2)

/-- how a call changes the fields of an arbiter that move -/
structure Effect (d : PaymentChannelDaemon) (accepted : Option (Route × SignedStateEnvelope))
    (a : PaymentChannelArbiter) : Prop where
  latest : a.latestState = match accepted with
    | some (_, v) => v.state
    | none => d.arbiter.latestState
  challenge : (∀ v, accepted ≠ some (.dispute, v)) → a.challengeStartLt = d.arbiter.challengeStartLt
  settled : d.arbiter.isSettled = true → a.isSettled = true

end

section
variable {c : Crypto} {d : PaymentChannelDaemon} {v : SignedStateEnvelope}

theorem Effect.refused {r : Route} (h : r.passes c d v = false) :
    Effect d ((some (r, v)).filter (fun x => x.1.passes c d x.2)) d.arbiter := by
  rw [Option.filter_some, h]
  exact ⟨rfl, fun _ => rfl, fun hs => hs⟩

/-- an accepted settlement or exchange -/
theorem Effect.stored {r : Route} {settled : Bool} (h : r.passes c d v = true)
    (hsettled : d.arbiter.isSettled = true → settled = true) :
    Effect d ((some (r, v)).filter (fun x => x.1.passes c d x.2))
      { d.arbiter with latestState := v.state, isSettled := settled } := by
  rw [Option.filter_some, h]
  exact ⟨rfl, fun _ => rfl, hsettled⟩

/-- an accepted dispute -/
theorem Effect.disputed {lt : Uint64} {settled : Bool} (h : Route.passes c d v .dispute = true)
    (hsettled : d.arbiter.isSettled = true → settled = true) :
    Effect d ((some (.dispute, v)).filter (fun x => x.1.passes c d x.2))
      { d.arbiter with latestState := v.state, challengeStartLt := some lt, isSettled := settled } := by
  rw [Option.filter_some, h]
  exact ⟨rfl, fun hno => absurd rfl (hno v), hsettled⟩

theorem Effect.finalized {a : PaymentChannelArbiter}
    (h : a = d.arbiter ∨ a = { d.arbiter with isSettled := true }) : Effect d none a := by
  rcases h with rfl | rfl
  · exact ⟨rfl, fun _ => rfl, fun hs => hs⟩
  · exact ⟨rfl, fun _ => rfl, fun _ => rfl⟩

theorem effect_exchange : Effect d ((some (.exchange, v)).filter (fun x => x.1.passes c d x.2))
    (d.exchangeSignedState c v).2.arbiter := by
  rcases d.exchangeSignedState_cases c v with ⟨hno, hr⟩ | ⟨hyes, hr⟩
  · rw [hr]
    exact Effect.refused hno
  · rw [hr]
    exact Effect.stored hyes (fun hs => hs)

/-- **What one call does**, whichever it is. -/
theorem apply_effect (c : Crypto) (d : PaymentChannelDaemon) (op : Op) :
    Effect d (op.accepted c d) (op.apply c d).arbiter := by
  cases op with
  | cooperativeSettle v =>
    show Effect d _ (d.arbiter.cooperativeSettle c v.state v.sigA v.sigB).2
    rcases d.arbiter.cooperativeSettle_cases c v.state v.sigA v.sigB with ⟨hno, e, hr⟩ | ⟨hyes, hr⟩
    · rw [hr]
      exact Effect.refused (r := .settlement) hno
    · rw [hr]
      exact Effect.stored (r := .settlement) hyes (fun _ => rfl)
  | exchangeCooperativeSettlement v =>
    show Effect d _ (d.exchangeCooperativeSettlement c v).2.arbiter
    rcases d.exchangeCooperativeSettlement_cases c v with ⟨hno, hr⟩ | ⟨hyes, hr⟩
    · rw [hr]
      exact Effect.refused (r := .settlement) hno
    · rw [hr]
      exact Effect.stored (r := .settlement) hyes (fun _ => rfl)
  | submitUncooperativeState v lt =>
    show Effect d _ (d.arbiter.submitUncooperativeState c v.state v.sigA v.sigB lt).2
    rcases d.arbiter.submitUncooperativeState_cases c v.state v.sigA v.sigB lt with
      ⟨hno, e, hr⟩ | ⟨hyes, hr⟩
    · rw [hr]
      refine Effect.refused (r := .dispute) ?_
      simpa [Route.passes, PaymentChannelDaemon.admits, PaymentChannelDaemon.newer] using hno
    · rw [hr]
      refine Effect.disputed ?_ (fun hs => hs)
      simpa [Route.passes, PaymentChannelDaemon.admits, PaymentChannelDaemon.newer] using hyes
  | submitUncooperativeDispute v lt =>
    show Effect d _ (d.submitUncooperativeDispute c v lt).2.arbiter
    rcases d.submitUncooperativeDispute_cases c v lt with ⟨hno, e, hr⟩ | ⟨hyes, hr⟩
    · rw [hr]
      exact Effect.refused (r := .dispute) hno
    · rw [hr]
      exact Effect.disputed hyes (fun hs => hs)
  | exchangeSignedState v => exact effect_exchange
  | receiveSignedStateAndTrack v => exact effect_exchange
  | finalizeUncooperativeSettlement lt =>
    refine Effect.finalized ?_
    show (d.arbiter.finalizeUncooperativeSettlement lt).2 = _ ∨ _
    rcases d.arbiter.finalize_cases lt with ⟨e, hr⟩ | hr
    · exact Or.inl (congrArg Prod.snd hr)
    · exact Or.inr (congrArg Prod.snd hr)
  | finalizeDisputeIfDue lt =>
    refine Effect.finalized ?_
    rcases d.finalizeDisputeIfDue_cases lt with hr | hr
    · exact Or.inl (congrArg PaymentChannelDaemon.arbiter hr)
    · exact Or.inr hr
  | attach => exact Effect.finalized (Or.inl rfl)
  | runFlow v lt =>
    show Effect d _ (d.runFlow c v lt).2.arbiter
    show Effect d ((some (if d.isStaleSubmission v.state then Route.dispute else Route.exchange,
      v)).filter (fun x => x.1.passes c d x.2)) _
    rcases d.runFlow_cases c v lt with ⟨hnot, hr⟩ | ⟨hstale, hno, hr⟩ | ⟨hstale, hyes, s, hs, hr⟩
    · rw [hr, hnot]
      exact effect_exchange
    · rw [hr, hstale]
      exact Effect.refused (r := .dispute) hno
    · rw [hr, hstale]
      exact Effect.disputed hyes hs

end

/-! ## no way back -/

section
variable (c : Crypto)

/-- no call of the run leaves a smaller sequence than it found -/
def NeverGoesBack (d : PaymentChannelDaemon) (ops : List Op) : Prop :=
  ∀ pre op post, ops = pre ++ op :: post →
    (Runs.run (Op.apply c) d pre).arbiter.latestState.sequence.toNat
      ≤ (Runs.run (Op.apply c) d (pre ++ [op])).arbiter.latestState.sequence.toNat

/-- an accepted settlement or exchange presents a sequence that reaches the arbiter's -/
def Fresh (d : PaymentChannelDaemon) (op : Op) : Prop :=
  ∀ r v, op.accepted c d = some (r, v) → r ≠ .dispute →
    d.arbiter.latestState.sequence.toNat ≤ v.state.sequence.toNat

theorem accepted_dispute {c : Crypto} {d : PaymentChannelDaemon} {op : Op}
    {v : SignedStateEnvelope} (h : op.accepted c d = some (.dispute, v)) :
    d.arbiter.latestState.sequence.toNat < v.state.sequence.toNat := by
  have hpass := (Option.filter_eq_some_iff.mp h).2
  simp only [Route.passes, PaymentChannelDaemon.newer, Bool.and_eq_true, decide_eq_true_eq] at hpass
  exact hpass.2

/-- one call -/
theorem fresh_iff (d : PaymentChannelDaemon) (op : Op) :
    d.arbiter.latestState.sequence.toNat ≤ (op.apply c d).arbiter.latestState.sequence.toNat
      ↔ Fresh c d op := by
  rw [(apply_effect c d op).latest]
  cases hacc : op.accepted c d with
  | none =>
    refine ⟨fun _ r v h => ?_, fun _ => le_refl _⟩
    rw [hacc] at h
    cases h
  | some x =>
    obtain ⟨r, v⟩ := x
    constructor
    · intro hle r' v' h _
      rw [hacc] at h
      cases h
      exact hle
    · intro hfresh
      by_cases hr : r = .dispute
      · rw [hr] at hacc
        exact le_of_lt (accepted_dispute hacc)
      · exact hfresh r v hacc hr

/-- **A channel never goes back exactly when every accepted settlement and exchange of the run
presents a sequence that reaches the arbiter's.** -/
theorem never_goes_back_iff (channelId : Uint256) (partyA partyB : FullAddress)
    (pubkeyA pubkeyB : PublicKey) (totalDeposit : Uint128) (challengeWindowLt : Uint64)
    (ops : List Op) :
    let d₀ := PaymentChannelDaemon.new (PaymentChannelArbiter.new channelId partyA partyB pubkeyA
      pubkeyB totalDeposit challengeWindowLt)
    NeverGoesBack c d₀ ops ↔ Runs.Along (Op.apply c) (Fresh c) d₀ ops := by
  intro d₀
  rw [← Runs.along_congr (fresh_iff c), Runs.along_iff_split]
  refine forall_congr' fun pre => forall_congr' fun op => forall_congr' fun post => ?_
  rw [Runs.run_concat]

end

/-! ## a sample channel -/

def samplePartyKey (n : Nat) : PublicKey := ⟨BitVec.ofNat 256 n⟩

def sampleAddress : FullAddress := ⟨WorkchainIdent.BASIC, ⟨0⟩⟩

/-- a deposit of 100 and a challenge window of 10 -/
def sampleDaemon : PaymentChannelDaemon :=
  PaymentChannelDaemon.new (PaymentChannelArbiter.new 1 sampleAddress sampleAddress
    (samplePartyKey 7) (samplePartyKey 8) 100 10)

/-- the state of a sequence number, with its balances, signed by both parties -/
def sampleEnvelope (sequence : Uint64) (a b : Uint128) : SignedStateEnvelope :=
  let state : ChannelState := ⟨1, sequence, a, b, none, none⟩
  let stateHash := encodeWord 32 (state.hash sampleCrypto)
  ⟨state, sampleSign (samplePartyKey 7) TX_BODY_V1 stateHash,
    sampleSign (samplePartyKey 8) TX_BODY_V1 stateHash⟩

/-- **A cooperative settlement takes the channel from sequence 2 back to sequence 1.** -/
theorem goes_back : ¬ NeverGoesBack sampleCrypto sampleDaemon
    [.exchangeSignedState (sampleEnvelope 2 30 70),
      .exchangeCooperativeSettlement (sampleEnvelope 1 90 10)] := by
  intro h
  have hle := h [.exchangeSignedState (sampleEnvelope 2 30 70)]
    (.exchangeCooperativeSettlement (sampleEnvelope 1 90 10)) [] rfl
  exact absurd hle (by decide +kernel)

/-! ## settlement -/

section
variable (c : Crypto)

/-- no call of the run changes the arbiter once it is settled -/
def SettlementFinal (d : PaymentChannelDaemon) (ops : List Op) : Prop :=
  ∀ pre op post, ops = pre ++ op :: post →
    let a := (Runs.run (Op.apply c) d pre).arbiter
    let a' := (Runs.run (Op.apply c) d (pre ++ [op])).arbiter
    a.isSettled = true → a'.latestState = a.latestState
      ∧ a'.challengeStartLt = a.challengeStartLt ∧ a'.isSettled = true

/-- after settlement no dispute is accepted, and an accepted settlement or exchange repeats the
settled state -/
def Quiet (d : PaymentChannelDaemon) (op : Op) : Prop :=
  d.arbiter.isSettled = true → ∀ r v, op.accepted c d = some (r, v) →
    r ≠ .dispute ∧ v.state = d.arbiter.latestState

/-- one call -/
theorem quiet_iff (d : PaymentChannelDaemon) (op : Op) :
    (d.arbiter.isSettled = true →
      (op.apply c d).arbiter.latestState = d.arbiter.latestState
      ∧ (op.apply c d).arbiter.challengeStartLt = d.arbiter.challengeStartLt
      ∧ (op.apply c d).arbiter.isSettled = true) ↔ Quiet c d op := by
  have heff := apply_effect c d op
  constructor
  · intro h hs r v hacc
    have hlatest := heff.latest
    rw [hacc, (h hs).1] at hlatest
    refine ⟨fun hr => ?_, hlatest.symm⟩
    -- a dispute stores a newer state than the one it found
    rw [hr] at hacc
    have hlt := accepted_dispute hacc
    rw [hlatest] at hlt
    exact lt_irrefl _ hlt
  · intro h hs
    refine ⟨?_, heff.challenge fun v hacc => ((h hs _ v hacc).1 rfl), heff.settled hs⟩
    have hlatest := heff.latest
    cases hacc : op.accepted c d with
    | none => rwa [hacc] at hlatest
    | some x =>
      rw [hacc] at hlatest
      exact hlatest.trans (h hs x.1 x.2 hacc).2

/-- **Settlement is final exactly when no call of the run passes the checks with anything but the
settled state.** -/
theorem settlement_final_iff (channelId : Uint256) (partyA partyB : FullAddress)
    (pubkeyA pubkeyB : PublicKey) (totalDeposit : Uint128) (challengeWindowLt : Uint64)
    (ops : List Op) :
    let d₀ := PaymentChannelDaemon.new (PaymentChannelArbiter.new channelId partyA partyB pubkeyA
      pubkeyB totalDeposit challengeWindowLt)
    SettlementFinal c d₀ ops ↔ Runs.Along (Op.apply c) (Quiet c) d₀ ops := by
  intro d₀
  rw [← Runs.along_congr (quiet_iff c), Runs.along_iff_split]
  refine forall_congr' fun pre => forall_congr' fun op => forall_congr' fun post => ?_
  dsimp only
  rw [Runs.run_concat]

end

/-- **A signed state rewrites a settled channel.** -/
theorem settlement_rewritten : ¬ SettlementFinal sampleCrypto sampleDaemon
    [.exchangeCooperativeSettlement (sampleEnvelope 1 90 10),
      .submitUncooperativeDispute (sampleEnvelope 2 30 70) 5] := by
  intro h
  have hsame := h [.exchangeCooperativeSettlement (sampleEnvelope 1 90 10)]
    (.submitUncooperativeDispute (sampleEnvelope 2 30 70) 5) [] rfl (by decide +kernel)
  exact absurd hsame.1 (by decide +kernel)

end Onx.Channels
