import Onx.Channels.History

/-!
# The daemon and its mirror

Runs of calls to the daemon alone, over a new arbiter.

* `Call`, `Call.perform`   the calls of the daemon with their results;
* `perform_error`          a call that fails leaves the daemon as it was;
* `state_authorised`       **the latest state is mirrored, within the deposit and signed by both
                           parties**, unless it is the initial one.
-/

namespace Onx.Channels

/-- a call to the daemon -/
inductive Call where
  | exchangeSignedState (envelope : SignedStateEnvelope)
  | exchangeCooperativeSettlement (envelope : SignedStateEnvelope)
  | receiveSignedStateAndTrack (envelope : SignedStateEnvelope)
  | submitUncooperativeDispute (envelope : SignedStateEnvelope) (currentLt : Uint64)
  | finalizeDisputeIfDue (currentLt : Uint64)
  | runFlow (envelope : SignedStateEnvelope) (currentLt : Uint64)

namespace Call

/-- the call among those that change a channel -/
def op : Call → Op
  | .exchangeSignedState v => .exchangeSignedState v
  | .exchangeCooperativeSettlement v => .exchangeCooperativeSettlement v
  | .receiveSignedStateAndTrack v => .receiveSignedStateAndTrack v
  | .submitUncooperativeDispute v lt => .submitUncooperativeDispute v lt
  | .finalizeDisputeIfDue lt => .finalizeDisputeIfDue lt
  | .runFlow v lt => .runFlow v lt

/-- the signed state that a call presents -/
def envelope : Call → Option SignedStateEnvelope
  | .exchangeSignedState v => some v
  | .exchangeCooperativeSettlement v => some v
  | .receiveSignedStateAndTrack v => some v
  | .submitUncooperativeDispute v _ => some v
  | .finalizeDisputeIfDue _ => none
  | .runFlow v _ => some v

variable (c : Crypto) (d : PaymentChannelDaemon)

/-- the result, none for a panic, and the daemon that the call leaves behind -/
def perform : Call → Option (Except ChannelError Unit) × PaymentChannelDaemon
  | .exchangeSignedState v => ((d.exchangeSignedState c v).map some id)
  | .exchangeCooperativeSettlement v => ((d.exchangeCooperativeSettlement c v).map some id)
  | .receiveSignedStateAndTrack v => ((d.receiveSignedStateAndTrack c v).map some id)
  | .submitUncooperativeDispute v lt => ((d.submitUncooperativeDispute c v lt).map some id)
  | .finalizeDisputeIfDue lt => ((d.finalizeDisputeIfDue lt).map some id)
  | .runFlow v lt => d.runFlow c v lt

def apply (call : Call) : PaymentChannelDaemon := (call.perform c d).2

theorem apply_eq (call : Call) : call.apply c d = call.op.apply c d := by
  cases call <;> rfl

end Call

/-- what no call changes -/
structure SameChannel (a a' : PaymentChannelArbiter) : Prop where
  channelId : a'.channelId = a.channelId
  pubkeyA : a'.pubkeyA = a.pubkeyA
  pubkeyB : a'.pubkeyB = a.pubkeyB
  totalDeposit : a'.totalDeposit = a.totalDeposit
  challengeWindowLt : a'.challengeWindowLt = a.challengeWindowLt

theorem SameChannel.refl (a : PaymentChannelArbiter) : SameChannel a a := ⟨rfl, rfl, rfl, rfl, rfl⟩

/-- what a single call does: it fails and changes nothing, or it writes the mirror with the arbiter,
or it sets the settled flag -/
inductive Does (d : PaymentChannelDaemon) :
    Except ChannelError Unit × PaymentChannelDaemon → Prop where
  | fails (e : ChannelError) : Does d (.error e, d)
  | idles : Does d (.ok (), d)
  | tracks {a : PaymentChannelArbiter} (same : SameChannel d.arbiter a) : Does d (.ok (), d.track a)
  | settles : Does d (.ok (), { d with arbiter := { d.arbiter with isSettled := true } })

section
variable (c : Crypto) (d : PaymentChannelDaemon)

theorem does_exchange (v : SignedStateEnvelope) : Does d (d.exchangeSignedState c v) := by
  unfold PaymentChannelDaemon.exchangeSignedState
  by_cases hid : v.state.channelId ≠ d.arbiter.channelId
  · rw [if_pos hid]
    exact .fails _
  · rw [if_neg hid]
    cases d.arbiter.verifyDualSignatures c v.state v.sigA v.sigB with
    | error e => exact .fails e
    | ok u =>
      dsimp only
      split_ifs
      · exact .fails _
      · exact .fails _
      · exact .tracks ⟨rfl, rfl, rfl, rfl, rfl⟩

theorem does_settlement (v : SignedStateEnvelope) :
    Does d (d.exchangeCooperativeSettlement c v) := by
  unfold PaymentChannelDaemon.exchangeCooperativeSettlement
  rcases d.arbiter.cooperativeSettle_cases c v.state v.sigA v.sigB with ⟨_, e, hr⟩ | ⟨_, hr⟩
  · rw [hr]
    exact .fails e
  · rw [hr]
    exact .tracks ⟨rfl, rfl, rfl, rfl, rfl⟩

theorem does_dispute (v : SignedStateEnvelope) (lt : Uint64) :
    Does d (d.submitUncooperativeDispute c v lt) := by
  rcases d.submitUncooperativeDispute_cases c v lt with ⟨_, e, hr⟩ | ⟨_, hr⟩
  · rw [hr]
    exact .fails e
  · rw [hr]
    exact .tracks ⟨rfl, rfl, rfl, rfl, rfl⟩

theorem does_finalize (lt : Uint64) : Does d (d.finalizeDisputeIfDue lt) := by
  unfold PaymentChannelDaemon.finalizeDisputeIfDue
  split_ifs
  · rcases d.arbiter.finalize_cases lt with ⟨e, hr⟩ | hr
    · rw [hr]
      exact .fails e
    · rw [hr]
      exact .settles
  · exact .idles

end

section
variable {c : Crypto} {d : PaymentChannelDaemon}

theorem Does.error {r : Except ChannelError Unit × PaymentChannelDaemon} {e : ChannelError}
    (h : Does d r) (he : r.1 = .error e) : r.2 = d := by
  cases h with
  | fails => rfl
  | idles => cases he
  | tracks => cases he
  | settles => cases he

theorem finalize_snd (lt : Uint64) : (d.finalizeDisputeIfDue lt).2 = d ∨
    (d.finalizeDisputeIfDue lt).2
      = { d with arbiter := { d.arbiter with isSettled := true } } := by
  unfold PaymentChannelDaemon.finalizeDisputeIfDue
  split_ifs
  · rcases d.arbiter.finalize_cases lt with ⟨e, hr⟩ | hr
    · rw [hr]
      exact Or.inl rfl
    · rw [hr]
      exact Or.inr rfl
  · exact Or.inl rfl

/-- a dispute that `run_flow` goes on with is in the mirror, finalized or not -/
theorem runFlow_snd (v : SignedStateEnvelope) (lt : Uint64) :
    (d.runFlow c v lt).2 = (d.exchangeSignedState c v).2 ∨ (d.runFlow c v lt).2 = d
      ∨ ∃ a, SameChannel d.arbiter a ∧ (d.runFlow c v lt).2 = d.track a := by
  unfold PaymentChannelDaemon.runFlow
  by_cases hstale : d.isStaleSubmission v.state = true
  · rw [if_pos hstale]
    rcases d.submitUncooperativeDispute_cases c v lt with ⟨_, e, hr⟩ | ⟨_, hr⟩
    · rw [hr]
      exact Or.inr (Or.inl rfl)
    · rw [hr]
      refine Or.inr (Or.inr ?_)
      dsimp only
      split_ifs
      · rcases finalize_snd (d:=d.track { d.arbiter with
          latestState := v.state, challengeStartLt := some lt })
          (lt + d.arbiter.challengeWindowLt) with hf | hf
        · exact ⟨{ d.arbiter with latestState := v.state, challengeStartLt := some lt },
            ⟨rfl, rfl, rfl, rfl, rfl⟩, hf⟩
        · exact ⟨{ d.arbiter with
            latestState := v.state, challengeStartLt := some lt, isSettled := true },
            ⟨rfl, rfl, rfl, rfl, rfl⟩, hf⟩
      · exact ⟨{ d.arbiter with latestState := v.state, challengeStartLt := some lt },
          ⟨rfl, rfl, rfl, rfl, rfl⟩, rfl⟩
  · rw [if_neg hstale]
    exact Or.inl rfl

/-- **A call that fails leaves the daemon as it was**; `run_flow` is two calls in one. -/
theorem perform_error {call : Call} {e : ChannelError} (hflow : ∀ v lt, call ≠ .runFlow v lt)
    (h : (call.perform c d).1 = some (.error e)) : (call.perform c d).2 = d := by
  cases call with
  | runFlow v lt => exact absurd rfl (hflow v lt)
  | exchangeSignedState v => exact (does_exchange c d v).error (Option.some.inj h)
  | receiveSignedStateAndTrack v => exact (does_exchange c d v).error (Option.some.inj h)
  | exchangeCooperativeSettlement v => exact (does_settlement c d v).error (Option.some.inj h)
  | submitUncooperativeDispute v lt => exact (does_dispute c d v lt).error (Option.some.inj h)
  | finalizeDisputeIfDue lt => exact (does_finalize d lt).error (Option.some.inj h)

/-! ## the mirror -/

/-- the mirror holds the arbiter's state -/
def Mirrored (d : PaymentChannelDaemon) : Prop :=
  d.latestByChannel.get? d.arbiter.channelId = some d.arbiter.latestState

theorem Mirrored.latestState (h : Mirrored d) : d.latestState = d.arbiter.latestState := by
  unfold PaymentChannelDaemon.latestState
  rw [h]
  rfl

theorem mirrored_track (d : PaymentChannelDaemon) (a : PaymentChannelArbiter) :
    Mirrored (d.track a) := OrdMap.get?_insert_self _ _ _

theorem mirrored_new (a : PaymentChannelArbiter) : Mirrored (PaymentChannelDaemon.new a) :=
  OrdMap.get?_insert_self _ _ _

/-- a daemon after a call: the mirror still holds the state of the same channel -/
structure Kept (d d' : PaymentChannelDaemon) : Prop where
  mirrored : Mirrored d'
  same : SameChannel d.arbiter d'.arbiter

theorem Does.kept {r : Except ChannelError Unit × PaymentChannelDaemon} (h : Does d r)
    (hd : Mirrored d) : Kept d r.2 := by
  cases h with
  | fails => exact ⟨hd, SameChannel.refl _⟩
  | idles => exact ⟨hd, SameChannel.refl _⟩
  | tracks same => exact ⟨mirrored_track d _, same⟩
  | settles => exact ⟨hd, ⟨rfl, rfl, rfl, rfl, rfl⟩⟩

/-- **Every call keeps the mirror.** -/
theorem kept_apply (hd : Mirrored d) (call : Call) : Kept d (call.apply c d) := by
  cases call with
  | exchangeSignedState v => exact (does_exchange c d v).kept hd
  | receiveSignedStateAndTrack v => exact (does_exchange c d v).kept hd
  | exchangeCooperativeSettlement v => exact (does_settlement c d v).kept hd
  | submitUncooperativeDispute v lt => exact (does_dispute c d v lt).kept hd
  | finalizeDisputeIfDue lt => exact (does_finalize d lt).kept hd
  | runFlow v lt =>
    show Kept d (d.runFlow c v lt).2
    rcases runFlow_snd (c:=c) v lt with hr | hr | ⟨a, same, hr⟩
    · rw [hr]
      exact (does_exchange c d v).kept hd
    · rw [hr]
      exact ⟨hd, SameChannel.refl _⟩
    · rw [hr]
      exact ⟨mirrored_track d a, same⟩

/-! ## what the latest state is worth -/

theorem envelope_of_route {call : Call} {r : Route} {v : SignedStateEnvelope}
    (h : call.op.route d = some (r, v)) : call.envelope = some v := by
  cases call with
  | finalizeDisputeIfDue lt => cases h
  | exchangeSignedState v => exact congrArg (Option.map Prod.snd) h
  | exchangeCooperativeSettlement v => exact congrArg (Option.map Prod.snd) h
  | receiveSignedStateAndTrack v => exact congrArg (Option.map Prod.snd) h
  | submitUncooperativeDispute v lt => exact congrArg (Option.map Prod.snd) h
  | runFlow v lt => exact congrArg (Option.map Prod.snd) h

theorem admits_of_passes {r : Route} {v : SignedStateEnvelope} (h : r.passes c d v = true) :
    d.admits c v = true := by
  cases r with
  | settlement => exact h
  | dispute => exact (Bool.and_eq_true_iff.mp h).1
  | exchange => exact (Bool.and_eq_true_iff.mp h).1

/-- some call presented the state with signatures of both parties over its hash -/
def Signed (c : Crypto) (a : PaymentChannelArbiter) (calls : List Call) (state : ChannelState) :
    Prop :=
  ∃ call ∈ calls, ∃ v, call.envelope = some v ∧ v.state = state
    ∧ a.pubkeyA.verify c TX_BODY_V1 (encodeWord 32 (state.hash c)) v.sigA = true
    ∧ a.pubkeyB.verify c TX_BODY_V1 (encodeWord 32 (state.hash c)) v.sigB = true

/-- the state of a daemon over an arbiter, after some calls -/
structure Authorised (c : Crypto) (a : PaymentChannelArbiter) (calls : List Call)
    (d : PaymentChannelDaemon) : Prop where
  mirrored : d.latestState = d.arbiter.latestState
  channelId : d.arbiter.latestState.channelId = d.arbiter.channelId
  covered : d.arbiter.latestState.balancePartyA.toNat + d.arbiter.latestState.balancePartyB.toNat
    ≤ d.arbiter.totalDeposit.toNat
  signed : d.arbiter.latestState = a.latestState ∨ Signed c a calls d.arbiter.latestState
  same : SameChannel a d.arbiter

/-- below the largest deposit the saturating sum of the balances is their sum -/
theorem covered_of_not_exceeds {a : PaymentChannelArbiter} {state : ChannelState}
    (hdep : a.totalDeposit.toNat < 2^128 - 1) (h : a.exceedsDeposit state = false) :
    state.balancePartyA.toNat + state.balancePartyB.toNat ≤ a.totalDeposit.toNat := by
  have hle := Nat.not_lt.mp (of_decide_eq_false h)
  rw [toNat_satAdd] at hle
  omega

/-- a call leaves the latest state, or stores the one it presents -/
theorem latest_cases (call : Call) :
    (call.apply c d).arbiter.latestState = d.arbiter.latestState
      ∨ ∃ v, call.envelope = some v ∧ d.admits c v = true
        ∧ (call.apply c d).arbiter.latestState = v.state := by
  have hlatest := (apply_effect c d call.op).latest
  rw [← Call.apply_eq] at hlatest
  cases hacc : call.op.accepted c d with
  | none =>
    rw [hacc] at hlatest
    exact Or.inl hlatest
  | some x =>
    rw [hacc] at hlatest
    obtain ⟨hroute, hpass⟩ := Option.filter_eq_some_iff.mp hacc
    exact Or.inr ⟨x.2, envelope_of_route hroute, admits_of_passes hpass, hlatest⟩

theorem Signed.mono {a : PaymentChannelArbiter} {calls : List Call} {state : ChannelState}
    (h : Signed c a calls state) (call : Call) : Signed c a (calls ++ [call]) state := by
  obtain ⟨earlier, hmem, hrest⟩ := h
  exact ⟨earlier, List.mem_append_left _ hmem, hrest⟩

theorem authorised_apply {a : PaymentChannelArbiter} {calls : List Call}
    (hdep : a.totalDeposit.toNat < 2^128 - 1) (hmirror : Mirrored d)
    (h : Authorised c a calls d) (call : Call) :
    Authorised c a (calls ++ [call]) (call.apply c d) := by
  have hkept := kept_apply (c:=c) hmirror call
  have hsame := hkept.same
  have hold := h.same
  have hnew : SameChannel a (call.apply c d).arbiter :=
    ⟨hsame.channelId.trans hold.channelId, hsame.pubkeyA.trans hold.pubkeyA,
      hsame.pubkeyB.trans hold.pubkeyB, hsame.totalDeposit.trans hold.totalDeposit,
      hsame.challengeWindowLt.trans hold.challengeWindowLt⟩
  rcases latest_cases (c:=c) (d:=d) call with hlatest | ⟨v, henv, hadmits, hlatest⟩
  · refine ⟨hkept.mirrored.latestState, ?_, ?_, ?_, hnew⟩
    · rw [hlatest, hsame.channelId]
      exact h.channelId
    · rw [hlatest, hsame.totalDeposit]
      exact h.covered
    · rw [hlatest]
      exact h.signed.imp_right fun hsigned => hsigned.mono call
  · obtain ⟨hid, hfits, hverify⟩ := (d.arbiter.covers_iff c).mp hadmits
    obtain ⟨hA, hB⟩ := (d.arbiter.verifyDualSignatures_ok c).mp hverify
    refine ⟨hkept.mirrored.latestState, ?_, ?_, Or.inr ?_, hnew⟩
    · rw [hlatest, hsame.channelId]
      exact hid
    · rw [hlatest, hsame.totalDeposit]
      exact covered_of_not_exceeds (by rwa [hold.totalDeposit]) hfits
    · rw [hlatest]
      refine ⟨call, List.mem_append_right _ (List.mem_singleton.mpr rfl), v, henv, rfl, ?_, ?_⟩
      · rw [← hold.pubkeyA]
        exact hA
      · rw [← hold.pubkeyB]
        exact hB

/-- **Channel state is always authorised and mirrored**, and a call that fails changes nothing. -/
theorem state_authorised (c : Crypto) (channelId : Uint256) (partyA partyB : FullAddress)
    (pubkeyA pubkeyB : PublicKey) (totalDeposit : Uint128) (challengeWindowLt : Uint64)
    (hdep : totalDeposit.toNat < 2^128 - 1) (calls : List Call) :
    let a := PaymentChannelArbiter.new channelId partyA partyB pubkeyA pubkeyB totalDeposit
      challengeWindowLt
    let d := Runs.run (Call.apply c) (PaymentChannelDaemon.new a) calls
    Authorised c a calls d ∧ ∀ (call : Call) (e : ChannelError), (∀ v lt, call ≠ .runFlow v lt) →
      (call.perform c d).1 = some (.error e) → (call.perform c d).2 = d := by
  intro a d
  have hrun : Mirrored d ∧ Authorised c a calls d := by
    induction calls using List.reverseRecOn with
    | nil =>
      have hsum : totalDeposit.toNat + (0 : Uint128).toNat ≤ totalDeposit.toNat := le_refl _
      exact ⟨mirrored_new a, (mirrored_new a).latestState, rfl, hsum, Or.inl rfl, SameChannel.refl a⟩
    | append_singleton calls call ih =>
      show Mirrored (Runs.run _ _ _) ∧ Authorised c a _ (Runs.run _ _ _)
      rw [Runs.run_concat]
      exact ⟨(kept_apply ih.1 call).mirrored, authorised_apply hdep ih.1 ih.2 call⟩
  exact ⟨hrun.2, fun call e hflow h => perform_error hflow h⟩

theorem state_authorised_sample :
    Authorised sampleCrypto sampleDaemon.arbiter
      [.exchangeSignedState (sampleEnvelope 1 30 70)]
      (Runs.run (Call.apply sampleCrypto) sampleDaemon
        [.exchangeSignedState (sampleEnvelope 1 30 70)]) :=
  (state_authorised sampleCrypto 1 sampleAddress sampleAddress (samplePartyKey 7) (samplePartyKey 8)
    100 10 (by decide) [.exchangeSignedState (sampleEnvelope 1 30 70)]).1

end

end Onx.Channels
