import Onx.Channels.Mirror

/-!
# The challenge window

Runs of the daemon under a clock that never goes back.

* `Call.disputeLt`, `firstDispute`   the logical times of accepted disputes;
* `challenge_apply`, `settled_iff`   what a call does to the challenge and to the settled flag;
* `window_honoured_iff`              when every settlement of a run comes a window after a dispute;
* `settled_at_once`                  `run_flow` settles the dispute it submits.
-/

namespace Onx.Channels

/-- the logical time that the caller supplies -/
def Call.currentLt : Call → Option Uint64
  | .submitUncooperativeDispute _ lt => some lt
  | .finalizeDisputeIfDue lt => some lt
  | .runFlow _ lt => some lt
  | .exchangeSignedState _ => none
  | .exchangeCooperativeSettlement _ => none
  | .receiveSignedStateAndTrack _ => none

/-- the logical times of the calls never decrease -/
def Clock (calls : List Call) : Prop :=
  (calls.filterMap Call.currentLt).Pairwise fun s t => s.toNat ≤ t.toNat

instance instDecidableClock (calls : List Call) : Decidable (Clock calls) :=
  inferInstanceAs (Decidable (List.Pairwise _ _))

section
variable (c : Crypto)

/-- the logical time of an accepted dispute -/
def Call.disputeLt (d : PaymentChannelDaemon) (call : Call) : Option Uint64 :=
  match call.op.accepted c d with
  | some (.dispute, _) => call.currentLt
  | _ => none

/-- the logical time of the first accepted dispute of a run -/
def firstDispute : PaymentChannelDaemon → List Call → Option Uint64
  | _, [] => none
  | d, call :: calls => (call.disputeLt c d).or (firstDispute (call.apply c d) calls)

end

section
variable {c : Crypto} {d : PaymentChannelDaemon}

theorem currentLt_of_dispute {call : Call} {s : Uint64} (h : call.disputeLt c d = some s) :
    call.currentLt = some s := by
  unfold Call.disputeLt at h
  split at h
  · exact h
  · cases h

theorem firstDispute_cons (call : Call) (calls : List Call) : firstDispute c d (call :: calls)
    = (call.disputeLt c d).or (firstDispute c (call.apply c d) calls) := rfl

theorem firstDispute_append (d : PaymentChannelDaemon) (pre post : List Call) :
    firstDispute c d (pre ++ post)
      = (firstDispute c d pre).or (firstDispute c (Runs.run (Call.apply c) d pre) post) := by
  induction pre generalizing d with
  | nil => rfl
  | cons call pre ih =>
    rw [List.cons_append, firstDispute_cons, ih, ← Option.or_assoc]
    rfl

theorem firstDispute_concat (d : PaymentChannelDaemon) (pre : List Call) (call : Call) :
    firstDispute c d (pre ++ [call])
      = (firstDispute c d pre).or (call.disputeLt c (Runs.run (Call.apply c) d pre)) := by
  rw [firstDispute_append, firstDispute_cons]
  exact congrArg _ (Option.or_none)

/-- the first dispute is a call of the run -/
theorem exists_first {calls : List Call} {f : Uint64} (h : firstDispute c d calls = some f) :
    ∃ earlier dispute later, calls = earlier ++ dispute :: later
      ∧ dispute.disputeLt c (Runs.run (Call.apply c) d earlier) = some f := by
  induction calls generalizing d with
  | nil => cases h
  | cons call calls ih =>
    rw [firstDispute_cons] at h
    cases hcall : call.disputeLt c d with
    | some s =>
      rw [hcall] at h
      exact ⟨[], call, calls, rfl, hcall.trans h⟩
    | none =>
      rw [hcall, Option.none_or] at h
      obtain ⟨earlier, dispute, later, hsplit, hdispute⟩ := ih h
      exact ⟨call :: earlier, dispute, later, congrArg _ hsplit, hdispute⟩

theorem Clock.le {pre post : List Call} {earlier call : Call} {s t : Uint64}
    (h : Clock (pre ++ call :: post)) (hmem : earlier ∈ pre) (hs : earlier.currentLt = some s)
    (ht : call.currentLt = some t) : s.toNat ≤ t.toNat := by
  unfold Clock at h
  rw [List.filterMap_append, List.pairwise_append] at h
  refine h.2.2 s (List.mem_filterMap.mpr ⟨earlier, hmem, hs⟩) t ?_
  exact List.mem_filterMap.mpr ⟨call, List.mem_cons_self, ht⟩

theorem firstDispute_le {pre post : List Call} {call : Call} {f t : Uint64}
    (hclock : Clock (pre ++ call :: post)) (hf : firstDispute c d pre = some f)
    (ht : call.currentLt = some t) : f.toNat ≤ t.toNat := by
  obtain ⟨earlier, dispute, later, rfl, hdispute⟩ := exists_first hf
  exact hclock.le (List.mem_append_right _ List.mem_cons_self) (currentLt_of_dispute hdispute) ht

/-- no dispute of a run is older than the first -/
theorem exists_firstDispute_le {earlier later : List Call} {dispute : Call} {s : Uint64}
    (hclock : Clock (earlier ++ dispute :: later))
    (h : dispute.disputeLt c (Runs.run (Call.apply c) d earlier) = some s) :
    ∃ f, firstDispute c d (earlier ++ dispute :: later) = some f ∧ f.toNat ≤ s.toNat := by
  rw [firstDispute_append, firstDispute_cons, h]
  cases hf : firstDispute c d earlier with
  | none => exact ⟨s, rfl, le_refl _⟩
  | some f => exact ⟨f, rfl, firstDispute_le hclock hf (currentLt_of_dispute h)⟩

/-! ## what a call does to the challenge -/

theorem accepted_some {call : Call} {r : Route} {v : SignedStateEnvelope}
    (h : call.op.route d = some (r, v)) :
    call.op.accepted c d = if r.passes c d v = true then some (r, v) else none := by
  unfold Op.accepted
  rw [h, Option.filter_some]

theorem disputeLt_dispute {call : Call} {v : SignedStateEnvelope}
    (h : call.op.route d = some (.dispute, v)) : call.disputeLt c d
      = if (d.admits c v && d.newer v) = true then call.currentLt else none := by
  unfold Call.disputeLt
  rw [accepted_some h]
  show _ = if Route.passes c d v .dispute = true then _ else _
  split_ifs <;> rfl

theorem disputeLt_of_route {call : Call}
    (h : ∀ v, call.op.route d ≠ some (.dispute, v)) : call.disputeLt c d = none := by
  unfold Call.disputeLt
  split
  · next v hacc => exact absurd (Option.filter_eq_some_iff.mp hacc).1 (h v)
  · rfl

theorem challenge_of_route {call : Call} (h : ∀ v, call.op.route d ≠ some (.dispute, v)) :
    (call.apply c d).arbiter.challengeStartLt
      = (call.disputeLt c d).or d.arbiter.challengeStartLt := by
  rw [disputeLt_of_route h, Call.apply_eq]
  exact (apply_effect c d call.op).challenge
    fun v hacc => h v (Option.filter_eq_some_iff.mp hacc).1

theorem route_runFlow {v : SignedStateEnvelope} {lt : Uint64} {stale : Bool}
    (h : d.isStaleSubmission v.state = stale) : (Call.runFlow v lt).op.route d
      = some (if stale then Route.dispute else Route.exchange, v) := by
  rw [← h]
  rfl

/-- **A call restarts the challenge exactly when it submits a dispute.** -/
theorem challenge_apply (call : Call) : (call.apply c d).arbiter.challengeStartLt
    = (call.disputeLt c d).or d.arbiter.challengeStartLt := by
  cases call with
  | exchangeSignedState v => exact challenge_of_route fun w h => by cases h
  | receiveSignedStateAndTrack v => exact challenge_of_route fun w h => by cases h
  | exchangeCooperativeSettlement v => exact challenge_of_route fun w h => by cases h
  | finalizeDisputeIfDue lt => exact challenge_of_route fun w h => by cases h
  | submitUncooperativeDispute v lt =>
    rw [disputeLt_dispute (v:=v) rfl]
    show (d.submitUncooperativeDispute c v lt).2.arbiter.challengeStartLt = _
    rcases d.submitUncooperativeDispute_cases c v lt with ⟨hno, e, hr⟩ | ⟨hyes, hr⟩
    · rw [hr, hno]
      rfl
    · rw [hr, hyes]
      rfl
  | runFlow v lt =>
    show (d.runFlow c v lt).2.arbiter.challengeStartLt = _
    rcases d.runFlow_cases c v lt with ⟨hnot, hr⟩ | ⟨hstale, hno, hr⟩ | ⟨hstale, hyes, s, _, hr⟩
    · have hroute : ∀ w, (Call.runFlow v lt).op.route d ≠ some (.dispute, w) := by
        intro w h
        rw [route_runFlow hnot] at h
        cases h
      exact challenge_of_route hroute
    · rw [hr, disputeLt_dispute (route_runFlow hstale), hno]
      rfl
    · rw [hr, disputeLt_dispute (route_runFlow hstale), hyes]
      rfl

/-! ## what a call does to the settled flag -/

/-- the challenge window has passed, as the arbiter computes it -/
def due (a : PaymentChannelArbiter) (currentLt : Uint64) : Prop :=
  ∃ s, a.challengeStartLt = some s ∧ (satAdd s a.challengeWindowLt).toNat ≤ currentLt.toNat

theorem settled_finalize {lt : Uint64} : (d.finalizeDisputeIfDue lt).2.arbiter.isSettled = true
    ↔ d.arbiter.isSettled = true ∨ due d.arbiter lt := by
  unfold PaymentChannelDaemon.finalizeDisputeIfDue due
    PaymentChannelArbiter.finalizeUncooperativeSettlement
  cases hs : d.arbiter.challengeStartLt with
  | none => simp
  | some s =>
    rw [if_pos Option.isSome_some]
    dsimp only
    by_cases hlt : lt.toNat < (satAdd s d.arbiter.challengeWindowLt).toNat
    · rw [if_pos hlt]
      refine ⟨Or.inl, fun h => h.elim id ?_⟩
      rintro ⟨s', hs', hle⟩
      cases hs'
      exact absurd hlt (Nat.not_lt.mpr hle)
    · rw [if_neg hlt]
      exact iff_of_true rfl (Or.inr ⟨s, rfl, Nat.not_lt.mp hlt⟩)

/-- the calls that end a challenge: the window has passed, or `run_flow` lets it pass -/
def Call.Finalizes (c : Crypto) (d : PaymentChannelDaemon) (call : Call) : Prop :=
  match call with
  | .finalizeDisputeIfDue lt => due d.arbiter lt
  | .runFlow _ lt =>
    call.disputeLt c d = some lt ∧ lt.toNat + d.arbiter.challengeWindowLt.toNat < 2^64
  | _ => False

theorem settled_exchange (v : SignedStateEnvelope) :
    (d.exchangeSignedState c v).2.arbiter.isSettled = d.arbiter.isSettled := by
  rcases d.exchangeSignedState_cases c v with ⟨_, hr⟩ | ⟨_, hr⟩
  · rw [hr]
  · rw [hr]

theorem flow_of_dispute {v : SignedStateEnvelope} {lt s : Uint64}
    (h : (Call.runFlow v lt).disputeLt c d = some s) :
    d.isStaleSubmission v.state = true ∧ (d.admits c v && d.newer v) = true := by
  cases hstale : d.isStaleSubmission v.state with
  | false =>
    have hnone : (Call.runFlow v lt).disputeLt c d = none := by
      refine disputeLt_of_route fun w hroute => ?_
      rw [route_runFlow hstale] at hroute
      cases hroute
    exact nomatch hnone.symm.trans h
  | true =>
    rw [disputeLt_dispute (route_runFlow hstale)] at h
    split_ifs at h with hpass
    exact ⟨rfl, hpass⟩

theorem dispute_of_flow {v : SignedStateEnvelope} {lt : Uint64}
    (hstale : d.isStaleSubmission v.state = true) (hpass : (d.admits c v && d.newer v) = true) :
    (Call.runFlow v lt).disputeLt c d = some lt := by
  rw [disputeLt_dispute (route_runFlow hstale), if_pos hpass]
  rfl

/-- **A call settles a channel by a cooperative settlement or by ending its challenge.** -/
theorem settled_iff {call : Call} (hcoop : ∀ v, call ≠ .exchangeCooperativeSettlement v) :
    (call.apply c d).arbiter.isSettled = true
      ↔ d.arbiter.isSettled = true ∨ call.Finalizes c d := by
  cases call with
  | exchangeCooperativeSettlement v => exact absurd rfl (hcoop v)
  | exchangeSignedState v =>
    show (d.exchangeSignedState c v).2.arbiter.isSettled = true ↔ _ ∨ False
    rw [settled_exchange, or_false]
  | receiveSignedStateAndTrack v =>
    show (d.exchangeSignedState c v).2.arbiter.isSettled = true ↔ _ ∨ False
    rw [settled_exchange, or_false]
  | submitUncooperativeDispute v lt =>
    show (d.submitUncooperativeDispute c v lt).2.arbiter.isSettled = true ↔ _ ∨ False
    rw [or_false]
    rcases d.submitUncooperativeDispute_cases c v lt with ⟨_, e, hr⟩ | ⟨_, hr⟩
    · rw [hr]
    · rw [hr]
      rfl
  | finalizeDisputeIfDue lt => exact settled_finalize
  | runFlow v lt =>
    show (d.runFlow c v lt).2.arbiter.isSettled = true ↔ _ ∨ _ ∧ _
    unfold PaymentChannelDaemon.runFlow
    cases hstale : d.isStaleSubmission v.state with
    | false =>
      show (d.exchangeSignedState c v).2.arbiter.isSettled = true ↔ _
      rw [settled_exchange]
      exact ⟨Or.inl, fun h => h.elim id fun h => nomatch hstale.symm.trans (flow_of_dispute h.1).1⟩
    | true =>
      rw [disputeLt_dispute (route_runFlow hstale), if_pos rfl]
      rcases d.submitUncooperativeDispute_cases c v lt with ⟨hno, e, hr⟩ | ⟨hyes, hr⟩
      · rw [hr, hno]
        exact ⟨Or.inl, fun h => h.elim id fun h => nomatch h.1⟩
      · rw [hr, hyes, if_pos rfl]
        dsimp only
        split_ifs with hfits
        · have hfits : lt.toNat + d.arbiter.challengeWindowLt.toNat < 2^64 := hfits
          refine (settled_finalize (d:=d.track _)).trans ?_
          refine iff_of_true (Or.inr ⟨lt, rfl, ?_⟩) (Or.inr ⟨rfl, hfits⟩)
          show (satAdd lt d.arbiter.challengeWindowLt).toNat
            ≤ (lt + d.arbiter.challengeWindowLt).toNat
          rw [toNat_satAdd_of_le (by omega), BitVec.toNat_add, Nat.mod_eq_of_lt hfits]
        · exact ⟨Or.inl, fun h => h.elim id fun h => absurd h.2 hfits⟩

theorem finalizes_of_settled {call : Call} (hopen : d.arbiter.isSettled = false)
    (hset : (call.apply c d).arbiter.isSettled = true)
    (hcoop : ∀ v, call ≠ .exchangeCooperativeSettlement v) : call.Finalizes c d := by
  rcases (settled_iff hcoop).mp hset with hold | hend
  · exact absurd (hopen.symm.trans hold) Bool.false_ne_true
  · exact hend

/-! ## runs -/

/-- the challenge of a run goes back to its disputes -/
structure Timed (c : Crypto) (d₀ : PaymentChannelDaemon) (pre : List Call) : Prop where
  window : (Runs.run (Call.apply c) d₀ pre).arbiter.challengeWindowLt = d₀.arbiter.challengeWindowLt
  oldest : ∀ s, (Runs.run (Call.apply c) d₀ pre).arbiter.challengeStartLt = some s →
    ∃ f, firstDispute c d₀ pre = some f ∧ f.toNat ≤ s.toNat
  running : ∀ f, firstDispute c d₀ pre = some f →
    ∃ s, (Runs.run (Call.apply c) d₀ pre).arbiter.challengeStartLt = some s

theorem Clock.prefix {pre post : List Call} (h : Clock (pre ++ post)) : Clock pre := by
  unfold Clock at h
  rw [List.filterMap_append, List.pairwise_append] at h
  exact h.1

theorem timed_run {d₀ : PaymentChannelDaemon} (hmirror : Mirrored d₀)
    (hstart : d₀.arbiter.challengeStartLt = none) {pre : List Call} (hclock : Clock pre) :
    Timed c d₀ pre ∧ Mirrored (Runs.run (Call.apply c) d₀ pre) := by
  induction pre using List.reverseRecOn with
  | nil =>
    exact ⟨⟨rfl, fun s hs => (nomatch hstart.symm.trans hs), fun f hf => (nomatch hf)⟩, hmirror⟩
  | append_singleton pre call ih =>
    obtain ⟨⟨hwindow, holdest, hrunning⟩, hpre⟩ := ih hclock.prefix
    have hkept := kept_apply (c:=c) hpre call
    rw [Runs.run_concat]
    refine ⟨⟨?_, fun s hs => ?_, fun f hf => ?_⟩, hkept.mirrored⟩
    · rw [Runs.run_concat]
      exact hkept.same.challengeWindowLt.trans hwindow
    · rw [Runs.run_concat, challenge_apply] at hs
      rw [firstDispute_concat]
      cases hcall : call.disputeLt c (Runs.run (Call.apply c) d₀ pre) with
      | none =>
        rw [hcall, Option.none_or] at hs
        rw [Option.or_none]
        exact holdest s hs
      | some lt =>
        rw [hcall] at hs
        cases hs
        cases hf : firstDispute c d₀ pre with
        | none => exact ⟨s, rfl, le_refl _⟩
        | some f => exact ⟨f, rfl, firstDispute_le hclock hf (currentLt_of_dispute hcall)⟩
    · rw [Runs.run_concat, challenge_apply]
      rw [firstDispute_concat] at hf
      cases hcall : call.disputeLt c (Runs.run (Call.apply c) d₀ pre) with
      | some lt => exact ⟨lt, rfl⟩
      | none =>
        rw [hcall, Option.or_none] at hf
        exact hrunning f hf

/-- a call that settles a channel, and no cooperative settlement, comes a window after a dispute of
the run -/
def Honours (c : Crypto) (d₀ : PaymentChannelDaemon) (pre : List Call) (call : Call) : Prop :=
  (Runs.run (Call.apply c) d₀ pre).arbiter.isSettled = false →
  (Runs.run (Call.apply c) d₀ (pre ++ [call])).arbiter.isSettled = true →
  (∀ v, call ≠ .exchangeCooperativeSettlement v) →
  ∃ t, call.currentLt = some t ∧ ∃ earlier dispute later s, pre ++ [call] = earlier ++ dispute :: later
    ∧ dispute.disputeLt c (Runs.run (Call.apply c) d₀ earlier) = some s
    ∧ s.toNat + d₀.arbiter.challengeWindowLt.toNat ≤ t.toNat

/-- every call of a run does -/
def WindowHonoured (c : Crypto) (d₀ : PaymentChannelDaemon) (calls : List Call) : Prop :=
  ∀ pre call post, calls = pre ++ call :: post → Honours c d₀ pre call

/-- the calls that do not cut a challenge short: `run_flow` submits no dispute on an open channel
unless the window is empty or has passed since the first dispute of the run, and at the largest
logical time the first dispute is finalized only if its window has passed -/
def Patient (c : Crypto) (d : PaymentChannelDaemon) (first : Option Uint64) (call : Call) : Prop :=
  d.arbiter.isSettled = false →
  match call with
  | .runFlow v lt =>
    d.isStaleSubmission v.state = true → (d.admits c v && d.newer v) = true →
      lt.toNat + d.arbiter.challengeWindowLt.toNat < 2^64 →
      d.arbiter.challengeWindowLt = 0
        ∨ ∃ s, first = some s ∧ s.toNat + d.arbiter.challengeWindowLt.toNat ≤ lt.toNat
  | .finalizeDisputeIfDue lt =>
    lt.toNat = 2^64 - 1 → ∀ s, first = some s →
      s.toNat + d.arbiter.challengeWindowLt.toNat ≤ lt.toNat
  | _ => True

/-- no call of a run cuts a challenge short -/
def AllPatient (c : Crypto) (d₀ : PaymentChannelDaemon) (calls : List Call) : Prop :=
  ∀ pre call post, calls = pre ++ call :: post →
    Patient c (Runs.run (Call.apply c) d₀ pre) (firstDispute c d₀ pre) call

/-- the disputes of a run against the first of them -/
theorem exists_dispute_iff {d₀ : PaymentChannelDaemon} {calls : List Call} {w t : Nat}
    (hclock : Clock calls) :
    (∃ earlier dispute later s, calls = earlier ++ dispute :: later
      ∧ dispute.disputeLt c (Runs.run (Call.apply c) d₀ earlier) = some s ∧ s.toNat + w ≤ t)
    ↔ ∃ f, firstDispute c d₀ calls = some f ∧ f.toNat + w ≤ t := by
  constructor
  · rintro ⟨earlier, dispute, later, s, rfl, hdispute, hle⟩
    obtain ⟨f, hf, hfs⟩ := exists_firstDispute_le hclock hdispute
    exact ⟨f, hf, by omega⟩
  · rintro ⟨f, hf, hle⟩
    obtain ⟨earlier, dispute, later, hsplit, hdispute⟩ := exists_first hf
    exact ⟨earlier, dispute, later, f, hsplit, hdispute, hle⟩

/-- at the largest logical time every challenge is due -/
theorem due_at_max {a : PaymentChannelArbiter} {lt s : Uint64} (hs : a.challengeStartLt = some s)
    (hmax : lt.toNat = 2^64 - 1) : due a lt := by
  refine ⟨s, hs, ?_⟩
  rw [toNat_satAdd]
  omega

/-- below it the sum of the arbiter is the sum -/
theorem le_of_due {s w lt : Uint64} (h : (satAdd s w).toNat ≤ lt.toNat) :
    lt.toNat = 2^64 - 1 ∨ s.toNat + w.toNat ≤ lt.toNat := by
  rw [toNat_satAdd] at h
  have hlt := lt.isLt
  omega

/-- a window since the first dispute, where there may be one at `lt` itself -/
theorem first_or_iff {first : Option Uint64} {lt w : Uint64}
    (h : ∀ f, first = some f → f.toNat ≤ lt.toNat) :
    (∃ f, first.or (some lt) = some f ∧ f.toNat + w.toNat ≤ lt.toNat)
      ↔ w = 0 ∨ ∃ f, first = some f ∧ f.toNat + w.toNat ≤ lt.toNat := by
  cases first with
  | none =>
    constructor
    · rintro ⟨f, hf, hle⟩
      cases hf
      exact Or.inl (BitVec.eq_of_toNat_eq (show _ = 0 by omega))
    · rintro (rfl | ⟨f, hf, _⟩)
      · exact ⟨lt, rfl, le_refl _⟩
      · cases hf
  | some f =>
    have hle := h f rfl
    constructor
    · rintro ⟨f', hf, hsum⟩
      exact Or.inr ⟨f', hf, hsum⟩
    · rintro (rfl | ⟨f', hf, hsum⟩)
      · exact ⟨f, rfl, hle⟩
      · exact ⟨f', hf, hsum⟩

/-- **One call.** -/
theorem honours_iff {d₀ : PaymentChannelDaemon} {pre post : List Call} {call : Call}
    (hmirror : Mirrored d₀) (hstart : d₀.arbiter.challengeStartLt = none)
    (hclock : Clock (pre ++ call :: post)) :
    Honours c d₀ pre call
      ↔ Patient c (Runs.run (Call.apply c) d₀ pre) (firstDispute c d₀ pre) call := by
  obtain ⟨⟨hwindow, holdest, hrunning⟩, -⟩ := timed_run (c:=c) hmirror hstart hclock.prefix
  have hbefore : ∀ f t, firstDispute c d₀ pre = some f → call.currentLt = some t →
      f.toNat ≤ t.toNat := fun f t hf ht => firstDispute_le hclock hf ht
  have hnow : Clock (pre ++ [call]) := by
    rw [List.append_cons] at hclock
    exact hclock.prefix
  unfold Honours Patient
  refine imp_congr_right fun hopen => ?_
  rw [Runs.run_concat]
  simp only [exists_dispute_iff hnow, firstDispute_concat]
  generalize hd : Runs.run (Call.apply c) d₀ pre = d at *
  rw [← hwindow]
  cases call with
  | exchangeCooperativeSettlement v =>
    exact iff_of_true (fun _ hcoop => absurd rfl (hcoop v)) trivial
  | exchangeSignedState v =>
    exact iff_of_true (fun hset hcoop => (finalizes_of_settled hopen hset hcoop).elim) trivial
  | receiveSignedStateAndTrack v =>
    exact iff_of_true (fun hset hcoop => (finalizes_of_settled hopen hset hcoop).elim) trivial
  | submitUncooperativeDispute v lt =>
    exact iff_of_true (fun hset hcoop => (finalizes_of_settled hopen hset hcoop).elim) trivial
  | finalizeDisputeIfDue lt =>
    have hnone : (Call.finalizeDisputeIfDue lt).disputeLt c d = none :=
      disputeLt_of_route fun w h => by cases h
    rw [hnone, Option.or_none]
    constructor
    · intro h hmax f hf
      obtain ⟨s, hs⟩ := hrunning f hf
      have hdue : due d.arbiter lt := due_at_max hs hmax
      obtain ⟨t, ht, f', hf', hle⟩ := h (settled_finalize.mpr (Or.inr hdue))
        (fun w hw => by cases hw)
      cases ht
      cases hf.symm.trans hf'
      exact hle
    · intro h hset hcoop
      obtain ⟨s, hs, hle⟩ : due d.arbiter lt := finalizes_of_settled hopen hset hcoop
      obtain ⟨f, hf, hfs⟩ := holdest s hs
      refine ⟨lt, rfl, f, hf, ?_⟩
      rcases le_of_due hle with hmax | hsum
      · exact h hmax f hf
      · omega
  | runFlow v lt =>
    have hfirst : ∀ f, firstDispute c d₀ pre = some f → f.toNat ≤ lt.toNat :=
      fun f hf => hbefore f lt hf rfl
    constructor
    · intro h hstale hpass hfits
      have hdispute : (Call.runFlow v lt).disputeLt c d = some lt := dispute_of_flow hstale hpass
      obtain ⟨t, ht, hf⟩ := h ((settled_iff (fun w hw => by cases hw)).mpr
        (Or.inr ⟨hdispute, hfits⟩)) (fun w hw => by cases hw)
      cases ht
      rw [hdispute] at hf
      exact (first_or_iff hfirst).mp hf
    · intro h hset hcoop
      obtain ⟨hdispute, hfits⟩ := finalizes_of_settled hopen hset hcoop
      obtain ⟨hstale, hpass⟩ := flow_of_dispute hdispute
      rw [hdispute]
      exact ⟨lt, rfl, (first_or_iff hfirst).mpr (h hstale hpass hfits)⟩

/-- **The challenge window is honoured exactly when no call of the run cuts a challenge short.** -/
theorem window_honoured_iff (c : Crypto) (channelId : Uint256) (partyA partyB : FullAddress)
    (pubkeyA pubkeyB : PublicKey) (totalDeposit : Uint128) (challengeWindowLt : Uint64)
    (calls : List Call) (hclock : Clock calls) :
    let d₀ := PaymentChannelDaemon.new (PaymentChannelArbiter.new channelId partyA partyB pubkeyA
      pubkeyB totalDeposit challengeWindowLt)
    WindowHonoured c d₀ calls ↔ AllPatient c d₀ calls := by
  intro d₀
  refine forall_congr' fun pre => forall_congr' fun call => forall_congr' fun post =>
    forall_congr' fun hsplit => ?_
  rw [hsplit] at hclock
  exact honours_iff (mirrored_new _) rfl hclock

end

/-- a dispute at time 5, finalized a window later -/
def sampleDispute : List Call :=
  [.submitUncooperativeDispute (sampleEnvelope 1 30 70) 5, .finalizeDisputeIfDue 15]

theorem window_honoured_sample : WindowHonoured sampleCrypto sampleDaemon sampleDispute
    ↔ AllPatient sampleCrypto sampleDaemon sampleDispute :=
  window_honoured_iff sampleCrypto 1 sampleAddress sampleAddress (samplePartyKey 7)
    (samplePartyKey 8) 100 10 sampleDispute (by decide)

/-- **`run_flow` settles a channel at the time of the dispute it submits.** -/
theorem settled_at_once : ¬ ∀ calls : List Call, Clock calls →
    WindowHonoured sampleCrypto sampleDaemon calls := by
  intro h
  have hclock : Clock [.runFlow (sampleEnvelope 1 30 70) 5] := by decide
  obtain ⟨t, ht, hdispute⟩ := h _ hclock [] (.runFlow (sampleEnvelope 1 30 70) 5) [] rfl
    (by decide +kernel) (by decide +kernel) (fun v hv => by cases hv)
  cases ht
  obtain ⟨f, hf, hle⟩ := (exists_dispute_iff hclock).mp hdispute
  have hfirst : firstDispute sampleCrypto sampleDaemon [.runFlow (sampleEnvelope 1 30 70) 5]
      = some 5 := by decide +kernel
  cases hfirst.symm.trans hf
  exact absurd hle (by decide)

end Onx.Channels
