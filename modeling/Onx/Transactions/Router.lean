import Onx.Lib.Hypercube
import Onx.Lib.Slices
import Onx.Transactions.OutputQueue

/-!
# Routes in the hypercube

The planner turns over the prefix bits in which two shards differ, from the most significant one on.
The validator takes any list of hops between neighbors.

* `areNeighbors_iff`   neighbors differ in one prefix bit;
* `planHops_ok`        each turn of the planner's loop comes one bit nearer to the destination;
* `Adjacent`           what the validator demands of a hop, a step of a walk;
* `hypercube_routes`   **planned routes are accepted, shortest and exactly charged.**
-/

namespace Onx.Transactions
open Hypercube Checked

structure RouteHop where
  fromShard : ShardIdent
  toShard : ShardIdent
deriving DecidableEq

structure RoutePlan where
  hops : List RouteHop
  transitFee : Uint128
  remainingValue : Uint128
deriving DecidableEq

/-- the mask of the prefix bits -/
def prefixMask (len : Nat) : Uint64 := if len = 0 then 0 else (~~~0 : Uint64) <<< (64 - len)

/-- the loop of `plan_hypercube_route` over the indexes that are left -/
def planHops (workchainId : WorkchainIdent) (targetBits : Uint64) (len : Nat) :
    List Nat → Uint64 → ShardIdent → List RouteHop → Except TransactionsError (List RouteHop)
  | [], _, _, hops => .ok hops
  | bitIndex :: rest, currentBits, current, hops =>
    let bit := 63 - bitIndex
    if (currentBits >>> bit) &&& 1 ≠ (targetBits >>> bit) &&& 1 then
      let currentBits := currentBits ^^^ (1 : Uint64) <<< bit
      match ShardIdent.fromPrefixBits workchainId currentBits len with
      | .error _ => .error .incompatibleRoute
      | .ok next => planHops workchainId targetBits len rest currentBits next (hops ++ [⟨current, next⟩])
    else planHops workchainId targetBits len rest currentBits current hops

/-- the fee and what it leaves of the message -/
def chargeHops (amountNanos feePerHop : Uint128) (hops : List RouteHop) :
    Except TransactionsError RoutePlan :=
  match wordMul feePerHop (BitVec.ofNat 128 hops.length) with
  | none => .error (.insufficientTransitFee amountNanos (BitVec.allOnes 128))
  | some transitFee =>
    match wordSub amountNanos transitFee with
    | none => .error (.insufficientTransitFee amountNanos transitFee)
    | some remainingValue => .ok ⟨hops, transitFee, remainingValue⟩

def planHypercubeRoute (message : Message) (source destination : ShardIdent) (feePerHop : Uint128) :
    Except TransactionsError RoutePlan :=
  if message.msgType ≠ .internal ∨ message.validateSourceShard source ≠ .ok ()
      ∨ message.validateDestShard destination ≠ .ok () then
    .error .routeEndpointMismatch
  else
    match source.prefixLen with
    | .error _ => .error .incompatibleRoute
    | .ok len =>
      if source.workchainId ≠ destination.workchainId ∨ destination.prefixLen ≠ .ok len then
        .error .incompatibleRoute
      else
        let mask := prefixMask len
        let targetBits := destination.shardPrefixIdent &&& mask
        let currentBits := source.shardPrefixIdent &&& mask
        match planHops source.workchainId targetBits len (List.range len) currentBits source [] with
        | .error e => .error e
        | .ok hops => chargeHops message.amountNanos feePerHop hops

def areNeighbors (left right : ShardIdent) : Bool :=
  match left.prefixLen with
  | .error _ => false
  | .ok length =>
    if left.workchainId ≠ right.workchainId ∨ right.prefixLen ≠ .ok length then false
    else ones ((left.shardPrefixIdent ^^^ right.shardPrefixIdent) &&& prefixMask length) == 1

/-- the loop of `validate_hypercube_route` from a shard on -/
def validateHops (destination : ShardIdent) :
    ShardIdent → List RouteHop → Except TransactionsError Unit
  | current, [] => if current = destination then .ok () else .error .invalidHypercubeHop
  | current, hop :: hops =>
    if hop.fromShard ≠ current ∨ ¬ areNeighbors hop.fromShard hop.toShard then
      .error .invalidHypercubeHop
    else validateHops destination hop.toShard hops

def validateHypercubeRoute (hops : List RouteHop) (source destination : ShardIdent) :
    Except TransactionsError Unit := validateHops destination source hops

/-- the number of prefix bits in which two shards of one depth differ -/
def differingBits (source destination : ShardIdent) : Nat :=
  match source.prefixLen with
  | .error _ => 0
  | .ok len =>
    hammingDist (firstBits len source.shardPrefixIdent) (firstBits len destination.shardPrefixIdent)

/-! ## neighbors -/

section
variable {len : Nat} {w : WorkchainIdent} {s t d : ShardIdent}

theorem prefixMask_eq (len : Nat) : prefixMask len = BitPrefix.topMask 64 len := by
  unfold prefixMask
  split_ifs with hzero
  · rw [hzero]
    decide
  · rfl

/-- what a hop has to be, from a shard of length `len` -/
def Adjacent (len : Nat) (s t : ShardIdent) : Prop :=
  s.workchainId = t.workchainId ∧ t.prefixLen = .ok len
    ∧ hammingDist (firstBits len s.shardPrefixIdent) (firstBits len t.shardPrefixIdent) = 1

theorem prefixLen_le (h : s.prefixLen = .ok len) : len ≤ 60 := by
  obtain ⟨p, rfl, hle, _⟩ := ShardIdent.prefixLen_ok h
  exact hle

theorem areNeighbors_iff (h : s.prefixLen = .ok len) : areNeighbors s t = true ↔ Adjacent len s t := by
  have hle := prefixLen_le h
  unfold areNeighbors Adjacent
  rw [h]
  dsimp only
  rw [prefixMask_eq, ones_xor_topMask (by omega)]
  split_ifs with hother
  · exact iff_of_false (by simp) fun ⟨hw, hlen, _⟩ => hother.elim (· hw) (· hlen)
  · push Not at hother
    rw [beq_iff_eq]
    exact ⟨fun hone => ⟨hother.1, hother.2, hone⟩, fun hadj => hadj.2.2⟩

/-- what is accepted is a walk -/
theorem validateHops_walk {hops : List RouteHop} (hs : s.prefixLen = .ok len)
    (h : validateHops d s hops = .ok ()) :
    Walk (Adjacent len) s (hops.map RouteHop.toShard) d := by
  induction hops generalizing s with
  | nil =>
    unfold validateHops at h
    split_ifs at h with heq
    exact heq
  | cons hop hops ih =>
    unfold validateHops at h
    split_ifs at h with hbad
    push Not at hbad
    rw [hbad.1] at hbad
    have hadj := (areNeighbors_iff hs).mp hbad.2
    exact ⟨hadj, ih hadj.2.1 h⟩

theorem validateHops_snoc {hops : List RouteHop} (h : validateHops s d hops = .ok ())
    (hn : areNeighbors s t = true) : validateHops t d (hops ++ [⟨s, t⟩]) = .ok () := by
  induction hops generalizing d with
  | nil =>
    unfold validateHops at h
    split_ifs at h with heq
    rw [heq]
    simp [validateHops, hn]
  | cons hop hops ih =>
    unfold validateHops at h
    split_ifs at h with hbad
    rw [List.cons_append, validateHops, if_neg hbad]
    exact ih h

/-! ## the planner -/

/-- the shard of a word -/
theorem fromPrefixBits_eq (hlen : len ≤ 60) (bits : Uint64) :
    ShardIdent.fromPrefixBits w bits len
      = .ok (ShardIdent.ofPrefix w (BitPrefix.ofWord len bits (by omega))) := by
  unfold ShardIdent.fromPrefixBits
  rw [if_neg (by omega)]
  dsimp only
  have hword := BitPrefix.marked_ofWord (show len < 64 by omega) bits
  rw [← prefixMask_eq] at hword
  exact congrArg (fun x => Except.ok (ShardIdent.mk w x)) hword

/-- a shard is the shard of its word -/
theorem eq_ofPrefix (h : s.prefixLen = .ok len) (hlen : len ≤ 64) :
    s = ShardIdent.ofPrefix s.workchainId (BitPrefix.ofWord len s.shardPrefixIdent hlen) := by
  obtain ⟨p, rfl, hle, heq⟩ := ShardIdent.prefixLen_ok h
  have hword : s.shardPrefixIdent = BitPrefix.marked 64 p := congrArg ShardIdent.shardPrefixIdent heq
  rw [hword, BitPrefix.ofWord_marked (by omega)]
  exact heq

/-- where the planner's loop stands: `rest` are the indexes that are left -/
structure Reached (len : Nat) (source : ShardIdent) (targetBits : Uint64) (rest : List Nat)
    (currentBits : Uint64) (current : ShardIdent) (hops : List RouteHop) : Prop where
  /-- the shard is that of the bits -/
  shard : ShardIdent.fromPrefixBits source.workchainId currentBits len = .ok current
  route : validateHops current source hops = .ok ()
  /-- every hop came one bit nearer -/
  distance : hops.length + hammingDist (firstBits len currentBits) (firstBits len targetBits)
    = hammingDist (firstBits len source.shardPrefixIdent) (firstBits len targetBits)
  /-- the bits that are done are those of the destination -/
  settled : ∀ j : Fin len, (j : Nat) ∉ rest → firstBits len currentBits j = firstBits len targetBits j

variable {targetBits currentBits : Uint64} {current : ShardIdent} {hops : List RouteHop}
  {rest : List Nat}

/-- a bit that does not differ -/
theorem Reached.skip {i : Fin len} (h : Reached len s targetBits (i :: rest) currentBits current hops)
    (hsame : firstBits len currentBits i = firstBits len targetBits i) :
    Reached len s targetBits rest currentBits current hops := by
  refine ⟨h.shard, h.route, h.distance, fun j hj => ?_⟩
  by_cases hji : j = i
  · rw [hji]
    exact hsame
  · refine h.settled j fun hmem => ?_
    rcases List.mem_cons.mp hmem with heq | hmem
    · exact hji (Fin.ext heq)
    · exact hj hmem

/-- a bit that differs -/
theorem Reached.hop {i : Fin len} (hs : s.prefixLen = .ok len)
    (h : Reached len s targetBits (i :: rest) currentBits current hops)
    (hdiffer : firstBits len currentBits i ≠ firstBits len targetBits i) :
    ∃ next, ShardIdent.fromPrefixBits s.workchainId (currentBits ^^^ (1 : Uint64) <<< (63 - (i : Nat))) len
        = .ok next
      ∧ Reached len s targetBits rest (currentBits ^^^ (1 : Uint64) <<< (63 - (i : Nat))) next
        (hops ++ [⟨current, next⟩]) := by
  have hle := prefixLen_le hs
  have hturn : firstBits len (currentBits ^^^ (1 : Uint64) <<< (63 - (i : Nat)))
      = Function.update (firstBits len currentBits) i (firstBits len targetBits i) := by
    rw [Bool.eq_not.mpr (Ne.symm hdiffer)]
    exact firstBits_xor (by omega) currentBits i
  have hshard := h.shard
  rw [fromPrefixBits_eq hle] at hshard
  obtain rfl := Except.ok.inj hshard
  refine ⟨_, fromPrefixBits_eq hle _, fromPrefixBits_eq hle _, ?_, ?_, ?_⟩
  · refine validateHops_snoc h.route ((areNeighbors_iff (ShardIdent.prefixLen_ofPrefix hle)).mpr ?_)
    refine ⟨rfl, ShardIdent.prefixLen_ofPrefix hle, ?_⟩
    show hammingDist (firstBits len (BitPrefix.marked 64 _)) (firstBits len (BitPrefix.marked 64 _)) = 1
    rw [firstBits_marked_ofWord (by omega), firstBits_marked_ofWord (by omega), hturn]
    exact hammingDist_update_self hdiffer
  · have hnear := hammingDist_update hdiffer
    have hdist := h.distance
    rw [hturn, List.length_append, List.length_singleton]
    omega
  · intro j hj
    rw [hturn]
    by_cases hji : j = i
    · rw [hji, Function.update_self]
    · rw [Function.update_of_ne hji]
      refine h.settled j fun hmem => ?_
      rcases List.mem_cons.mp hmem with heq | hmem
      · exact hji (Fin.ext heq)
      · exact hj hmem

/-- the loop ends at the destination -/
theorem planHops_ok (hs : s.prefixLen = .ok len) (hrest : ∀ i ∈ rest, i < len)
    (h : Reached len s targetBits rest currentBits current hops) :
    ∃ hops' bits' current', planHops s.workchainId targetBits len rest currentBits current hops = .ok hops'
      ∧ Reached len s targetBits [] bits' current' hops' := by
  induction rest generalizing currentBits current hops with
  | nil => exact ⟨hops, currentBits, current, rfl, h⟩
  | cons bitIndex rest ih =>
    have hle := prefixLen_le hs
    obtain ⟨i, rfl⟩ : ∃ i : Fin len, bitIndex = i := ⟨⟨bitIndex, hrest _ List.mem_cons_self⟩, rfl⟩
    have hrest' : ∀ i ∈ rest, i < len := fun j hj => hrest j (List.mem_cons_of_mem _ hj)
    unfold planHops
    dsimp only
    have hbits := shiftRight_and_one_eq_iff (by omega) currentBits targetBits (63 - (i : Nat))
    split_ifs with hne
    · obtain ⟨next, hnext, hreached⟩ := h.hop hs fun hsame => hne (hbits.mpr hsame)
      rw [hnext]
      exact ih hrest' hreached
    · exact ih hrest' (h.skip (hbits.mp (not_not.mp hne)))

/-- the loop's start -/
theorem Reached.start (hs : s.prefixLen = .ok len) :
    Reached len s targetBits (List.range len) (s.shardPrefixIdent &&& prefixMask len) s [] := by
  have hle := prefixLen_le hs
  have hfirst : firstBits len (s.shardPrefixIdent &&& prefixMask len)
      = firstBits len s.shardPrefixIdent := by
    rw [prefixMask_eq]
    exact firstBits_and_topMask (by omega) _
  refine ⟨?_, if_pos rfl, ?_, fun j hj => absurd (List.mem_range.mpr j.isLt) hj⟩
  · rw [fromPrefixBits_eq hle, ofWord_eq_of_firstBits (by omega) hfirst]
    exact congrArg Except.ok (eq_ofPrefix hs (by omega)).symm
  · rw [hfirst, List.length_nil, Nat.zero_add]

/-- **The planner's hops lead to the destination, one for each bit that differs.** -/
theorem planHops_route (hs : s.prefixLen = .ok len) (hd : d.prefixLen = .ok len)
    (hw : s.workchainId = d.workchainId) :
    ∃ hops, planHops s.workchainId (d.shardPrefixIdent &&& prefixMask len) len (List.range len)
        (s.shardPrefixIdent &&& prefixMask len) s [] = .ok hops
      ∧ validateHypercubeRoute hops s d = .ok () ∧ hops.length = differingBits s d := by
  have hle := prefixLen_le hs
  obtain ⟨hops, bits, current, hplan, hend⟩ := planHops_ok hs (fun i hi => List.mem_range.mp hi)
    (@Reached.start len s (d.shardPrefixIdent &&& prefixMask len) hs)
  have hfirst : firstBits len (d.shardPrefixIdent &&& prefixMask len)
      = firstBits len d.shardPrefixIdent := by
    rw [prefixMask_eq]
    exact firstBits_and_topMask (by omega) _
  have hbits : firstBits len bits = firstBits len d.shardPrefixIdent :=
    (funext fun j => hend.settled j List.not_mem_nil).trans hfirst
  have hcurrent : current = d := by
    have hshard := hend.shard
    rw [fromPrefixBits_eq hle, ofWord_eq_of_firstBits (by omega) hbits, hw] at hshard
    exact (Except.ok.inj hshard).symm.trans (eq_ofPrefix hd (by omega)).symm
  refine ⟨hops, hplan, ?_, ?_⟩
  · unfold validateHypercubeRoute
    rw [← hcurrent]
    exact hend.route
  · have hdist := hend.distance
    rw [hfirst, hbits, hammingDist_self, Nat.add_zero] at hdist
    unfold differingBits
    rw [hs]
    exact hdist

/-- each hop of a route comes at most one bit nearer to its end -/
theorem Adjacent.nearer (d : ShardIdent) : ∀ a b, Adjacent len a b →
    hammingDist (firstBits len a.shardPrefixIdent) (firstBits len d.shardPrefixIdent)
      ≤ hammingDist (firstBits len b.shardPrefixIdent) (firstBits len d.shardPrefixIdent) + 1 := by
  intro a b hadj
  have htriangle := hammingDist_triangle (firstBits len a.shardPrefixIdent)
    (firstBits len b.shardPrefixIdent) (firstBits len d.shardPrefixIdent)
  rw [hadj.2.2] at htriangle
  omega

theorem differingBits_le (hs : s.prefixLen = .ok len) (h : validateHypercubeRoute hops s d = .ok ()) :
    differingBits s d ≤ hops.length := by
  have hlen := (validateHops_walk hs h).le_length (Adjacent.nearer d)
  rw [hammingDist_self, Nat.zero_add, List.length_map] at hlen
  unfold differingBits
  rw [hs]
  exact hlen

theorem route_nodup (hs : s.prefixLen = .ok len) (h : validateHypercubeRoute hops s d = .ok ())
    (hlen : hops.length = differingBits s d) : (s :: hops.map RouteHop.toShard).Nodup := by
  refine (validateHops_walk hs h).nodup (Adjacent.nearer d) ?_
  unfold differingBits at hlen
  rw [hs] at hlen
  rw [hammingDist_self, Nat.zero_add, List.length_map]
  exact hlen.symm

end

/-! ## the charge -/

section
variable {amountNanos feePerHop : Uint128} {hops : List RouteHop}

theorem toNat_hops (h : hops.length ≤ 64) : (BitVec.ofNat 128 hops.length).toNat = hops.length :=
  Nat.mod_eq_of_lt (by omega)

theorem chargeHops_ok {p : RoutePlan} (hlen : hops.length ≤ 64)
    (h : chargeHops amountNanos feePerHop hops = .ok p) :
    p.hops = hops ∧ p.transitFee.toNat = feePerHop.toNat * hops.length
      ∧ p.transitFee.toNat + p.remainingValue.toNat = amountNanos.toNat := by
  unfold chargeHops at h
  cases hmul : wordMul feePerHop (BitVec.ofNat 128 hops.length) with
  | none =>
    rw [hmul] at h
    cases h
  | some transitFee =>
    rw [hmul] at h
    dsimp only at h
    have hfee := toNat_wordMul hmul
    rw [toNat_hops hlen] at hfee
    cases hsub : wordSub amountNanos transitFee with
    | none =>
      rw [hsub] at h
      cases h
    | some remainingValue =>
      rw [hsub] at h
      cases h
      exact ⟨rfl, hfee, toNat_wordSub hsub⟩

theorem chargeHops_error {e : TransactionsError} (hlen : hops.length ≤ 64)
    (h : chargeHops amountNanos feePerHop hops = .error e) :
    amountNanos.toNat < feePerHop.toNat * hops.length := by
  unfold chargeHops at h
  cases hmul : wordMul feePerHop (BitVec.ofNat 128 hops.length) with
  | none =>
    have hover := wordMul_none hmul
    rw [toNat_hops hlen] at hover
    exact Nat.lt_of_lt_of_le amountNanos.isLt hover
  | some transitFee =>
    rw [hmul] at h
    dsimp only at h
    have hfee := toNat_wordMul hmul
    rw [toNat_hops hlen] at hfee
    cases hsub : wordSub amountNanos transitFee with
    | none =>
      rw [← hfee]
      exact wordSub_none hsub
    | some remainingValue =>
      rw [hsub] at h
      cases h

end

/-! ## routes -/

/-- what a planned route keeps to -/
structure Planned (message : Message) (source destination : ShardIdent) (feePerHop : Uint128)
    (p : RoutePlan) : Prop where
  accepted : validateHypercubeRoute p.hops source destination = .ok ()
  length_eq : p.hops.length = differingBits source destination
  shortest : ∀ hops, validateHypercubeRoute hops source destination = .ok () →
    p.hops.length ≤ hops.length
  /-- no shard comes twice -/
  nodup : (source :: p.hops.map RouteHop.toShard).Nodup
  fee_eq : p.transitFee.toNat = feePerHop.toNat * p.hops.length
  paid : p.transitFee.toNat + p.remainingValue.toNat = message.amountNanos.toNat

/-- an internal message between two shards of one workchain and depth -/
structure Routable (message : Message) (source destination : ShardIdent) : Prop where
  internal : message.msgType = .internal
  leaves : message.validateSourceShard source = .ok ()
  arrives : message.validateDestShard destination = .ok ()
  workchain : source.workchainId = destination.workchainId
  depth : source.prefixLen = destination.prefixLen

/-- an account is in a shard that has a depth -/
theorem exists_prefixLen {s : ShardIdent} {address : FullAddress}
    (h : s.validateFullAddress address = .ok ()) : ∃ len, s.prefixLen = .ok len := by
  unfold ShardIdent.validateFullAddress ShardIdent.validateAccountId ShardIdent.containsAccount at h
  cases hlen : s.prefixLen with
  | ok len => exact ⟨len, rfl⟩
  | error e =>
    rw [hlen] at h
    split_ifs at h

section
variable {message : Message} {source destination : ShardIdent} {feePerHop : Uint128}

/-- what is planned is charged for the planner's hops -/
theorem planHypercubeRoute_eq (h : Routable message source destination) :
    ∃ hops len, source.prefixLen = .ok len ∧ hops.length ≤ 64
      ∧ validateHypercubeRoute hops source destination = .ok ()
      ∧ hops.length = differingBits source destination
      ∧ planHypercubeRoute message source destination feePerHop
        = chargeHops message.amountNanos feePerHop hops := by
  obtain ⟨len, hs⟩ := exists_prefixLen h.leaves
  have hd := h.depth.symm.trans hs
  obtain ⟨hops, hplan, hroute, hlen⟩ := planHops_route hs hd h.workchain
  refine ⟨hops, len, hs, ?_, hroute, hlen, ?_⟩
  · have hcard := @hammingDist_le_card_fintype (Fin len) (fun _ => Bool) _ _
      (firstBits len source.shardPrefixIdent) (firstBits len destination.shardPrefixIdent)
    rw [Fintype.card_fin] at hcard
    have hle := prefixLen_le hs
    unfold differingBits at hlen
    rw [hs] at hlen
    dsimp only at hlen
    omega
  · have hends : ¬ (message.msgType ≠ .internal ∨ message.validateSourceShard source ≠ .ok ()
        ∨ message.validateDestShard destination ≠ .ok ()) := by
      simp [h.internal, h.leaves, h.arrives]
    have hshards : ¬ (source.workchainId ≠ destination.workchainId ∨ destination.prefixLen ≠ .ok len) := by
      simp [h.workchain, hd]
    unfold planHypercubeRoute
    rw [if_neg hends, hs]
    dsimp only
    rw [if_neg hshards, hplan]

/-- nothing else is planned -/
theorem routable_of_plan {p : RoutePlan}
    (h : planHypercubeRoute message source destination feePerHop = .ok p) :
    Routable message source destination := by
  unfold planHypercubeRoute at h
  split_ifs at h with hends
  push Not at hends
  cases hs : source.prefixLen with
  | error e =>
    rw [hs] at h
    cases h
  | ok len =>
    rw [hs] at h
    dsimp only at h
    split_ifs at h with hshards
    push Not at hshards
    exact ⟨hends.1, hends.2.1, hends.2.2, hshards.1, hs.trans hshards.2.symm⟩

end

/-- **What is planned is accepted, shortest and exactly charged, and a message that has a route is
refused only if it cannot pay for it.** -/
theorem hypercube_routes (message : Message) (source destination : ShardIdent) (feePerHop : Uint128) :
    (∀ p, planHypercubeRoute message source destination feePerHop = .ok p →
      Planned message source destination feePerHop p)
    ∧ (Routable message source destination →
      ∀ e, planHypercubeRoute message source destination feePerHop = .error e →
        message.amountNanos.toNat < feePerHop.toNat * differingBits source destination) := by
  constructor
  · intro p hp
    obtain ⟨hops, len, hs, hsmall, hroute, hlen, heq⟩ := @planHypercubeRoute_eq _ _ _ feePerHop (routable_of_plan hp)
    rw [heq] at hp
    obtain ⟨rfl, hfee, hpaid⟩ := chargeHops_ok hsmall hp
    refine ⟨hroute, hlen, fun hops' h => ?_, route_nodup hs hroute hlen, hfee, hpaid⟩
    rw [hlen]
    exact differingBits_le hs h
  · intro h e he
    obtain ⟨hops, len, hs, hsmall, hroute, hlen, heq⟩ := @planHypercubeRoute_eq _ _ _ feePerHop h
    rw [heq] at he
    rw [← hlen]
    exact chargeHops_error hsmall he

end Onx.Transactions
