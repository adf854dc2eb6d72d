import Onx.Consensus.Election
import Mathlib.Data.List.Nodup

/-!
# What an election decides

The ranking of the candidates, the validators it makes of the first of them, and what becomes of
their stakes.

* `runElection_ok_iff`       the elections that succeed;
* `runElection_perm`         the order of the candidates does not matter;
* `settleCandidates_locked`  what is refunded of a stake is what is not locked;
* `decides_iff`              **an election decides as specified** exactly if the indices of its
                             validators fit 32 bits;
* `ids_repeat`               2^32 + 1 validators, of whom two have the id 0.
-/

namespace Onx.Consensus

/-- the elections that should succeed -/
structure Acceptable (config : ElectionConfig) (candidates : List CandidateValidatorSpec) : Prop where
  nonempty : candidates ≠ []
  cap_pos : 0 < config.validatorCap
  admissible : ∀ candidate ∈ candidates, candidate.Admissible config
  keys_nodup : (candidates.map (·.publicKey)).Nodup

/-- the greater stake, or the lesser key of equal stakes -/
def Before (left right : CandidateValidatorSpec) : Prop :=
  right.proposedStake < left.proposedStake
    ∨ left.proposedStake = right.proposedStake ∧ left.publicKey.bytes < right.publicKey.bytes

/-- the stake that is locked of the candidate of an index -/
def ElectionResult.locked (result : ElectionResult) (index : Nat) : Nat :=
  ((result.validators[index]?).map (·.actualStake.toNat)).getD 0

/-- validators and refunds as the ranking of the candidates decides them -/
structure Ranked (config : ElectionConfig) (order : List CandidateValidatorSpec)
    (result : ElectionResult) : Prop where
  sorted : order.Pairwise Before
  validators_eq : result.validators.map (·.publicKey)
    = (order.take config.validatorCap).map (·.publicKey)
  refunds_eq : result.refunds.map (·.publicKey) = order.map (·.publicKey)
  conserved : ∀ (index : Nat) candidate refund, order[index]? = some candidate →
    result.refunds[index]? = some refund →
      refund.amount.toNat + result.locked index = candidate.proposedStake.toNat

/-- the whole of what an election should do -/
structure Decides (config : ElectionConfig) (candidates : List CandidateValidatorSpec) : Prop where
  ok_iff : (∃ result, runElection candidates config = .ok result) ↔ Acceptable config candidates
  perm : ∀ result, runElection candidates config = .ok result → ∀ candidates',
    candidates.Perm candidates' → runElection candidates' config = .ok result
  ranked : ∀ result, runElection candidates config = .ok result →
    ∃ order, order.Perm candidates ∧ Ranked config order result
  ids : ∀ result, runElection candidates config = .ok result →
    result.validators.map (·.validatorId.toNat)
      = List.range (min candidates.length config.validatorCap)

section
variable {config : ElectionConfig} {candidates : List CandidateValidatorSpec}

/-! ## which elections succeed -/

theorem length_sortCandidates : (sortCandidates candidates).length = candidates.length :=
  List.length_insertionSort _ _

theorem perm_sortCandidates : (sortCandidates candidates).Perm candidates :=
  List.perm_insertionSort _ _

theorem runElection_ok_iff :
    (∃ result, runElection candidates config = .ok result) ↔ Acceptable config candidates := by
  constructor
  · intro ⟨result, h⟩
    obtain ⟨hcheck, last, hlast, _⟩ := runElection_ok h
    obtain ⟨hadmissible, hnodup, _⟩ := checkCandidates_ok.mp hcheck
    have hmem := mem_of_selected (List.mem_of_getLast? hlast)
    refine ⟨List.ne_nil_of_mem hmem, Nat.pos_of_ne_zero fun hcap => ?_, hadmissible, hnodup⟩
    rw [last_of_selected, if_pos hcap] at hlast
    cases hlast
  · intro ⟨hne, hcap, hadmissible, hnodup⟩
    have hcheck := checkCandidates_ok.mpr ⟨hadmissible, hnodup, fun _ _ => List.not_mem_nil⟩
    have hcount : min (sortCandidates candidates).length config.validatorCap ≠ 0 := by
      have hlen := List.length_pos_of_ne_nil hne
      rw [length_sortCandidates]
      omega
    unfold runElection
    rw [if_neg (Nat.ne_of_gt hcap), hcheck]
    dsimp only
    rw [dif_neg hcount]
    exact ⟨_, rfl⟩

theorem eq_of_candidateKey (hnodup : (candidates.map (·.publicKey)).Nodup) :
    ∀ a ∈ candidates, ∀ b ∈ candidates, candidateKey a = candidateKey b → a = b := by
  intro a ha b hb hkey
  have hbytes : a.publicKey.bytes = b.publicKey.bytes := congrArg (fun k => (ofLex k).2) hkey
  exact List.inj_on_of_nodup_map hnodup ha hb (PublicKey.ext hbytes)

/-- **The order of the candidates does not matter.** -/
theorem runElection_perm {candidates' : List CandidateValidatorSpec} {result : ElectionResult}
    (h : runElection candidates config = .ok result) (hperm : candidates.Perm candidates') :
    runElection candidates' config = .ok result := by
  obtain ⟨hne, hcap, hadmissible, hnodup⟩ := runElection_ok_iff.mp ⟨result, h⟩
  have hsort : sortCandidates candidates = sortCandidates candidates' :=
    KeySort.sort_congr (eq_of_candidateKey hnodup) hperm
  have hne' : candidates' ≠ [] := by
    intro hnil
    rw [hnil] at hperm
    exact hne hperm.eq_nil
  obtain ⟨result', h'⟩ := runElection_ok_iff.mpr ⟨hne', hcap,
    fun c hc => hadmissible c (hperm.mem_iff.mpr hc), (hperm.map _).nodup_iff.mp hnodup⟩
  obtain ⟨_, last, hlast, hresult⟩ := runElection_ok h
  obtain ⟨_, last', hlast', hresult'⟩ := runElection_ok h'
  unfold selected at hlast hlast'
  rw [hsort, hlast'] at hlast
  rw [h', hresult', hresult, hsort, Option.some.inj hlast]

theorem sorted_sortCandidates (hnodup : (candidates.map (·.publicKey)).Nodup) :
    (sortCandidates candidates).Pairwise Before := by
  have hne := List.pairwise_map.mp ((perm_sortCandidates.map (·.publicKey)).nodup_iff.mpr hnodup)
  have hle := @KeySort.pairwise_sort _ _ _ candidateKey candidates
  refine (hne.and hle).imp fun {left right} ⟨hkey, hrank⟩ => ?_
  rcases Prod.Lex.le_iff.mp hrank with hlt | ⟨heq, hbytes⟩
  · exact .inl hlt
  · exact .inr ⟨heq, lt_of_le_of_ne hbytes fun h => hkey (PublicKey.ext h)⟩

/-! ## what is settled -/

/-- the ids are the indices, cut to 32 bits -/
theorem settleCandidates_ids (selectedCount : Nat) (minimum : Uint64) (index : Nat)
    (sorted : List CandidateValidatorSpec) :
    (settleCandidates selectedCount minimum index sorted).validators.map (·.validatorId)
      = (List.range' index (min sorted.length (selectedCount - index))).map (BitVec.ofNat 32) := by
  induction sorted generalizing index with
  | nil => simp [settleCandidates]
  | cons candidate rest ih =>
    unfold settleCandidates
    dsimp only
    by_cases hlt : index < selectedCount
    · rw [if_pos hlt, List.map_cons, ih, List.length_cons,
        show selectedCount - index = selectedCount - (index + 1) + 1 by omega,
        Nat.add_min_add_right, List.range'_succ, List.map_cons]
    · rw [if_neg hlt, ih, show selectedCount - (index + 1) = 0 by omega,
        show selectedCount - index = 0 by omega, Nat.min_zero, Nat.min_zero, List.range'_zero,
        List.range'_zero]

/-- past the selected candidates there are no validators -/
theorem settleCandidates_past {selectedCount index : Nat} (h : selectedCount ≤ index)
    (minimum : Uint64) (sorted : List CandidateValidatorSpec) :
    (settleCandidates selectedCount minimum index sorted).validators = [] := by
  have hnone := settleCandidates_validators selectedCount minimum index sorted
  rw [Nat.sub_eq_zero_of_le h, List.take_zero] at hnone
  exact List.forall₂_nil_left_iff.mp hnone

theorem settleCandidates_refunds (selectedCount : Nat) (minimum : Uint64) (index : Nat)
    (sorted : List CandidateValidatorSpec) :
    (settleCandidates selectedCount minimum index sorted).refunds.map (·.publicKey)
      = sorted.map (·.publicKey) := by
  induction sorted generalizing index with
  | nil => rfl
  | cons candidate rest ih =>
    unfold settleCandidates
    dsimp only
    rw [List.map_cons, List.map_cons, ih]

/-- **What is refunded of a stake is what is not locked.** -/
theorem settleCandidates_locked (selectedCount : Nat) (minimum : Uint64) (index : Nat)
    (sorted : List CandidateValidatorSpec) (i : Nat) {candidate : CandidateValidatorSpec}
    {refund : StakeRefund} (hi : sorted[i]? = some candidate)
    (hrefund : (settleCandidates selectedCount minimum index sorted).refunds[i]? = some refund) :
    refund.amount.toNat + (settleCandidates selectedCount minimum index sorted).locked i
      = candidate.proposedStake.toNat := by
  induction sorted generalizing index i with
  | nil => cases hi
  | cons head rest ih =>
    unfold settleCandidates at hrefund ⊢
    dsimp only at hrefund ⊢
    cases i with
    | zero =>
      rw [List.getElem?_cons_zero] at hi hrefund
      obtain rfl := Option.some.inj hi
      obtain rfl := Option.some.inj hrefund
      unfold ElectionResult.locked
      by_cases hlt : index < selectedCount
      · have hle : calculateActualStake head.proposedStake head.maxLoadFactor minimum
            ≤ head.proposedStake := min_le_left _ _
        rw [if_pos hlt, if_pos hlt, BitVec.toNat_sub_of_le hle]
        exact Nat.sub_add_cancel (BitVec.le_def.mp hle)
      · rw [if_neg hlt, if_neg hlt, settleCandidates_past (by omega)]
        exact congrArg BitVec.toNat (BitVec.sub_zero _)
    | succ i =>
      rw [List.getElem?_cons_succ] at hi hrefund
      rw [← ih (index + 1) i hi hrefund]
      congr 1
      unfold ElectionResult.locked
      by_cases hlt : index < selectedCount
      · rw [if_pos hlt]
        rfl
      · rw [if_neg hlt, settleCandidates_past (by omega)]
        rfl

/-! ## elections that succeed -/

theorem range_mod_iff {k m : Nat} (hm : 0 < m) :
    (List.range k).map (· % m) = List.range k ↔ k ≤ m := by
  constructor
  · intro h
    by_contra hlt
    have hindex := congrArg (fun l => l[m]?) h
    rw [List.getElem?_map, List.getElem?_range (by omega), Option.map_some, Nat.mod_self] at hindex
    exact absurd (Option.some.inj hindex) (Nat.ne_of_lt hm)
  · intro hle
    refine (List.map_congr_left fun i hi => ?_).trans (List.map_id _)
    exact Nat.mod_eq_of_lt ((List.mem_range.mp hi).trans_le hle)

variable {result : ElectionResult}

/-- all but the ids is as it should be -/
theorem ranked_of_ok (h : runElection candidates config = .ok result) :
    Ranked config (sortCandidates candidates) result := by
  obtain ⟨_, _, _, hnodup⟩ := runElection_ok_iff.mp ⟨result, h⟩
  obtain ⟨_, last, _, rfl⟩ := runElection_ok h
  refine ⟨sorted_sortCandidates hnodup, ?_, settleCandidates_refunds _ _ _ _,
    fun i candidate refund hi hrefund => settleCandidates_locked _ _ _ _ i hi hrefund⟩
  have hsettled := settleCandidates_validators
    (min (sortCandidates candidates).length config.validatorCap) last.proposedStake 0
    (sortCandidates candidates)
  rw [Nat.sub_zero, min_comm, ← List.take_eq_take_min] at hsettled
  have hkeys := List.forall₂_map_right_iff.mpr (List.forall₂_map_left_iff.mpr
    (hsettled.imp fun _ _ hv => hv.1.symm))
  rw [min_comm]
  exact (List.forall₂_eq_eq_eq ▸ hkeys).symm

/-- the ids are the indices exactly if these fit 32 bits -/
theorem ids_iff (h : runElection candidates config = .ok result) :
    result.validators.map (·.validatorId.toNat)
      = List.range (min candidates.length config.validatorCap)
    ↔ min candidates.length config.validatorCap ≤ 2^32 := by
  obtain ⟨_, last, _, rfl⟩ := runElection_ok h
  have hids := congrArg (List.map BitVec.toNat) (settleCandidates_ids
    (min (sortCandidates candidates).length config.validatorCap) last.proposedStake 0
    (sortCandidates candidates))
  rw [List.map_map, List.map_map, Nat.sub_zero, length_sortCandidates,
    Nat.min_eq_right (Nat.min_le_left _ _), ← List.range_eq_range'] at hids
  have hmod : BitVec.toNat ∘ BitVec.ofNat 32 = (· % 2^32) := funext fun i => BitVec.toNat_ofNat i 32
  rw [hmod] at hids
  rw [← range_mod_iff (by decide), ← hids, length_sortCandidates]
  rfl

/-- **An election decides as specified exactly if the indices of its validators fit 32 bits.** -/
theorem decides_iff (config : ElectionConfig) (candidates : List CandidateValidatorSpec) :
    Decides config candidates
      ↔ (Acceptable config candidates → min candidates.length config.validatorCap ≤ 2^32) := by
  constructor
  · intro h hacceptable
    obtain ⟨result, hrun⟩ := runElection_ok_iff.mpr hacceptable
    exact (ids_iff hrun).mp (h.ids result hrun)
  · intro h
    exact ⟨runElection_ok_iff, fun result hrun _ hperm => runElection_perm hrun hperm,
      fun result hrun => ⟨_, perm_sortCandidates, ranked_of_ok hrun⟩,
      fun result hrun => (ids_iff hrun).mpr (h (runElection_ok_iff.mp ⟨result, hrun⟩))⟩

end

/-- equal stakes under the first `n` keys -/
def equalCandidates (n : Nat) : List CandidateValidatorSpec :=
  (List.range n).map (fun i => ⟨⟨BitVec.ofNat 256 i⟩, 1, 100⟩)

theorem equalCandidates_acceptable {n : Nat} (hpos : 0 < n) (hlt : n < 2^256) :
    Acceptable ⟨n, 1000⟩ (equalCandidates n) := by
  have hmem : ∀ candidate ∈ equalCandidates n, ∃ i, candidate = ⟨⟨BitVec.ofNat 256 i⟩, 1, 100⟩ := by
    intro candidate hc
    obtain ⟨i, _, rfl⟩ := List.mem_map.mp hc
    exact ⟨i, rfl⟩
  refine ⟨fun hnil => ?_, hpos, fun candidate hc => ?_, ?_⟩
  · have hlen := congrArg List.length hnil
    unfold equalCandidates at hlen
    rw [List.length_map, List.length_range] at hlen
    exact absurd hlen (Nat.ne_of_gt hpos)
  · obtain ⟨i, rfl⟩ := hmem candidate hc
    exact ⟨show (1 : Uint64) ≠ 0 by decide, le_refl (100 : Uint16), show (100 : Uint16) ≤ 1000 by decide⟩
  · have hkeys : (equalCandidates n).map (·.publicKey)
        = ((List.range n).map (BitVec.ofNat 256)).map PublicKey.mk := by
      unfold equalCandidates
      rw [List.map_map, List.map_map]
      rfl
    rw [hkeys]
    exact (BitVec.nodup_ofNat hlt.le).map fun _ _ => PublicKey.mk.inj

/-- **One validator more than there are ids.** -/
theorem ids_repeat : ¬ Decides ⟨2^32 + 1, 1000⟩ (equalCandidates (2^32 + 1)) := by
  intro h
  have hacceptable := @equalCandidates_acceptable (2^32 + 1) (by decide) (by decide)
  obtain ⟨result, hrun⟩ := runElection_ok_iff.mpr hacceptable
  have hle := (ids_iff hrun).mp (h.ids result hrun)
  unfold equalCandidates at hle
  rw [List.length_map, List.length_range, Nat.min_self] at hle
  exact absurd hle (by norm_num)

end Onx.Consensus
