import Onx.Consensus.Engine
import Onx.Lib.KeySort
import Mathlib.Data.List.Forall2
import Mathlib.Data.Prod.Lex

/-!
# The validator election

Candidates in the order of their stakes, as many as the cap admits, each with a stake cut down to
what its load factor allows over the least stake selected.

* `runElection`            the checks, the sort and the loop over the sorted candidates;
* `checkCandidates_ok`     the candidates that pass;
* `runElection_ok`         what a successful election selects;
* `StakedAs`               the stake that a selected candidate should have;
* `elected_stake_iff`      **when all selected candidates have it**: the cap fits 64 bits, or what is
                           left of it is no cut;
* `elected_without_stake`  the only candidate of an election, selected with stake 0.
-/

namespace Onx.Consensus

structure CandidateValidatorSpec where
  publicKey : PublicKey
  proposedStake : Uint64
  /-- `l_i * 100` -/
  maxLoadFactor : Uint16
deriving DecidableEq

def DEFAULT_VALIDATOR_CAP : Nat := 100
def DEFAULT_MAX_LOAD_FACTOR_SCALED : Uint16 := 1000
def MIN_LOAD_FACTOR_SCALED : Uint16 := 100

structure ElectionConfig where
  validatorCap : Nat
  maxLoadFactorScaled : Uint16

def ElectionConfig.default : ElectionConfig := ⟨DEFAULT_VALIDATOR_CAP, DEFAULT_MAX_LOAD_FACTOR_SCALED⟩

/-- funds unlocked at once -/
structure StakeRefund where
  publicKey : PublicKey
  amount : Uint64
deriving DecidableEq

structure ElectionResult where
  validators : List ValidatorSetEntry
  refunds : List StakeRefund
deriving DecidableEq

/-- the product of 16 and 64 bits is formed in 128, and the quotient narrowed to 64 -/
def calculateActualStake (proposedStake : Uint64) (loadFactorScaled : Uint16)
    (minSelectedStake : Uint64) : Uint64 :=
  let cap := min (loadFactorScaled.toNat * minSelectedStake.toNat) (2^128 - 1) / 100
  min proposedStake (BitVec.ofNat 64 cap)

/-- the loop of `run_election` over the candidates; `seen` are the keys before them -/
def checkCandidates (config : ElectionConfig) :
    List CandidateValidatorSpec → List PublicKey → Except ConsensusError Unit
  | [], _ => .ok ()
  | candidate :: rest, seen =>
    if candidate.proposedStake = 0 then .error .invalidCandidateStake
    else if candidate.maxLoadFactor < MIN_LOAD_FACTOR_SCALED
        ∨ candidate.maxLoadFactor > config.maxLoadFactorScaled then .error .invalidLoadFactor
    else if candidate.publicKey ∈ seen then .error .duplicateCandidate
    else checkCandidates config rest (candidate.publicKey :: seen)

/-- stakes descend, and the bytes of the key ascend among equal ones -/
def candidateKey (candidate : CandidateValidatorSpec) : Uint64ᵒᵈ ×ₗ Uint256 :=
  toLex (OrderDual.toDual candidate.proposedStake, candidate.publicKey.bytes)

/-- a stable sort -/
def sortCandidates (candidates : List CandidateValidatorSpec) : List CandidateValidatorSpec :=
  candidates.insertionSort (fun left right => candidateKey left ≤ candidateKey right)

/-- the loop of `run_election` over the sorted candidates, from an index on -/
def settleCandidates (selectedCount : Nat) (minimumSelectedStake : Uint64) :
    Nat → List CandidateValidatorSpec → ElectionResult
  | _, [] => ⟨[], []⟩
  | index, candidate :: rest =>
    let locked := if index < selectedCount then
        calculateActualStake candidate.proposedStake candidate.maxLoadFactor minimumSelectedStake
      else 0
    let result := settleCandidates selectedCount minimumSelectedStake (index + 1) rest
    { validators :=
        if index < selectedCount then
          ⟨BitVec.ofNat 32 index, candidate.publicKey, locked⟩ :: result.validators
        else result.validators
      refunds := ⟨candidate.publicKey, candidate.proposedStake - locked⟩ :: result.refunds }

def runElection (candidates : List CandidateValidatorSpec) (config : ElectionConfig) :
    Except ConsensusError ElectionResult :=
  if config.validatorCap = 0 then .error .emptyValidatorSet
  else
    match checkCandidates config candidates [] with
    | .error e => .error e
    | .ok () =>
      let sorted := sortCandidates candidates
      if h : min sorted.length config.validatorCap = 0 then .error .emptyValidatorSet
      else
        let selectedCount := min sorted.length config.validatorCap
        let last := sorted.get ⟨selectedCount - 1, by omega⟩
        .ok (settleCandidates selectedCount last.proposedStake 0 sorted)

/-! ## candidates -/

/-- the checks of one candidate by itself -/
structure CandidateValidatorSpec.Admissible (config : ElectionConfig)
    (candidate : CandidateValidatorSpec) : Prop where
  stake_ne : candidate.proposedStake ≠ 0
  least_le : MIN_LOAD_FACTOR_SCALED ≤ candidate.maxLoadFactor
  le_max : candidate.maxLoadFactor ≤ config.maxLoadFactorScaled

section
variable {config : ElectionConfig} {candidates : List CandidateValidatorSpec}

theorem checkCandidates_ok {seen : List PublicKey} :
    checkCandidates config candidates seen = .ok ()
      ↔ (∀ candidate ∈ candidates, candidate.Admissible config)
        ∧ (candidates.map (·.publicKey)).Nodup
        ∧ ∀ candidate ∈ candidates, candidate.publicKey ∉ seen := by
  induction candidates generalizing seen with
  | nil => exact iff_of_true rfl ⟨nofun, List.nodup_nil, nofun⟩
  | cons candidate rest ih =>
    unfold checkCandidates
    split_ifs with hstake hload hseen
    · refine iff_of_false nofun fun h => ?_
      exact (h.1 _ List.mem_cons_self).stake_ne hstake
    · refine iff_of_false nofun fun h => ?_
      obtain ⟨_, hleast, hmax⟩ := h.1 _ List.mem_cons_self
      exact hload.elim (not_lt.mpr hleast) (not_lt.mpr hmax)
    · exact iff_of_false nofun fun h => h.2.2 _ List.mem_cons_self hseen
    · have hhead : candidate.Admissible config :=
        ⟨hstake, not_lt.mp fun h => hload (.inl h), not_lt.mp fun h => hload (.inr h)⟩
      rw [ih, List.map_cons, List.nodup_cons, List.forall_mem_cons, List.forall_mem_cons]
      simp only [List.mem_cons, List.mem_map, not_or, not_exists, not_and]
      constructor
      · intro ⟨hrest, hnodup, hnew⟩
        exact ⟨⟨hhead, hrest⟩, ⟨fun c hc => (hnew c hc).1, hnodup⟩, hseen, fun c hc => (hnew c hc).2⟩
      · intro ⟨⟨_, hrest⟩, ⟨hfresh, hnodup⟩, _, hnew⟩
        exact ⟨hrest, hnodup, fun c hc => ⟨hfresh c hc, hnew c hc⟩⟩

/-! ## what an election selects -/

/-- the candidates of the greatest stakes -/
def selected (candidates : List CandidateValidatorSpec) (config : ElectionConfig) :
    List CandidateValidatorSpec :=
  (sortCandidates candidates).take config.validatorCap

theorem mem_of_selected {candidate : CandidateValidatorSpec}
    (h : candidate ∈ selected candidates config) : candidate ∈ candidates :=
  (List.mem_insertionSort _).mp (List.mem_of_mem_take h)

theorem last_of_selected :
    (selected candidates config).getLast?
      = if config.validatorCap = 0 then none
        else (sortCandidates candidates)[min (sortCandidates candidates).length
          config.validatorCap - 1]? := by
  unfold selected
  rw [List.getLast?_eq_getElem?, List.getElem?_take, List.length_take, min_comm]
  split_ifs with hlt hcap hcap
  · omega
  · rfl
  · rfl
  · omega

theorem runElection_ok {result : ElectionResult} (h : runElection candidates config = .ok result) :
    checkCandidates config candidates [] = .ok ()
    ∧ ∃ last, (selected candidates config).getLast? = some last
      ∧ result = settleCandidates (min (sortCandidates candidates).length config.validatorCap)
        last.proposedStake 0 (sortCandidates candidates) := by
  unfold runElection at h
  split_ifs at h with hcap
  cases hcheck : checkCandidates config candidates [] with
  | error e =>
    rw [hcheck] at h
    cases h
  | ok _ =>
    rw [hcheck] at h
    dsimp only at h
    split_ifs at h with hcount
    cases h
    refine ⟨rfl, _, ?_, rfl⟩
    rw [last_of_selected, if_neg hcap]
    exact List.getElem?_eq_getElem _

/-- the first candidates of the loop become validators -/
theorem settleCandidates_validators (selectedCount : Nat) (minimum : Uint64) (index : Nat)
    (sorted : List CandidateValidatorSpec) :
    List.Forall₂ (fun candidate v => v.publicKey = candidate.publicKey
        ∧ v.actualStake
          = calculateActualStake candidate.proposedStake candidate.maxLoadFactor minimum)
      (sorted.take (selectedCount - index))
      (settleCandidates selectedCount minimum index sorted).validators := by
  induction sorted generalizing index with
  | nil =>
    rw [List.take_nil]
    exact .nil
  | cons candidate rest ih =>
    unfold settleCandidates
    dsimp only
    by_cases hlt : index < selectedCount
    · rw [show selectedCount - index = selectedCount - (index + 1) + 1 by omega,
        List.take_succ_cons, if_pos hlt, if_pos hlt]
      exact .cons ⟨rfl, rfl⟩ (ih (index + 1))
    · have hrest := ih (index + 1)
      rw [show selectedCount - (index + 1) = 0 by omega, List.take_zero] at hrest
      rw [show selectedCount - index = 0 by omega, List.take_zero, if_neg hlt]
      exact hrest

/-! ## stakes -/

/-- `l_i * s_T`, rounded down -/
def CandidateValidatorSpec.cap (leastStake : Nat) (candidate : CandidateValidatorSpec) : Nat :=
  candidate.maxLoadFactor.toNat * leastStake / 100

/-- what the election owes a selected candidate -/
structure StakedAs (leastStake : Nat) (candidate : CandidateValidatorSpec) (v : ValidatorSetEntry) :
    Prop where
  publicKey_eq : v.publicKey = candidate.publicKey
  stake_eq : v.actualStake.toNat = min candidate.proposedStake.toNat (candidate.cap leastStake)
  least_le : leastStake ≤ v.actualStake.toNat
  le_proposed : v.actualStake.toNat ≤ candidate.proposedStake.toNat
  pos : 0 < v.actualStake.toNat

/-- the cap fits 64 bits, or its low 64 bits are no cut -/
def CandidateValidatorSpec.Narrows (leastStake : Nat) (candidate : CandidateValidatorSpec) : Prop :=
  candidate.cap leastStake < 2^64
    ∨ candidate.proposedStake.toNat ≤ candidate.cap leastStake % 2^64

instance (leastStake : Nat) (candidate : CandidateValidatorSpec) :
    Decidable (candidate.Narrows leastStake) := by
  unfold CandidateValidatorSpec.Narrows
  infer_instance

theorem toNat_calculateActualStake (proposedStake : Uint64) (loadFactorScaled : Uint16)
    (minSelectedStake : Uint64) :
    (calculateActualStake proposedStake loadFactorScaled minSelectedStake).toNat
      = min proposedStake.toNat (loadFactorScaled.toNat * minSelectedStake.toNat / 100 % 2^64) := by
  have hprod : loadFactorScaled.toNat * minSelectedStake.toNat < 2^16 * 2^64 :=
    Nat.mul_lt_mul'' loadFactorScaled.isLt minSelectedStake.isLt
  have hmono : Monotone (BitVec.toNat : Uint64 → Nat) := fun _ _ h => h
  unfold calculateActualStake
  rw [Nat.min_eq_left (by omega), hmono.map_min, BitVec.toNat_ofNat]

theorem stakedAs_iff {candidate last : CandidateValidatorSpec} {v : ValidatorSetEntry}
    (hadmissible : candidate.Admissible config) (hlast : last.proposedStake ≠ 0)
    (hle : last.proposedStake ≤ candidate.proposedStake) (hkey : v.publicKey = candidate.publicKey)
    (hstake : v.actualStake = calculateActualStake candidate.proposedStake candidate.maxLoadFactor
      last.proposedStake) :
    StakedAs last.proposedStake.toNat candidate v
      ↔ candidate.Narrows last.proposedStake.toNat := by
  have hpos : 0 < last.proposedStake.toNat := Nat.pos_of_ne_zero fun h => hlast (BitVec.eq_of_toNat_eq h)
  have hload : 100 ≤ candidate.maxLoadFactor.toNat := BitVec.le_def.mp hadmissible.least_le
  have hle' : last.proposedStake.toNat ≤ candidate.proposedStake.toNat := BitVec.le_def.mp hle
  have hcap : last.proposedStake.toNat ≤ candidate.cap last.proposedStake.toNat :=
    (Nat.le_div_iff_mul_le (by decide)).mpr
      (Nat.mul_comm _ 100 ▸ Nat.mul_le_mul_right _ hload)
  have hval : v.actualStake.toNat
      = min candidate.proposedStake.toNat (candidate.cap last.proposedStake.toNat % 2^64) := by
    rw [hstake, toNat_calculateActualStake]
    rfl
  have hlt := candidate.proposedStake.isLt
  unfold CandidateValidatorSpec.Narrows
  constructor
  · intro h
    have heq := h.stake_eq
    omega
  · intro h
    have heq : v.actualStake.toNat
        = min candidate.proposedStake.toNat (candidate.cap last.proposedStake.toNat) := by
      rw [hval]
      omega
    exact ⟨hkey, heq, by omega, by omega, by omega⟩

/-- two lists whose elements are paired already -/
theorem forall₂_iff {α β : Type} {Q R : α → β → Prop} {P : α → Prop} {l : List α} {m : List β}
    (h : List.Forall₂ Q l m) (hiff : ∀ a ∈ l, ∀ b, Q a b → (R a b ↔ P a)) :
    List.Forall₂ R l m ↔ ∀ a ∈ l, P a := by
  induction h with
  | nil => exact iff_of_true .nil nofun
  | cons hab _ ih =>
    rw [List.forall₂_cons, List.forall_mem_cons, hiff _ List.mem_cons_self _ hab,
      ih fun a ha => hiff a (List.mem_cons_of_mem _ ha)]

/-- **When every elected validator has the stake it should have.** -/
theorem elected_stake_iff {result : ElectionResult}
    (h : runElection candidates config = .ok result) :
    ∃ last, (selected candidates config).getLast? = some last
      ∧ (List.Forall₂ (StakedAs last.proposedStake.toNat) (selected candidates config)
          result.validators
        ↔ ∀ candidate ∈ selected candidates config,
          candidate.Narrows last.proposedStake.toNat) := by
  obtain ⟨hcheck, last, hlast, rfl⟩ := runElection_ok h
  obtain ⟨hadmissible, _⟩ := checkCandidates_ok.mp hcheck
  have hsorted : (selected candidates config).Pairwise
      (fun left right => candidateKey left ≤ candidateKey right) :=
    (KeySort.pairwise_sort candidates).sublist (List.take_sublist _ _)
  have hmem : last ∈ selected candidates config := List.mem_of_getLast? hlast
  have hsettled := settleCandidates_validators
    (min (sortCandidates candidates).length config.validatorCap) last.proposedStake 0
    (sortCandidates candidates)
  have htake : (sortCandidates candidates).take
      (min (sortCandidates candidates).length config.validatorCap) = selected candidates config := by
    rw [min_comm, ← List.take_eq_take_min]
    rfl
  rw [Nat.sub_zero, htake] at hsettled
  refine ⟨last, hlast, forall₂_iff hsettled fun candidate hc v ⟨hkey, hstake⟩ => ?_⟩
  have hle : last.proposedStake ≤ candidate.proposedStake := by
    have hrank := KeySort.le_getLast hsorted hlast hc
    rcases Prod.Lex.le_iff.mp hrank with hlt | ⟨heq, _⟩
    · exact le_of_lt hlt
    · exact le_of_eq heq.symm
  exact stakedAs_iff (hadmissible _ (mem_of_selected hc))
    (hadmissible _ (mem_of_selected hmem)).stake_ne hle hkey hstake

end

/-- four candidates, of whom three are selected; the third has 200 -/
def sampleCandidates : List CandidateValidatorSpec :=
  [⟨⟨4⟩, 100, 100⟩, ⟨⟨1⟩, 1000, 200⟩, ⟨⟨3⟩, 200, 100⟩, ⟨⟨2⟩, 500, 300⟩]

theorem elected_stake_sample :
    List.Forall₂ (StakedAs 200) [⟨⟨1⟩, 1000, 200⟩, ⟨⟨2⟩, 500, 300⟩, ⟨⟨3⟩, 200, 100⟩]
      [⟨0, ⟨1⟩, 400⟩, ⟨1, ⟨2⟩, 500⟩, ⟨2, ⟨3⟩, 200⟩] := by
  have hrun : runElection sampleCandidates ⟨3, 1000⟩ = .ok
      ⟨[⟨0, ⟨1⟩, 400⟩, ⟨1, ⟨2⟩, 500⟩, ⟨2, ⟨3⟩, 200⟩],
        [⟨⟨1⟩, 600⟩, ⟨⟨2⟩, 0⟩, ⟨⟨3⟩, 0⟩, ⟨⟨4⟩, 100⟩]⟩ := rfl
  have hselected : selected sampleCandidates ⟨3, 1000⟩
      = [⟨⟨1⟩, 1000, 200⟩, ⟨⟨2⟩, 500, 300⟩, ⟨⟨3⟩, 200, 100⟩] := rfl
  obtain ⟨last, hlast, hiff⟩ := elected_stake_iff hrun
  rw [hselected] at hlast hiff
  cases hlast
  exact hiff.mpr (by decide)

/-- 2^63, and twice as much allowed -/
def loneCandidate : CandidateValidatorSpec := ⟨⟨1⟩, 0x8000000000000000, 200⟩

theorem elected_without_stake :
    runElection [loneCandidate] ElectionConfig.default
      = .ok ⟨[⟨0, ⟨1⟩, 0⟩], [⟨⟨1⟩, 0x8000000000000000⟩]⟩
    ∧ ¬ ∀ candidates config result, runElection candidates config = .ok result →
      ∃ last, (selected candidates config).getLast? = some last
        ∧ List.Forall₂ (StakedAs last.proposedStake.toNat) (selected candidates config)
          result.validators := by
  have hrun : runElection [loneCandidate] ElectionConfig.default
      = .ok ⟨[⟨0, ⟨1⟩, 0⟩], [⟨⟨1⟩, 0x8000000000000000⟩]⟩ := rfl
  refine ⟨hrun, fun h => ?_⟩
  obtain ⟨last, _, hstaked⟩ := h _ _ _ hrun
  cases hstaked with
  | cons hlone _ => exact absurd hlone.pos (by decide)

end Onx.Consensus
