import Onx.Lib.Slices
import Onx.Sharding.Tree

/-!
# The load triggers

Whether the load of a shard asks for a split or a merge is decided in two places: over averages, in
64-bit products, and over a window of samples, in 128-bit products.

* `percentMet_eq`           a comparison of percentages, and where it overflows;
* `triggerMet_replicate`    a window of equal samples is decided by one of them;
* `triggers_agree_iff`      **when the two places agree**: exactly if no 64-bit product overflows and
                            an unset limit does not decide;
* `unset_limits`            loads and limits of zero, on which they differ.
-/

namespace Onx.Sharding
open Checked

structure LoadSample where
  blockBytes : Uint64
  gasUsed : Uint64
deriving DecidableEq

def SPLIT_LOAD_WINDOW_BLOCKS : Nat := 256
def MERGE_LOAD_WINDOW_BLOCKS : Nat := 1024

def atLeast (a b : Nat) : Bool := decide (b ≤ a)
def atMost (a b : Nat) : Bool := decide (a ≤ b)

/-- `value * 100` compared with `limit * percent` -/
def percentMet {w : Nat} (compare : Nat → Nat → Bool) (value limit percent : BitVec w) :
    Option Bool := do
  let scaled ← wordMul value 100
  let bound ← wordMul limit percent
  some (compare scaled.toNat bound.toNat)

/-- `&&`, which does not look at the right side if the left one is false -/
def both (left right : Option Bool) : Option Bool := do
  if ← left then right else some false

/-! ## over averages -/

def ShardTreeNode.shouldSplit (blockBytesAvg byteLimit gasUsedAvg gasLimit : Uint64) : Option Bool :=
  both (percentMet atLeast blockBytesAvg byteLimit 75) (percentMet atLeast gasUsedAvg gasLimit 75)

def ShardTreeNode.shouldMerge (blockBytesAvg byteLimit gasUsedAvg gasLimit : Uint64) : Option Bool :=
  both (percentMet atMost blockBytesAvg byteLimit 20) (percentMet atMost gasUsedAvg gasLimit 20)

/-! ## over a window -/

/-- a comparison in 128 bits that no unset limit passes -/
def limitedPercent (compare : Nat → Nat → Bool) (value limit percent : Uint64) : Option Bool :=
  both (some (decide (limit ≠ 0)))
    (percentMet compare (value.setWidth 128) (limit.setWidth 128) (percent.setWidth 128))

def atLeastPercent : Uint64 → Uint64 → Uint64 → Option Bool := limitedPercent atLeast

def atMostPercent : Uint64 → Uint64 → Uint64 → Option Bool := limitedPercent atMost

/-- a full window, all of whose samples pass both comparisons -/
def triggerMet (window : Nat) (compare : Uint64 → Uint64 → Uint64 → Option Bool) (percent : Uint64)
    (samples : List LoadSample) (byteLimit gasLimit : Uint64) : Option Bool :=
  both (some (decide (samples.length = window))) (samples.allM fun sample =>
    both (compare sample.blockBytes byteLimit percent) (compare sample.gasUsed gasLimit percent))

def splitTriggerMet : List LoadSample → Uint64 → Uint64 → Option Bool :=
  triggerMet SPLIT_LOAD_WINDOW_BLOCKS atLeastPercent 75

def mergeTriggerMet : List LoadSample → Uint64 → Uint64 → Option Bool :=
  triggerMet MERGE_LOAD_WINDOW_BLOCKS atMostPercent 20

/-! ## what they decide -/

@[simp] theorem both_true (right : Option Bool) : both (some true) right = right := rfl

@[simp] theorem both_false (right : Option Bool) : both (some false) right = some false := rfl

theorem both_some (a b : Bool) : both (some a) (some b) = some (a && b) := by
  cases a <;> rfl

theorem percentMet_eq {w : Nat} (compare : Nat → Nat → Bool) {value limit percent : BitVec w}
    (hw : 100 < 2^w) :
    percentMet compare value limit percent
      = if value.toNat * 100 < 2^w ∧ limit.toNat * percent.toNat < 2^w then
          some (compare (value.toNat * 100) (limit.toNat * percent.toNat))
        else none := by
  have hundred : (100 : BitVec w).toNat = 100 := by
    show 100 % 2^w = 100
    exact Nat.mod_eq_of_lt hw
  unfold percentMet wordMul
  rw [hundred]
  by_cases hvalue : value.toNat * 100 < 2^w
  · by_cases hlimit : limit.toNat * percent.toNat < 2^w
    · rw [if_pos hvalue, if_pos hlimit, if_pos ⟨hvalue, hlimit⟩]
      show some (compare (value * 100).toNat (limit * percent).toNat) = _
      rw [BitVec.toNat_mul, BitVec.toNat_mul, hundred, Nat.mod_eq_of_lt hvalue,
        Nat.mod_eq_of_lt hlimit]
    · have hnot : ¬ (value.toNat * 100 < 2^w ∧ limit.toNat * percent.toNat < 2^w) :=
        fun h => hlimit h.2
      rw [if_pos hvalue, if_neg hlimit, if_neg hnot]
      rfl
  · have hnot : ¬ (value.toNat * 100 < 2^w ∧ limit.toNat * percent.toNat < 2^w) :=
      fun h => hvalue h.1
    rw [if_neg hvalue, if_neg hnot]
    rfl

/-- nothing overflows in 128 bits -/
theorem limitedPercent_eq (compare : Nat → Nat → Bool) (value limit percent : Uint64) :
    limitedPercent compare value limit percent
      = some (decide (limit ≠ 0)
        && compare (value.toNat * 100) (limit.toNat * percent.toNat)) := by
  have hvalue := value.isLt
  have hproduct : limit.toNat * percent.toNat < 2^64 * 2^64 :=
    Nat.mul_lt_mul'' limit.isLt percent.isLt
  unfold limitedPercent
  rw [percentMet_eq compare (show 100 < 2^128 by decide)]
  simp only [BitVec.toNat_setWidth_of_le (show 64 ≤ 128 by decide)]
  rw [if_pos ⟨by omega, by omega⟩, both_some]

/-- a window of one sample over and over -/
theorem allM_replicate {f : LoadSample → Option Bool} {sample : LoadSample} {b : Bool}
    (h : f sample = some b) (n : Nat) : (List.replicate (n + 1) sample).allM f = some b := by
  have hstep : ∀ n, (List.replicate (n + 1) sample).allM f
      = if b then (List.replicate n sample).allM f else some false := by
    intro n
    rw [List.replicate_succ, List.allM, h]
    cases b <;> rfl
  induction n with
  | zero =>
    rw [hstep]
    cases b <;> rfl
  | succ n ih =>
    rw [hstep, ih]
    cases b <;> rfl

theorem triggerMet_replicate (compare : Nat → Nat → Bool) (n : Nat)
    (b B g G percent : Uint64) :
    triggerMet (n + 1) (limitedPercent compare) percent (List.replicate (n + 1) ⟨b, g⟩) B G
      = some ((decide (B ≠ 0) && compare (b.toNat * 100) (B.toNat * percent.toNat))
        && (decide (G ≠ 0) && compare (g.toNat * 100) (G.toNat * percent.toNat))) := by
  unfold triggerMet
  rw [List.length_replicate, decide_eq_true rfl, both_true, allM_replicate]
  dsimp only
  rw [limitedPercent_eq, limitedPercent_eq, both_some]

/-! ## where they agree -/

section
variable (b B g G : Uint64)

/-- the two places decide alike and do not panic, and never split and merge at once -/
structure TriggersAgree : Prop where
  split : ∃ answer, ShardTreeNode.shouldSplit b B g G = some answer
    ∧ splitTriggerMet (List.replicate SPLIT_LOAD_WINDOW_BLOCKS ⟨b, g⟩) B G = some answer
  merge : ∃ answer, ShardTreeNode.shouldMerge b B g G = some answer
    ∧ mergeTriggerMet (List.replicate MERGE_LOAD_WINDOW_BLOCKS ⟨b, g⟩) B G = some answer
  exclusive_averages : ¬ (ShardTreeNode.shouldSplit b B g G = some true
    ∧ ShardTreeNode.shouldMerge b B g G = some true)
  exclusive_windows : ¬ (splitTriggerMet (List.replicate SPLIT_LOAD_WINDOW_BLOCKS ⟨b, g⟩) B G = some true
    ∧ mergeTriggerMet (List.replicate MERGE_LOAD_WINDOW_BLOCKS ⟨b, g⟩) B G = some true)

/-- no 64-bit product that is computed overflows -/
structure ProductsFit : Prop where
  bytes : b.toNat * 100 < 2^64 ∧ B.toNat * 75 < 2^64
  split_gas : B.toNat * 75 ≤ b.toNat * 100 → g.toNat * 100 < 2^64 ∧ G.toNat * 75 < 2^64
  merge_gas : b.toNat * 100 ≤ B.toNat * 20 → g.toNat * 100 < 2^64 ∧ G.toNat * 20 < 2^64

/-- where one limit is unset, the load under the other one asks for no transition -/
structure UnsetIdle : Prop where
  bytes : B = 0 → g.toNat * 100 < G.toNat * 75 ∧ (b = 0 → G.toNat * 20 < g.toNat * 100)
  gas : G = 0 → b.toNat * 100 < B.toNat * 75 ∧ (g = 0 → B.toNat * 20 < b.toNat * 100)

variable {b B g G}

/-- the factors of a comparison give no overflow -/
abbrev Fits (value limit percent : Uint64) : Prop :=
  value.toNat * 100 < 2^64 ∧ limit.toNat * percent.toNat < 2^64

theorem both_percentMet (compare : Nat → Nat → Bool) (percent : Uint64) :
    both (percentMet compare b B percent) (percentMet compare g G percent)
      = if Fits b B percent then
          if compare (b.toNat * 100) (B.toNat * percent.toNat) then
            if Fits g G percent then some (compare (g.toNat * 100) (G.toNat * percent.toNat)) else none
          else some false
        else none := by
  rw [percentMet_eq compare (show 100 < 2^64 by decide), percentMet_eq compare (show 100 < 2^64 by decide)]
  by_cases hfit : Fits b B percent
  · rw [if_pos hfit, if_pos hfit]
    cases hload : compare (b.toNat * 100) (B.toNat * percent.toNat) with
    | true => rfl
    | false => rfl
  · rw [if_neg hfit, if_neg hfit]
    rfl

theorem same_some_iff {x y : Bool} : (∃ answer, some x = some answer ∧ some y = some answer) ↔ y = x :=
  ⟨fun ⟨_, h, h'⟩ => Option.some.inj (h'.trans h.symm), fun h => ⟨x, rfl, congrArg some h⟩⟩

/-- where one trigger agrees with its window -/
theorem same_answer_iff (compare : Nat → Nat → Bool) (percent : Uint64) (n : Nat) :
    (∃ answer, both (percentMet compare b B percent) (percentMet compare g G percent) = some answer
      ∧ triggerMet (n + 1) (limitedPercent compare) percent (List.replicate (n + 1) ⟨b, g⟩) B G
        = some answer)
    ↔ Fits b B percent
      ∧ (compare (b.toNat * 100) (B.toNat * percent.toNat) = true → Fits g G percent)
      ∧ (B = 0 ∨ G = 0 → compare (b.toNat * 100) (B.toNat * percent.toNat) = true →
        compare (g.toNat * 100) (G.toNat * percent.toNat) = false) := by
  rw [triggerMet_replicate, both_percentMet]
  by_cases hfit : Fits b B percent
  · rw [if_pos hfit, and_iff_right hfit]
    cases hload : compare (b.toNat * 100) (B.toNat * percent.toNat) with
    | false =>
      rw [Bool.and_false, Bool.false_and]
      exact iff_of_true ⟨false, rfl, rfl⟩ ⟨nofun, fun _ => nofun⟩
    | true =>
      by_cases hgas : Fits g G percent
      · rw [if_pos rfl, if_pos hgas, Bool.and_true, same_some_iff]
        by_cases hset : B = 0 ∨ G = 0
        · have hwindow : (decide (B ≠ 0) && (decide (G ≠ 0)
              && compare (g.toNat * 100) (G.toNat * percent.toNat))) = false := by
            rcases hset with hzero | hzero <;> simp [hzero]
          rw [hwindow]
          exact ⟨fun hidle => ⟨fun _ => hgas, fun _ _ => hidle.symm⟩, fun h => (h.2 hset rfl).symm⟩
        · obtain ⟨hB, hG⟩ := not_or.mp hset
          rw [decide_eq_true hB, decide_eq_true hG, Bool.true_and, Bool.true_and]
          exact iff_of_true rfl ⟨fun _ => hgas, fun h => absurd h hset⟩
      · rw [if_pos rfl, if_neg hgas]
        exact iff_of_false (fun ⟨_, h, _⟩ => nomatch h) fun h => hgas (h.1 rfl)
  · rw [if_neg hfit]
    exact iff_of_false (fun ⟨_, h, _⟩ => nomatch h) fun h => hfit h.1

theorem split_iff : (∃ answer, ShardTreeNode.shouldSplit b B g G = some answer
      ∧ splitTriggerMet (List.replicate SPLIT_LOAD_WINDOW_BLOCKS ⟨b, g⟩) B G = some answer)
    ↔ Fits b B 75 ∧ (B.toNat * 75 ≤ b.toNat * 100 → Fits g G 75)
      ∧ (B = 0 ∨ G = 0 → B.toNat * 75 ≤ b.toNat * 100 → g.toNat * 100 < G.toNat * 75) := by
  have h := @same_answer_iff b B g G atLeast 75 255
  unfold atLeast at h
  simp only [decide_eq_true_eq, decide_eq_false_iff_not, Nat.not_le] at h
  exact h

theorem merge_iff : (∃ answer, ShardTreeNode.shouldMerge b B g G = some answer
      ∧ mergeTriggerMet (List.replicate MERGE_LOAD_WINDOW_BLOCKS ⟨b, g⟩) B G = some answer)
    ↔ Fits b B 20 ∧ (b.toNat * 100 ≤ B.toNat * 20 → Fits g G 20)
      ∧ (B = 0 ∨ G = 0 → b.toNat * 100 ≤ B.toNat * 20 → G.toNat * 20 < g.toNat * 100) := by
  have h := @same_answer_iff b B g G atMost 20 1023
  unfold atMost at h
  simp only [decide_eq_true_eq, decide_eq_false_iff_not, Nat.not_le] at h
  exact h

/-- no window asks for both -/
theorem windows_exclusive :
    ¬ (splitTriggerMet (List.replicate SPLIT_LOAD_WINDOW_BLOCKS ⟨b, g⟩) B G = some true
      ∧ mergeTriggerMet (List.replicate MERGE_LOAD_WINDOW_BLOCKS ⟨b, g⟩) B G = some true) := by
  rintro ⟨hsplit, hmerge⟩
  have h := triggerMet_replicate atLeast 255 b B g G 75
  have h' := triggerMet_replicate atMost 1023 b B g G 20
  have hsplit' := Option.some.inj (h.symm.trans hsplit)
  have hmerge' := Option.some.inj (h'.symm.trans hmerge)
  simp only [atLeast, atMost, Bool.and_eq_true, decide_eq_true_eq, ne_eq] at hsplit' hmerge'
  obtain ⟨⟨hlimit, hload⟩, _⟩ := hsplit'
  obtain ⟨⟨_, hload'⟩, _⟩ := hmerge'
  have hpos : B.toNat ≠ 0 := fun hzero => hlimit (BitVec.eq_of_toNat_eq hzero)
  change B.toNat * 75 ≤ b.toNat * 100 at hload
  change b.toNat * 100 ≤ B.toNat * 20 at hload'
  omega

/-- **When the two places agree**: exactly if no product overflows and no unset limit decides. -/
theorem triggers_agree_iff (b B g G : Uint64) :
    TriggersAgree b B g G ↔ ProductsFit b B g G ∧ UnsetIdle b B g G := by
  have hzero : ∀ x : Uint64, x = 0 ↔ x.toNat = 0 :=
    fun x => ⟨fun h => h ▸ rfl, fun h => BitVec.eq_of_toNat_eq h⟩
  constructor
  · intro h
    obtain ⟨⟨hb, hB⟩, hgas, hidle⟩ := split_iff.mp h.split
    obtain ⟨_, hgas', hidle'⟩ := merge_iff.mp h.merge
    refine ⟨⟨⟨hb, hB⟩, hgas, hgas'⟩, ⟨fun hlimit => ?_, fun hlimit => ?_⟩⟩
    · have hnat := (hzero B).mp hlimit
      refine ⟨hidle (.inl hlimit) (by omega), fun hload => hidle' (.inl hlimit) ?_⟩
      rw [hload]
      exact Nat.zero_le _
    · have hnat := (hzero G).mp hlimit
      refine ⟨Nat.not_le.mp fun hload => ?_, fun hload => Nat.not_le.mp fun hle => ?_⟩
      · have := hidle (.inr hlimit) hload
        omega
      · have := hidle' (.inr hlimit) hle
        rw [(hzero g).mp hload] at this
        omega
  · rintro ⟨hfit, hidle⟩
    have hbytes := hfit.bytes.2
    have hsplit := split_iff.mpr ⟨hfit.bytes, hfit.split_gas, fun hset hload => by
      rcases hset with hlimit | hlimit
      · exact (hidle.bytes hlimit).1
      · exact absurd hload (Nat.not_le.mpr (hidle.gas hlimit).1)⟩
    have hmerge := merge_iff.mpr ⟨⟨hfit.bytes.1, show B.toNat * 20 < 2^64 by omega⟩, hfit.merge_gas,
      fun hset hload => by
        rcases hset with hlimit | hlimit
        · have hnat := (hzero B).mp hlimit
          exact (hidle.bytes hlimit).2 ((hzero b).mpr (by omega))
        · have hnat := (hzero G).mp hlimit
          by_contra hle
          have hless := (hidle.gas hlimit).2 ((hzero g).mpr (by omega))
          omega⟩
    refine ⟨hsplit, hmerge, fun ⟨h, h'⟩ => @windows_exclusive b B g G ?_, windows_exclusive⟩
    obtain ⟨_, hanswer, hwindow⟩ := hsplit
    obtain ⟨_, hanswer', hwindow'⟩ := hmerge
    exact ⟨hwindow.trans (hanswer.symm.trans h), hwindow'.trans (hanswer'.symm.trans h')⟩

end

/-- **Loads and limits of zero.** -/
theorem unset_limits : ¬ TriggersAgree 0 0 0 0 := by
  intro h
  obtain ⟨_, _, hidle⟩ := split_iff.mp h.split
  exact absurd (hidle (.inl rfl) (Nat.le_refl 0)) (Nat.lt_irrefl 0)

end Onx.Sharding
