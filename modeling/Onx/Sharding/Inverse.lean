import Onx.Lib.KeySort
import Onx.Sharding.Partition

/-!
# Split and merge are inverse

Where no two pending messages share a hash, sorting a queue forgets the order it had.  So a split
followed by a merge gives back the state with its queue sorted, and a merge followed by a split the
two states with their queues sorted.

* `sortMessages_congr`     queues with the same messages sort to the same queue;
* `merge_split`, `split_merge`   the two directions;
* `split_merge_inverse`    both.
-/

namespace Onx.Sharding

/-- no two of the messages share a hash -/
def DistinctHashes (c : Crypto) (ms : List Message) : Prop :=
  ∀ m ∈ ms, ∀ m' ∈ ms, m.messageHash c = m'.messageHash c → m = m'

instance (c : Crypto) (ms : List Message) : Decidable (DistinctHashes c ms) := by
  unfold DistinctHashes
  infer_instance

/-- the state with its queue in canonical order -/
def ShardState.sorted (c : Crypto) (s : ShardState) : ShardState :=
  ⟨s.shard, s.accounts, sortMessages c s.pendingMessages⟩

section
variable {c : Crypto} {w : WorkchainIdent} {p : BitPrefix}

theorem DistinctHashes.subset {ms ms' : List Message} (h : DistinctHashes c ms)
    (hsub : ∀ m ∈ ms', m ∈ ms) : DistinctHashes c ms' :=
  fun m hm m' hm' heq => h m (hsub m hm) m' (hsub m' hm') heq

/-- the sorted queue depends only on which messages are queued -/
theorem sortMessages_congr {ms ms' : List Message} (hd : DistinctHashes c ms) (hp : ms.Perm ms') :
    sortMessages c ms = sortMessages c ms' := by
  refine KeySort.sort_congr (fun m hm m' hm' hkey => ?_) hp
  have hhash : m.messageHash c = m'.messageHash c := congrArg (fun k => (ofLex k).2) hkey
  exact hd m hm m' hm' hhash

/-- the two parts of a state, in either order -/
theorem merge_parts {s : ShardState} (hlen : p.len < 60) (hown : Owns w p s)
    (hd : DistinctHashes c s.pendingMessages) (b : Bool) :
    mergeShardStates c (part c w s (p.child b)) (part c w s (p.child (!b))) = .ok (s.sorted c) := by
  have h1 := owns_part (c:=c) hown hlen b
  have h2 := owns_part (c:=c) hown hlen (!b)
  have hacc : ((part c w s (p.child b)).accounts.entries
      ++ (part c w s (p.child (!b))).accounts.entries).Perm s.accounts.entries := by
    cases b with
    | false => exact perm_parts_accounts hlen hown
    | true => exact List.perm_append_comm.trans (perm_parts_accounts (c:=c) hlen hown)
  have hmsg : ((part c w s (p.child b)).pendingMessages
      ++ (part c w s (p.child (!b))).pendingMessages).Perm s.pendingMessages := by
    cases b with
    | false => exact perm_parts_messages hlen hown
    | true => exact List.perm_append_comm.trans (perm_parts_messages (c:=c) hlen hown)
  have hjoin : joined c w p (part c w s (p.child b)) (part c w s (p.child (!b))) = s.sorted c := by
    unfold ShardState.sorted
    rw [sortMessages_congr hd hmsg.symm, hown.shard]
    have hmap : (part c w s (p.child b)).accounts.extend (part c w s (p.child (!b))).accounts
        = s.accounts := OrdMap.ext_perm ((perm_joined_accounts (c:=c) hlen h1 h2).trans hacc)
    rw [← hmap]
    rfl
  exact mergeShardStates_iff.mpr ⟨w, p, b, hlen, h1, h2, hjoin.symm⟩

theorem merge_split {s l r : ShardState} (hd : DistinctHashes c s.pendingMessages)
    (h : splitShardState c s = .ok (l, r)) :
    mergeShardStates c l r = .ok (s.sorted c) ∧ mergeShardStates c r l = .ok (s.sorted c) := by
  obtain ⟨w, p, hlen, hown, rfl, rfl⟩ := splitShardState_iff.mp h
  exact ⟨merge_parts hlen hown hd false, merge_parts hlen hown hd true⟩

/-- the part of the merged state that belongs to a sibling is the sibling -/
theorem part_joined {first second x y : ShardState} {b d : Bool} (hlen : p.len < 60)
    (h1 : Owns w (p.child b) first) (h2 : Owns w (p.child (!b)) second)
    (hx : Owns w (p.child d) x) (hy : Owns w (p.child (!d)) y)
    (hacc : (first.accounts.entries ++ second.accounts.entries).Perm
      (x.accounts.entries ++ y.accounts.entries))
    (hmsg : (first.pendingMessages ++ second.pendingMessages).Perm
      (x.pendingMessages ++ y.pendingMessages))
    (hd : DistinctHashes c (first.pendingMessages ++ second.pendingMessages)) :
    part c w (joined c w p first second) (p.child d) = x.sorted c := by
  have hin : ∀ a, covered (p.child (!d)) a = true → covered (p.child d) a = false := by
    intro a h
    rw [covered_not_child (by omega), Bool.and_eq_true] at h
    simpa using h.2
  have hfilter : (x.accounts.entries ++ y.accounts.entries).filter (fun e => covered (p.child d) e.1)
      = x.accounts.entries := by
    rw [List.filter_append, List.filter_eq_self.mpr, List.filter_eq_nil_iff.mpr, List.append_nil]
    · intro e he
      rw [hin _ (hy.accounts e.1 (List.mem_map_of_mem he))]
      simp
    · exact fun e he => hx.accounts e.1 (List.mem_map_of_mem he)
  have hfilterM : (x.pendingMessages ++ y.pendingMessages).filter
      (fun m => covered (p.child d) m.destAddress.accountId) = x.pendingMessages := by
    rw [List.filter_append, List.filter_eq_self.mpr, List.filter_eq_nil_iff.mpr, List.append_nil]
    · intro m hm
      rw [hin _ (hy.messages m hm).2]
      simp
    · exact fun m hm => (hx.messages m hm).2
  have haccounts : (joined c w p first second).accounts.filterKeys (covered (p.child d))
      = x.accounts := by
    refine OrdMap.ext_perm ?_
    rw [← hfilter]
    exact ((perm_joined_accounts (c:=c) hlen h1 h2).trans hacc).filter _
  have hmessages : sortMessages c ((joined c w p first second).pendingMessages.filter
      (fun m => covered (p.child d) m.destAddress.accountId)) = sortMessages c x.pendingMessages := by
    refine sortMessages_congr (hd.subset fun m hm => ?_) ?_
    · exact mem_sortMessages.mp (List.mem_filter.mp hm).1
    · rw [← hfilterM]
      exact ((perm_sortMessages _).trans hmsg).filter _
  unfold part ShardState.sorted
  rw [haccounts, hmessages, hx.shard]

theorem split_merge {a b s : ShardState} (hd : DistinctHashes c (a.pendingMessages ++ b.pendingMessages))
    (h : mergeShardStates c a b = .ok s) :
    ∃ (w : WorkchainIdent) (p : BitPrefix) (bit : Bool),
      a.shard = .ofPrefix w (p.child bit) ∧ b.shard = .ofPrefix w (p.child (!bit))
      ∧ splitShardState c s
        = .ok (if bit then (b.sorted c, a.sorted c) else (a.sorted c, b.sorted c)) := by
  obtain ⟨w, p, bit, hlen, ha, hb, rfl⟩ := mergeShardStates_iff.mp h
  refine ⟨w, p, bit, ha.shard, hb.shard, ?_⟩
  rw [splitShardState_part hlen (owns_joined hlen ha hb)]
  have hcommA : (a.accounts.entries ++ b.accounts.entries).Perm
      (b.accounts.entries ++ a.accounts.entries) := List.perm_append_comm
  have hcommM : (a.pendingMessages ++ b.pendingMessages).Perm
      (b.pendingMessages ++ a.pendingMessages) := List.perm_append_comm
  have hA : part c w (joined c w p a b) (p.child bit) = a.sorted c :=
    part_joined hlen ha hb ha hb (List.Perm.refl _) (List.Perm.refl _) hd
  have hB : part c w (joined c w p a b) (p.child (!bit)) = b.sorted c := by
    refine part_joined (y:=a) hlen ha hb hb ?_ hcommA hcommM hd
    rwa [Bool.not_not]
  cases bit with
  | false =>
    rw [hA, show part c w (joined c w p a b) (p.child true) = b.sorted c from hB]
    rfl
  | true =>
    rw [hA, show part c w (joined c w p a b) (p.child false) = b.sorted c from hB]
    rfl

end

/-- **Split and merge are inverse**, but for the order of the queues, if no two messages in them share
a hash. -/
theorem split_merge_inverse (c : Crypto) :
    (∀ s l r, DistinctHashes c s.pendingMessages → splitShardState c s = .ok (l, r) →
      mergeShardStates c l r = .ok (s.sorted c) ∧ mergeShardStates c r l = .ok (s.sorted c))
    ∧ ∀ a b s, DistinctHashes c (a.pendingMessages ++ b.pendingMessages) →
      mergeShardStates c a b = .ok s →
      ∃ (w : WorkchainIdent) (p : BitPrefix) (bit : Bool),
        a.shard = .ofPrefix w (p.child bit) ∧ b.shard = .ofPrefix w (p.child (!bit))
        ∧ splitShardState c s
          = .ok (if bit then (b.sorted c, a.sorted c) else (a.sorted c, b.sorted c)) :=
  ⟨fun _ _ _ hd h => merge_split hd h, fun _ _ _ hd h => split_merge hd h⟩

/-! ## a sample state -/

def sampleMessage (dest : Uint256) (lt : Uint64) : Message where
  msgType := .internal
  srcAddress := ⟨WorkchainIdent.BASIC, ⟨0⟩⟩
  destAddress := ⟨WorkchainIdent.BASIC, ⟨dest⟩⟩
  amountNanos := 0
  extraCurrencies := []
  createdLt := lt
  bodyCellHash := 0

/-- two accounts on both sides of the first bit, and a message to each -/
def sampleState : ShardState where
  shard := .root WorkchainIdent.BASIC
  accounts := (OrdMap.empty.insert ⟨1⟩ .uninitialized).insert ⟨1 <<< 255⟩ .destroyed
  pendingMessages := [sampleMessage (1 <<< 255) 5, sampleMessage 1 3]

/-- the two children of the sample state -/
def sampleChild (b : Bool) : ShardState :=
  part sampleCrypto WorkchainIdent.BASIC sampleState (BitPrefix.root.child b)

theorem sample_splits :
    splitShardState sampleCrypto sampleState = .ok (sampleChild false, sampleChild true) := by
  refine splitShardState_part (by decide) ⟨by decide, rfl, fun a _ => covered_root a, fun m hm => ?_⟩
  refine ⟨?_, covered_root _⟩
  revert m
  decide

theorem split_merge_inverse_sample :
    (mergeShardStates sampleCrypto (sampleChild false) (sampleChild true)
        = .ok (sampleState.sorted sampleCrypto)
      ∧ mergeShardStates sampleCrypto (sampleChild true) (sampleChild false)
        = .ok (sampleState.sorted sampleCrypto))
    ∧ ∃ (w : WorkchainIdent) (p : BitPrefix) (bit : Bool),
      (sampleChild false).shard = .ofPrefix w (p.child bit)
      ∧ (sampleChild true).shard = .ofPrefix w (p.child (!bit))
      ∧ splitShardState sampleCrypto (sampleState.sorted sampleCrypto)
        = .ok (if bit then ((sampleChild true).sorted sampleCrypto, (sampleChild false).sorted sampleCrypto)
          else ((sampleChild false).sorted sampleCrypto, (sampleChild true).sorted sampleCrypto)) := by
  have h := (split_merge_inverse sampleCrypto).1 sampleState _ _ (by decide +kernel) sample_splits
  exact ⟨h, (split_merge_inverse sampleCrypto).2 _ _ _ (by decide +kernel) h.1⟩

end Onx.Sharding
