import Onx.Sharding.Partition

/-!
# Which shards a message concerns

`validate_against_shard` asks one endpoint of an external message, and either endpoint of an internal one.
Over every run of splits and merges an endpoint in the workchain is in exactly one active shard, so that no
message is orphaned, and none concerns more than two shards.

* `validates_iff`     what an endpoint asks of a shard;
* `Divides`           the active shards divide the accounts of a workchain;
* `divides_run`       they do after every run;
* `message_shards`    **how many active shards take a message**.
-/

namespace Onx

def Message.validateAgainstShard (m : Message) (shard : ShardIdent) : Except DataStructureError Unit :=
  match m.msgType with
  | .internal =>
    let srcOk := (m.validateSourceShard shard).isOk
    let destOk := (m.validateDestShard shard).isOk
    if srcOk || destOk then .ok () else .error .addressShardMismatch
  | .externalInbound => m.validateDestShard shard
  | .externalOutbound => m.validateSourceShard shard

namespace Sharding

/-- the shard takes the address -/
def takesAddress (a : FullAddress) (s : ShardState) : Bool := (s.shard.validateFullAddress a).isOk

/-- the shard takes the message -/
def takesMessage (m : Message) (s : ShardState) : Bool := (m.validateAgainstShard s.shard).isOk

/-- the active shards divide the accounts of the workchain -/
structure Divides (w : WorkchainIdent) (active : List ShardState) : Prop where
  shards : ∀ s ∈ active, ∃ p : BitPrefix, p.len ≤ 60 ∧ s.shard = .ofPrefix w p
  one : ∀ a, active.countP (fun s => s.contains a) = 1

section
variable {c : Crypto} {w : WorkchainIdent} {active : List ShardState} {m : Message}

/-! ## endpoints -/

theorem takesAddress_eq {s : ShardState} {p : BitPrefix} (hlen : p.len ≤ 60) (hs : s.shard = .ofPrefix w p)
    (a : FullAddress) : takesAddress a s = (decide (a.workchainId = w) && s.contains a.accountId) := by
  unfold takesAddress ShardState.contains ShardIdent.validateFullAddress ShardIdent.validateAccountId
  rw [hs, containsAccount_covered hlen]
  show Except.isOk (if w ≠ a.workchainId then _ else _) = _
  by_cases hw : a.workchainId = w
  · rw [if_neg (not_not.mpr hw.symm), decide_eq_true hw]
    cases covered p a.accountId <;> rfl
  · rw [if_pos (Ne.symm hw), decide_eq_false hw]
    rfl

/-- an endpoint in the workchain is in one active shard -/
theorem Divides.countP_address (h : Divides w active) (a : FullAddress) :
    active.countP (takesAddress a) = if a.workchainId = w then 1 else 0 := by
  have hsame : ∀ s ∈ active, takesAddress a s = (decide (a.workchainId = w) && s.contains a.accountId) := by
    intro s hs
    obtain ⟨p, hlen, hp⟩ := h.shards s hs
    exact takesAddress_eq hlen hp a
  rw [List.countP_congr fun s hs => by rw [hsame s hs]]
  by_cases hw : a.workchainId = w
  · rw [if_pos hw, decide_eq_true hw]
    exact h.one a.accountId
  · rw [if_neg hw, decide_eq_false hw]
    exact List.countP_eq_zero.mpr fun _ _ => Bool.false_ne_true

theorem countP_either {α : Type} (p q : α → Bool) (l : List α) :
    l.countP (fun x => p x || q x) + l.countP (fun x => p x && q x) = l.countP p + l.countP q := by
  induction l with
  | nil => rfl
  | cons x l ih =>
    simp only [List.countP_cons]
    cases p x <;> cases q x <;> simp <;> omega

/-! ## runs -/

theorem Split.divides {initial : ShardState} (h : Split w initial active) : Divides w active :=
  ⟨fun s hs => (h.owns s hs).imp fun _ hp => ⟨hp.len, hp.shard⟩, h.one⟩

theorem divides_root (accounts : OrdMap AccountId AccountState) (messages : List Message) :
    Divides w [⟨.root w, accounts, messages⟩] := by
  refine ⟨fun s hs => ?_, fun a => ?_⟩
  · rw [List.mem_singleton.mp hs]
    exact ⟨BitPrefix.root, Nat.zero_le _, ShardIdent.root_eq w⟩
  · rw [List.countP_singleton, contains_root (w := w) rfl a, if_pos rfl]

theorem divides_run (accounts : OrdMap AccountId AccountState) (messages : List Message) (ts : List Transition) :
    Divides w (Runs.run (Transition.apply c) [⟨.root w, accounts, messages⟩] ts) := by
  have hroot := divides_root (w := w) accounts messages
  by_cases hval : (ShardState.mk (.root w) accounts messages).validateOwnership = .ok ()
  · have hown := (owns_root (w := w) _ rfl).mp hval
    have hinit : Split w ⟨.root w, accounts, messages⟩ [⟨.root w, accounts, messages⟩] := by
      refine ⟨fun s hs => ?_, hroot.one, ?_, ?_⟩
      · rw [List.mem_singleton.mp hs]
        exact ⟨_, hown⟩
      · rw [List.flatMap_singleton]
      · rw [List.flatMap_singleton]
    exact (Runs.run_inv (I := Split w ⟨.root w, accounts, messages⟩)
      (fun _ t h => h.apply (c := c) t) ts hinit).divides
  · -- a state that cannot be split stays alone
    have hstuck := Runs.run_inv (I := fun active => active = [ShardState.mk (.root w) accounts messages])
      (fun active t h => by rw [h]; exact apply_stuck (c := c) hval t) ts rfl
    rw [hstuck]
    exact hroot

/-! ## messages -/

theorem takesMessage_internal (hm : m.msgType = .internal) :
    takesMessage m = fun s => takesAddress m.srcAddress s || takesAddress m.destAddress s := by
  funext s
  unfold takesMessage Message.validateAgainstShard
  rw [hm]
  show Except.isOk (if (takesAddress m.srcAddress s || takesAddress m.destAddress s) = true then _ else _) = _
  cases takesAddress m.srcAddress s || takesAddress m.destAddress s <;> rfl

theorem takesMessage_inbound (hm : m.msgType = .externalInbound) : takesMessage m = takesAddress m.destAddress := by
  funext s
  unfold takesMessage Message.validateAgainstShard
  rw [hm]
  rfl

theorem takesMessage_outbound (hm : m.msgType = .externalOutbound) : takesMessage m = takesAddress m.srcAddress := by
  funext s
  unfold takesMessage Message.validateAgainstShard
  rw [hm]
  rfl

/-- at most one active shard has both endpoints -/
theorem Divides.countP_both (h : Divides w active) (a b : FullAddress) :
    active.countP (fun s => takesAddress a s && takesAddress b s)
      = if ∃ s ∈ active, takesAddress a s ∧ takesAddress b s then 1 else 0 := by
  have hle : active.countP (fun s => takesAddress a s && takesAddress b s) ≤ 1 := by
    refine (List.countP_mono_left fun s _ hs => (Bool.and_eq_true_iff.mp hs).1).trans ?_
    rw [h.countP_address a]
    split_ifs <;> decide
  split_ifs with hboth
  · obtain ⟨s, hs, ha, hb⟩ := hboth
    have hpos : 0 < active.countP (fun s => takesAddress a s && takesAddress b s) :=
      List.countP_pos_iff.mpr ⟨s, hs, Bool.and_eq_true_iff.mpr ⟨ha, hb⟩⟩
    exact Nat.le_antisymm hle hpos
  · refine List.countP_eq_zero.mpr fun s hs hno => hboth ⟨s, hs, ?_⟩
    exact Bool.and_eq_true_iff.mp hno

end

/-- **How many active shards take a message** after any run of splits and merges: one for each endpoint in the
workchain that its type asks for, and one less if an internal message has both in one shard. -/
theorem message_shards (c : Crypto) (w : WorkchainIdent) (accounts : OrdMap AccountId AccountState)
    (messages : List Message) (ts : List Transition) (m : Message) :
    (m.msgType = .externalInbound →
      (Runs.run (Transition.apply c) [⟨.root w, accounts, messages⟩] ts).countP (takesMessage m)
        = if m.destAddress.workchainId = w then 1 else 0)
    ∧ (m.msgType = .externalOutbound →
      (Runs.run (Transition.apply c) [⟨.root w, accounts, messages⟩] ts).countP (takesMessage m)
        = if m.srcAddress.workchainId = w then 1 else 0)
    ∧ (m.msgType = .internal →
      (Runs.run (Transition.apply c) [⟨.root w, accounts, messages⟩] ts).countP (takesMessage m)
        + (if ∃ s ∈ Runs.run (Transition.apply c) [⟨.root w, accounts, messages⟩] ts,
            takesAddress m.srcAddress s ∧ takesAddress m.destAddress s then 1 else 0)
        = (if m.srcAddress.workchainId = w then 1 else 0) + if m.destAddress.workchainId = w then 1 else 0) := by
  have h := divides_run (c := c) (w := w) accounts messages ts
  refine ⟨fun hm => ?_, fun hm => ?_, fun hm => ?_⟩
  · rw [takesMessage_inbound hm]
    exact h.countP_address _
  · rw [takesMessage_outbound hm]
    exact h.countP_address _
  · rw [takesMessage_internal hm, ← h.countP_both, countP_either, h.countP_address, h.countP_address]

end Sharding
end Onx
