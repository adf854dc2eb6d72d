import Onx.Transactions.OutputQueue

/-!
# Delivery order over a run

`validate_delivery_order` demands that the logical time of each pair ascends over everything that was
delivered.  `enqueue` compares with the last message of the lane alone, and a lane that runs empty is
removed with its history.

* `validateDeliveryOrder_iff`   what the check demands;
* `ordered_step`                a step keeps the order if an enqueue into a new lane comes after what
                                was delivered for its pair;
* `delivery_order_iff`          a run and all deliveries that may follow it pass the check exactly when
                                all its enqueues do;
* `delivery_out_of_order`       a run that does not.
-/

namespace Onx.Transactions

/-- the second message may be delivered after the first -/
def InOrder (a b : Message) : Prop := laneKey a = laneKey b → a.createdLt < b.createdLt

instance (a b : Message) : Decidable (InOrder a b) := by
  unfold InOrder
  infer_instance

theorem validateFrom_iff (last : OrdMap LaneKey Uint64) (sequence : List Message) :
    OutputQueue.validateFrom last sequence = .ok () ↔
      (∀ m ∈ sequence, ∀ lt, last.get? (laneKey m) = some lt → lt < m.createdLt)
        ∧ sequence.Pairwise InOrder := by
  induction sequence generalizing last with
  | nil => simp [OutputQueue.validateFrom]
  | cons m rest ih =>
    -- the rest is checked against the map with this message as the last of its pair
    have hrest : (∀ m' ∈ rest, ∀ lt,
          (last.insert (laneKey m) m.createdLt).get? (laneKey m') = some lt → lt < m'.createdLt)
        ↔ (∀ m' ∈ rest, InOrder m m')
          ∧ ∀ m' ∈ rest, laneKey m' ≠ laneKey m →
            ∀ lt, last.get? (laneKey m') = some lt → lt < m'.createdLt := by
      rw [← forall₂_and]
      refine forall₂_congr fun m' _ => ?_
      rw [OrdMap.get?_insert]
      by_cases hkey : laneKey m' = laneKey m
      · simp [hkey, InOrder]
      · simp [hkey, InOrder, Ne.symm hkey]
    have hstep : OutputQueue.validateFrom last (m :: rest) = .ok () ↔
        (∀ lt, last.get? (laneKey m) = some lt → lt < m.createdLt)
          ∧ OutputQueue.validateFrom (last.insert (laneKey m) m.createdLt) rest = .ok () := by
      rw [OutputQueue.validateFrom]
      cases hget : last.get? (laneKey m) with
      | none => simp
      | some previous =>
        dsimp only
        split_ifs with hle
        · exact iff_of_false (by simp) (fun h => absurd (h.1 previous rfl) (not_lt.mpr hle))
        · simpa using fun _ => not_le.mp hle
    rw [hstep, ih, hrest, List.forall_mem_cons, List.pairwise_cons]
    constructor
    · rintro ⟨hm, ⟨horder, hothers⟩, hpair⟩
      refine ⟨⟨hm, fun m' hm' lt hlt => ?_⟩, horder, hpair⟩
      by_cases hkey : laneKey m' = laneKey m
      · exact (hm lt (hkey ▸ hlt)).trans (horder m' hm' hkey.symm)
      · exact hothers m' hm' hkey lt hlt
    · rintro ⟨⟨hm, hall⟩, horder, hpair⟩
      exact ⟨hm, ⟨horder, fun m' hm' _ => hall m' hm'⟩, hpair⟩

/-- the check passes exactly when the messages of each pair ascend -/
theorem validateDeliveryOrder_iff (sequence : List Message) :
    OutputQueue.validateDeliveryOrder sequence = .ok () ↔ sequence.Pairwise InOrder := by
  unfold OutputQueue.validateDeliveryOrder
  rw [validateFrom_iff]
  simp

/-! ## the condition -/

/-- an enqueue into a new lane comes after everything delivered for its pair -/
def EnqueuesLater (w : QueueRun) : QueueOp → Prop
  | .enqueue m => w.queue.lanes.get? (laneKey m) = none →
      ∀ d ∈ w.delivered, laneKey d = laneKey m → d.createdLt < m.createdLt
  | .popNext => True

/-- what was delivered is in order, and so is what waits behind it -/
structure Ordered (w : QueueRun) : Prop where
  ok : QueueRun.Ok w
  delivered : w.delivered.Pairwise InOrder
  waiting : ∀ d ∈ w.delivered, ∀ m ∈ w.queue.queued, InOrder d m

theorem ordered_init : Ordered QueueRun.init :=
  ⟨QueueRun.ok_init, List.Pairwise.nil, fun _ hd => (nomatch hd)⟩

/-- **A step keeps the order** if an enqueue into a new lane is late enough. -/
theorem ordered_step (w : QueueRun) (op : QueueOp) (h : Ordered w) (hop : EnqueuesLater w op) :
    Ordered (w.step op) := by
  have hok := QueueRun.ok_step w op h.ok
  cases op with
  | enqueue m =>
    refine ⟨hok, h.delivered, fun d hd m' hm' => ?_⟩
    have hm'' : m' ∈ (w.queue.enqueue m).2.queued := hm'
    rcases OutputQueue.enqueue_cases h.ok.wf m with ⟨e, he⟩ | ⟨he, hlt⟩
    · rw [he] at hm''
      exact h.waiting d hd m' hm''
    · rw [he] at hm''
      rcases List.mem_cons.mp ((OutputQueue.queued_enqueue m).mem_iff.mp hm'') with rfl | hold
      · intro hkey
        cases hlane : w.queue.lanes.get? (laneKey m') with
        | none => exact hop hlane d hd hkey
        | some lane =>
          -- the head of the lane lies between
          obtain ⟨head, rest, rfl⟩ := List.exists_cons_of_ne_nil (h.ok.wf.nonempty _ _ hlane)
          have hhead := h.waiting d hd head
            (OutputQueue.mem_queued.mpr ⟨_, _, hlane, List.mem_cons_self⟩)
          have hheadkey := h.ok.wf.keyed _ _ hlane head List.mem_cons_self
          rw [hlane] at hlt
          exact (hhead (hkey.trans hheadkey.symm)).trans (hlt head List.mem_cons_self)
      · exact h.waiting d hd m' hold
  | popNext =>
    have hperm := OutputQueue.queued_popNext h.ok.wf
    rcases OutputQueue.popNext_cases h.ok.wf with ⟨_, hpop, _⟩ | ⟨m, rest, hget, hpop, _, _⟩
    · have hsame : w.step .popNext = w := by
        unfold QueueRun.step
        rw [hpop]
        simp
      rw [hsame]
      exact h
    · have hdel : (w.step .popNext).delivered = w.delivered ++ [m] := by
        show w.delivered ++ w.queue.popNext.1.toList = _
        rw [hpop]
        rfl
      have hmem : ∀ m' ∈ (w.step .popNext).queue.queued, m' ∈ w.queue.queued :=
        fun m' hm' => hperm.mem_iff.mpr (List.mem_append_right _ hm')
      have hm : m ∈ w.queue.queued := OutputQueue.mem_queued.mpr ⟨_, _, hget, List.mem_cons_self⟩
      -- the rest of the lane comes after its head
      have hafter : ∀ m' ∈ (w.step .popNext).queue.queued, InOrder m m' := by
        intro m' hm' hkey
        have hin : m' ∈ (w.queue.setLane (laneKey m) rest).queued := by
          have hq : (w.step .popNext).queue = w.queue.setLane (laneKey m) rest := congrArg Prod.snd hpop
          rwa [hq] at hm'
        rcases List.mem_append.mp ((OutputQueue.queued_setLane _ _ _).mem_iff.mp hin) with hrest | hother
        · exact (List.pairwise_cons.mp (h.ok.wf.ordered _ _ hget)).1 m' hrest
        · obtain ⟨lane, hlane, hml⟩ := List.mem_flatten.mp hother
          obtain ⟨key, hk⟩ := OrdMap.mem_values_iff.mp hlane
          rw [OrdMap.get?_erase] at hk
          split_ifs at hk with hne
          exact absurd ((h.ok.wf.keyed _ _ hk m' hml).symm.trans hkey.symm) hne
      refine ⟨hok, ?_, fun d hd m' hm' => ?_⟩
      · rw [hdel]
        refine List.pairwise_append.mpr ⟨h.delivered, List.pairwise_singleton _ _, fun d hd x hx => ?_⟩
        rw [List.mem_singleton.mp hx]
        exact h.waiting d hd m hm
      · rw [hdel] at hd
        rcases List.mem_append.mp hd with hd | hd
        · exact h.waiting d hd m' (hmem m' hm')
        · rw [List.mem_singleton.mp hd]
          exact hafter m' hm'

/-! ## deliveries that follow a run -/

/-- a run only adds to what was accepted and delivered -/
theorem run_grows (w : QueueRun) (ops : List QueueOp) :
    ∃ a d, (Runs.run QueueRun.step w ops).accepted = w.accepted ++ a
      ∧ (Runs.run QueueRun.step w ops).delivered = w.delivered ++ d := by
  induction ops generalizing w with
  | nil => exact ⟨[], [], by simp, by simp⟩
  | cons op ops ih =>
    obtain ⟨a, d, ha, hd⟩ := ih (w.step op)
    have hstep : ∃ a' d', (w.step op).accepted = w.accepted ++ a'
        ∧ (w.step op).delivered = w.delivered ++ d' := by
      cases op with
      | popNext => exact ⟨[], _, by simp [QueueRun.step], rfl⟩
      | enqueue m =>
        unfold QueueRun.step
        dsimp only
        cases (w.queue.enqueue m).1 with
        | error e => exact ⟨[], [], by simp, by simp⟩
        | ok u => exact ⟨[m], [], rfl, by simp⟩
    obtain ⟨a', d', ha', hd'⟩ := hstep
    rw [Runs.run_cons, ha, hd, ha', hd']
    exact ⟨a' ++ a, d' ++ d, List.append_assoc _ _ _, List.append_assoc _ _ _⟩

theorem run_pops_queue (w : QueueRun) (n : Nat) :
    (Runs.run QueueRun.step w (List.replicate n .popNext)).queue = (w.queue.popAll n).2 := by
  induction n generalizing w with
  | zero => rfl
  | succ n ih =>
    rw [List.replicate_succ, Runs.run_cons, ih]
    rfl

theorem along_pops (w : QueueRun) (n : Nat) :
    Runs.Along QueueRun.step EnqueuesLater w (List.replicate n .popNext) := by
  induction n generalizing w with
  | zero => trivial
  | succ n ih => exact ⟨trivial, ih _⟩

/-- what waits is delivered by the end of a run that empties the queue -/
theorem waiting_delivered {w : QueueRun} (hw : QueueRun.Ok w) (ops : List QueueOp)
    (hend : (Runs.run QueueRun.step w ops).queue.queued = []) :
    ∃ e, (Runs.run QueueRun.step w ops).delivered = w.delivered ++ e
      ∧ ∀ m ∈ w.queue.queued, m ∈ e := by
  obtain ⟨a, e, ha, he⟩ := run_grows w ops
  have hperm := (Runs.run_inv QueueRun.ok_step ops hw).conserved
  rw [hend, List.append_nil, ha, he] at hperm
  have hrest := (hw.conserved.append_right a).symm.trans hperm
  rw [List.append_assoc, List.perm_append_left_iff] at hrest
  exact ⟨e, he, fun m hm => hrest.mem_iff.mp (List.mem_append_left _ hm)⟩

/-- a message for a new lane is accepted -/
theorem step_enqueue_new {w : QueueRun} (hw : QueueRun.Ok w) {m : Message}
    (hlane : w.queue.lanes.get? (laneKey m) = none) :
    m ∈ (w.step (.enqueue m)).queue.queued := by
  show m ∈ (w.queue.enqueue m).2.queued
  rcases OutputQueue.enqueue_cases hw.wf m with ⟨e, he⟩ | ⟨he, _⟩
  · unfold OutputQueue.enqueue at he
    dsimp only at he
    rw [hlane] at he
    cases he
  · rw [he]
    exact (OutputQueue.queued_enqueue m).mem_iff.mpr List.mem_cons_self

/-- **A run passes the delivery check, whatever number of deliveries follows, exactly when each of its
enqueues into a new lane comes after everything delivered for its pair.** -/
theorem delivery_order_iff (ops : List QueueOp) :
    (∀ n, OutputQueue.validateDeliveryOrder
        (Runs.run QueueRun.step QueueRun.init (ops ++ List.replicate n .popNext)).delivered = .ok ())
      ↔ Runs.Along QueueRun.step EnqueuesLater QueueRun.init ops := by
  constructor
  · intro h
    rw [Runs.along_iff_split]
    intro pre op post hops
    cases op with
    | popNext => trivial
    | enqueue m =>
      intro hlane d hd hkey
      have hpre := QueueRun.run_ok pre
      -- as many deliveries as messages are left empty the queue
      have hempty : (Runs.run QueueRun.step QueueRun.init (ops ++ List.replicate
          (Runs.run QueueRun.step QueueRun.init ops).queue.len .popNext)).queue.queued = [] := by
        rw [Runs.run_append, run_pops_queue]
        have hlen := (OutputQueue.popAll_sorted (QueueRun.run_ok ops).wf rfl).2.2
        rw [OutputQueue.len_eq] at hlen
        exact List.length_eq_zero_iff.mp hlen
      have hcheck := h (Runs.run QueueRun.step QueueRun.init ops).queue.len
      generalize (Runs.run QueueRun.step QueueRun.init ops).queue.len = n at hempty hcheck
      rw [hops, List.append_assoc, Runs.run_append, List.cons_append, Runs.run_cons] at hempty hcheck
      obtain ⟨e, he, hin⟩ := waiting_delivered (QueueRun.ok_step _ (.enqueue m) hpre) _ hempty
      rw [validateDeliveryOrder_iff, he] at hcheck
      exact (List.pairwise_append.mp hcheck).2.2 d hd m (hin m (step_enqueue_new hpre hlane)) hkey
  · intro h n
    rw [validateDeliveryOrder_iff]
    have hall := Runs.along_append.mpr ⟨h, along_pops _ n⟩
    exact (Runs.Along.inv ordered_step ordered_init hall).delivered

/-! ## a lane that is drained and used again -/

def sampleMessage (lt : Uint64) : Message where
  msgType := .internal
  srcAddress := ⟨WorkchainIdent.BASIC, ⟨1⟩⟩
  destAddress := ⟨WorkchainIdent.BASIC, ⟨2⟩⟩
  amountNanos := 0
  extraCurrencies := []
  createdLt := lt
  bodyCellHash := 0

/-- **An older message is accepted and delivered** once the lane of its pair has run empty. -/
theorem delivery_out_of_order : OutputQueue.validateDeliveryOrder
    (Runs.run QueueRun.step QueueRun.init [.enqueue (sampleMessage 10), .popNext,
      .enqueue (sampleMessage 5), .popNext]).delivered ≠ .ok () := by
  decide +kernel

end Onx.Transactions
