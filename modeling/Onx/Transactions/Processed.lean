import Mathlib.Data.Finset.Card
import Onx.Transactions.Admission
import Onx.Transactions.Delivery

/-!
# Delivery at most once

The destination keeps the hashes of the messages it has executed, and drops a hash when the source has
confirmed that the message left its queue.  Between the two a relay may bring every message that left the
queue any number of times, in any order.

* `ProcessedMessageTracker`   the hashes, `admit`, `admit_message` and `prune`;
* `Relay`                     source queue, relay and destination;
* `Counted`                   **the balance of a hash:** executions of it are its prunes, and one more while it
                              is tracked;
* `delivered_once`            what is brought is executed, and nothing twice as long as no message comes back
                              after its hash was pruned.
-/

namespace Onx.Transactions

structure ProcessedMessageTracker where
  hashes : Finset Uint256

namespace ProcessedMessageTracker

def new : ProcessedMessageTracker := ⟨∅⟩

/-- the source's `admit` -/
def admitHash (self : ProcessedMessageTracker) (messageHash : Uint256) :
    Except AdmissionError Unit × ProcessedMessageTracker :=
  if messageHash ∈ self.hashes then (.error .duplicateDelivery, self)
  else (.ok (), ⟨insert messageHash self.hashes⟩)

def admitMessage (c : Crypto) (self : ProcessedMessageTracker) (message : Message) :
    Except AdmissionError Unit × ProcessedMessageTracker :=
  self.admitHash (message.messageHash c)

def contains (self : ProcessedMessageTracker) (messageHash : Uint256) : Bool := messageHash ∈ self.hashes

def prune (self : ProcessedMessageTracker) (messageHash : Uint256) : ProcessedMessageTracker :=
  ⟨self.hashes.erase messageHash⟩

def len (self : ProcessedMessageTracker) : Nat := self.hashes.card

theorem contains_iff {t : ProcessedMessageTracker} {h : Uint256} : t.contains h = true ↔ h ∈ t.hashes :=
  decide_eq_true_iff

theorem contains_insert (t : ProcessedMessageTracker) (h x : Uint256) :
    contains ⟨insert h t.hashes⟩ x = (decide (x = h) || t.contains x) := by
  unfold contains
  simp only [Finset.mem_insert, Bool.decide_or]

theorem contains_prune (t : ProcessedMessageTracker) (h x : Uint256) :
    (t.prune h).contains x = (decide (x ≠ h) && t.contains x) := by
  unfold prune contains
  simp only [Finset.mem_erase, Bool.decide_and]

end ProcessedMessageTracker

/-- a source, what left its queue, and the destination -/
structure Relay where
  source : QueueRun
  tracker : ProcessedMessageTracker
  /-- what the relay has brought, and what was executed of it -/
  brought : List Message
  executed : List Message
  /-- the hashes that were tracked when they were pruned -/
  pruned : List Uint256

inductive RelayOp where
  | source (op : QueueOp)
  /-- a message that left the queue is brought, for the first time or again -/
  | bring (number : Nat)
  | prune (messageHash : Uint256)

namespace Relay

def init : Relay := ⟨QueueRun.init, ProcessedMessageTracker.new, [], [], []⟩

def bring (c : Crypto) (w : Relay) (message : Message) : Relay :=
  let (result, tracker) := w.tracker.admitMessage c message
  { w with
    tracker := tracker
    brought := w.brought ++ [message]
    executed := match result with
      | .ok () => w.executed ++ [message]
      | .error _ => w.executed }

def step (c : Crypto) (w : Relay) : RelayOp → Relay
  | .source op => { w with source := w.source.step op }
  | .bring number => w.source.delivered[number]?.elim w (bring c w)
  | .prune messageHash =>
    { w with
      tracker := w.tracker.prune messageHash
      pruned := if w.tracker.contains messageHash then w.pruned ++ [messageHash] else w.pruned }

/-! ## one operation -/

section
variable {c : Crypto} {w : Relay}

theorem step_bring_none {number : Nat} (h : w.source.delivered[number]? = none) :
    w.step c (.bring number) = w := by
  show w.source.delivered[number]?.elim w (bring c w) = w
  rw [h]
  rfl

theorem step_bring_some {number : Nat} {m : Message} (h : w.source.delivered[number]? = some m) :
    w.step c (.bring number) = bring c w m := by
  show w.source.delivered[number]?.elim w (bring c w) = _
  rw [h]
  rfl

/-- **What a brought message does**: it is executed and tracked, or it is tracked already. -/
theorem bring_cases (m : Message) :
    (m.messageHash c ∈ w.tracker.hashes ∧ bring c w m = { w with brought := w.brought ++ [m] })
    ∨ (m.messageHash c ∉ w.tracker.hashes ∧ bring c w m = { w with
        tracker := ⟨insert (m.messageHash c) w.tracker.hashes⟩
        brought := w.brought ++ [m]
        executed := w.executed ++ [m] }) := by
  unfold bring ProcessedMessageTracker.admitMessage ProcessedMessageTracker.admitHash
  by_cases h : m.messageHash c ∈ w.tracker.hashes
  · exact Or.inl ⟨h, by rw [if_pos h]⟩
  · exact Or.inr ⟨h, by rw [if_neg h]⟩

/-- **Executions, prunes and tracked hashes balance.** -/
structure Counted (c : Crypto) (w : Relay) : Prop where
  balance : ∀ h, (w.executed.map (·.messageHash c)).count h
    = w.pruned.count h + (w.tracker.contains h).toNat
  size : w.executed.length = w.pruned.length + w.tracker.len
  /-- only what left the queue is brought, and only what is brought is executed -/
  genuine : ∀ m ∈ w.brought, m ∈ w.source.delivered
  executed : ∀ m ∈ w.executed, m ∈ w.brought
  /-- a message with its hash has been executed -/
  answered : ∀ m ∈ w.brought, m.messageHash c ∈ w.executed.map (·.messageHash c)

theorem counted_init : Counted c init :=
  ⟨fun _ => rfl, rfl, fun _ hm => (nomatch hm), fun _ hm => (nomatch hm), fun _ hm => (nomatch hm)⟩

/-- what is tracked has been executed -/
theorem Counted.tracked (h : Counted c w) {messageHash : Uint256} (ht : messageHash ∈ w.tracker.hashes) :
    messageHash ∈ w.executed.map (·.messageHash c) := by
  refine List.count_pos_iff.mp ?_
  rw [h.balance, ProcessedMessageTracker.contains_iff.mpr ht]
  exact Nat.succ_pos _

theorem Counted.bring {m : Message} (h : Counted c w) (hm : m ∈ w.source.delivered) :
    Counted c (bring c w m) := by
  have hgenuine : ∀ m' ∈ w.brought ++ [m], m' ∈ w.source.delivered := by
    intro m' hm'
    rcases List.mem_append.mp hm' with hold | hnew
    · exact h.genuine m' hold
    · exact List.mem_singleton.mp hnew ▸ hm
  rcases bring_cases (c := c) (w := w) m with ⟨ht, heq⟩ | ⟨ht, heq⟩
  · rw [heq]
    refine ⟨h.balance, h.size, hgenuine, fun m' hm' => List.mem_append_left _ (h.executed m' hm'),
      fun m' hm' => ?_⟩
    rcases List.mem_append.mp hm' with hold | hnew
    · exact h.answered m' hold
    · rw [List.mem_singleton.mp hnew]
      exact h.tracked ht
  · rw [heq]
    refine ⟨fun x => ?_, ?_, hgenuine, fun m' hm' => ?_, fun m' hm' => ?_⟩
    · show ((w.executed ++ [m]).map (·.messageHash c)).count x = _
      rw [List.map_append, List.count_append, h.balance, ProcessedMessageTracker.contains_insert, Nat.add_assoc,
        List.map_singleton, List.count_singleton]
      by_cases hx : x = m.messageHash c
      · rw [hx, Bool.eq_false_iff.mpr (ProcessedMessageTracker.contains_iff.not.mpr ht)]
        simp
      · simp [hx, Ne.symm hx]
    · show (w.executed ++ [m]).length = w.pruned.length + (insert (m.messageHash c) w.tracker.hashes).card
      rw [List.length_append, List.length_singleton, Finset.card_insert_of_notMem ht, h.size]
      rfl
    · exact (List.mem_append.mp hm').elim (fun hold => List.mem_append_left _ (h.executed m' hold))
        (List.mem_append_right _)
    · rw [List.map_append]
      exact (List.mem_append.mp hm').elim (fun hold => List.mem_append_left _ (h.answered m' hold))
        fun hnew => List.mem_append_right _ (List.mem_map_of_mem hnew)

theorem Counted.prune (h : Counted c w) (messageHash : Uint256) : Counted c (w.step c (.prune messageHash)) := by
  refine ⟨fun x => ?_, ?_, h.genuine, h.executed, h.answered⟩
  · show (w.executed.map (·.messageHash c)).count x
      = (if w.tracker.contains messageHash then w.pruned ++ [messageHash] else w.pruned).count x
      + ((w.tracker.prune messageHash).contains x).toNat
    rw [h.balance, ProcessedMessageTracker.contains_prune]
    by_cases hx : x = messageHash
    · rw [hx]
      cases w.tracker.contains messageHash <;> simp
    · have hother : (if w.tracker.contains messageHash then w.pruned ++ [messageHash] else w.pruned).count x
          = w.pruned.count x := by
        split_ifs
        · rw [List.count_append, List.count_singleton, if_neg (by simpa using Ne.symm hx), Nat.add_zero]
        · rfl
      rw [hother, decide_eq_true hx, Bool.true_and]
  · show w.executed.length
      = (if w.tracker.contains messageHash then w.pruned ++ [messageHash] else w.pruned).length
      + (w.tracker.hashes.erase messageHash).card
    rw [h.size]
    by_cases ht : messageHash ∈ w.tracker.hashes
    · have hcard := Finset.card_erase_add_one ht
      rw [if_pos (ProcessedMessageTracker.contains_iff.mpr ht), List.length_append, List.length_singleton,
        Nat.add_assoc, Nat.add_comm 1, hcard]
      rfl
    · rw [if_neg (ProcessedMessageTracker.contains_iff.not.mpr ht), Finset.erase_eq_of_notMem ht]
      rfl

/-- what the source does changes nothing at the destination -/
theorem delivered_grows (w : QueueRun) (op : QueueOp) {m : Message} (hm : m ∈ w.delivered) :
    m ∈ (w.step op).delivered := by
  cases op with
  | enqueue m' => exact hm
  | popNext => exact List.mem_append_left _ hm

/-- **Each operation keeps the balance.** -/
theorem counted_step (w : Relay) (op : RelayOp) (h : Counted c w) : Counted c (w.step c op) := by
  cases op with
  | source op => exact ⟨h.balance, h.size, fun m hm => delivered_grows _ op (h.genuine m hm), h.executed, h.answered⟩
  | bring number =>
    cases hget : w.source.delivered[number]? with
    | none => rwa [step_bring_none hget]
    | some m =>
      rw [step_bring_some hget]
      exact h.bring (List.mem_of_getElem? hget)
  | prune messageHash => exact h.prune messageHash

/-! ## at most once -/

/-- a message that has been executed is brought again only while its hash is tracked -/
def Fenced (c : Crypto) (w : Relay) : RelayOp → Prop
  | .bring number => ∀ m ∈ w.source.delivered[number]?,
    m.messageHash c ∈ w.executed.map (·.messageHash c) → m.messageHash c ∈ w.tracker.hashes
  | _ => True

instance (c : Crypto) (w : Relay) (op : RelayOp) : Decidable (Fenced c w op) :=
  match op with
  | .bring number => inferInstanceAs (Decidable (∀ m ∈ w.source.delivered[number]?, _))
  | .source _ => isTrue trivial
  | .prune _ => isTrue trivial

theorem nodup_step (w : Relay) (op : RelayOp) :
    ((w.step c op).executed.map (·.messageHash c)).Nodup
      ↔ (w.executed.map (·.messageHash c)).Nodup ∧ Fenced c w op := by
  cases op with
  | source op => exact (and_iff_left trivial).symm
  | prune messageHash => exact (and_iff_left trivial).symm
  | bring number =>
    cases hget : w.source.delivered[number]? with
    | none =>
      rw [step_bring_none hget]
      refine (and_iff_left fun m hm => ?_).symm
      rw [hget] at hm
      cases hm
    | some m =>
      have hfenced : Fenced c w (.bring number) ↔ (m.messageHash c ∈ w.executed.map (·.messageHash c) →
          m.messageHash c ∈ w.tracker.hashes) := by
        unfold Fenced
        simp [hget]
      rw [step_bring_some hget, hfenced]
      rcases bring_cases (c := c) (w := w) m with ⟨ht, heq⟩ | ⟨ht, heq⟩
      · rw [heq]
        exact (and_iff_left fun _ => ht).symm
      · rw [heq]
        show ((w.executed ++ [m]).map (·.messageHash c)).Nodup ↔ _
        rw [List.map_append, List.map_singleton, List.nodup_append_comm, List.singleton_append,
          List.nodup_cons, and_comm]
        exact and_congr_right' ⟨fun hnew hold => absurd hold hnew, fun hfence hold => ht (hfence hold)⟩

theorem source_ok (ops : List RelayOp) : (Runs.run (step c) init ops).source.Ok := by
  refine Runs.run_inv (I := fun w : Relay => w.source.Ok) (fun w op h => ?_) ops QueueRun.ok_init
  cases op with
  | source op => exact QueueRun.ok_step _ op h
  | prune messageHash => exact h
  | bring number =>
    cases hget : w.source.delivered[number]? with
    | none => rwa [step_bring_none hget]
    | some m =>
      rw [step_bring_some hget]
      exact h

/-- equal hashes are of equal messages -/
theorem count_map_of_apart {l : List Message} {m : Message}
    (h : ∀ m' ∈ l, m'.messageHash c = m.messageHash c → m' = m) :
    l.count m = (l.map (·.messageHash c)).count (m.messageHash c) := by
  rw [List.count_eq_countP, List.count_eq_countP, List.countP_map]
  refine List.countP_congr fun m' hm' => ?_
  simp only [beq_iff_eq, Function.comp_apply]
  exact ⟨fun heq => congrArg _ heq, h m' hm'⟩

/-- what a run of source, relay and destination has done -/
structure Delivered (c : Crypto) (w : Relay) : Prop where
  /-- what is brought is executed, and nothing else -/
  executed : ∀ m, m ∈ w.executed ↔ m ∈ w.brought
  /-- only what the queue accepted and what has left it -/
  genuine : ∀ m ∈ w.executed, m ∈ w.source.accepted ∧ m ∈ w.source.delivered
  /-- once for each prune, and once more while the hash is tracked -/
  count : ∀ m ∈ w.brought, w.executed.count m
    = w.pruned.count (m.messageHash c) + (w.tracker.contains (m.messageHash c)).toNat
  /-- the tracker holds what was executed and not pruned -/
  size : w.executed.length = w.pruned.length + w.tracker.len

/-- **What is brought is executed, and nothing twice** exactly if no message comes back after its hash was
pruned. -/
theorem delivered_once (c : Crypto) (ops : List RelayOp)
    (hapart : ∀ m ∈ (Runs.run (step c) init ops).brought, ∀ m' ∈ (Runs.run (step c) init ops).brought,
      m.messageHash c = m'.messageHash c → m = m') :
    Delivered c (Runs.run (step c) init ops)
    ∧ ((Runs.run (step c) init ops).executed.Nodup ↔ Runs.Along (step c) (Fenced c) init ops) := by
  have hcounted := Runs.run_inv (counted_step (c := c)) ops counted_init
  have hnodup := Runs.holds_iff_along (s := init) (I := fun _ => True)
    (J := fun w => (w.executed.map (·.messageHash c)).Nodup) (fun _ _ _ => trivial)
    (fun w op _ => nodup_step (c := c) w op) ops trivial
  have hempty : (init.executed.map (·.messageHash c)).Nodup := List.nodup_nil
  rw [and_iff_right hempty] at hnodup
  have hok := source_ok (c := c) ops
  rw [← hnodup]
  generalize Runs.run (step c) init ops = w at hapart hcounted hok ⊢
  have hinj : ∀ m ∈ w.executed, ∀ m' ∈ w.brought, m.messageHash c = m'.messageHash c → m = m' :=
    fun m hm m' hm' => hapart m (hcounted.executed m hm) m' hm'
  refine ⟨⟨fun m => ⟨hcounted.executed m, fun hm => ?_⟩, fun m hm => ?_, fun m hm => ?_, hcounted.size⟩, ?_⟩
  · obtain ⟨m', hm', hhash⟩ := List.mem_map.mp (hcounted.answered m hm)
    exact hinj m' hm' m hm hhash ▸ hm'
  · have hdelivered := hcounted.genuine m (hcounted.executed m hm)
    exact ⟨hok.conserved.mem_iff.mpr (List.mem_append_left _ hdelivered), hdelivered⟩
  · rw [← hcounted.balance]
    exact count_map_of_apart fun m' hm' => hinj m' hm' m hm
  · exact ⟨fun h => List.Nodup.map_on (fun m hm m' hm' => hinj m hm m' (hcounted.executed m' hm')) h,
      List.Nodup.of_map _⟩

/-- a message that is brought twice, while its hash is tracked -/
theorem delivered_once_sample :
    (Runs.run (step sampleCrypto) init
      [.source (.enqueue (sampleMessage 10)), .source .popNext, .bring 0, .bring 0]).executed.Nodup :=
  (delivered_once sampleCrypto _ (by decide +kernel)).2.mpr (by decide +kernel)

end

end Relay

end Onx.Transactions
