import Onx.DataStructures.Message
import Onx.Lib.ArgMin
import Onx.Lib.Runs

/-!
# The output queue

Messages wait in one lane for each pair of source and destination; the least logical time at the head
of a lane is delivered next.

* `Wf`                the invariant: lanes are not empty, hold the messages of their pair and ascend in
                      logical time;
* `popNext_cases`     what `pop_next` delivers: the least message of the queue by logical time and pair;
* `popAll_sorted`     so a drained queue is sorted;
* `queue_conserves`   nothing is lost, duplicated or reordered in any run.
-/

namespace Onx.Transactions

inductive TransactionsError where
  | fifoOrderViolation (previousLt nextLt : Uint64)
  | logicalTimeRegression (previousLt nextLt : Uint64)
  | incompatibleRoute
  | routeEndpointMismatch
  | invalidHypercubeHop
  | insufficientTransitFee (available required : Uint128)
deriving DecidableEq

/-- source and destination -/
abbrev LaneKey := FullAddress ×ₗ FullAddress

def laneKey (message : Message) : LaneKey := toLex (message.srcAddress, message.destAddress)

structure OutputQueue where
  lanes : OrdMap LaneKey (List Message)

namespace OutputQueue

def new : OutputQueue := ⟨OrdMap.empty⟩

def enqueue (self : OutputQueue) (message : Message) : Except TransactionsError Unit × OutputQueue :=
  let key := laneKey message
  -- `entry(key).or_default()`
  let lane := (self.lanes.get? key).getD []
  match lane.getLast? with
  | some last =>
    if message.createdLt ≤ last.createdLt then
      (.error (.logicalTimeRegression last.createdLt message.createdLt), ⟨self.lanes.insert key lane⟩)
    else (.ok (), ⟨self.lanes.insert key (lane ++ [message])⟩)
  | none => (.ok (), ⟨self.lanes.insert key (lane ++ [message])⟩)

def peekNext (self : OutputQueue) : Option Message :=
  (self.lanes.values.filterMap List.head?).argmin Message.createdLt

def popNext (self : OutputQueue) : Option Message × OutputQueue :=
  match ((self.lanes.entries.filterMap (fun e => e.2.head?.map (fun m => (e.1, m.createdLt)))).argmin
      Prod.snd).map Prod.fst with
  | none => (none, self)
  | some key =>
    match self.lanes.get? key with
    | none => (none, self)
    | some lane =>
      (lane.head?, if lane.tail.isEmpty then ⟨self.lanes.erase key⟩
        else ⟨self.lanes.insert key lane.tail⟩)

/-- the loop of `validate_delivery_order`, with the last time of each pair -/
def validateFrom (lastLtPerPair : OrdMap LaneKey Uint64) : List Message → Except TransactionsError Unit
  | [] => .ok ()
  | message :: rest =>
    let key := laneKey message
    match lastLtPerPair.get? key with
    | some previousLt =>
      if message.createdLt ≤ previousLt then
        .error (.fifoOrderViolation previousLt message.createdLt)
      else validateFrom (lastLtPerPair.insert key message.createdLt) rest
    | none => validateFrom (lastLtPerPair.insert key message.createdLt) rest

def validateDeliveryOrder (sequence : List Message) : Except TransactionsError Unit :=
  validateFrom OrdMap.empty sequence

def isEmpty (self : OutputQueue) : Bool := self.lanes.entries.isEmpty

def len (self : OutputQueue) : Nat := (self.lanes.values.map List.length).sum

/-! ## the messages of a queue -/

/-- all messages, lane by lane -/
def queued (self : OutputQueue) : List Message := self.lanes.values.flatten

theorem len_eq (q : OutputQueue) : q.len = q.queued.length := List.length_flatten.symm

theorem mem_queued {q : OutputQueue} {m : Message} :
    m ∈ q.queued ↔ ∃ key lane, q.lanes.get? key = some lane ∧ m ∈ lane := by
  unfold queued
  rw [List.mem_flatten]
  constructor
  · rintro ⟨lane, hlane, hm⟩
    obtain ⟨key, hkey⟩ := OrdMap.mem_values_iff.mp hlane
    exact ⟨key, lane, hkey, hm⟩
  · rintro ⟨key, lane, hkey, hm⟩
    exact ⟨lane, OrdMap.mem_values_iff.mpr ⟨key, hkey⟩, hm⟩

/-- the queue invariant -/
structure Wf (q : OutputQueue) : Prop where
  nonempty : ∀ key lane, q.lanes.get? key = some lane → lane ≠ []
  keyed : ∀ key lane, q.lanes.get? key = some lane → ∀ m ∈ lane, laneKey m = key
  ordered : ∀ key lane, q.lanes.get? key = some lane →
    lane.Pairwise (fun a b => a.createdLt < b.createdLt)

theorem wf_new : Wf new := ⟨fun _ _ h => (nomatch h), fun _ _ h => (nomatch h), fun _ _ h => (nomatch h)⟩

/-- a lane replaced, and removed when it is empty -/
def setLane (q : OutputQueue) (key : LaneKey) (lane : List Message) : OutputQueue :=
  if lane.isEmpty then ⟨q.lanes.erase key⟩ else ⟨q.lanes.insert key lane⟩

theorem Wf.setLane {q : OutputQueue} (h : Wf q) {key : LaneKey} {lane : List Message}
    (hkeyed : ∀ m ∈ lane, laneKey m = key)
    (hordered : lane.Pairwise (fun a b => a.createdLt < b.createdLt)) : Wf (q.setLane key lane) := by
  have hcases : ∀ k l, (q.setLane key lane).lanes.get? k = some l →
      (k = key ∧ l = lane ∧ lane ≠ []) ∨ q.lanes.get? k = some l := by
    intro k l hl
    unfold OutputQueue.setLane at hl
    cases hempty : lane.isEmpty with
    | true =>
      rw [hempty, if_pos rfl, OrdMap.get?_erase] at hl
      split_ifs at hl
      exact Or.inr hl
    | false =>
      rw [hempty, if_neg (by simp), OrdMap.get?_insert] at hl
      split_ifs at hl with hk
      · refine Or.inl ⟨hk, by simpa using hl.symm, ?_⟩
        rintro rfl
        cases hempty
      · exact Or.inr hl
  refine ⟨fun k l hl => ?_, fun k l hl => ?_, fun k l hl => ?_⟩
  · rcases hcases k l hl with ⟨_, rfl, hne⟩ | hold
    · exact hne
    · exact h.nonempty k l hold
  · rcases hcases k l hl with ⟨rfl, rfl, _⟩ | hold
    · exact hkeyed
    · exact h.keyed k l hold
  · rcases hcases k l hl with ⟨_, rfl, _⟩ | hold
    · exact hordered
    · exact h.ordered k l hold

/-- the messages of the other lanes -/
def others (q : OutputQueue) (key : LaneKey) : List Message := (q.lanes.erase key).values.flatten

theorem queued_setLane (q : OutputQueue) (key : LaneKey) (lane : List Message) :
    (q.setLane key lane).queued.Perm (lane ++ q.others key) := by
  unfold OutputQueue.setLane queued others
  cases hempty : lane.isEmpty with
  | true =>
    rw [List.isEmpty_iff.mp hempty]
    exact List.Perm.refl _
  | false => exact ((OrdMap.perm_insert_erase q.lanes key lane).map Prod.snd).flatten

theorem queued_perm {q : OutputQueue} {key : LaneKey} {lane : List Message}
    (h : q.lanes.get? key = some lane) : q.queued.Perm (lane ++ q.others key) :=
  ((OrdMap.perm_erase h).map Prod.snd).flatten

/-! ## enqueue -/

/-- an enqueue is refused and changes nothing, or adds the message behind the lane of its pair -/
theorem enqueue_cases {q : OutputQueue} (hwf : Wf q) (m : Message) :
    (∃ e, q.enqueue m = (.error e, q)) ∨
    q.enqueue m = (.ok (), q.setLane (laneKey m) ((q.lanes.get? (laneKey m)).getD [] ++ [m]))
      ∧ ∀ m' ∈ (q.lanes.get? (laneKey m)).getD [], m'.createdLt < m.createdLt := by
  have hset : ∀ lane : List Message, q.setLane (laneKey m) (lane ++ [m])
      = ⟨q.lanes.insert (laneKey m) (lane ++ [m])⟩ := by
    intro lane
    unfold OutputQueue.setLane
    rw [if_neg (by simp)]
  unfold enqueue
  cases hlane : q.lanes.get? (laneKey m) with
  | none =>
    refine Or.inr ⟨?_, by simp⟩
    rw [hset]
    dsimp only
    rw [hlane]
    rfl
  | some lane =>
    dsimp only
    rw [hlane, Option.getD_some]
    have hne := hwf.nonempty _ _ hlane
    rw [List.getLast?_eq_some_getLast hne]
    dsimp only
    split_ifs with hle
    · exact Or.inl ⟨_, by rw [OrdMap.insert_get?_self hlane]⟩
    · refine Or.inr ⟨by rw [hset], fun m' hm' => ?_⟩
      -- the last message of the lane has the greatest time
      have hlast : m'.createdLt ≤ (lane.getLast hne).createdLt := by
        have hsplit := List.dropLast_append_getLast hne
        have hord := hwf.ordered _ _ hlane
        rw [← hsplit, List.pairwise_append] at hord
        rw [← hsplit] at hm'
        rcases List.mem_append.mp hm' with hm' | hm'
        · exact (hord.2.2 m' hm' _ List.mem_cons_self).le
        · rw [List.mem_singleton.mp hm']
      exact lt_of_le_of_lt hlast (not_le.mp hle)

theorem Wf.enqueue {q : OutputQueue} (hwf : Wf q) (m : Message) : Wf (q.enqueue m).2 := by
  rcases enqueue_cases hwf m with ⟨e, h⟩ | ⟨h, hlt⟩
  · rw [h]
    exact hwf
  · rw [h]
    cases hlane : q.lanes.get? (laneKey m) with
    | none =>
      have hone : Wf (q.setLane (laneKey m) [m]) := hwf.setLane (by simp) (by simp)
      exact hone
    | some lane =>
      rw [hlane] at hlt
      refine hwf.setLane (fun m' hm' => ?_) ?_
      · rcases List.mem_append.mp hm' with hm' | hm'
        · exact hwf.keyed _ _ hlane m' hm'
        · rw [List.mem_singleton.mp hm']
      · refine List.pairwise_append.mpr ⟨hwf.ordered _ _ hlane, List.pairwise_singleton _ _, ?_⟩
        intro a ha b hb
        rw [List.mem_singleton.mp hb]
        exact hlt a ha

theorem queued_enqueue {q : OutputQueue} (m : Message) :
    (q.setLane (laneKey m) ((q.lanes.get? (laneKey m)).getD [] ++ [m])).queued.Perm (m :: q.queued) := by
  refine (queued_setLane _ _ _).trans ?_
  cases hlane : q.lanes.get? (laneKey m) with
  | none =>
    have hsame : q.lanes.erase (laneKey m) = q.lanes := by
      refine OrdMap.ext_get? fun k => ?_
      rw [OrdMap.get?_erase]
      split_ifs with hk
      · rw [hk, hlane]
      · rfl
    unfold others queued
    rw [hsame]
    exact List.Perm.refl _
  | some lane =>
    rw [Option.getD_some, List.append_assoc, List.singleton_append]
    exact List.perm_middle.trans ((queued_perm hlane).symm.cons m)

/-! ## delivery -/

/-- logical time, ties by the pair -/
def deliveryKey (m : Message) : Uint64 ×ₗ LaneKey := toLex (m.createdLt, laneKey m)

/-- the heads of the lanes with their keys -/
def heads (q : OutputQueue) : List (LaneKey × Message) :=
  q.lanes.entries.filterMap (fun e => e.2.head?.map (fun m => (e.1, m)))

theorem peekNext_heads (q : OutputQueue) :
    q.peekNext = (q.heads.argmin (fun e => e.2.createdLt)).map Prod.snd := by
  have hmap : q.lanes.values.filterMap List.head? = q.heads.map Prod.snd := by
    unfold OrdMap.values heads
    rw [List.filterMap_map, List.map_filterMap]
    congr 1
    funext e
    show e.2.head? = _
    cases e.2.head? <;> rfl
  unfold peekNext
  rw [hmap, ArgMin.argmin_map]

theorem popNext_heads (q : OutputQueue) :
    ((q.lanes.entries.filterMap (fun e => e.2.head?.map (fun m => (e.1, m.createdLt)))).argmin
      Prod.snd).map Prod.fst = (q.heads.argmin (fun e => e.2.createdLt)).map Prod.fst := by
  have hmap : q.lanes.entries.filterMap (fun e => e.2.head?.map (fun m => (e.1, m.createdLt)))
      = q.heads.map (fun e => (e.1, e.2.createdLt)) := by
    unfold heads
    rw [List.map_filterMap]
    congr 1
    funext e
    cases e.2.head? <;> rfl
  rw [hmap, ArgMin.argmin_map, Option.map_map]
  rfl

theorem heads_sorted (q : OutputQueue) : q.heads.Pairwise (fun a b => a.1 < b.1) := by
  unfold heads
  refine q.lanes.sorted.filterMap _ fun a b hab x hx y hy => ?_
  obtain ⟨m, _, rfl⟩ := Option.map_eq_some_iff.mp hx
  obtain ⟨m', _, rfl⟩ := Option.map_eq_some_iff.mp hy
  exact hab

theorem mem_heads {q : OutputQueue} {key : LaneKey} {m : Message} :
    (key, m) ∈ q.heads ↔ ∃ rest, q.lanes.get? key = some (m :: rest) := by
  unfold heads
  rw [List.mem_filterMap]
  constructor
  · rintro ⟨⟨k, lane⟩, hmem, heq⟩
    obtain ⟨m', hm', hpair⟩ := Option.map_eq_some_iff.mp heq
    cases hpair
    obtain ⟨rest, hrest⟩ := List.head?_eq_some_iff.mp hm'
    have hlane : lane = m :: rest := hrest
    exact ⟨rest, hlane ▸ OrdMap.mem_entries_iff.mp hmem⟩
  · rintro ⟨rest, hget⟩
    exact ⟨(key, m :: rest), OrdMap.mem_entries_iff.mpr hget, rfl⟩

/-- the next message is the least of the queue by time and pair; without one the queue is empty -/
theorem popNext_cases {q : OutputQueue} (hwf : Wf q) :
    (q.queued = [] ∧ q.popNext = (none, q) ∧ q.peekNext = none) ∨
    ∃ m rest, q.lanes.get? (laneKey m) = some (m :: rest)
      ∧ q.popNext = (some m, q.setLane (laneKey m) rest) ∧ q.peekNext = some m
      ∧ ∀ m' ∈ q.queued, deliveryKey m ≤ deliveryKey m' := by
  rw [peekNext_heads]
  unfold popNext
  rw [popNext_heads]
  cases hmin : q.heads.argmin (fun e => e.2.createdLt) with
  | none =>
    refine Or.inl ⟨List.eq_nil_iff_forall_not_mem.mpr fun m hm => ?_, rfl, rfl⟩
    obtain ⟨key, lane, hget, _⟩ := mem_queued.mp hm
    obtain ⟨m', rest, rfl⟩ := List.exists_cons_of_ne_nil (hwf.nonempty key lane hget)
    have hmem := mem_heads.mpr ⟨rest, hget⟩
    rw [List.argmin_eq_none.mp hmin] at hmem
    cases hmem
  | some e =>
    obtain ⟨key, m⟩ := e
    obtain ⟨hmem, hleast⟩ := ArgMin.argmin_least q.heads_sorted hmin
    obtain ⟨rest, hget⟩ := mem_heads.mp hmem
    have hkey : laneKey m = key := hwf.keyed key _ hget m List.mem_cons_self
    cases hkey
    refine Or.inr ⟨m, rest, hget, ?_, rfl, fun m' hm' => ?_⟩
    · dsimp only [Option.map_some]
      rw [hget]
      rfl
    -- a message is not before the head of its lane, and no head is before `m`
    · obtain ⟨key', lane', hget', hin⟩ := mem_queued.mp hm'
      obtain ⟨h, rest', rfl⟩ := List.exists_cons_of_ne_nil (hwf.nonempty key' lane' hget')
      have hkey' : laneKey m' = key' := hwf.keyed key' _ hget' m' hin
      have hhead := hleast (key', h) (mem_heads.mpr ⟨rest', hget'⟩)
      refine le_trans hhead ?_
      unfold deliveryKey
      rw [hkey']
      rcases List.mem_cons.mp hin with rfl | hin
      · exact le_rfl
      · have hlt := (List.pairwise_cons.mp (hwf.ordered key' _ hget')).1 m' hin
        exact Prod.Lex.toLex_le_toLex.mpr (Or.inl hlt)

theorem Wf.popNext {q : OutputQueue} (hwf : Wf q) : Wf q.popNext.2 := by
  rcases popNext_cases hwf with ⟨_, h, _⟩ | ⟨m, rest, hget, h, _⟩
  · rw [h]
    exact hwf
  · rw [h]
    exact hwf.setLane (fun m' hm' => hwf.keyed _ _ hget m' (List.mem_cons_of_mem _ hm'))
      (List.pairwise_cons.mp (hwf.ordered _ _ hget)).2

theorem queued_popNext {q : OutputQueue} (hwf : Wf q) :
    q.queued.Perm (q.popNext.1.toList ++ q.popNext.2.queued) := by
  rcases popNext_cases hwf with ⟨hnil, h, _⟩ | ⟨m, rest, hget, h, _⟩
  · rw [h]
    exact List.Perm.refl _
  · rw [h]
    exact (queued_perm hget).trans ((queued_setLane q (laneKey m) rest).symm.cons m)

/-! ## draining -/

/-- the messages of `n` deliveries, and the queue left -/
def popAll : Nat → OutputQueue → List Message × OutputQueue
  | 0, q => ([], q)
  | n+1, q => (q.popNext.1.toList ++ (popAll n q.popNext.2).1, (popAll n q.popNext.2).2)

/-- **Draining a queue yields its messages by logical time, ties by the pair, and empties it.** -/
theorem popAll_sorted {q : OutputQueue} (hwf : Wf q) {n : Nat} (hn : q.len = n) :
    (popAll n q).1.Perm q.queued
      ∧ (popAll n q).1.Pairwise (fun a b => deliveryKey a ≤ deliveryKey b)
      ∧ (popAll n q).2.len = 0 := by
  induction n generalizing q with
  | zero =>
    rw [len_eq] at hn
    have hnil := List.length_eq_zero_iff.mp hn
    exact ⟨by rw [hnil]; exact List.Perm.refl _, List.Pairwise.nil, by rw [popAll, len_eq]; exact hn⟩
  | succ n ih =>
    have hperm := queued_popNext hwf
    rcases popNext_cases hwf with ⟨hnil, _, _⟩ | ⟨m, rest, _, hpop, _, hleast⟩
    · rw [len_eq, hnil] at hn
      cases hn
    · have hm : q.popNext.1 = some m := congrArg Prod.fst hpop
      rw [hm, Option.toList_some, List.singleton_append] at hperm
      have hlen : q.popNext.2.len = n := by
        have h := hperm.length_eq
        rw [List.length_cons, ← len_eq, ← len_eq] at h
        omega
      obtain ⟨ihperm, ihsorted, ihempty⟩ := ih hwf.popNext hlen
      unfold popAll
      rw [hm, Option.toList_some, List.singleton_append]
      refine ⟨(ihperm.cons m).trans hperm.symm, List.pairwise_cons.mpr ⟨fun a ha => ?_, ihsorted⟩, ihempty⟩
      exact hleast a (hperm.mem_iff.mpr (List.mem_cons_of_mem _ (ihperm.mem_iff.mp ha)))

end OutputQueue

/-! ## runs -/

inductive QueueOp where
  | enqueue (message : Message)
  | popNext

/-- a queue, the messages it accepted and the messages it delivered, in order -/
structure QueueRun where
  queue : OutputQueue
  accepted : List Message
  delivered : List Message

namespace QueueRun

def init : QueueRun := ⟨OutputQueue.new, [], []⟩

def step (w : QueueRun) : QueueOp → QueueRun
  | .enqueue m =>
    { queue := (w.queue.enqueue m).2
      accepted := match (w.queue.enqueue m).1 with
        | .ok () => w.accepted ++ [m]
        | .error _ => w.accepted
      delivered := w.delivered }
  | .popNext =>
    { queue := w.queue.popNext.2
      accepted := w.accepted
      delivered := w.delivered ++ w.queue.popNext.1.toList }

/-- the invariant of a run -/
structure Ok (w : QueueRun) : Prop where
  wf : OutputQueue.Wf w.queue
  conserved : w.accepted.Perm (w.delivered ++ w.queue.queued)

theorem ok_init : Ok init := ⟨OutputQueue.wf_new, List.Perm.refl _⟩

theorem ok_step (w : QueueRun) (op : QueueOp) (h : Ok w) : Ok (w.step op) := by
  cases op with
  | enqueue m =>
    refine ⟨h.wf.enqueue m, ?_⟩
    unfold step
    dsimp only
    rcases OutputQueue.enqueue_cases h.wf m with ⟨e, he⟩ | ⟨he, _⟩
    · rw [he]
      exact h.conserved
    · rw [he]
      refine (h.conserved.append_right [m]).trans ?_
      rw [List.append_assoc]
      refine List.Perm.append_left _ ?_
      exact List.perm_append_comm.trans (OutputQueue.queued_enqueue m).symm
  | popNext =>
    refine ⟨h.wf.popNext, h.conserved.trans ?_⟩
    show (w.delivered ++ w.queue.queued).Perm
      ((w.delivered ++ w.queue.popNext.1.toList) ++ w.queue.popNext.2.queued)
    rw [List.append_assoc]
    exact (OutputQueue.queued_popNext h.wf).append_left _

theorem run_ok (ops : List QueueOp) : Ok (Runs.run step init ops) :=
  Runs.run_inv ok_step ops ok_init

end QueueRun

/-- what holds of the queue and the messages of a run -/
structure Accounted (w : QueueRun) : Prop where
  conserved : w.accepted.Perm (w.delivered ++ w.queue.queued)
  len : w.queue.len = w.queue.queued.length
  refused : ∀ m e, (w.queue.enqueue m).1 = .error e → (w.queue.enqueue m).2 = w.queue
  peek : w.queue.peekNext = w.queue.popNext.1
  drained : (w.queue.popAll w.queue.len).1.Perm w.queue.queued
    ∧ (w.queue.popAll w.queue.len).2.len = 0
  sorted : (w.queue.popAll w.queue.len).1.Pairwise
    (fun a b => OutputQueue.deliveryKey a ≤ OutputQueue.deliveryKey b)

/-- **The queue neither loses, duplicates nor reorders**, in any interleaving of enqueues and
deliveries. -/
theorem queue_conserves (ops : List QueueOp) :
    Accounted (Runs.run QueueRun.step QueueRun.init ops) := by
  obtain ⟨hwf, hcons⟩ := QueueRun.run_ok ops
  obtain ⟨hperm, hsorted, hempty⟩ := OutputQueue.popAll_sorted hwf rfl
  refine ⟨hcons, OutputQueue.len_eq _, fun m e he => ?_, ?_, ⟨hperm, hempty⟩, hsorted⟩
  · rcases OutputQueue.enqueue_cases hwf m with ⟨e', h⟩ | ⟨h, _⟩
    · rw [h]
    · rw [h] at he
      cases he
  · rcases OutputQueue.popNext_cases hwf with ⟨_, hpop, hpeek⟩ | ⟨m, rest, _, hpop, hpeek, _⟩
    · rw [hpop, hpeek]
    · rw [hpop, hpeek]

end Onx.Transactions
