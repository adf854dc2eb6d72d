import Onx.Lib.Runs
import Onx.Networking.Chunks

/-!
# A transfer over a lossy link

A sender and the receiver of its payload.  Each packet and each acknowledgement stays on the link
for good: it may arrive never, late, out of order, or many times.

* `Transfer`, `step`   the two parties, the link, and what is done in which order;
* `Intact`             what holds at all times: packets are frames of the payload, and what is
                       acknowledged has arrived;
* `Delivers`           the promise of a transfer;
* `rldp_delivers`      **every run keeps it.**
-/

namespace Onx
open ByteBits

structure Transfer where
  sender : RldpSender
  receiver : Option RldpReceiver
  /-- the datagrams sent so far -/
  packets : List Bytes
  /-- the acknowledgements made so far -/
  acks : List RldpAckFrame
  /-- the datagrams that have come in, the last one first -/
  arrived : List Bytes
  /-- what `ingest` returned for them -/
  results : List (Except NetworkError (Option Bytes))

namespace Transfer

inductive Event where
  | nextRound
  | arrive (packet : Nat)
  | ack
  /-- an acknowledgement reaches the sender as it is -/
  | applyAck (number : Nat)
  /-- an acknowledgement reaches the sender by its bytes -/
  | receiveAck (number : Nat)

def start (sender : RldpSender) : Transfer := ⟨sender, none, [], [], [], []⟩

/-- a panic leaves the sender as it was -/
def nextRound (s : Transfer) : Transfer :=
  match s.sender.nextRound with
  | none => s
  | some (sender, packets) => { s with sender := sender, packets := s.packets ++ packets }

/-- the first frame makes the receiver -/
def arrive (c : Crypto) (s : Transfer) (wire : Bytes) : Transfer :=
  let s := { s with arrived := wire :: s.arrived }
  match RldpDataFrame.decode wire with
  | .error e => { s with results := .error e :: s.results }
  | .ok frame =>
    match s.receiver.elim (RldpReceiver.fromFrame frame) .ok with
    | .error e => { s with results := .error e :: s.results }
    | .ok receiver =>
      let (receiver, result) := receiver.ingest c frame
      { s with receiver := some receiver, results := result :: s.results }

def ack (s : Transfer) : Transfer :=
  match s.receiver.bind RldpReceiver.ack with
  | none => s
  | some (receiver, ack) => { s with receiver := some receiver, acks := s.acks ++ [ack] }

def applyAck (s : Transfer) (ack : RldpAckFrame) : Transfer :=
  match s.sender.applyAck ack with
  | .error _ => s
  | .ok sender => { s with sender := sender }

def step (c : Crypto) (s : Transfer) : Event → Transfer
  | .nextRound => nextRound s
  | .arrive packet => s.packets[packet]?.elim s (arrive c s)
  | .ack => ack s
  | .applyAck number => s.acks[number]?.elim s (applyAck s)
  | .receiveAck number => s.acks[number]?.elim s fun a =>
    (RldpAckFrame.decode a.encode).toOption.elim s (applyAck s)

/-- every chunk has arrived at least once -/
def Complete (s : Transfer) : Prop :=
  ∀ frame ∈ s.sender.frames, ∃ wire ∈ s.arrived, RldpDataFrame.decode wire = .ok frame

/-- what a transfer of `payload` promises -/
structure Delivers (c : Crypto) (payload : Bytes) (s : Transfer) : Prop where
  /-- no frame fails to be encoded -/
  encodes : ∀ frame ∈ s.sender.frames, ∃ wire, frame.encode = .ok wire
  /-- a round panics only if no vector of its size can be reserved -/
  rounds : s.sender.nextRound = none → s.sender.config.packetsPerRound * 24 > ISIZE_MAX
  /-- an acknowledgement can be made -/
  acks : ∀ receiver, s.receiver = some receiver → receiver.ack ≠ none
  /-- nothing but the payload comes out -/
  results : ∀ result ∈ s.results, result = .ok none ∨ result = .ok (some payload)
  /-- it comes out as soon as every chunk has arrived -/
  returns : ∀ packet wire, s.packets[packet]? = some wire →
    ∃ result, (step c s (.arrive packet)).results = result :: s.results
      ∧ (Complete (step c s (.arrive packet)) → result = .ok (some payload))
      ∧ (¬ Complete (step c s (.arrive packet)) → result = .ok none)
  /-- the sender is complete only after it came out -/
  complete : s.sender.isComplete = true → .ok (some payload) ∈ s.results

/-! ## the invariant -/

section
variable {c : Crypto} {transferId : Uint256} {payload : Bytes} {config : RldpConfig}
  {s : Transfer}

/-- the numbers of the chunks that have arrived -/
def arrivals (c : Crypto) (transferId : Uint256) (payload : Bytes) (config : RldpConfig)
    (arrived : List Bytes) : Set Nat :=
  {i | i < config.chunks payload
    ∧ ∃ wire ∈ arrived, RldpDataFrame.decode wire = .ok (frameAt c transferId payload config i)}

/-- a datagram with a chunk of the payload -/
def Genuine (c : Crypto) (transferId : Uint256) (payload : Bytes) (config : RldpConfig)
    (wire : Bytes) (i : Nat) : Prop :=
  i < config.chunks payload
    ∧ RldpDataFrame.decode wire = .ok (frameAt c transferId payload config i)

structure Intact (c : Crypto) (transferId : Uint256) (payload : Bytes) (config : RldpConfig)
    (s : Transfer) : Prop where
  frames_eq : s.sender.frames
    = (List.range (config.chunks payload)).map (frameAt c transferId payload config)
  cursor_lt : s.sender.cursor < s.sender.frames.length
  packets : ∀ wire ∈ s.packets, ∃ i, Genuine c transferId payload config wire i
  receiver : (s.receiver = none ∧ s.arrived = []) ∨ ∃ r, s.receiver = some r
    ∧ Holds c transferId payload config (arrivals c transferId payload config s.arrived) r
  acks : ∀ a ∈ s.acks, ∀ i < config.chunks payload, getBit lsbFirst a.receivedMask i = true →
    i ∈ arrivals c transferId payload config s.arrived
  acknowledged : ∀ q ∈ s.sender.acknowledged,
    ∃ i ∈ arrivals c transferId payload config s.arrived, q = BitVec.ofNat 16 i
  results : ∀ result ∈ s.results, result = .ok none ∨ result = .ok (some payload)
  returned : (∀ i < config.chunks payload, i ∈ arrivals c transferId payload config s.arrived) →
    .ok (some payload) ∈ s.results

theorem frameAt_inj (ha : config.Accepts payload) {i j : Nat} (hi : i < config.chunks payload)
    (hj : j < config.chunks payload)
    (h : frameAt c transferId payload config i = frameAt c transferId payload config j) : i = j :=
  BitVec.eq_of_ofNat_eq (hi.trans ha.chunks_lt) (hj.trans ha.chunks_lt) (congrArg RldpDataFrame.seqNo h)

theorem arrivals_nil : arrivals c transferId payload config [] = ∅ := by
  ext i
  simp [arrivals]

theorem arrivals_cons (ha : config.Accepts payload) {wire : Bytes} {i : Nat}
    (h : Genuine c transferId payload config wire i) (arrived : List Bytes) :
    arrivals c transferId payload config (wire :: arrived)
      = insert i (arrivals c transferId payload config arrived) := by
  ext j
  constructor
  · rintro ⟨hj, w, hw, hdecode⟩
    rcases List.mem_cons.mp hw with rfl | hw
    · have heq := h.2.symm.trans hdecode
      rw [frameAt_inj ha h.1 hj (Except.ok.inj heq)]
      exact Set.mem_insert _ _
    · exact Set.mem_insert_of_mem _ ⟨hj, w, hw, hdecode⟩
  · rintro (rfl | ⟨hj, w, hw, hdecode⟩)
    · exact ⟨h.1, wire, List.mem_cons_self, h.2⟩
    · exact ⟨hj, w, List.mem_cons_of_mem _ hw, hdecode⟩

theorem Intact.complete_iff (h : Intact c transferId payload config s) :
    s.Complete ↔ ∀ i < config.chunks payload,
      i ∈ arrivals c transferId payload config s.arrived := by
  unfold Complete
  rw [h.frames_eq]
  constructor
  · intro hall i hi
    exact ⟨hi, hall _ (List.mem_map_of_mem (List.mem_range.mpr hi))⟩
  · intro hall frame hframe
    obtain ⟨i, hi, rfl⟩ := List.mem_map.mp hframe
    exact (hall i (List.mem_range.mp hi)).2

theorem intact_start (ha : config.Accepts payload) :
    Intact c transferId payload config (start (RldpSender.fresh c transferId payload config)) := by
  refine ⟨rfl, ?_, ?_, Or.inl ⟨rfl, rfl⟩, ?_, ?_, ?_, fun hall => ?_⟩
  · show 0 < ((List.range (config.chunks payload)).map _).length
    rw [List.length_map, List.length_range]
    exact ha.chunks_pos
  · intro wire hwire
    cases hwire
  · intro a ha'
    cases ha'
  · intro q hq
    exact absurd hq (Finset.notMem_empty q)
  · intro result hresult
    cases hresult
  · obtain ⟨_, wire, hwire, _⟩ := hall 0 ha.chunks_pos
    cases hwire

theorem Intact.encodes (ha : config.Accepts payload) (h : Intact c transferId payload config s) :
    ∀ frame ∈ s.sender.frames, ∃ wire, frame.encode = .ok wire := by
  intro frame hframe
  rw [h.frames_eq] at hframe
  obtain ⟨i, hi, rfl⟩ := List.mem_map.mp hframe
  exact ha.encode_frameAt (List.mem_range.mp hi)

/-! ## steps -/

theorem Intact.nextRound_eq (ha : config.Accepts payload)
    (h : Intact c transferId payload config s)
    (hsize : s.sender.config.packetsPerRound * 24 ≤ ISIZE_MAX) :
    ∃ cursor packets, s.sender.nextRound = some ({ s.sender with cursor := cursor }, packets)
      ∧ cursor < s.sender.frames.length
      ∧ ∀ wire ∈ packets, ∃ i, Genuine c transferId payload config wire i := by
  obtain ⟨cursor, packets, hround, hcursor, _, hsends⟩ :=
    RldpSender.nextRound_spec (h.encodes ha) h.cursor_lt hsize
  refine ⟨cursor, packets, hround, hcursor, fun wire hwire => ?_⟩
  obtain ⟨frame, hframe, _, hencode⟩ := hsends wire hwire
  rw [h.frames_eq] at hframe
  obtain ⟨i, hi, rfl⟩ := List.mem_map.mp hframe
  exact ⟨i, List.mem_range.mp hi, RldpDataFrame.decode_encode hencode⟩

theorem Intact.nextRound (ha : config.Accepts payload)
    (h : Intact c transferId payload config s) :
    Intact c transferId payload config (nextRound s) := by
  unfold Transfer.nextRound
  by_cases hsize : s.sender.config.packetsPerRound * 24 ≤ ISIZE_MAX
  · obtain ⟨cursor, packets, hround, hcursor, hgenuine⟩ := h.nextRound_eq ha hsize
    rw [hround]
    refine ⟨h.frames_eq, hcursor, fun wire hwire => ?_, h.receiver, h.acks, h.acknowledged,
      h.results, h.returned⟩
    rcases List.mem_append.mp hwire with hold | hnew
    · exact h.packets wire hold
    · exact hgenuine wire hnew
  · have hnone : s.sender.nextRound = none := if_pos (Nat.not_le.mp hsize)
    rw [hnone]
    exact h

/-- a chunk comes in -/
theorem Intact.arrive_eq (ha : config.Accepts payload)
    (h : Intact c transferId payload config s) {wire : Bytes} {i : Nat}
    (hwire : Genuine c transferId payload config wire i) :
    ∃ r, arrive c s wire = { s with
        arrived := wire :: s.arrived, receiver := some r, results := r.payload c :: s.results }
      ∧ Holds c transferId payload config
          (arrivals c transferId payload config (wire :: s.arrived)) r := by
  obtain ⟨r, hr, hholds⟩ : ∃ r, s.receiver.elim
      (RldpReceiver.fromFrame (frameAt c transferId payload config i)) .ok = .ok r
        ∧ Holds c transferId payload config
          (arrivals c transferId payload config s.arrived) r := by
    rcases h.receiver with ⟨hnone, hnil⟩ | ⟨r, hsome, hholds⟩
    · rw [hnone, hnil, arrivals_nil]
      exact fromFrame_holds ha i
    · rw [hsome]
      exact ⟨r, rfl, hholds⟩
  obtain ⟨r', hingest, hholds'⟩ := hholds.ingest_eq ha hwire.1
  refine ⟨r', ?_, ?_⟩
  · unfold arrive
    dsimp only
    rw [hwire.2]
    dsimp only
    rw [hr]
    dsimp only
    rw [hingest]
  · rw [arrivals_cons ha hwire]
    exact hholds'

theorem Intact.arrive (ha : config.Accepts payload) (h : Intact c transferId payload config s)
    {wire : Bytes} {i : Nat} (hwire : Genuine c transferId payload config wire i) :
    Intact c transferId payload config (arrive c s wire) := by
  have hmono : arrivals c transferId payload config s.arrived
      ⊆ arrivals c transferId payload config (wire :: s.arrived) := by
    rw [arrivals_cons ha hwire]
    exact Set.subset_insert _ _
  obtain ⟨r, hr, hholds⟩ := h.arrive_eq ha hwire
  obtain ⟨hall, hnot⟩ := hholds.payload_eq ha
  rw [hr]
  refine ⟨h.frames_eq, h.cursor_lt, h.packets, Or.inr ⟨r, rfl, hholds⟩, ?_, ?_, ?_, ?_⟩
  · exact fun a hmem j hj hbit => hmono (h.acks a hmem j hj hbit)
  · intro q hq
    obtain ⟨j, hj, hqj⟩ := h.acknowledged q hq
    exact ⟨j, hmono hj, hqj⟩
  · intro result hresult
    rcases List.mem_cons.mp hresult with rfl | hold
    · by_cases hcomplete : ∀ j < config.chunks payload,
          j ∈ arrivals c transferId payload config (wire :: s.arrived)
      · exact Or.inr (hall hcomplete)
      · exact Or.inl (hnot hcomplete)
    · exact h.results result hold
  · intro hcomplete
    rw [← hall hcomplete]
    exact List.mem_cons_self

theorem Intact.ack (ha : config.Accepts payload) (h : Intact c transferId payload config s) :
    Intact c transferId payload config (ack s) := by
  unfold Transfer.ack
  rcases h.receiver with ⟨hnone, _⟩ | ⟨r, hsome, hholds⟩
  · rw [hnone]
    exact h
  · obtain ⟨r', a, hack, hholds', hbits⟩ := hholds.ack_eq ha
    rw [hsome, Option.bind_some, hack]
    refine ⟨h.frames_eq, h.cursor_lt, h.packets, Or.inr ⟨r', rfl, hholds'⟩, ?_, h.acknowledged,
      h.results, h.returned⟩
    intro b hb
    rcases List.mem_append.mp hb with hold | hnew
    · exact h.acks b hold
    · rw [List.mem_singleton.mp hnew]
      exact hbits

theorem Intact.applyAck (h : Intact c transferId payload config s)
    {a : RldpAckFrame} (hmem : a ∈ s.acks) :
    Intact c transferId payload config (applyAck s a) := by
  unfold Transfer.applyAck
  cases hsender : s.sender.applyAck a with
  | error e => exact h
  | ok sender =>
    obtain ⟨lastAckSeq, acknowledged, rfl⟩ := RldpSender.applyAck_keeps hsender
    refine ⟨h.frames_eq, h.cursor_lt, h.packets, h.receiver, h.acks, fun q hq => ?_, h.results,
      h.returned⟩
    rcases RldpSender.mem_applyAck hsender hq with hold | ⟨i, hi, hbit, hqi⟩
    · exact h.acknowledged q hold
    · rw [h.frames_eq, List.length_map, List.length_range] at hi
      exact ⟨i, h.acks a hmem i hi hbit, hqi⟩

theorem Intact.step (ha : config.Accepts payload) (h : Intact c transferId payload config s)
    (e : Event) : Intact c transferId payload config (step c s e) := by
  cases e with
  | nextRound => exact h.nextRound ha
  | arrive packet =>
    show Intact c transferId payload config (s.packets[packet]?.elim s (Transfer.arrive c s))
    cases hwire : s.packets[packet]? with
    | none => exact h
    | some wire =>
      obtain ⟨i, hi⟩ := h.packets wire (List.mem_of_getElem? hwire)
      exact h.arrive ha hi
  | ack => exact h.ack ha
  | applyAck number =>
    show Intact c transferId payload config (s.acks[number]?.elim s (Transfer.applyAck s))
    cases hack : s.acks[number]? with
    | none => exact h
    | some a => exact h.applyAck (List.mem_of_getElem? hack)
  | receiveAck number =>
    show Intact c transferId payload config (s.acks[number]?.elim s fun a =>
      (RldpAckFrame.decode a.encode).toOption.elim s (Transfer.applyAck s))
    cases hack : s.acks[number]? with
    | none => exact h
    | some a =>
      -- its bytes are not an acknowledgement
      rw [Option.elim_some, RldpAckFrame.decode_encode]
      exact h

/-! ## runs -/

theorem Intact.delivers (ha : config.Accepts payload)
    (h : Intact c transferId payload config s) : Delivers c payload s := by
  refine ⟨h.encodes ha, ?_, ?_, h.results, ?_, ?_⟩
  · intro hnone
    by_contra hsize
    obtain ⟨cursor, packets, hround, _⟩ := h.nextRound_eq ha (Nat.not_lt.mp hsize)
    rw [hround] at hnone
    cases hnone
  · intro receiver hreceiver
    rcases h.receiver with ⟨hnone, _⟩ | ⟨r, hsome, hholds⟩
    · rw [hnone] at hreceiver
      cases hreceiver
    · obtain ⟨r', a, hack, _⟩ := hholds.ack_eq ha
      rw [hsome] at hreceiver
      cases hreceiver
      rw [hack]
      exact Option.some_ne_none _
  · intro packet wire hwire
    obtain ⟨i, hi⟩ := h.packets wire (List.mem_of_getElem? hwire)
    have hstep : Transfer.step c s (.arrive packet) = Transfer.arrive c s wire := by
      show s.packets[packet]?.elim s (Transfer.arrive c s) = _
      rw [hwire]
      rfl
    obtain ⟨r, hr, hholds⟩ := h.arrive_eq ha hi
    rw [hstep, (h.arrive ha hi).complete_iff, hr]
    exact ⟨_, rfl, hholds.payload_eq ha⟩
  · intro hcomplete
    have hn : s.sender.frames.length = config.chunks payload := by
      rw [h.frames_eq, List.length_map, List.length_range]
    have hcard : s.sender.acknowledged.card = config.chunks payload := by
      rw [← hn]
      exact of_decide_eq_true hcomplete
    have hsub : s.sender.acknowledged ⊆ numbers (config.chunks payload) := by
      intro q hq
      obtain ⟨i, hi, rfl⟩ := h.acknowledged q hq
      exact mem_numbers hi.1
    refine h.returned fun i hi => ?_
    have hmem := mem_numbers hi
    rw [← eq_numbers ha.chunks_lt hsub hcard] at hmem
    obtain ⟨j, hj, hij⟩ := h.acknowledged _ hmem
    rwa [BitVec.eq_of_ofNat_eq (hi.trans ha.chunks_lt) (hj.1.trans ha.chunks_lt) hij]

end

/-- **A transfer delivers its payload**, and nothing else, whatever is lost, repeated or late. -/
theorem rldp_delivers (c : Crypto) (transferId : Uint256) (payload : Bytes) (config : RldpConfig)
    {sender : RldpSender} (hnew : RldpSender.new c transferId payload config = .ok sender)
    (es : List Event) : Delivers c payload (Runs.run (step c) (start sender) es) := by
  obtain ⟨ha, rfl⟩ := RldpSender.new_ok hnew
  have hintact : Intact c transferId payload config
      (Runs.run (step c) (start (RldpSender.fresh c transferId payload config)) es) :=
    Runs.run_inv (fun s e h => h.step ha e) es (intact_start ha)
  exact hintact.delivers ha

def sampleConfig : RldpConfig := { chunkSize := 2, redundancy := 1 }

/-- three bytes in two chunks, which arrive in the wrong order -/
theorem rldp_delivers_sample :
    (∃ s : Transfer, Delivers sampleCrypto [1, 2, 3] s ∧ s.sender.isComplete = true
      ∧ s.results = [.ok (some [1, 2, 3]), .ok none]) := by
  obtain ⟨sender, hnew⟩ : ∃ sender,
    RldpSender.new sampleCrypto 7 [1, 2, 3] sampleConfig = .ok sender := ⟨_, rfl⟩
  have hrun := rldp_delivers sampleCrypto 7 [1, 2, 3] sampleConfig hnew
    [.nextRound, .arrive 1, .arrive 0, .ack, .applyAck 0]
  cases hnew
  exact ⟨_, hrun, by decide +kernel, by decide +kernel⟩

end Transfer

end Onx
