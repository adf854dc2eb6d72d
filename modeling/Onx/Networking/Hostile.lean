import Onx.Lib.Runs
import Onx.Networking.Chunks
import Onx.Networking.Frames

/-!
# A receiver and any bytes

A receiver is made of the first frame that is decoded, and takes in all bytes that come after it, from
whomever; acknowledgements are made at any time.

* `Session.feed`, `Session.ack`   what is done with bytes, with every access and product;
* `Sound`                         the chunks of a receiver have numbers and lengths of its dimensions;
* `Safe`                          what a session promises of the next bytes and acknowledgement;
* `hostile_sender`                **every session keeps the promise.**
-/

namespace Onx
open ByteBits Checked

/-- `RldpReceiver::ingest` with the vector that it reserves -/
def RldpReceiver.ingestRun (c : Crypto) (self : RldpReceiver) (frame : RldpDataFrame) :
    Option (RldpReceiver × Except NetworkError (Option Bytes)) :=
  if frame.transferId ≠ self.transferId ∨ frame.payloadDigest ≠ self.digest
      ∨ frame.totalSize.toNat ≠ self.totalSize ∨ frame.chunkSize.toNat ≠ self.chunkSize
      ∨ frame.chunkCount.toNat ≠ self.chunkCount then
    some (self, .error .malformedRldpFrame)
  else
    let self := { self with chunks := keep self.chunks frame.seqNo frame.chunkData }
    if self.chunks.size ≠ self.chunkCount then some (self, .ok none)
    else do
      let capacity ← mul self.chunkCount self.chunkSize
      withCapacity 1 capacity
      some (self, self.payload c)

/-- the receiver, once there is one -/
abbrev Session := Option RldpReceiver

namespace Session

inductive Event where
  | feed (wire : Bytes)
  | ack

/-- bytes come in; none where the code panics -/
def feed (c : Crypto) (s : Session) (wire : Bytes) :
    Option (Session × Except NetworkError (Option Bytes)) := do
  match ← (RldpDataFrame.read wire).run with
  | .error e => some (s, .error e)
  | .ok frame =>
    match s.elim (RldpReceiver.fromFrame frame) .ok with
    | .error e => some (s, .error e)
    | .ok receiver =>
      let (receiver, result) ← receiver.ingestRun c frame
      some (some receiver, result)

/-- a panic leaves the session as it was -/
def step (c : Crypto) (s : Session) : Event → Session
  | .feed wire => ((s.feed c wire).map Prod.fst).getD s
  | .ack => (s.bind fun receiver => receiver.ack.map Prod.fst).orElse fun _ => s

/-- what is stored under a number -/
def stored (s : Session) (q : Uint16) : Option Bytes := s.bind fun receiver => receiver.chunks.get? q

/-- what a session promises -/
structure Safe (c : Crypto) (s : Session) : Prop where
  /-- no bytes make it panic -/
  returns : ∀ wire, s.feed c wire ≠ none
  /-- what comes out has the length and the hash that were announced -/
  payload : ∀ wire s' payload, s.feed c wire = some (s', .ok (some payload)) →
    ∃ receiver, s' = some receiver ∧ payload.length = receiver.totalSize
      ∧ c.sha256 payload = receiver.digest
  /-- no chunk that is stored is changed by bytes that are rejected -/
  rejected : ∀ wire s' e, s.feed c wire = some (s', .error e) →
    ∀ q data, s.stored q = some data → s'.stored q = some data
  /-- and a frame that is refused leaves everything as it was -/
  refused : ∀ wire s' e, s.feed c wire = some (s', .error e) → e ≠ .payloadDigestMismatch → s' = s
  /-- an acknowledgement has the bits of the chunks that are stored -/
  acks : ∀ receiver, s = some receiver → ∃ receiver' a, receiver.ack = some (receiver', a)
    ∧ receiver'.chunks = receiver.chunks
    ∧ ∀ i, getBit lsbFirst a.receivedMask i = true ↔
      ∃ q data, q.toNat = i ∧ receiver.chunks.get? q = some data

end Session

/-! ## the invariant -/

/-- the chunks have numbers below the count and the announced length -/
structure RldpReceiver.Sound (r : RldpReceiver) : Prop where
  chunkSize_lt : r.chunkSize < 2^16
  chunkSize_pos : 0 < r.chunkSize
  chunkCount_lt : r.chunkCount < 2^16
  chunkCount_eq : r.totalSize ⌈/⌉ r.chunkSize = r.chunkCount
  stored : ∀ q data, r.chunks.get? q = some data → q.toNat < r.chunkCount ∧ data.length = r.chunkSize

section
variable {c : Crypto} {r : RldpReceiver} {f : RldpDataFrame}

theorem validateDimensions_iff {totalSize : Uint32} {chunkSize chunkCount : Uint16} :
    validateDimensions totalSize chunkSize chunkCount = .ok ()
      ↔ totalSize ≠ 0 ∧ totalSize.toNat ≤ MAX_TRANSFER_SIZE ∧ chunkSize ≠ 0 ∧ chunkCount ≠ 0
        ∧ totalSize.toNat ⌈/⌉ chunkSize.toNat = chunkCount.toNat := by
  unfold validateDimensions
  split_ifs with h
  · exact iff_of_false nofun fun ⟨htotal, hle, hsize, hcount, heq⟩ => by
      rcases h with h | h | h | h | h
      · exact htotal h
      · exact absurd hle (Nat.not_le.mpr h)
      · exact hsize h
      · exact hcount h
      · exact h heq
  · push Not at h
    exact iff_of_true rfl h

/-- a frame of the transfer that the receiver was made for -/
structure RldpReceiver.Matches (r : RldpReceiver) (f : RldpDataFrame) : Prop where
  transferId_eq : f.transferId = r.transferId
  digest_eq : f.payloadDigest = r.digest
  totalSize_eq : f.totalSize.toNat = r.totalSize
  chunkSize_eq : f.chunkSize.toNat = r.chunkSize
  chunkCount_eq : f.chunkCount.toNat = r.chunkCount

theorem RldpDataFrame.WellFormed.fromFrame (hf : f.WellFormed) :
    ∃ r, RldpReceiver.fromFrame f = .ok r ∧ r.Sound ∧ r.Matches f ∧ r.chunks = ∅ := by
  obtain ⟨_, _, hsize, _, hcount⟩ := validateDimensions_iff.mp hf.dimensions
  unfold RldpReceiver.fromFrame
  rw [hf.dimensions]
  refine ⟨_, rfl, ⟨f.chunkSize.isLt, ?_, f.chunkCount.isLt, hcount, ?_⟩, ⟨rfl, rfl, rfl, rfl, rfl⟩, rfl⟩
  · exact Nat.pos_of_ne_zero fun h => hsize (BitVec.eq_of_toNat_eq h)
  · intro q data hget
    cases hget

namespace RldpReceiver

/-- a frame of the dimensions is stored -/
theorem Sound.keep (h : r.Sound) (hf : f.WellFormed) (hsize : f.chunkSize.toNat = r.chunkSize)
    (hcount : f.chunkCount.toNat = r.chunkCount) :
    Sound { r with chunks := keep r.chunks f.seqNo f.chunkData } := by
  refine ⟨h.chunkSize_lt, h.chunkSize_pos, h.chunkCount_lt, h.chunkCount_eq, fun q data hget => ?_⟩
  dsimp only at hget ⊢
  rw [Holds.get?_keep] at hget
  split_ifs at hget with hq
  · cases hold : r.chunks.get? f.seqNo with
    | none =>
      rw [hold] at hget
      obtain rfl := Option.some.inj hget
      refine ⟨?_, hf.length_eq.trans hsize⟩
      rw [hq, ← hcount]
      exact hf.seqNo_lt
    | some old =>
      rw [hold] at hget
      obtain rfl := Option.some.inj hget
      rw [hq]
      exact h.stored _ _ hold
  · exact h.stored _ _ hget

/-- all numbers are there as soon as there are so many -/
theorem Sound.mem_keys (h : r.Sound) (hfull : r.chunks.size = r.chunkCount) {i : Nat}
    (hi : i < r.chunkCount) : ∃ data, r.chunks.get? (BitVec.ofNat 16 i) = some data
      ∧ data.length = r.chunkSize := by
  have hcard : r.chunks.keys.toFinset.card = r.chunkCount := by
    rw [List.toFinset_card_of_nodup r.chunks.keys_nodup, OrdMap.length_keys, hfull]
  have hsub : r.chunks.keys.toFinset ⊆ numbers r.chunkCount := by
    intro q hq
    obtain ⟨data, hdata⟩ := OrdMap.mem_keys_iff.mp (List.mem_toFinset.mp hq)
    have hmem := mem_numbers (h.stored q data hdata).1
    rwa [BitVec.ofNat_toNat, BitVec.setWidth_eq] at hmem
  have hmem := mem_numbers hi
  rw [← eq_numbers h.chunkCount_lt hsub hcard, List.mem_toFinset] at hmem
  obtain ⟨data, hdata⟩ := OrdMap.mem_keys_iff.mp hmem
  exact ⟨data, hdata, (h.stored _ _ hdata).2⟩

theorem gather_ok {chunks : OrdMap Uint16 Bytes} {size : Nat} {is : List Nat}
    (hall : ∀ i ∈ is, ∃ data, chunks.get? (BitVec.ofNat 16 i) = some data ∧ data.length = size) :
    ∃ data, gather chunks is = .ok data ∧ data.length = is.length * size := by
  induction is with
  | nil => exact ⟨[], rfl, (Nat.zero_mul size).symm⟩
  | cons i is ih =>
    obtain ⟨data, hget, hlen⟩ := hall i List.mem_cons_self
    obtain ⟨rest, hrest, hlens⟩ := ih fun j hj => hall j (List.mem_cons_of_mem _ hj)
    refine ⟨data ++ rest, ?_, ?_⟩
    · unfold gather
      rw [hget]
      dsimp only
      rw [hrest]
      rfl
    · rw [List.length_append, hlen, hlens, List.length_cons]
      ring

/-- **Complete chunks are a payload of the announced length**, with the announced hash or not. -/
theorem Sound.payload_cases (h : r.Sound) (hfull : r.chunks.size = r.chunkCount) :
    r.payload c = .error .payloadDigestMismatch
      ∨ ∃ payload, r.payload c = .ok (some payload) ∧ payload.length = r.totalSize
        ∧ c.sha256 payload = r.digest := by
  have hcount : (BitVec.ofNat 16 r.chunkCount).toNat = r.chunkCount := by
    rw [BitVec.toNat_ofNat, Nat.mod_eq_of_lt h.chunkCount_lt]
  obtain ⟨data, hgather, hlen⟩ := @gather_ok r.chunks r.chunkSize
    (List.range r.chunkCount) fun i hi => h.mem_keys hfull (List.mem_range.mp hi)
  have hcover : r.totalSize ≤ data.length := by
    rw [hlen, List.length_range, ← h.chunkCount_eq, Nat.mul_comm]
    exact (ceilDiv_le_iff_le_mul h.chunkSize_pos).mp (le_refl _)
  unfold payload
  rw [if_neg (not_not.mpr hfull), hcount, hgather]
  by_cases hdigest : c.sha256 (data.take r.totalSize) = r.digest
  · exact .inr ⟨data.take r.totalSize, if_neg (not_not.mpr hdigest), List.length_take_of_le hcover, hdigest⟩
  · exact .inl (if_pos hdigest)

/-- what a frame that is stored is answered with -/
def Answers (c : Crypto) (r : RldpReceiver) (result : Except NetworkError (Option Bytes)) : Prop :=
  result = .ok none ∨ result = .error .payloadDigestMismatch
    ∨ ∃ payload, result = .ok (some payload) ∧ payload.length = r.totalSize ∧ c.sha256 payload = r.digest

/-- what a frame can do -/
theorem Sound.ingest_cases (h : r.Sound) (hf : f.WellFormed) :
    (r.ingestRun c f = some (r, .error .malformedRldpFrame) ∧ ¬ r.Matches f)
    ∨ ∃ r' result, r.ingestRun c f = some (r', result) ∧ r'.Sound
      ∧ r' = { r with chunks := RldpReceiver.keep r.chunks f.seqNo f.chunkData } ∧ r'.Answers c result := by
  unfold ingestRun
  split_ifs with hother
  · refine .inl ⟨rfl, fun hm => ?_⟩
    rcases hother with hne | hne | hne | hne | hne
    · exact hne hm.transferId_eq
    · exact hne hm.digest_eq
    · exact hne hm.totalSize_eq
    · exact hne hm.chunkSize_eq
    · exact hne hm.chunkCount_eq
  · push Not at hother
    obtain ⟨_, _, _, hsize, hcount⟩ := hother
    have hkeep := h.keep hf hsize hcount
    refine .inr ?_
    dsimp only
    split_ifs with hopen
    · exact ⟨_, _, rfl, hkeep, rfl, .inl rfl⟩
    · have hproduct : r.chunkCount * r.chunkSize < 2^16 * 2^16 :=
        Nat.mul_lt_mul'' h.chunkCount_lt h.chunkSize_lt
      rw [mul_eq (by omega), Option.bind_eq_bind, Option.bind_some, withCapacity_eq (by omega)]
      exact ⟨_, _, rfl, hkeep, rfl, .inr (hkeep.payload_cases (not_not.mp hopen))⟩

/-- **The bits of an acknowledgement** are those of the chunks that are stored. -/
theorem Sound.ack_ok (h : r.Sound) : ∃ r' a, r.ack = some (r', a) ∧ r'.Sound ∧ r'.chunks = r.chunks
    ∧ ∀ i, getBit lsbFirst a.receivedMask i = true ↔
      ∃ q data, q.toNat = i ∧ r.chunks.get? q = some data := by
  have hkeys : ∀ q ∈ r.chunks.keys, q.toNat / 8 < (zeros (r.chunkCount ⌈/⌉ 8)).length := by
    intro q hq
    obtain ⟨data, hdata⟩ := OrdMap.mem_keys_iff.mp hq
    have hlt := (h.stored q data hdata).1
    rw [length_zeros, Nat.ceilDiv_eq_add_pred_div]
    omega
  unfold ack
  rw [Holds.mark_eq hkeys]
  refine ⟨_, _, rfl, ⟨h.chunkSize_lt, h.chunkSize_pos, h.chunkCount_lt, h.chunkCount_eq, h.stored⟩, rfl,
    fun i => ?_⟩
  dsimp only
  rw [getBit_setBits lsbFirst, getBit_zeros, Bool.or_false, decide_eq_true_eq, List.mem_map]
  · constructor
    · rintro ⟨q, hq, hi⟩
      obtain ⟨data, hdata⟩ := OrdMap.mem_keys_iff.mp hq
      exact ⟨q, data, hi, hdata⟩
    · rintro ⟨q, data, hi, hdata⟩
      exact ⟨q, OrdMap.mem_keys_iff.mpr ⟨data, hdata⟩, hi⟩
  · intro j hj
    obtain ⟨q, hq, rfl⟩ := List.mem_map.mp hj
    exact hkeys q hq

end RldpReceiver

/-! ## sessions -/

namespace Session
variable {s : Session}

/-- a receiver, if there is one, is sound -/
def Sound (s : Session) : Prop := ∀ receiver, s = some receiver → receiver.Sound

/-- what bytes can do -/
theorem feed_cases (h : s.Sound) (wire : Bytes) :
    (∃ e, s.feed c wire = some (s, .error e))
    ∨ ∃ receiver result, s.feed c wire = some (some receiver, result) ∧ receiver.Sound
      ∧ (∀ q data, s.stored q = some data → receiver.chunks.get? q = some data)
      ∧ receiver.Answers c result := by
  unfold feed
  rw [RldpDataFrame.read_eq, Option.bind_eq_bind, Option.bind_some]
  cases hdecode : RldpDataFrame.decode wire with
  | error e => exact .inl ⟨e, rfl⟩
  | ok f =>
    have hf := (RldpDataFrame.decode_ok hdecode).1
    dsimp only
    have hkept : ∀ {receiver r' : RldpReceiver}, (∀ q data, s.stored q = some data →
        receiver.chunks.get? q = some data) →
        r' = { receiver with chunks := RldpReceiver.keep receiver.chunks f.seqNo f.chunkData } →
        ∀ q data, s.stored q = some data → r'.chunks.get? q = some data := by
      intro receiver r' hstored hr' q data hq
      rw [hr']
      dsimp only
      rw [Holds.get?_keep]
      split_ifs with hsame
      · have hold := hstored q data hq
        rw [hsame] at hold
        rw [hold]
        rfl
      · exact hstored q data hq
    cases s with
    | none =>
      obtain ⟨receiver, hmake, hsound, hmatches, _⟩ := hf.fromFrame
      rw [Option.elim_none, hmake]
      dsimp only
      rcases hsound.ingest_cases hf with ⟨_, hnot⟩ | ⟨r', result, hingest, hr', heq, hresult⟩
      · exact absurd hmatches hnot
      · rw [hingest]
        exact .inr ⟨r', result, rfl, hr', hkept (fun q data hq => nomatch hq) heq, hresult⟩
    | some receiver =>
      rw [Option.elim_some]
      dsimp only
      rcases (h receiver rfl).ingest_cases hf with ⟨hrefused, _⟩ | ⟨r', result, hingest, hr', heq, hresult⟩
      · rw [hrefused]
        exact .inl ⟨_, rfl⟩
      · rw [hingest]
        exact .inr ⟨r', result, rfl, hr', hkept (fun _ _ hq => hq) heq, hresult⟩

theorem Sound.step (h : s.Sound) (e : Event) : Sound (s.step c e) := by
  cases e with
  | feed wire =>
    unfold Session.step
    dsimp only
    rcases @feed_cases c s h wire with ⟨e, hfeed⟩ | ⟨receiver, result, hfeed, hsound, _⟩
    · rw [hfeed]
      exact h
    · rw [hfeed]
      intro r hr
      exact Option.some.inj hr ▸ hsound
  | ack =>
    unfold Session.step
    dsimp only
    cases s with
    | none => exact nofun
    | some receiver =>
      obtain ⟨r', a, hack, hsound, _⟩ := (h receiver rfl).ack_ok
      rw [Option.bind_some, hack]
      intro r hr
      exact Option.some.inj hr ▸ hsound

theorem Sound.safe (h : s.Sound) : Safe c s where
  returns wire hnone := by
    rcases @feed_cases c s h wire with ⟨e, hfeed⟩ | ⟨receiver, result, hfeed, _⟩
    · cases hnone.symm.trans hfeed
    · cases hnone.symm.trans hfeed
  payload wire s' payload hout := by
    rcases @feed_cases c s h wire with ⟨e, hfeed⟩ | ⟨receiver, result, hfeed, _, _, hresult⟩
    · cases hout.symm.trans hfeed
    · cases hout.symm.trans hfeed
      rcases hresult with hnone | herror | ⟨data, heq, hlen, hdigest⟩
      · cases hnone
      · cases herror
      · cases heq
        exact ⟨receiver, rfl, hlen, hdigest⟩
  rejected wire s' e hout := by
    rcases @feed_cases c s h wire with ⟨e', hfeed⟩ | ⟨receiver, result, hfeed, _, hstored, _⟩
    · cases hout.symm.trans hfeed
      exact fun _ _ hq => hq
    · cases hout.symm.trans hfeed
      exact hstored
  refused wire s' e hout hne := by
    rcases @feed_cases c s h wire with ⟨e', hfeed⟩ | ⟨receiver, result, hfeed, _, _, hresult⟩
    · cases hout.symm.trans hfeed
      rfl
    · cases hout.symm.trans hfeed
      rcases hresult with hnone | herror | ⟨data, heq, _⟩
      · cases hnone
      · cases herror
        exact absurd rfl hne
      · cases heq
  acks receiver hs := by
    obtain ⟨r', a, hack, _, hchunks, hbits⟩ := (h receiver hs).ack_ok
    exact ⟨r', a, hack, hchunks, hbits⟩

end Session

end

/-- **No sender breaks a receiver**, whatever bytes it sends in whatever order. -/
theorem Session.hostile_sender (c : Crypto) (es : List Event) :
    Safe c (Runs.run (step c) none es) := by
  have hsound : Sound (Runs.run (step c) none es) :=
    Runs.run_inv (fun _ e h => h.step e) es nofun
  exact hsound.safe

end Onx
