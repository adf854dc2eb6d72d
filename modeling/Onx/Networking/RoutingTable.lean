import Onx.Networking.Dht

/-!
# The routing table

What is added to the table is known from the run: the contacts that were added, that sent requests and
that peers answered with.

* `bucketIndex_iff`      the bucket of a contact is the length of the prefix it shares;
* `buckets_foldl`        each bucket has the most recent of the contacts that belong there;
* `inserted`, `history`  the contacts that the steps of a run pass to the table;
* `step_effect`          a step does no more than that, and takes valid records;
* `routing_table`        **after any run the table is well formed**, and the nearest contacts are found.
-/

namespace Onx
open ByteBits

/-- the identifier is the address of the key -/
def DhtContact.Authentic (c : Crypto) (x : DhtContact) : Prop :=
  (KeyDescription.newEd25519 x.publicKey).computeAbstractAddress c = x.nodeId

instance (c : Crypto) (x : DhtContact) : Decidable (x.Authentic c) := by
  unfold DhtContact.Authentic
  infer_instance

/-! ## the index of a bucket -/

/-- `i` is the number of first bits in which the words agree -/
structure CommonPrefix (a b : Uint256) (i : Nat) : Prop where
  lt : i < 256
  agree : ∀ j < i, a.getMsbD j = b.getMsbD j
  differ : a.getMsbD i ≠ b.getMsbD i

theorem CommonPrefix.unique {a b : Uint256} {i j : Nat} (hi : CommonPrefix a b i)
    (hj : CommonPrefix a b j) : i = j := by
  rcases Nat.lt_trichotomy i j with hlt | heq | hgt
  · exact absurd (hj.agree i hlt) hi.differ
  · exact heq
  · exact absurd (hi.agree j hgt) hj.differ

theorem getBit_cons_of_lt (byte : Byte) (bytes : Bytes) {j : Nat} (hj : j < 8) :
    getBit msbFirst (byte :: bytes) j = byte.getMsbD j := by
  have hdiv : j / 8 = 0 := by omega
  have hmod : 7 - j % 8 = 8 - 1 - j := by omega
  unfold getBit
  rw [hdiv, BitVec.getMsbD_eq_getLsbD, decide_eq_true hj, Bool.true_and, ← hmod]
  rfl

theorem getBit_cons_of_le (byte : Byte) (bytes : Bytes) {j : Nat} (hj : 8 ≤ j) :
    getBit msbFirst (byte :: bytes) j = getBit msbFirst bytes (j - 8) := by
  have happ := getBit_append msbFirst [byte] bytes j
  rw [List.length_singleton, Nat.mul_one, if_neg (Nat.not_lt.mpr hj)] at happ
  exact happ

/-- the loop finds the first bit that is set -/
theorem bucketIndexFrom_some {k i : Nat} {bytes : Bytes} (h : bucketIndexFrom k bytes = some i) :
    ∃ j, i = k * 8 + j ∧ j < 8 * bytes.length ∧ getBit msbFirst bytes j = true
      ∧ ∀ j' < j, getBit msbFirst bytes j' = false := by
  induction bytes generalizing k with
  | nil => cases h
  | cons byte bytes ih =>
    unfold bucketIndexFrom at h
    rw [List.length_cons]
    split_ifs at h with hbyte
    · obtain ⟨hlt, hset, hbefore⟩ := leadingZeros_spec hbyte
      refine ⟨leadingZeros byte, (Option.some.inj h).symm, by omega, ?_, fun j' hj' => ?_⟩
      · rw [getBit_cons_of_lt byte bytes hlt, hset]
      · rw [getBit_cons_of_lt byte bytes (hj'.trans hlt), hbefore j' hj']
    · obtain ⟨j, rfl, hlt, hset, hbefore⟩ := ih h
      refine ⟨j + 8, by omega, by omega, ?_, fun j' hj' => ?_⟩
      · rw [getBit_cons_of_le byte bytes (by omega), Nat.add_sub_cancel, hset]
      · by_cases h8 : j' < 8
        · rw [getBit_cons_of_lt byte bytes h8, not_not.mp hbyte]
          exact BitVec.getMsbD_zero
        · rw [getBit_cons_of_le byte bytes (by omega), hbefore (j' - 8) (by omega)]

theorem bucketIndexFrom_none {k : Nat} {bytes : Bytes} (h : bucketIndexFrom k bytes = none) (j : Nat) :
    getBit msbFirst bytes j = false := by
  induction bytes generalizing k j with
  | nil => exact getBit_eq_false msbFirst (Nat.zero_le _)
  | cons byte bytes ih =>
    unfold bucketIndexFrom at h
    split_ifs at h with hbyte
    by_cases h8 : j < 8
    · rw [getBit_cons_of_lt byte bytes h8, not_not.mp hbyte]
      exact BitVec.getMsbD_zero
    · rw [getBit_cons_of_le byte bytes (by omega), ih h]

section
variable {a b : Uint256}

theorem getBit_xorDistance (a b : Uint256) (j : Nat) :
    getBit msbFirst (encodeWord 32 (xorDistance a b)) j = (a.getMsbD j ^^ b.getMsbD j) := by
  rw [getBit_encodeWord (n:=32) rfl]
  exact BitVec.getMsbD_xor

theorem commonPrefix_of_bucketIndex {i : Nat} (h : bucketIndex a b = some i) : CommonPrefix a b i := by
  obtain ⟨j, hi, hlt, hset, hbefore⟩ := bucketIndexFrom_some h
  obtain rfl : i = j := by omega
  rw [length_encodeWord] at hlt
  refine ⟨by omega, fun j' hj' => ?_, fun heq => ?_⟩
  · have hbit := hbefore j' hj'
    rw [getBit_xorDistance] at hbit
    simpa using hbit
  · rw [getBit_xorDistance, heq, Bool.xor_self] at hset
    cases hset

theorem eq_of_bucketIndex_none (h : bucketIndex a b = none) : a = b := by
  refine BitVec.eq_of_getMsbD_eq fun j _ => ?_
  have hbit := bucketIndexFrom_none h j
  rw [getBit_xorDistance] at hbit
  simpa using hbit

theorem bucketIndex_iff {i : Nat} : bucketIndex a b = some i ↔ CommonPrefix a b i := by
  refine ⟨commonPrefix_of_bucketIndex, fun h => ?_⟩
  cases hindex : bucketIndex a b with
  | none =>
    rw [eq_of_bucketIndex_none hindex] at h
    exact absurd rfl h.differ
  | some j => rw [(commonPrefix_of_bucketIndex hindex).unique h]

end

/-! ## the buckets -/

namespace DhtDaemon
section
variable {c : Crypto} {d : DhtDaemon} {x : DhtContact} {i : Nat}

/-- the contact belongs in a bucket of the node with an identifier -/
structure Admitted (c : Crypto) (home : Uint256) (i : Nat) (x : DhtContact) : Prop where
  authentic : x.Authentic c
  placed : CommonPrefix home x.nodeId i

theorem admitted_iff {home : Uint256} : Admitted c home i x ↔
    x.Authentic c ∧ bucketIndex home x.nodeId = some i := by
  rw [bucketIndex_iff]
  exact ⟨fun h => ⟨h.authentic, h.placed⟩, fun h => ⟨h.1, h.2⟩⟩

instance (home : Uint256) : Decidable (Admitted c home i x) := decidable_of_iff _ admitted_iff.symm

theorem Admitted.ne_home {home : Uint256} (h : Admitted c home i x) : x.nodeId ≠ home :=
  fun heq => h.placed.differ (by rw [heq])

@[simp] theorem addContact_self (d : DhtDaemon) (x : DhtContact) : (d.addContact c x).self = d.self := by
  unfold addContact
  split_ifs
  · rfl
  · cases bucketIndex d.self.nodeId x.nodeId <;> rfl

@[simp] theorem addContact_records (d : DhtDaemon) (x : DhtContact) :
    (d.addContact c x).records = d.records := by
  unfold addContact
  split_ifs
  · rfl
  · cases bucketIndex d.self.nodeId x.nodeId <;> rfl

/-- a contact goes into the bucket that it belongs in, and nowhere else -/
theorem getElem?_addContact (d : DhtDaemon) (x : DhtContact) (i : Nat) :
    (d.addContact c x).buckets[i]? = d.buckets[i]?.map fun bucket =>
      if Admitted c d.self.nodeId i x then Recent.refresh DhtContact.nodeId K_BUCKET_SIZE bucket x
      else bucket := by
  have hsame (hnot : ¬ Admitted c d.self.nodeId i x) : d.buckets[i]? = d.buckets[i]?.map fun bucket =>
      if Admitted c d.self.nodeId i x then Recent.refresh DhtContact.nodeId K_BUCKET_SIZE bucket x
      else bucket := by
    simp only [if_neg hnot]
    exact Option.map_id'.symm
  unfold addContact
  by_cases hrefused : x.nodeId = d.self.nodeId
      ∨ (KeyDescription.newEd25519 x.publicKey).computeAbstractAddress c ≠ x.nodeId
  · rw [if_pos hrefused]
    exact hsame fun h => hrefused.elim h.ne_home fun hforged => hforged h.authentic
  rw [if_neg hrefused]
  push Not at hrefused
  cases hindex : bucketIndex d.self.nodeId x.nodeId with
  | none =>
    refine hsame fun h => ?_
    rw [(admitted_iff.mp h).2] at hindex
    cases hindex
  | some index =>
    dsimp only
    rw [List.getElem?_modify]
    by_cases hi : index = i
    · rw [hi] at hindex
      simp only [if_pos hi, if_pos (admitted_iff.mpr ⟨hrefused.2, hindex⟩)]
      rfl
    · have hnot : ¬ Admitted c d.self.nodeId i x := fun h => by
        rw [(admitted_iff.mp h).2] at hindex
        exact hi (Option.some.inj hindex).symm
      simp only [if_neg hi, if_neg hnot]
      rfl

theorem foldl_addContact_self (xs : List DhtContact) : (xs.foldl (addContact c) d).self = d.self := by
  induction xs generalizing d with
  | nil => rfl
  | cons x xs ih => rw [List.foldl_cons, ih, addContact_self]

theorem foldl_addContact_records (xs : List DhtContact) :
    (xs.foldl (addContact c) d).records = d.records := by
  induction xs generalizing d with
  | nil => rfl
  | cons x xs ih => rw [List.foldl_cons, ih, addContact_records]

/-- **The buckets after a history**: the most recent of the contacts that belong there. -/
theorem buckets_foldl (k : PublicKey) (xs : List DhtContact) {i : Nat} (hi : i < 256) :
    (xs.foldl (addContact c) (new c k)).buckets[i]? = some (Recent.recent DhtContact.nodeId K_BUCKET_SIZE
      (xs.filter fun x => Admitted c (new c k).self.nodeId i x)) := by
  induction xs using List.reverseRecOn with
  | nil =>
    show (List.replicate 256 [])[i]? = _
    rw [List.getElem?_replicate, if_pos hi]
    exact congrArg some List.drop_nil.symm
  | append_singleton xs x ih =>
    rw [List.foldl_append, List.foldl_cons, List.foldl_nil, getElem?_addContact, ih, foldl_addContact_self,
      List.filter_append, Option.map_some, List.filter_singleton]
    congr 1
    by_cases h : Admitted c (new c k).self.nodeId i x
    · rw [if_pos h, decide_eq_true h]
      exact (Recent.recent_concat _ x).symm
    · rw [if_neg h, decide_eq_false h]
      exact (congrArg _ (List.append_nil _)).symm

/-- adding contacts does not look at the records -/
theorem foldl_addContact_congr {d d' : DhtDaemon} (hself : d.self = d'.self) (hbuckets : d.buckets = d'.buckets)
    (xs : List DhtContact) :
    (xs.foldl (addContact c) d).buckets = (xs.foldl (addContact c) d').buckets := by
  induction xs generalizing d d' with
  | nil => exact hbuckets
  | cons x xs ih =>
    refine ih (by rw [addContact_self, addContact_self, hself]) (List.ext_getElem? fun i => ?_)
    rw [getElem?_addContact, getElem?_addContact, hself, hbuckets]

/-! ## the contacts of a run -/

/-- what the peers answered, call by call -/
def heard (transport : DhtTransport) (target : Uint256) (home : DhtContact) (queried : List DhtContact) :
    List DhtContact :=
  queried.zipIdx.flatMap fun call => Lookup.nodesOf (transport call.2 call.1 (.findNode home target))

section
variable {transport : DhtTransport} {target : Uint256}

theorem heard_concat (home : DhtContact) (queried : List DhtContact) (peer : DhtContact) :
    heard transport target home (queried ++ [peer]) = heard transport target home queried
      ++ Lookup.nodesOf (transport queried.length peer (.findNode home target)) := by
  unfold heard
  rw [List.zipIdx_append, List.flatMap_append, Nat.zero_add]
  simp

/-- a lookup has made one call for each peer it asked, and added what it heard -/
structure Lookup.Traced (c : Crypto) (transport : DhtTransport) (target : Uint256) (d : DhtDaemon)
    (s : Lookup) : Prop where
  calls_eq : s.calls = s.queried.length
  daemon_eq : s.daemon = (heard transport target d.self s.queried).foldl (addContact c) d

theorem Lookup.Traced.ask {s : Lookup} (h : s.Traced c transport target d) (peer : DhtContact) :
    Traced c transport target d (s.ask c transport target peer) := by
  rw [ask_eq]
  refine ⟨?_, ?_⟩
  · rw [h.calls_eq, List.length_append, List.length_singleton]
  · have hself : s.daemon.self = d.self := by
      rw [h.daemon_eq, foldl_addContact_self]
    rw [heard_concat, List.foldl_append, ← h.daemon_eq, hself, h.calls_eq]

theorem Lookup.Traced.askRound {s : Lookup} (h : s.Traced c transport target d) (peers : List DhtContact) :
    Traced c transport target d (s.askRound c transport target peers) := by
  have hasked : Traced c transport target d (peers.foldl (Lookup.ask c transport target) s) :=
    Runs.run_inv (fun _ peer hs => hs.ask peer) peers h
  exact ⟨hasked.calls_eq, hasked.daemon_eq⟩

theorem findNode_traced {s : Lookup} (h : d.findNode c transport target = some s) :
    s.Traced c transport target d :=
  Lookup.loop_inv (fun s hs => hs.askRound s.round) ⟨rfl, rfl⟩ h

end

/-- what a lookup adds to the table -/
def lookedUp (c : Crypto) (d : DhtDaemon) (transport : DhtTransport) (target : Uint256) : List DhtContact :=
  match d.findNode c transport target with
  | none => []
  | some s => heard transport target d.self s.queried

/-- the contacts that are passed to `add_contact` -/
def inserted (c : Crypto) (d : DhtDaemon) : Event → List DhtContact
  | .addContact contact => [contact]
  | .handleRpc _ request => [request.sender]
  | .findNode transport target => d.lookedUp c transport target
  | .findValue transport clock key =>
    let d := d.removeExpired clock
    if d.records.contains key then [] else d.lookedUp c transport key
  | .store transport clock record owner =>
    match validateRecord c (clock.now 0) record owner none with
    | .error _ => []
    | .ok () =>
      lookedUp c { d with records := d.records.insert record.key ⟨record, owner⟩ } transport record.key

/-- the contacts of a run -/
def history (c : Crypto) : DhtDaemon → List Event → List DhtContact
  | _, [] => []
  | d, e :: es => inserted c d e ++ history c (d.step c e) es

/-- contacts were added to the table, and no record was taken that was not valid -/
structure Effect (c : Crypto) (contacts : List DhtContact) (d d' : DhtDaemon) : Prop where
  self_eq : d'.self = d.self
  buckets_eq : d'.buckets = (contacts.foldl (addContact c) d).buckets
  records : ∀ key stored, d'.records.get? key = some stored → d.records.get? key = some stored
    ∨ ∃ now, validateRecord c now stored.record stored.owner (some key) = .ok ()

namespace Effect
variable {d' d'' : DhtDaemon} {xs ys : List DhtContact}

theorem refl (d : DhtDaemon) : Effect c [] d d := ⟨rfl, rfl, fun _ _ => .inl⟩

theorem trans (h : Effect c xs d d') (h' : Effect c ys d' d'') : Effect c (xs ++ ys) d d'' where
  self_eq := h'.self_eq.trans h.self_eq
  buckets_eq := by
    have hself : d'.self = (xs.foldl (addContact c) d).self := h.self_eq.trans (foldl_addContact_self xs).symm
    rw [h'.buckets_eq, List.foldl_append]
    exact foldl_addContact_congr hself h.buckets_eq ys
  records key stored hstored := (h'.records key stored hstored).elim (h.records key stored) .inr

/-- what adds no contacts comes after -/
theorem keep (h : Effect c xs d d') (h' : Effect c [] d' d'') : Effect c xs d d'' :=
  List.append_nil xs ▸ h.trans h'

theorem added (d : DhtDaemon) (xs : List DhtContact) : Effect c xs d (xs.foldl (addContact c) d) where
  self_eq := foldl_addContact_self xs
  buckets_eq := rfl
  records _ _ hstored := .inl (foldl_addContact_records (d:=d) xs ▸ hstored)

theorem removed (d : DhtDaemon) (clock : Clock) : Effect c [] d (d.removeExpired clock) :=
  ⟨rfl, rfl, fun _ _ hstored => .inl (OrdMap.get?_retain.mp hstored).1⟩

theorem taken {now : Uint64} {key : Uint256} {record : DhtRecord} {owner : PublicKey} (d : DhtDaemon)
    (hvalid : validateRecord c now record owner (some key) = .ok ()) :
    Effect c [] d { d with records := d.records.insert key ⟨record, owner⟩ } := by
  refine ⟨rfl, rfl, fun k stored hstored => ?_⟩
  rw [OrdMap.get?_insert] at hstored
  split_ifs at hstored with hk
  · obtain rfl := Option.some.inj hstored
    exact .inr ⟨now, hk ▸ hvalid⟩
  · exact .inl hstored

/-- a lookup adds what it heard -/
theorem heard {transport : DhtTransport} {target : Uint256} {s : Lookup}
    (h : d.findNode c transport target = some s) : Effect c (d.lookedUp c transport target) d s.daemon := by
  unfold lookedUp
  rw [h, (findNode_traced h).daemon_eq]
  exact added d _

theorem askValues {transport : DhtTransport} {clock : Clock} {key : Uint256} (peers : List DhtContact)
    (n : Nat) (d : DhtDaemon) : Effect c [] d (askValues c transport clock key peers n d).2 := by
  induction peers generalizing n with
  | nil => exact refl d
  | cons peer peers ih =>
    unfold DhtDaemon.askValues
    split
    · split
      · exact refl d
      · next hvalid => exact taken d hvalid
    · exact ih (n + 1)

end Effect

/-- a record without a requested key is checked for its own -/
theorem validateRecord_none (now : Uint64) (record : DhtRecord) (owner : PublicKey) :
    validateRecord c now record owner none = validateRecord c now record owner (some record.key) := by
  unfold validateRecord
  simp

/-- a lookup that does not end adds nothing -/
theorem lookedUp_none {transport : DhtTransport} {target : Uint256}
    (h : d.findNode c transport target = none) : d.lookedUp c transport target = [] := by
  unfold lookedUp
  rw [h]

/-- **What a step does**: it adds its contacts to the table, and takes no record that is not valid. -/
theorem step_effect (d : DhtDaemon) (e : Event) : Effect c (inserted c d e) d (d.step c e) := by
  cases e with
  | addContact contact => exact .added d [contact]
  | handleRpc clock request =>
    have hadded : Effect c [request.sender] d (d.addContact c request.sender) := .added d [request.sender]
    unfold step handleRpc inserted
    cases request with
    | ping sender => exact hadded
    | findNode sender target => exact hadded
    | findValue sender key =>
      dsimp only
      split <;> exact hadded.keep (.removed _ clock)
    | store sender record owner =>
      dsimp only
      cases hvalid : validateRecord c (clock.now 0) record owner none with
      | error e => exact hadded
      | ok _ => exact hadded.keep (.taken _ (validateRecord_none _ record owner ▸ hvalid))
  | findNode transport target =>
    unfold step inserted
    dsimp only
    cases h : d.findNode c transport target with
    | none =>
      rw [lookedUp_none h]
      exact .refl d
    | some s => exact .heard h
  | findValue transport clock key =>
    have hkept := @Effect.removed c d clock
    unfold step inserted findValue OrdMap.contains
    dsimp only
    cases hrecord : (d.removeExpired clock).records.get? key with
    | some stored => exact hkept
    | none =>
      dsimp only
      cases h : (d.removeExpired clock).findNode c transport key with
      | none =>
        rw [lookedUp_none h]
        exact .refl d
      | some s => exact (hkept.trans (.heard h)).keep (.askValues s.known s.calls s.daemon)
  | store transport clock record owner =>
    unfold step inserted store
    dsimp only
    cases hvalid : validateRecord c (clock.now 0) record owner none with
    | error e => exact .refl d
    | ok _ =>
      have htaken := Effect.taken d (validateRecord_none _ record owner ▸ hvalid)
      dsimp only
      cases h : findNode c { d with records := d.records.insert record.key ⟨record, owner⟩ } transport
          record.key with
      | none =>
        rw [lookedUp_none h]
        exact .refl d
      | some s => exact htaken.trans (.heard h)

/-- **What a run does.** -/
theorem run_effect (d : DhtDaemon) (es : List Event) : Effect c (history c d es) d (Runs.run (step c) d es) := by
  induction es generalizing d with
  | nil => exact .refl d
  | cons e es ih => exact (step_effect d e).trans (ih (d.step c e))

/-! ## what holds of the table -/

/-- the contacts that are nearest to a target -/
structure Nearest (target : Uint256) (limit : Nat) (table found : List DhtContact) : Prop where
  length_eq : found.length = min limit table.length
  nodup : found.Nodup
  stored : ∀ x ∈ found, x ∈ table
  sorted : found.Pairwise fun a b => xorDistance a.nodeId target ≤ xorDistance b.nodeId target
  nearest : ∀ x ∈ found, ∀ y ∈ table, y ∉ found → xorDistance x.nodeId target ≤ xorDistance y.nodeId target

/-- a table to which contacts were added -/
structure WellFormed (c : Crypto) (contacts : List DhtContact) (d : DhtDaemon) : Prop where
  length_eq : d.buckets.length = 256
  authentic : ∀ bucket ∈ d.buckets, ∀ x ∈ bucket, x.Authentic c ∧ x.nodeId ≠ d.self.nodeId
  placed : ∀ i bucket, d.buckets[i]? = some bucket → ∀ x ∈ bucket, CommonPrefix d.self.nodeId x.nodeId i
  unique : (d.buckets.flatten.map DhtContact.nodeId).Nodup
  bounded : ∀ bucket ∈ d.buckets, bucket.length ≤ K_BUCKET_SIZE
  /-- a bucket has the contacts that belong there, each where it was added last -/
  ordered : ∀ i < 256, d.buckets[i]? = some (Recent.recent DhtContact.nodeId K_BUCKET_SIZE
    (contacts.filter fun x => Admitted c d.self.nodeId i x))
  closest : ∀ target limit, Nearest target limit d.buckets.flatten (d.closestContacts target limit)

theorem foldl_addContact_length (xs : List DhtContact) :
    (xs.foldl (addContact c) d).buckets.length = d.buckets.length := by
  induction xs generalizing d with
  | nil => rfl
  | cons x xs ih =>
    rw [List.foldl_cons, ih]
    unfold addContact
    split_ifs
    · rfl
    · cases bucketIndex d.self.nodeId x.nodeId with
      | none => rfl
      | some index => exact List.length_modify ..

theorem closestContacts_nearest (hnodup : d.buckets.flatten.Nodup) (target : Uint256) (limit : Nat) :
    Nearest target limit d.buckets.flatten (d.closestContacts target limit) where
  length_eq := KeySort.length_least
  nodup := KeySort.nodup_least hnodup
  stored _ hx := KeySort.mem_of_mem_least hx
  sorted := KeySort.pairwise_least
  nearest _ hx _ hy hout := KeySort.le_of_mem_least hx hy hout

/-- buckets of contacts that belong there -/
theorem wellFormed_of_ordered {contacts : List DhtContact} (hlen : d.buckets.length = 256)
    (hordered : ∀ i < 256, d.buckets[i]? = some (Recent.recent DhtContact.nodeId K_BUCKET_SIZE
      (contacts.filter fun x => Admitted c d.self.nodeId i x))) : d.WellFormed c contacts := by
  have hadmitted : ∀ i bucket, d.buckets[i]? = some bucket →
      bucket = Recent.recent DhtContact.nodeId K_BUCKET_SIZE
        (contacts.filter fun x => Admitted c d.self.nodeId i x)
      ∧ ∀ x ∈ bucket, Admitted c d.self.nodeId i x := by
    intro i bucket hbucket
    have hi : i < 256 := hlen ▸ (List.getElem?_eq_some_iff.mp hbucket).1
    rw [hordered i hi] at hbucket
    obtain rfl := Option.some.inj hbucket
    refine ⟨rfl, fun x hx => ?_⟩
    exact of_decide_eq_true (List.mem_filter.mp (Recent.mem_of_mem_recent hx)).2
  have hunique : (d.buckets.flatten.map DhtContact.nodeId).Nodup := by
    rw [List.map_flatten, List.nodup_flatten, List.pairwise_map]
    constructor
    · intro ids hids
      obtain ⟨bucket, hbucket, rfl⟩ := List.mem_map.mp hids
      obtain ⟨i, hi⟩ := List.mem_iff_getElem?.mp hbucket
      rw [(hadmitted i bucket hi).1]
      exact List.pairwise_map.mpr Recent.pairwise_recent
    · refine List.pairwise_iff_getElem.mpr fun i j hi hj hij => List.disjoint_left.mpr fun id hidi hidj => ?_
      obtain ⟨x, hx, rfl⟩ := List.mem_map.mp hidi
      obtain ⟨y, hy, hxy⟩ := List.mem_map.mp hidj
      have hxi := ((hadmitted i _ (List.getElem?_eq_getElem hi)).2 x hx).placed
      have hyj := ((hadmitted j _ (List.getElem?_eq_getElem hj)).2 y hy).placed
      rw [hxy] at hyj
      exact absurd (hxi.unique hyj) (Nat.ne_of_lt hij)
  refine ⟨hlen, fun bucket hbucket x hx => ?_, fun i bucket hbucket x hx => ?_, hunique,
    fun bucket hbucket => ?_, hordered, closestContacts_nearest hunique.of_map⟩
  · obtain ⟨i, hi⟩ := List.mem_iff_getElem?.mp hbucket
    have hx := (hadmitted i bucket hi).2 x hx
    exact ⟨hx.authentic, hx.ne_home⟩
  · exact ((hadmitted i bucket hbucket).2 x hx).placed
  · obtain ⟨i, hi⟩ := List.mem_iff_getElem?.mp hbucket
    rw [(hadmitted i bucket hi).1]
    exact Recent.length_recent_le

theorem after_self (k : PublicKey) (es : List Event) : (after c k es).self = (new c k).self :=
  (run_effect (new c k) es).self_eq

theorem after_wellFormed (k : PublicKey) (es : List Event) :
    (after c k es).WellFormed c (history c (new c k) es) := by
  have hbuckets : (after c k es).buckets = ((history c (new c k) es).foldl (addContact c) (new c k)).buckets :=
    (run_effect (new c k) es).buckets_eq
  refine wellFormed_of_ordered ?_ fun i hi => ?_
  · rw [hbuckets, foldl_addContact_length]
    exact List.length_replicate
  · rw [after_self, hbuckets, buckets_foldl k _ hi]

end

/-- **After any run the table is well formed.** -/
theorem routing_table (c : Crypto) (localPublicKey : PublicKey) (es : List Event) :
    (after c localPublicKey es).WellFormed c (history c (new c localPublicKey) es) :=
  after_wellFormed localPublicKey es

end DhtDaemon

end Onx
