import Onx.Networking.Lookup

/-!
# Looking up records

The contacts that are found are asked for a record one after the other, and the first record that one of
them answers with is the last: if it is not valid, the lookup fails.

* `Offer`, `offers`     the records that the contacts answer with, in their order;
* `askValues_eq`        the first of them decides;
* `RecordsSound`        the records that a node keeps were valid when it took them;
* `value_found_iff`     **when a valid record is found**: if it is kept, or the first one offered is valid;
* `value_hidden`        a contact before it that offers an expired one.
-/

namespace Onx

/-- a record that is answered, with its owner and the time of the answer -/
structure Offer where
  record : DhtRecord
  owner : PublicKey
  now : Uint64

/-- a record for the key, not expired and signed by the owner whose address it carries -/
structure Offer.Genuine (c : Crypto) (key : Uint256) (o : Offer) : Prop where
  key_eq : o.record.key = key
  unexpired : o.now < o.record.expiry
  owner_eq : (KeyDescription.newEd25519 o.owner).computeAbstractAddress c = o.record.ownerAddress
  signed : o.record.verifySignature c o.owner = .ok ()

namespace DhtDaemon
section
variable {c : Crypto} {transport : DhtTransport} {clock : Clock} {key : Uint256} {d : DhtDaemon}

theorem validateRecord_iff {o : Offer} :
    validateRecord c o.now o.record o.owner (some key) = .ok () ↔ o.Genuine c key := by
  unfold validateRecord
  rw [Option.any_some]
  split_ifs with hkey hexpired howner
  · refine iff_of_false nofun fun h => ?_
    exact absurd h.key_eq.symm (of_decide_eq_true hkey)
  · exact iff_of_false nofun fun h => absurd hexpired (BitVec.not_le.mpr h.unexpired)
  · exact iff_of_false nofun fun h => howner h.owner_eq
  · have hkey' : key = o.record.key := by simpa using hkey
    exact ⟨fun h => ⟨hkey'.symm, BitVec.not_le.mp hexpired, not_not.mp howner, h⟩, fun h => h.signed⟩

/-! ## the contacts are asked -/

/-- the record of an answer, if it is one -/
def offerOf (now : Uint64) : Except NetworkError DhtRpcResponse → Option Offer
  | .ok (.value record owner) => some ⟨record, owner, now⟩
  | _ => none

/-- what the contacts would offer, the first of them at the call `n` -/
def offers (transport : DhtTransport) (clock : Clock) (key : Uint256) (home : DhtContact) :
    List DhtContact → Nat → List Offer
  | [], _ => []
  | peer :: peers, n =>
    (offerOf (clock.now n) (transport n peer (.findValue home key))).toList
      ++ offers transport clock key home peers (n + 1)

/-- **The first offer decides.** -/
theorem askValues_eq (peers : List DhtContact) (n : Nat) (d : DhtDaemon) :
    (askValues c transport clock key peers n d).1
      = match (offers transport clock key d.self peers n).head? with
        | none => .ok none
        | some o => (validateRecord c o.now o.record o.owner (some key)).map fun _ => some o.record := by
  induction peers generalizing n with
  | nil => rfl
  | cons peer peers ih =>
    unfold askValues offers
    split
    · next record owner hanswer =>
      rw [hanswer]
      show _ = (validateRecord c (clock.now n) record owner (some key)).map fun _ => some record
      cases validateRecord c (clock.now n) record owner (some key) <;> rfl
    · next hother =>
      rw [ih (n + 1)]
      have hnone : offerOf (clock.now n) (transport n peer (.findValue d.self key)) = none := by
        unfold offerOf
        split
        · next record owner hanswer => exact absurd hanswer (hother record owner)
        · rfl
      rw [hnone]
      rfl

/-! ## the records that are kept -/

/-- the records were valid when they were taken -/
def RecordsSound (c : Crypto) (d : DhtDaemon) : Prop :=
  ∀ key stored, d.records.get? key = some stored → stored.record.key = key
    ∧ (KeyDescription.newEd25519 stored.owner).computeAbstractAddress c = stored.record.ownerAddress
    ∧ stored.record.verifySignature c stored.owner = .ok ()

/-- what is taken is valid -/
theorem RecordsSound.effect {d' : DhtDaemon} {xs : List DhtContact} (h : RecordsSound c d)
    (heffect : Effect c xs d d') : RecordsSound c d' := by
  intro key stored hstored
  rcases heffect.records key stored hstored with hkept | ⟨now, hvalid⟩
  · exact h key stored hkept
  · have hgenuine := (@validateRecord_iff c key ⟨stored.record, stored.owner, now⟩).mp hvalid
    exact ⟨hgenuine.key_eq, hgenuine.owner_eq, hgenuine.signed⟩

theorem after_recordsSound (c : Crypto) (k : PublicKey) (es : List Event) : RecordsSound c (after c k es) := by
  have hnew : RecordsSound c (new c k) := fun _ _ hstored => by cases hstored
  exact hnew.effect (run_effect (new c k) es)

/-! ## the record that is found -/

/-- the record that is kept for a key, as it is looked at -/
def keptOffer (d : DhtDaemon) (clock : Clock) (key : Uint256) : Option Offer :=
  ((d.removeExpired clock).records.get? key).map fun stored =>
    ⟨stored.record, stored.owner, clock.retained key⟩

/-- what the contacts offer that the lookup finds -/
def offered (c : Crypto) (d : DhtDaemon) (transport : DhtTransport) (clock : Clock) (key : Uint256) :
    List Offer :=
  match (d.removeExpired clock).findNode c transport key with
  | none => []
  | some s => offers transport clock key d.self s.known s.calls

/-- a valid record that is offered is found, or another one -/
def Found (c : Crypto) (d : DhtDaemon) (transport : DhtTransport) (clock : Clock) (key : Uint256) : Prop :=
  (∃ o ∈ d.offered c transport clock key, o.Genuine c key) →
    ∃ o d', (o ∈ d.keptOffer clock key ∨ o ∈ d.offered c transport clock key) ∧ o.Genuine c key
      ∧ d.findValue c transport clock key = some (.ok (some o.record), d')

theorem keptOffer_genuine (h : RecordsSound c d) {o : Offer} (ho : d.keptOffer clock key = some o) :
    o.Genuine c key := by
  obtain ⟨stored, hstored, rfl⟩ := Option.map_eq_some_iff.mp ho
  obtain ⟨hkey, howner, hsigned⟩ := h.effect (.removed d clock) key stored hstored
  exact ⟨hkey, of_decide_eq_true (OrdMap.get?_retain.mp hstored).2, howner, hsigned⟩

/-- a record that is kept is returned -/
theorem found_of_kept (h : RecordsSound c d) {o : Offer} (ho : d.keptOffer clock key = some o) :
    Found c d transport clock key := by
  intro _
  refine ⟨o, d.removeExpired clock, .inl ho, keptOffer_genuine h ho, ?_⟩
  obtain ⟨stored, hstored, rfl⟩ := Option.map_eq_some_iff.mp ho
  unfold findValue
  dsimp only
  rw [hstored]

/-- otherwise the first offer decides -/
theorem findValue_eq (hnone : d.keptOffer clock key = none)
    (hnodup : (d.removeExpired clock).buckets.flatten.Nodup) :
    ∃ d', d.findValue c transport clock key = some
      (match (d.offered c transport clock key).head? with
        | none => .ok none
        | some o => (validateRecord c o.now o.record o.owner (some key)).map fun _ => some o.record, d') := by
  obtain ⟨s, hs⟩ := findNode_some hnodup c transport key
  have hself : s.daemon.self = d.self := by
    rw [(findNode_traced hs).daemon_eq, foldl_addContact_self]
    rfl
  unfold findValue offered
  dsimp only
  rw [Option.map_eq_none_iff.mp hnone, hs]
  refine ⟨(askValues c transport clock key s.known s.calls s.daemon).2, congrArg some ?_⟩
  exact Prod.ext (hself ▸ askValues_eq s.known s.calls s.daemon) rfl

theorem found_iff (h : RecordsSound c d) (hnodup : (d.removeExpired clock).buckets.flatten.Nodup) :
    Found c d transport clock key ↔ d.keptOffer clock key ≠ none
      ∨ ((∃ o ∈ d.offered c transport clock key, o.Genuine c key) →
        ∃ o, (d.offered c transport clock key).head? = some o ∧ o.Genuine c key) := by
  cases hkept : d.keptOffer clock key with
  | some o => exact iff_of_true (found_of_kept h hkept) (.inl nofun)
  | none =>
    obtain ⟨d', hvalue⟩ := @findValue_eq c transport clock key d hkept hnodup
    rw [or_iff_right (fun hne => hne rfl)]
    refine imp_congr_right fun _ => ⟨?_, ?_⟩
    · rintro ⟨o, d'', _, _, hresult⟩
      rw [hvalue] at hresult
      cases hhead : (d.offered c transport clock key).head? with
      | none =>
        rw [hhead] at hresult
        cases hresult
      | some first =>
        rw [hhead] at hresult
        dsimp only at hresult
        cases hvalid : validateRecord c first.now first.record first.owner (some key) with
        | error e =>
          rw [hvalid] at hresult
          cases hresult
        | ok _ => exact ⟨first, rfl, validateRecord_iff.mp hvalid⟩
    · rintro ⟨o, hhead, hgenuine⟩
      refine ⟨o, d', .inr (List.mem_of_mem_head? hhead), hgenuine, ?_⟩
      rw [hvalue, hhead]
      dsimp only
      rw [validateRecord_iff.mpr hgenuine]
      rfl

end

/-- **When a valid record is found**: exactly if the node keeps one, or if no valid one is offered or the
first record that a contact offers is valid. -/
theorem value_found_iff (c : Crypto) (localPublicKey : PublicKey) (es : List Event) (transport : DhtTransport)
    (clock : Clock) (key : Uint256) :
    Found c (after c localPublicKey es) transport clock key
      ↔ (after c localPublicKey es).keptOffer clock key ≠ none
        ∨ ((∃ o ∈ (after c localPublicKey es).offered c transport clock key, o.Genuine c key) →
          ∃ o, ((after c localPublicKey es).offered c transport clock key).head? = some o ∧ o.Genuine c key) :=
  found_iff (after_recordsSound c localPublicKey es) (after_nodup c localPublicKey es)

/-! ### a contact that hides a record -/

/-- the address of the key 9, and a record that the key signs -/
def ninth : DhtContact := .fromPublicKey sampleCrypto ⟨9⟩

def sampleRecord (expiry : Uint64) : DhtRecord where
  key := 5
  value := [1]
  expiry := expiry
  ownerAddress := ninth.nodeId
  signature := sampleSign ⟨9⟩ VALIDATOR_SIGN_V1 (encodeWord 32 (domainHash sampleCrypto DhtRecord.DOMAIN_TAG
    (DhtRecord.toSignableBytes 5 [1] expiry ninth.nodeId)))

/-- the contact with the key 1 answers with an expired record, the other with one that is not -/
def twoAnswers : DhtTransport := fun _ peer request =>
  match request with
  | .findValue _ _ => .ok (.value (sampleRecord (if peer.publicKey = ⟨1⟩ then 10 else 11)) ⟨9⟩)
  | _ => .ok (.nodes [])

def twoContacts : DhtDaemon := after sampleCrypto ⟨0⟩
  [.addContact (.fromPublicKey sampleCrypto ⟨1⟩), .addContact (.fromPublicKey sampleCrypto ⟨2⟩)]

def atTen : Clock := ⟨fun _ => 10, fun _ => 10⟩

theorem keptOffer_of_empty {d : DhtDaemon} (h : d.records = ∅) (clock : Clock) (key : Uint256) :
    d.keptOffer clock key = none := by
  unfold keptOffer removeExpired
  rw [h]
  rfl

theorem records_twoContacts : twoContacts.records = ∅ := by
  unfold twoContacts after
  rw [Runs.run_cons, Runs.run_cons, Runs.run_nil]
  unfold step
  dsimp only
  rw [addContact_records, addContact_records]
  rfl

/-- what a node is offered that knows the two contacts -/
theorem offered_two {d : DhtDaemon} (hnodup : d.buckets.flatten.Nodup)
    (hclosest : d.closestContacts 5 K_BUCKET_SIZE
      = [.fromPublicKey sampleCrypto ⟨1⟩, .fromPublicKey sampleCrypto ⟨2⟩]) :
    d.offered sampleCrypto twoAnswers atTen 5 = [⟨sampleRecord 10, ⟨9⟩, 10⟩, ⟨sampleRecord 11, ⟨9⟩, 10⟩] := by
  have hkept : (d.removeExpired atTen).buckets.flatten.Nodup := hnodup
  obtain ⟨s, hs⟩ := findNode_some hkept sampleCrypto twoAnswers 5
  have hknown := (findNode_sources hs).quiet fun x hx => by
    -- no one answers with contacts
    obtain ⟨_, _, hnodes⟩ := List.mem_flatMap.mp hx
    cases hnodes
  have hfound : s.known = [.fromPublicKey sampleCrypto ⟨1⟩, .fromPublicKey sampleCrypto ⟨2⟩] :=
    hknown.trans hclosest
  unfold offered
  rw [hs]
  dsimp only
  rw [hfound]
  rfl

/-- **A contact hides a record.**  Of the two that are asked, the first one answers with a record that has
expired. -/
theorem value_hidden : ¬ Found sampleCrypto twoContacts twoAnswers atTen 5 := by
  have hsound : RecordsSound sampleCrypto twoContacts := after_recordsSound sampleCrypto ⟨0⟩ _
  have hnodup : twoContacts.buckets.flatten.Nodup := after_nodup sampleCrypto ⟨0⟩ _
  have hclosest : twoContacts.closestContacts 5 K_BUCKET_SIZE
      = [.fromPublicKey sampleCrypto ⟨1⟩, .fromPublicKey sampleCrypto ⟨2⟩] := by decide +kernel
  have hnone := keptOffer_of_empty records_twoContacts atTen 5
  have hvalid : (⟨sampleRecord 11, ⟨9⟩, 10⟩ : Offer).Genuine sampleCrypto 5 :=
    validateRecord_iff.mp (by decide +kernel)
  generalize twoContacts = d at *
  intro h
  have hoffered := offered_two hnodup hclosest
  have hfirst := (found_iff hsound hnodup).mp h
  rw [hoffered, hnone] at hfirst
  obtain ⟨o, hhead, hgenuine⟩ := hfirst.resolve_left (fun hne => hne rfl) ⟨_, by simp, hvalid⟩
  cases hhead
  exact absurd hgenuine.unexpired (by decide)

end DhtDaemon

end Onx
