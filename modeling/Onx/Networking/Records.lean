import Onx.Lib.Slices
import Onx.Networking.Values

/-!
# Records on the wire

The bytes of a record, what its signature covers, and how long a record that was stored is served.

* `decodeExact_iff`           exactly the bytes of the records whose length fits its prefix are accepted;
* `toSignableBytes_inj`       the signed bytes determine what is signed, whatever the length;
* `record_codec`              **both together,** with the records that are written and not read back;
* `published_record_found`    **what an owner signed and stored is served** until it expires or another record
                              for its key is taken.
-/

namespace Onx

namespace DhtRecord

/-! ## the codec -/

def toBytes (r : DhtRecord) : Bytes :=
  toSignableBytes r.key r.value r.expiry r.ownerAddress ++ encodeWord 64 r.signature.bytes

/-- the closure `take` over the cursor -/
def take (cursor : Bytes) (count : Nat) : Except NetworkError (Bytes × Bytes) :=
  if cursor.length < count then .error .dhtMalformedRecord else .ok (cursor.take count, cursor.drop count)

/-- `decode_exact` of a word -/
def word (w n : Nat) (bytes : Bytes) : Except NetworkError (BitVec w) :=
  match exactLength n bytes with
  | .error _ => .error .dhtMalformedRecord
  | .ok () => .ok (decodeWord w bytes)

/-- `decode_exact(&take(..)?)` -/
def takeWord (w n : Nat) (cursor : Bytes) : Except NetworkError (BitVec w × Bytes) := do
  let (head, cursor) ← take cursor n
  let x ← word w n head
  .ok (x, cursor)

/-- `checked_add` does not overflow: the length is below `2^32` -/
def decodeExact (bytes : Bytes) : Except NetworkError DhtRecord :=
  if bytes.length < 32 + 4 + 8 + 32 + 64 then .error .dhtMalformedRecord
  else do
    let (key, cursor) ← takeWord 256 32 bytes
    let (head, cursor) ← take cursor 4
    let length := (decodeWord 32 head).toNat
    if cursor.length < length + (8 + 32 + 64) then .error .dhtMalformedRecord
    else do
      let (value, cursor) ← take cursor length
      let (expiry, cursor) ← takeWord 64 8 cursor
      let (ownerAddress, cursor) ← takeWord 256 32 cursor
      let (signature, cursor) ← takeWord 512 64 cursor
      if cursor ≠ [] then .error .dhtMalformedRecord
      else .ok ⟨key, value, expiry, ownerAddress, ⟨signature⟩⟩

theorem take_append (a b : Bytes) {n : Nat} (h : a.length = n) : take (a ++ b) n = .ok (a, b) := by
  unfold take
  rw [if_neg (by rw [List.length_append]; omega), List.take_left' h, List.drop_left' h]

theorem take_ok {cursor head tail : Bytes} {n : Nat} (h : take cursor n = .ok (head, tail)) :
    cursor = head ++ tail ∧ head.length = n := by
  unfold take at h
  split_ifs at h with hshort
  cases h
  exact ⟨(List.take_append_drop n cursor).symm, List.length_take_of_le (by omega)⟩

theorem bind_of_ok {α β : Type} {x : Except NetworkError α} {a : α} {f : α → Except NetworkError β}
    (h : x = .ok a) : x >>= f = f a := by
  rw [h]
  rfl

/-- a word is taken off the front -/
theorem takeWord_append {w n : Nat} (hw : w = 8 * n) (x : BitVec w) (rest : Bytes) :
    takeWord w n (encodeWord n x ++ rest) = .ok (x, rest) := by
  have hword : word w n (encodeWord n x) = .ok x := by
    unfold word exactLength
    rw [length_encodeWord, if_neg (by omega), if_neg (by omega)]
    exact congrArg _ (decodeWord_encodeWord hw x)
  refine (bind_of_ok (take_append _ _ (length_encodeWord n x))).trans ?_
  exact bind_of_ok hword

theorem takeWord_ok {w n : Nat} (hw : w = 8 * n) {cursor rest : Bytes} {x : BitVec w}
    (h : takeWord w n cursor = .ok (x, rest)) : cursor = encodeWord n x ++ rest := by
  obtain ⟨⟨head, tail⟩, htake, h⟩ := Checked.bind_ok h
  obtain ⟨y, hword, h⟩ := Checked.bind_ok h
  cases h
  obtain ⟨hcursor, hlen⟩ := take_ok htake
  unfold word exactLength at hword
  split_ifs at hword with hshort hlong
  cases hword
  rw [hcursor, encodeWord_decodeWord hw hlen]

theorem toBytes_eq (r : DhtRecord) : r.toBytes = encodeWord 32 r.key
    ++ (encodeWord 4 (BitVec.ofNat 32 r.value.length) ++ (r.value ++ (encodeWord 8 r.expiry
      ++ (encodeWord 32 r.ownerAddress ++ (encodeWord 64 r.signature.bytes ++ []))))) := by
  simp only [toBytes, toSignableBytes, List.append_assoc, List.append_nil]

theorem length_toBytes (r : DhtRecord) : r.toBytes.length = 140 + r.value.length := by
  simp [toBytes_eq]
  omega

theorem decodeExact_toBytes {r : DhtRecord} (hlen : r.value.length < 2^32) : decodeExact r.toBytes = .ok r := by
  have hprefix : (BitVec.ofNat 32 r.value.length).toNat = r.value.length := by
    rw [BitVec.toNat_ofNat, Nat.mod_eq_of_lt hlen]
  unfold decodeExact
  rw [if_neg (by rw [length_toBytes]; omega), toBytes_eq]
  refine (bind_of_ok (takeWord_append (n := 32) rfl r.key _)).trans ?_
  refine (bind_of_ok (take_append _ _ (length_encodeWord 4 _))).trans ?_
  dsimp only
  rw [decodeWord_encodeWord (n := 4) rfl, hprefix,
    if_neg (by simp only [List.length_append, length_encodeWord, List.length_nil]; omega)]
  refine (bind_of_ok (take_append _ _ rfl)).trans ?_
  refine (bind_of_ok (takeWord_append (n := 8) rfl r.expiry _)).trans ?_
  refine (bind_of_ok (takeWord_append (n := 32) rfl r.ownerAddress _)).trans ?_
  exact (bind_of_ok (takeWord_append (n := 64) rfl r.signature.bytes _)).trans rfl

/-- **Exactly the bytes of the records whose length fits its prefix are accepted.** -/
theorem decodeExact_iff {bytes : Bytes} {r : DhtRecord} :
    decodeExact bytes = .ok r ↔ bytes = r.toBytes ∧ r.value.length < 2^32 := by
  constructor
  · intro h
    unfold decodeExact at h
    split_ifs at h with hshort
    obtain ⟨⟨key, c1⟩, hkey, h⟩ := Checked.bind_ok h
    obtain ⟨⟨head, c2⟩, hhead, h⟩ := Checked.bind_ok h
    dsimp only at hhead h
    split_ifs at h with htail
    obtain ⟨⟨value, c3⟩, hvalue, h⟩ := Checked.bind_ok h
    obtain ⟨⟨expiry, c4⟩, hexpiry, h⟩ := Checked.bind_ok h
    obtain ⟨⟨ownerAddress, c5⟩, howner, h⟩ := Checked.bind_ok h
    obtain ⟨⟨signature, c6⟩, hsignature, h⟩ := Checked.bind_ok h
    dsimp only at hexpiry howner hsignature h
    split_ifs at h with hrest
    cases h
    obtain ⟨hc1, hlen⟩ := take_ok hhead
    obtain ⟨hc2, hlength⟩ := take_ok hvalue
    have hprefix : BitVec.ofNat 32 value.length = decodeWord 32 head := by
      rw [hlength, BitVec.ofNat_toNat, BitVec.setWidth_eq]
    refine ⟨?_, hlength ▸ (decodeWord 32 head).isLt⟩
    rw [toBytes_eq, takeWord_ok (n := 32) rfl hkey, hc1, hc2, takeWord_ok (n := 8) rfl hexpiry, takeWord_ok (n := 32) rfl howner,
      takeWord_ok (n := 64) rfl hsignature, not_not.mp hrest, hprefix, encodeWord_decodeWord rfl hlen]
  · rintro ⟨rfl, hlen⟩
    exact decodeExact_toBytes hlen

/-! ## what is rejected -/

/-- every failure is a malformed record -/
def Malformed {α : Type} (x : Except NetworkError α) : Prop := ∀ e, x = .error e → e = .dhtMalformedRecord

theorem malformed_ok {α : Type} (a : α) : Malformed (.ok a) := fun _ h => nomatch h

theorem malformed_error {α : Type} : Malformed (.error .dhtMalformedRecord : Except NetworkError α) :=
  fun _ h => (Except.error.inj h).symm

theorem Malformed.bind {α β : Type} {x : Except NetworkError α} {f : α → Except NetworkError β}
    (hx : Malformed x) (hf : ∀ a, Malformed (f a)) : Malformed (x >>= f) := by
  cases x with
  | error e => exact fun e' h => (Except.error.inj h) ▸ hx e rfl
  | ok a => exact hf a

theorem malformed_take (cursor : Bytes) (n : Nat) : Malformed (take cursor n) := by
  unfold take
  split_ifs
  · exact malformed_error
  · exact malformed_ok _

theorem malformed_takeWord (w n : Nat) (cursor : Bytes) : Malformed (takeWord w n cursor) := by
  refine (malformed_take cursor n).bind fun x => Malformed.bind ?_ fun y => malformed_ok _
  unfold word
  cases exactLength n x.1 with
  | error e => exact malformed_error
  | ok u => exact malformed_ok _

theorem malformed_decodeExact (bytes : Bytes) : Malformed (decodeExact bytes) := by
  unfold decodeExact
  split_ifs
  · exact malformed_error
  refine (malformed_takeWord _ _ _).bind fun key => (malformed_take _ _).bind fun head => ?_
  dsimp only
  split_ifs
  · exact malformed_error
  refine (malformed_take _ _).bind fun value => (malformed_takeWord _ _ _).bind fun expiry => ?_
  refine (malformed_takeWord _ _ _).bind fun owner => (malformed_takeWord _ _ _).bind fun signature => ?_
  split_ifs
  · exact malformed_error
  · exact malformed_ok _

/-! ## what is signed -/

/-- **The signed bytes determine what is signed.**  A length that does not fit its prefix shows in the number
of bytes. -/
theorem toSignableBytes_inj {key key' : Uint256} {value value' : Bytes} {expiry expiry' : Uint64}
    {owner owner' : Uint256}
    (h : toSignableBytes key value expiry owner = toSignableBytes key' value' expiry' owner') :
    key = key' ∧ value = value' ∧ expiry = expiry' ∧ owner = owner' := by
  have hlen : value.length = value'.length := by
    have hlen := congrArg List.length h
    simp only [toSignableBytes, List.length_append, length_encodeWord] at hlen
    omega
  unfold toSignableBytes at h
  obtain ⟨h, howner⟩ := append_inj_be (by simp [hlen]) h
  obtain ⟨h, hexpiry⟩ := append_inj_be (by simp [hlen]) h
  obtain ⟨h, hvalue⟩ := append_inj_be (by simp) h
  obtain ⟨hkey, _⟩ := append_inj_be (by simp) h
  exact ⟨encodeWord_inj (n := 32) rfl hkey, hvalue, encodeWord_inj (n := 8) rfl hexpiry,
    encodeWord_inj (n := 32) rfl howner⟩

/-- what the signature of a record covers -/
def signable (r : DhtRecord) : Bytes := toSignableBytes r.key r.value r.expiry r.ownerAddress

theorem verifySignature_iff {c : Crypto} {r : DhtRecord} {owner : PublicKey} :
    r.verifySignature c owner = .ok ()
      ↔ owner.verify c VALIDATOR_SIGN_V1 (encodeWord 32 (domainHash c DOMAIN_TAG r.signable)) r.signature = true := by
  unfold verifySignature
  dsimp only
  split_ifs with h
  · exact iff_of_true rfl h
  · exact iff_of_false nofun h

/-- **The record format.**  What is written is read back if its length fits the prefix, and is malformed
otherwise; only what is written is read; and a signature that binds one byte string belongs to one record,
unless the hash collides. -/
theorem record_codec (c : Crypto) (r : DhtRecord) :
    decodeExact r.toBytes = (if r.value.length < 2^32 then .ok r else .error .dhtMalformedRecord)
    ∧ (∀ bytes, decodeExact bytes = .ok r → bytes = r.toBytes)
    ∧ ∀ x owner owner', x.signature = r.signature → c.Binds r.signature →
      (domainHash c DOMAIN_TAG r.signable = domainHash c DOMAIN_TAG x.signable → r.signable = x.signable) →
      r.verifySignature c owner = .ok () → x.verifySignature c owner' = .ok () → x = r := by
  refine ⟨?_, fun bytes h => (decodeExact_iff.mp h).1, fun x owner owner' hsig hbinds hapart hr hx => ?_⟩
  · split_ifs with hlen
    · exact decodeExact_toBytes hlen
    · cases hd : decodeExact r.toBytes with
      | error e => rw [malformed_decodeExact _ e hd]
      | ok x =>
        obtain ⟨hbytes, hfit⟩ := decodeExact_iff.mp hd
        have hlength := congrArg List.length hbytes
        rw [length_toBytes, length_toBytes] at hlength
        omega
  · rw [verifySignature_iff] at hr hx
    rw [hsig] at hx
    have hhash := hbinds.message_eq hr hx
    obtain ⟨hkey, hvalue, hexpiry, howner⟩ := toSignableBytes_inj (hapart (encodeWord_inj (n := 32) rfl hhash))
    cases r
    cases x
    simp only at hsig hkey hvalue hexpiry howner
    rw [hsig, hkey, hvalue, hexpiry, howner]

end DhtRecord

/-! ## publication -/

/-- an Ed25519 key pair: code of another package -/
structure SigningKey where
  publicKey : PublicKey
  signMessage : Bytes → Signature

def SigningKey.sign (k : SigningKey) (tag : DomainTag) (message : Bytes) : Signature :=
  k.signMessage (domainSeparatedMessage tag message)

namespace DhtDaemon
section
variable {c : Crypto} {owner : SigningKey}

variable {r : DhtRecord} {k : PublicKey}

/-- no clock is past the expiry of the record, and no other record is taken for its key -/
def Undisturbed (c : Crypto) (r : DhtRecord) (k : PublicKey) : Event → Prop
  | .addContact _ => True
  | .findNode _ _ => True
  | .handleRpc _ (.ping _) => True
  | .handleRpc _ (.findNode _ _) => True
  | .handleRpc clock (.findValue _ _) => clock.retained r.key < r.expiry
  | .handleRpc clock (.store _ record owner) => record.key = r.key →
    validateRecord c (clock.now 0) record owner none = .ok () → record = r ∧ owner = k
  | .findValue _ clock _ => clock.retained r.key < r.expiry
  | .store _ clock record owner => record.key = r.key →
    validateRecord c (clock.now 0) record owner none = .ok () → record = r ∧ owner = k

theorem findNode_records {d : DhtDaemon} {transport : DhtTransport} {target : Uint256} {s : Lookup}
    (h : d.findNode c transport target = some s) : s.daemon.records = d.records := by
  rw [(findNode_traced h).daemon_eq, foldl_addContact_records]

/-- the record that a node serves -/
abbrev Serves (d : DhtDaemon) (r : DhtRecord) (k : PublicKey) : Prop := d.records.get? r.key = some ⟨r, k⟩

theorem Serves.removeExpired {d : DhtDaemon} (h : d.Serves r k) {clock : Clock}
    (hclock : clock.retained r.key < r.expiry) : (d.removeExpired clock).Serves r k :=
  OrdMap.get?_retain.mpr ⟨h, decide_eq_true hclock⟩

theorem Serves.insert {d : DhtDaemon} (h : d.Serves r k) {record : DhtRecord} {owner : PublicKey}
    (hsame : record.key = r.key → record = r ∧ owner = k) :
    { d with records := d.records.insert record.key ⟨record, owner⟩ }.Serves r k := by
  show (d.records.insert record.key ⟨record, owner⟩).get? r.key = _
  rw [OrdMap.get?_insert]
  split_ifs with hkey
  · obtain ⟨rfl, rfl⟩ := hsame hkey.symm
    rfl
  · exact h

theorem Serves.askValues {d : DhtDaemon} (h : d.Serves r k) {transport : DhtTransport} {clock : Clock}
    {key : Uint256} (hne : r.key ≠ key) (peers : List DhtContact) (n : Nat) :
    (askValues c transport clock key peers n d).2.Serves r k := by
  induction peers generalizing n with
  | nil => exact h
  | cons peer peers ih =>
    unfold DhtDaemon.askValues
    split
    · split
      · exact h
      · show (d.records.insert key _).get? r.key = _
        rwa [OrdMap.get?_insert_of_ne _ _ hne]
    · exact ih (n + 1)

theorem Serves.addContact {d : DhtDaemon} (h : d.Serves r k) (contact : DhtContact) :
    (d.addContact c contact).Serves r k := by
  unfold Serves
  rwa [addContact_records]

theorem Serves.lookup {d : DhtDaemon} (h : d.Serves r k) {transport : DhtTransport} {target : Uint256}
    {s : Lookup} (hs : d.findNode c transport target = some s) : s.daemon.Serves r k := by
  unfold Serves
  rwa [findNode_records hs]

theorem Serves.handleRpc {d : DhtDaemon} (h : d.Serves r k) {clock : Clock} {request : DhtRpc}
    (he : Undisturbed c r k (.handleRpc clock request)) : (d.handleRpc c clock request).2.Serves r k := by
  unfold DhtDaemon.handleRpc
  cases request with
  | ping sender => exact h.addContact sender
  | findNode sender target => exact h.addContact sender
  | findValue sender key =>
    have hheard : (d.addContact c sender).Serves r k := h.addContact sender
    have hkept := hheard.removeExpired he
    dsimp only [DhtRpc.sender]
    cases ((d.addContact c sender).removeExpired clock).records.get? key <;> exact hkept
  | store sender record owner =>
    dsimp only [DhtRpc.sender]
    cases hvalid : validateRecord c (clock.now 0) record owner none with
    | error e => exact h.addContact sender
    | ok u => exact (h.addContact sender).insert fun hkey => he hkey hvalid

theorem Serves.findValue {d : DhtDaemon} (h : d.Serves r k) {transport : DhtTransport} {clock : Clock}
    {key : Uint256} (he : Undisturbed c r k (.findValue transport clock key)) :
    (((d.findValue c transport clock key).map Prod.snd).getD d).Serves r k := by
  have hkept := h.removeExpired he
  unfold DhtDaemon.findValue
  dsimp only
  cases hget : (d.removeExpired clock).records.get? key with
  | some stored => exact hkept
  | none =>
    -- the key that is asked for is not the one served
    have hne : r.key ≠ key := fun hkey => by
      rw [← hkey, hkept] at hget
      cases hget
    cases hs : (d.removeExpired clock).findNode c transport key with
    | none => exact h
    | some s => exact (hkept.lookup hs).askValues hne s.known s.calls

theorem Serves.store {d : DhtDaemon} (h : d.Serves r k) {transport : DhtTransport} {clock : Clock}
    {record : DhtRecord} {owner : PublicKey} (he : Undisturbed c r k (.store transport clock record owner)) :
    (((d.store c transport clock record owner).map Prod.snd).getD d).Serves r k := by
  unfold DhtDaemon.store
  cases hvalid : validateRecord c (clock.now 0) record owner none with
  | error e => exact h
  | ok u =>
    have hkept := h.insert fun hkey => he hkey hvalid
    dsimp only
    generalize hd : { d with records := d.records.insert record.key ⟨record, owner⟩ } = d' at hkept ⊢
    cases hs : d'.findNode c transport record.key with
    | none => exact h
    | some s => exact hkept.lookup hs

/-- **A step keeps serving the record.** -/
theorem Serves.step {d : DhtDaemon} (h : d.Serves r k) (e : Event) (he : Undisturbed c r k e) :
    (d.step c e).Serves r k := by
  cases e with
  | addContact contact => exact h.addContact contact
  | findNode transport target =>
    show (((d.findNode c transport target).map Lookup.daemon).getD d).Serves r k
    cases hs : d.findNode c transport target with
    | none => exact h
    | some s => exact h.lookup hs
  | handleRpc clock request => exact h.handleRpc he
  | findValue transport clock key => exact h.findValue he
  | store transport clock record owner => exact h.store he

theorem Serves.run {d : DhtDaemon} (h : d.Serves r k) {es : List Event} (hes : ∀ e ∈ es, Undisturbed c r k e) :
    (Runs.run (DhtDaemon.step c) d es).Serves r k := by
  induction es generalizing d with
  | nil => exact h
  | cons e es ih =>
    obtain ⟨he, hrest⟩ := List.forall_mem_cons.mp hes
    exact ih (h.step e he) hrest

/-- what a node answers with -/
theorem Serves.answer {d : DhtDaemon} (h : d.Serves r k) {clock : Clock} (hclock : clock.retained r.key < r.expiry)
    (sender : DhtContact) : (d.handleRpc c clock (.findValue sender r.key)).1 = .ok (.value r k) := by
  unfold DhtDaemon.handleRpc
  dsimp only [DhtRpc.sender]
  rw [(h.addContact sender).removeExpired hclock]

end

/-- the key 9 -/
def sampleKey : SigningKey :=
  ⟨⟨9⟩, fun message => ⟨BitVec.ofNat 512 (9 * 2^256 + beNat message % (2^256 - 189))⟩⟩

end DhtDaemon

end Onx
