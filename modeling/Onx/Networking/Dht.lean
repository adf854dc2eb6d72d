import Onx.Lib.ByteBits
import Onx.Lib.KeySort
import Onx.Lib.OrdMap
import Onx.Lib.Recent
import Onx.Lib.Runs
import Onx.Networking.Identity

/-!
# The discovery daemon

A node keeps a table of contacts, in buckets by the length of the prefix that their identifiers share
with its own, and records that others have signed.  It answers requests, and it looks up contacts and
records by asking the contacts that are nearest to a target, round after round.

What peers answer is an argument: any answer to any call.
-/

namespace Onx

structure DhtContact where
  nodeId : Uint256
  publicKey : PublicKey
deriving DecidableEq

structure DhtRecord where
  key : Uint256
  value : Bytes
  expiry : Uint64
  ownerAddress : Uint256
  signature : Signature
deriving DecidableEq

inductive DhtRpc where
  | ping (sender : DhtContact)
  | store (sender : DhtContact) (record : DhtRecord) (owner : PublicKey)
  | findNode (sender : DhtContact) (target : Uint256)
  | findValue (sender : DhtContact) (key : Uint256)

/-- every request names its sender -/
def DhtRpc.sender : DhtRpc → DhtContact
  | .ping sender => sender
  | .store sender _ _ => sender
  | .findNode sender _ => sender
  | .findValue sender _ => sender

inductive DhtRpcResponse where
  | pong
  | stored
  | nodes (contacts : List DhtContact)
  | value (record : DhtRecord) (owner : PublicKey)

structure StoredRecord where
  record : DhtRecord
  owner : PublicKey

def K_BUCKET_SIZE : Nat := 20
def LOOKUP_ALPHA : Nat := 3

/-- each byte of the keys -/
def xorDistance (key1 key2 : Uint256) : Uint256 := key1 ^^^ key2

/-- the loop of `bucket_index` over the bytes of the distance -/
def bucketIndexFrom : Nat → Bytes → Option Nat
  | _, [] => none
  | byteIndex, byte :: bytes =>
    if byte ≠ 0 then some (byteIndex * 8 + ByteBits.leadingZeros byte)
    else bucketIndexFrom (byteIndex + 1) bytes

def bucketIndex (localId remote : Uint256) : Option Nat :=
  bucketIndexFrom 0 (encodeWord 32 (xorDistance localId remote))

/-- what the peers answer to the call with a number -/
abbrev DhtTransport := Nat → DhtContact → DhtRpc → Except NetworkError DhtRpcResponse

/-- the readings of the clock: for a record that is kept or removed, and at the answer to a call -/
structure Clock where
  retained : Uint256 → Uint64
  now : Nat → Uint64

structure DhtDaemon where
  /-- `local` -/
  self : DhtContact
  buckets : List (List DhtContact)
  records : OrdMap Uint256 StoredRecord

/-! ## records -/

namespace DhtRecord

def DOMAIN_TAG : DomainTag := DomainTag.fromAscii "ONX_DHT_RECORD_V1" (by decide)

def toSignableBytes (key : Uint256) (value : Bytes) (expiry : Uint64) (ownerAddress : Uint256) : Bytes :=
  encodeWord 32 key ++ encodeWord 4 (BitVec.ofNat 32 value.length) ++ value ++ encodeWord 8 expiry
    ++ encodeWord 32 ownerAddress

def verifySignature (c : Crypto) (r : DhtRecord) (owner : PublicKey) : Except NetworkError Unit :=
  let bytes := toSignableBytes r.key r.value r.expiry r.ownerAddress
  if owner.verify c VALIDATOR_SIGN_V1 (encodeWord 32 (domainHash c DOMAIN_TAG bytes)) r.signature then .ok ()
  else .error .invalidSignature

end DhtRecord

def validateRecord (c : Crypto) (now : Uint64) (record : DhtRecord) (owner : PublicKey)
    (requestedKey : Option Uint256) : Except NetworkError Unit :=
  if requestedKey.any (fun key => key ≠ record.key) then .error .dhtMalformedRecord
  else if record.expiry ≤ now then .error .dhtRecordExpired
  else if (KeyDescription.newEd25519 owner).computeAbstractAddress c ≠ record.ownerAddress then
    .error .invalidSignature
  else record.verifySignature c owner

namespace DhtContact

def fromPublicKey (c : Crypto) (publicKey : PublicKey) : DhtContact :=
  ⟨(KeyDescription.newEd25519 publicKey).computeAbstractAddress c, publicKey⟩

end DhtContact

namespace DhtDaemon
variable (c : Crypto)

def new (localPublicKey : PublicKey) : DhtDaemon :=
  ⟨DhtContact.fromPublicKey c localPublicKey, List.replicate 256 [], ∅⟩

/-! ## the table -/

def addContact (d : DhtDaemon) (contact : DhtContact) : DhtDaemon :=
  if contact.nodeId = d.self.nodeId
      ∨ (KeyDescription.newEd25519 contact.publicKey).computeAbstractAddress c ≠ contact.nodeId then d
  else
    match bucketIndex d.self.nodeId contact.nodeId with
    | none => d
    | some index =>
      -- the entry with the identifier is removed, and the oldest one if there are too many
      { d with buckets := d.buckets.modify index fun bucket =>
          Recent.refresh DhtContact.nodeId K_BUCKET_SIZE bucket contact }

def closestContacts (d : DhtDaemon) (target : Uint256) (limit : Nat) : List DhtContact :=
  KeySort.least (fun contact => xorDistance contact.nodeId target) limit d.buckets.flatten

def removeExpired (d : DhtDaemon) (clock : Clock) : DhtDaemon :=
  { d with records := d.records.retain fun key item => clock.retained key < item.record.expiry }

def handleRpc (d : DhtDaemon) (clock : Clock) (request : DhtRpc) :
    Except NetworkError DhtRpcResponse × DhtDaemon :=
  let d := d.addContact c request.sender
  match request with
  | .ping _ => (.ok .pong, d)
  | .findNode _ target => (.ok (.nodes (d.closestContacts target K_BUCKET_SIZE)), d)
  | .findValue _ key =>
    let d := d.removeExpired clock
    match d.records.get? key with
    | some stored => (.ok (.value stored.record stored.owner), d)
    | none => (.ok (.nodes (d.closestContacts key K_BUCKET_SIZE)), d)
  | .store _ record owner =>
    match validateRecord c (clock.now 0) record owner none with
    | .error e => (.error e, d)
    | .ok () => (.ok .stored, { d with records := d.records.insert record.key ⟨record, owner⟩ })

/-! ## looking up contacts -/

/-- where a lookup stands -/
structure Lookup where
  daemon : DhtDaemon
  known : List DhtContact
  queried : List DhtContact
  /-- the number of calls that have been made -/
  calls : Nat

namespace Lookup
variable (transport : DhtTransport) (target : Uint256)

def distance (contact : DhtContact) : Uint256 := xorDistance contact.nodeId target

def addKnown (known : List DhtContact) (node : DhtContact) : List DhtContact :=
  if known.contains node then known else known ++ [node]

/-- a contact that a peer answers with -/
def learn (s : Lookup) (node : DhtContact) : Lookup :=
  { s with daemon := s.daemon.addContact c node, known := addKnown s.known node }

/-- the contacts of an answer, if it is one with contacts -/
def nodesOf : Except NetworkError DhtRpcResponse → List DhtContact
  | .ok (.nodes nodes) => nodes
  | _ => []

def ask (s : Lookup) (peer : DhtContact) : Lookup :=
  let answer := transport s.calls peer (.findNode s.daemon.self target)
  (nodesOf answer).foldl (learn c) { s with queried := s.queried ++ [peer], calls := s.calls + 1 }

/-- the peers of the next round -/
def round (s : Lookup) : List DhtContact :=
  (s.known.filter fun contact => !s.queried.contains contact).take LOOKUP_ALPHA

def best (s : Lookup) : Option Uint256 := s.known.head?.map (distance target)

/-- the peers of a round are asked, and the nearest contacts are kept -/
def askRound (s : Lookup) (peers : List DhtContact) : Lookup :=
  let s := peers.foldl (ask c transport target) s
  { s with known := KeySort.least (distance target) K_BUCKET_SIZE s.known }

/-- the loop of `find_node`; none if it does not end within `fuel` rounds -/
def loop : Nat → Lookup → Option Lookup
  | 0, _ => none
  | fuel + 1, s =>
    if s.round.isEmpty then some s
    else
      let s' := askRound c transport target s s.round
      if best target s = best target s' ∧ s'.queried.length ≥ s'.known.length then some s'
      else loop fuel s'

end Lookup

/-- how many identifiers with a key there are -/
@[irreducible] def CONTACTS : Nat := 2^256 * 2^256

def startLookup (d : DhtDaemon) (target : Uint256) : Lookup :=
  ⟨d, d.closestContacts target K_BUCKET_SIZE, [], 0⟩

/-- the contacts that are found are the known ones at the end -/
def findNode (d : DhtDaemon) (transport : DhtTransport) (target : Uint256) : Option Lookup :=
  Lookup.loop c transport target (CONTACTS + 1) (d.startLookup target)

/-! ## looking up records -/

/-- the loop of `find_value` over the contacts that were found -/
def askValues (transport : DhtTransport) (clock : Clock) (key : Uint256) :
    List DhtContact → Nat → DhtDaemon → Except NetworkError (Option DhtRecord) × DhtDaemon
  | [], _, d => (.ok none, d)
  | peer :: peers, n, d =>
    match transport n peer (.findValue d.self key) with
    | .ok (.value record owner) =>
      match validateRecord c (clock.now n) record owner (some key) with
      | .error e => (.error e, d)
      | .ok () => (.ok (some record), { d with records := d.records.insert key ⟨record, owner⟩ })
    | _ => askValues transport clock key peers (n + 1) d

def findValue (d : DhtDaemon) (transport : DhtTransport) (clock : Clock) (key : Uint256) :
    Option (Except NetworkError (Option DhtRecord) × DhtDaemon) :=
  let d := d.removeExpired clock
  match d.records.get? key with
  | some value => some (.ok (some value.record), d)
  | none => do
    let s ← d.findNode c transport key
    some (askValues c transport clock key s.known s.calls s.daemon)

/-- the loop of `store` over the nearest contacts -/
def storeAt (transport : DhtTransport) (record : DhtRecord) (owner : PublicKey) (sender : DhtContact) :
    List DhtContact → Nat → Except NetworkError Unit
  | [], _ => .ok ()
  | peer :: peers, n =>
    match transport n peer (.store sender record owner) with
    | .error e => .error e
    | .ok _ => storeAt transport record owner sender peers (n + 1)

def store (d : DhtDaemon) (transport : DhtTransport) (clock : Clock) (record : DhtRecord)
    (owner : PublicKey) : Option (Except NetworkError Unit × DhtDaemon) :=
  match validateRecord c (clock.now 0) record owner none with
  | .error e => some (.error e, d)
  | .ok () => do
    let d := { d with records := d.records.insert record.key ⟨record, owner⟩ }
    let s ← d.findNode c transport record.key
    some (storeAt transport record owner d.self (s.known.take LOOKUP_ALPHA) s.calls, s.daemon)

/-! ## rounds -/

namespace Lookup
variable {transport : DhtTransport} {target : Uint256} {s r : Lookup}

/-- what every round keeps, a lookup keeps -/
theorem loop_inv {c : Crypto} {I : Lookup → Prop}
    (hround : ∀ s, I s → I (askRound c transport target s s.round)) {fuel : Nat} (hs : I s)
    (h : loop c transport target fuel s = some r) : I r := by
  induction fuel generalizing s with
  | zero => cases h
  | succ fuel ih =>
    unfold loop at h
    dsimp only at h
    split_ifs at h with hempty hstop
    · exact Option.some.inj h ▸ hs
    · exact Option.some.inj h ▸ hround s hs
    · exact ih (hround s hs) h

variable {c : Crypto}

theorem foldl_learn (nodes : List DhtContact) (s : Lookup) : nodes.foldl (learn c) s
    = { s with
        daemon := nodes.foldl (addContact c) s.daemon
        known := nodes.foldl addKnown s.known } := by
  induction nodes generalizing s with
  | nil => rfl
  | cons node nodes ih => rw [List.foldl_cons, ih, List.foldl_cons, List.foldl_cons, learn]

/-- a call, and what comes of its answer -/
theorem ask_eq (s : Lookup) (peer : DhtContact) : ask c transport target s peer
    = { daemon := (nodesOf (transport s.calls peer (.findNode s.daemon.self target))).foldl
          (addContact c) s.daemon
        known := (nodesOf (transport s.calls peer (.findNode s.daemon.self target))).foldl addKnown s.known
        queried := s.queried ++ [peer]
        calls := s.calls + 1 } := foldl_learn _ _

theorem mem_foldl_addKnown {nodes known : List DhtContact} {x : DhtContact} :
    x ∈ nodes.foldl addKnown known ↔ x ∈ known ∨ x ∈ nodes := by
  induction nodes generalizing known with
  | nil => simp
  | cons node nodes ih =>
    rw [List.foldl_cons, ih, List.mem_cons]
    unfold addKnown
    split_ifs with hknown
    · have hmem : node ∈ known := List.contains_iff_mem.mp hknown
      refine ⟨fun h => h.imp_right .inr, fun h => ?_⟩
      rcases h with hx | rfl | hx
      · exact .inl hx
      · exact .inl hmem
      · exact .inr hx
    · rw [List.mem_append, List.mem_singleton, or_assoc]

end Lookup

/-! ## what can happen to a daemon -/

inductive Event where
  | addContact (contact : DhtContact)
  | handleRpc (clock : Clock) (request : DhtRpc)
  | findNode (transport : DhtTransport) (target : Uint256)
  | findValue (transport : DhtTransport) (clock : Clock) (key : Uint256)
  | store (transport : DhtTransport) (clock : Clock) (record : DhtRecord) (owner : PublicKey)

def step (d : DhtDaemon) : Event → DhtDaemon
  | .addContact contact => d.addContact c contact
  | .handleRpc clock request => (d.handleRpc c clock request).2
  | .findNode transport target => ((d.findNode c transport target).map Lookup.daemon).getD d
  | .findValue transport clock key => ((d.findValue c transport clock key).map Prod.snd).getD d
  | .store transport clock record owner => ((d.store c transport clock record owner).map Prod.snd).getD d

/-- the daemon of a node after a run -/
def after (localPublicKey : PublicKey) (es : List Event) : DhtDaemon :=
  Runs.run (step c) (new c localPublicKey) es

end DhtDaemon

end Onx
