import Onx.Networking.Attribution

/-!
# Both ends of a link

Two nodes that connect to each other, each between any other connections, hold one channel: its
secret and its identifier are derived from two sides.

* `AdnlCrypto.Lawful`      what is relied on: public keys are points, and X25519 is commutative;
* `HashesApart`            no collision of SHA-256 among given texts;
* `Consistent`             the tables of a node, kept by every connection (`connectAll_consistent`);
* `channelInput_symm`      two sides hash the same;
* `FastPacket.decode_encode`, `FullPacket.decode_encode`   packets survive;
* `link_sessions`          **both ends hold one channel and one secret**;
* `datagram_received`      what the one sends, the other receives;
* `link_agrees`            all of it, for nodes in any state.
-/

namespace Onx
open StreamCipher AdnlTransportNode

/-- X25519 on converted keys: public keys are points, the Montgomery form of a key is the X25519 key
of its scalar, and both sides of an exchange get one secret -/
structure AdnlCrypto.Lawful (c : AdnlCrypto) : Prop where
  valid : ∀ sk, c.validKey (c.publicKey sk).bytes = true
  montgomery : ∀ sk, c.toMontgomery (c.publicKey sk) = c.x25519Public (c.toScalarBytes sk)
  comm : ∀ a b, c.diffieHellman a (c.x25519Public b) = c.diffieHellman b (c.x25519Public a)

/-- no two of these texts have one SHA-256 hash -/
def HashesApart (c : Crypto) (inputs : List Bytes) : Prop :=
  ∀ x ∈ inputs, ∀ y ∈ inputs, c.sha256 x = c.sha256 y → x = y

/-! ## packets -/

theorem FastPacket.decode_encode (c : AdnlCrypto) (pkt : FastPacket) (sharedSecret : Uint256)
    (h : pkt.payload.length ≤ 65535) :
    FastPacket.decode c (pkt.encode c sharedSecret) sharedSecret = .ok pkt := by
  refine FastPacket.decode_iff.mpr ⟨Nat.lt_succ_of_le h, [], ?_⟩
  rw [List.append_nil]
  rfl

/-- **A full packet is read with the key it is encrypted to.** -/
theorem FullPacket.decode_encode {c : AdnlCrypto} (hc : c.Lawful) (pkt : FullPacket)
    (sk : SecretKey) (ephemeralSecret nonce : Uint256) (h : pkt.payload.length ≤ 65535) :
    ∃ wire, pkt.encode c (c.publicKey sk) ephemeralSecret nonce = some wire
      ∧ FullPacket.decode c wire sk = .ok pkt := by
  unfold FullPacket.encode ed25519ToX25519Public
  rw [if_pos (hc.valid sk)]
  refine ⟨_, rfl, FullPacket.decode_iff.mpr ⟨Nat.lt_succ_of_le h, c.x25519Public ephemeralSecret,
    nonce, [], ?_⟩⟩
  rw [List.append_nil, hc.montgomery, hc.comm]
  rfl

/-! ## the channel of two keys -/

section
variable (c : AdnlCrypto)

/-- what is hashed to the address of a key -/
def keyInput (pk : PublicKey) : Bytes :=
  KeyDescription.DOMAIN_TAG.bytes ++ (KeyDescription.newEd25519 pk).toBytes

def addressOf (pk : PublicKey) : Uint256 :=
  (KeyDescription.newEd25519 pk).computeAbstractAddress c.toCrypto

/-- the secret that the holder of a key shares with a peer -/
def linkSecret (sk : SecretKey) (peer : PublicKey) : Uint256 :=
  c.diffieHellman (ed25519ToX25519Secret c sk) (c.toMontgomery peer)

/-- what is hashed to the identifier of a channel, the lower address first -/
def channelInput (sk : SecretKey) (peer : PublicKey) : Bytes :=
  let own := addressOf c (c.publicKey sk)
  ADNL_CHANNEL_TAG.bytes ++ (encodeWord 32 (linkSecret c sk peer)
    ++ encodeWord 32 (if own < addressOf c peer then own else addressOf c peer)
    ++ encodeWord 32 (if own < addressOf c peer then addressOf c peer else own))

variable {c}

theorem keyInput_inj {pk pk' : PublicKey} (h : keyInput pk = keyInput pk') : pk = pk' := by
  have hbytes : (KeyDescription.newEd25519 pk).toBytes = (KeyDescription.newEd25519 pk').toBytes :=
    List.append_cancel_left h
  have hkey : encodeWord 32 pk.bytes = encodeWord 32 pk'.bytes := List.append_cancel_left hbytes
  have hword := encodeWord_inj (w:=256) rfl hkey
  cases pk
  cases pk'
  exact congrArg PublicKey.mk hword

/-- the peers of one node have their channels by their addresses -/
theorem channelInput_inj {sk : SecretKey} {pk pk' : PublicKey}
    (h : channelInput c sk pk = channelInput c sk pk') : addressOf c pk = addressOf c pk' := by
  unfold channelInput at h
  dsimp only at h
  have hparts := List.append_cancel_left h
  obtain ⟨hfront, hhigh⟩ := List.append_inj' hparts (by simp)
  obtain ⟨_, hlow⟩ := List.append_inj' hfront (by simp)
  have hlow := encodeWord_inj (w:=256) rfl hlow
  have hhigh := encodeWord_inj (w:=256) rfl hhigh
  split_ifs at hlow hhigh with hlt hlt'
  · exact hhigh
  · exact hhigh.trans hlow
  · exact hlow.trans hhigh
  · exact hlow

/-- **Both sides get one secret.** -/
theorem linkSecret_symm (hc : c.Lawful) (a b : SecretKey) :
    linkSecret c a (c.publicKey b) = linkSecret c b (c.publicKey a) := by
  unfold linkSecret ed25519ToX25519Secret
  rw [hc.montgomery, hc.montgomery, hc.comm]

/-- **Both sides hash the same** to the identifier of their channel. -/
theorem channelInput_symm (hc : c.Lawful) (a b : SecretKey) :
    channelInput c a (c.publicKey b) = channelInput c b (c.publicKey a) := by
  unfold channelInput
  dsimp only
  rw [linkSecret_symm hc]
  rcases BitVec.lt_trichotomy (addressOf c (c.publicKey a)) (addressOf c (c.publicKey b))
    with hlt | heq | hlt
  · rw [if_pos hlt, if_pos hlt, if_neg (BitVec.lt_asymm hlt), if_neg (BitVec.lt_asymm hlt)]
  · rw [heq]
  · rw [if_pos hlt, if_pos hlt, if_neg (BitVec.lt_asymm hlt), if_neg (BitVec.lt_asymm hlt)]

end

/-! ## the tables of a node -/

section
variable {SocketAddr : Type} {c : AdnlCrypto} {sk : SecretKey} {keys : List PublicKey}
  {node node' : AdnlTransportNode SocketAddr} {session : PeerSession SocketAddr}

/-- a session as a node sets it up for a peer -/
structure LinkOf (c : AdnlCrypto) (sk : SecretKey) (peer : PublicKey)
    (session : PeerSession SocketAddr) : Prop where
  secret : session.sharedSecret = linkSecret c sk peer
  channel : session.channelId = c.sha256 (channelInput c sk peer)

/-- the tables of a node that has connected to peers with these keys -/
structure Consistent (c : AdnlCrypto) (sk : SecretKey) (keys : List PublicKey)
    (node : AdnlTransportNode SocketAddr) : Prop where
  secretKey : node.secretKey = sk
  abstractAddress : node.abstractAddress = addressOf c (c.publicKey sk)
  session : ∀ p s, node.sessions.get? p = some s →
    ∃ peer ∈ keys, p = addressOf c peer ∧ LinkOf c sk peer s
  channel : ∀ id p, node.channelToPeer.get? id = some p →
    ∃ s, node.sessions.get? p = some s ∧ s.channelId = id
  listed : ∀ p s, node.sessions.get? p = some s →
    ∃ p', node.channelToPeer.get? s.channelId = some p'

/-- connections one after the other; none where one of them panics -/
def connectAll (c : AdnlCrypto) : List (PublicKey × SocketAddr) → AdnlTransportNode SocketAddr →
    Option (AdnlTransportNode SocketAddr)
  | [], node => some node
  | (peer, endpoint) :: calls, node => do
    let (node', _) ← connectPeer c node peer endpoint
    connectAll c calls node'

theorem bind_consistent (c : AdnlCrypto) (sk : SecretKey) :
    Consistent c sk [] (AdnlTransportNode.bind c sk : AdnlTransportNode SocketAddr) :=
  ⟨rfl, rfl, fun _ _ h => (nomatch h), fun _ _ h => (nomatch h), fun _ _ h => (nomatch h)⟩

/-- the session that a connection sets up -/
def newSession (c : AdnlCrypto) (sk : SecretKey) (peer : PublicKey) (endpoint : SocketAddr) :
    PeerSession SocketAddr :=
  ⟨addressOf c peer, peer, endpoint, c.sha256 (channelInput c sk peer), linkSecret c sk peer⟩

/-- a node with one more session -/
def AdnlTransportNode.opened (node : AdnlTransportNode SocketAddr)
    (session : PeerSession SocketAddr) : AdnlTransportNode SocketAddr :=
  { node with
    sessions := node.sessions.insert session.peerAddress session
    channelToPeer := node.channelToPeer.insert session.channelId session.peerAddress }

theorem connectPeer_found {peer : PublicKey} {endpoint : SocketAddr}
    (h : node.sessions.get? (addressOf c peer) = some session) :
    connectPeer c node peer endpoint = some (node, session) := by
  unfold connectPeer
  dsimp only
  rw [show node.sessions.get? ((KeyDescription.newEd25519 peer).computeAbstractAddress c.toCrypto)
    = some session from h]

theorem connectPeer_new (h : Consistent c sk keys node) {peer : PublicKey} {endpoint : SocketAddr}
    (hnone : node.sessions.get? (addressOf c peer) = none) :
    connectPeer c node peer endpoint = if c.validKey peer.bytes
      then some (node.opened (newSession c sk peer endpoint), newSession c sk peer endpoint)
      else none := by
  have hid : (if node.abstractAddress < addressOf c peer then
        deriveChannelId c.toCrypto (linkSecret c node.secretKey peer) node.abstractAddress
          (addressOf c peer)
      else deriveChannelId c.toCrypto (linkSecret c node.secretKey peer) (addressOf c peer)
          node.abstractAddress) = c.sha256 (channelInput c sk peer) := by
    rw [h.secretKey, h.abstractAddress]
    unfold channelInput deriveChannelId domainHash
    dsimp only
    split_ifs <;> rfl
  unfold connectPeer
  dsimp only
  rw [show node.sessions.get? ((KeyDescription.newEd25519 peer).computeAbstractAddress c.toCrypto)
    = none from hnone]
  unfold ed25519ToX25519Public
  by_cases hvalid : c.validKey peer.bytes
  · rw [if_pos hvalid, if_pos hvalid]
    unfold newSession
    rw [← hid, ← h.secretKey]
    rfl
  · rw [if_neg hvalid, if_neg hvalid]
    rfl

/-- **What a connection does**: it finds a session, or sets one up. -/
theorem connectPeer_cases (h : Consistent c sk keys node) {peer : PublicKey} {endpoint : SocketAddr}
    (hc : connectPeer c node peer endpoint = some (node', session)) :
    (node.sessions.get? (addressOf c peer) = some session ∧ node' = node) ∨
      (node.sessions.get? (addressOf c peer) = none ∧ session = newSession c sk peer endpoint
        ∧ node' = node.opened session) := by
  cases hget : node.sessions.get? (addressOf c peer) with
  | some found =>
    rw [connectPeer_found hget] at hc
    cases hc
    exact Or.inl ⟨rfl, rfl⟩
  | none =>
    rw [connectPeer_new h hget] at hc
    split_ifs at hc
    cases hc
    exact Or.inr ⟨rfl, rfl, rfl⟩

/-- a connection with a public key does not panic -/
theorem connectPeer_ok (h : Consistent c sk keys node) {peer : PublicKey} (endpoint : SocketAddr)
    (hvalid : c.validKey peer.bytes = true) :
    ∃ r, connectPeer c node peer endpoint = some r := by
  cases hget : node.sessions.get? (addressOf c peer) with
  | some found => exact ⟨_, connectPeer_found hget⟩
  | none => exact ⟨_, by rw [connectPeer_new h hget, if_pos hvalid]⟩

theorem Consistent.mono (h : Consistent c sk keys node) {keys' : List PublicKey}
    (hsub : ∀ k ∈ keys, k ∈ keys') : Consistent c sk keys' node := by
  refine ⟨h.secretKey, h.abstractAddress, fun p s hs => ?_, h.channel, h.listed⟩
  obtain ⟨peer, hpeer, hlink⟩ := h.session p s hs
  exact ⟨peer, hsub peer hpeer, hlink⟩

/-- a new session under a free address keeps the tables consistent -/
theorem Consistent.opened (h : Consistent c sk keys node) {peer : PublicKey}
    (hpeer : peer ∈ keys) (endpoint : SocketAddr)
    (hfree : node.sessions.get? (addressOf c peer) = none) :
    Consistent c sk keys (node.opened (newSession c sk peer endpoint)) := by
  have hcases : ∀ p s, (node.opened (newSession c sk peer endpoint)).sessions.get? p = some s →
      (p = addressOf c peer ∧ s = newSession c sk peer endpoint)
        ∨ node.sessions.get? p = some s := by
    intro p s hs
    unfold AdnlTransportNode.opened at hs
    rw [OrdMap.get?_insert] at hs
    split_ifs at hs with heq
    · cases hs
      exact Or.inl ⟨heq, rfl⟩
    · exact Or.inr hs
  have hkeep : ∀ p s, node.sessions.get? p = some s →
      (node.opened (newSession c sk peer endpoint)).sessions.get? p = some s :=
    fun p s hs => OrdMap.get?_insert_fresh hfree hs
  have hnew : (node.opened (newSession c sk peer endpoint)).sessions.get? (addressOf c peer)
      = some (newSession c sk peer endpoint) := OrdMap.get?_insert_self _ _ _
  refine ⟨h.secretKey, h.abstractAddress, fun p s hs => ?_, fun id p hp => ?_, fun p s hs => ?_⟩
  · rcases hcases p s hs with ⟨rfl, rfl⟩ | hold
    · exact ⟨peer, hpeer, rfl, rfl, rfl⟩
    · exact h.session p s hold
  · unfold AdnlTransportNode.opened at hp
    rw [OrdMap.get?_insert] at hp
    split_ifs at hp with heq
    · cases hp
      exact ⟨_, hnew, heq.symm⟩
    · obtain ⟨s, hs, hid⟩ := h.channel id p hp
      exact ⟨s, hkeep p s hs, hid⟩
  · unfold AdnlTransportNode.opened
    rw [OrdMap.get?_insert]
    split_ifs with heq
    · exact ⟨_, rfl⟩
    · rcases hcases p s hs with ⟨_, rfl⟩ | hold
      · exact absurd rfl heq
      · exact h.listed p s hold

/-- **A connection keeps the tables consistent**, keeps every session, and holds the one it
returns. -/
theorem connectPeer_consistent (h : Consistent c sk keys node) {peer : PublicKey}
    {endpoint : SocketAddr}
    (hc : connectPeer c node peer endpoint = some (node', session)) :
    Consistent c sk (keys ++ [peer]) node'
      ∧ node'.sessions.get? (addressOf c peer) = some session
      ∧ ∀ p s, node.sessions.get? p = some s → node'.sessions.get? p = some s := by
  have hmono : Consistent c sk (keys ++ [peer]) node :=
    h.mono fun _ hk => List.mem_append_left _ hk
  rcases connectPeer_cases h hc with ⟨hget, rfl⟩ | ⟨hfree, rfl, rfl⟩
  · exact ⟨hmono, hget, fun _ _ hs => hs⟩
  · exact ⟨hmono.opened (List.mem_append_right _ (List.mem_singleton_self _)) endpoint hfree,
      OrdMap.get?_insert_self _ _ _, fun p s hs => OrdMap.get?_insert_fresh hfree hs⟩

/-- **Connections keep the tables consistent**, and every session. -/
theorem connectAll_consistent {calls : List (PublicKey × SocketAddr)}
    (h : Consistent c sk keys node) (hc : connectAll c calls node = some node') :
    Consistent c sk (keys ++ calls.map Prod.fst) node'
      ∧ ∀ p s, node.sessions.get? p = some s → node'.sessions.get? p = some s := by
  induction calls generalizing node keys with
  | nil =>
    cases hc
    rw [List.map_nil, List.append_nil]
    exact ⟨h, fun _ _ hs => hs⟩
  | cons call calls ih =>
    obtain ⟨peer, endpoint⟩ := call
    unfold connectAll at hc
    cases hr : connectPeer c node peer endpoint with
    | none =>
      rw [hr] at hc
      cases hc
    | some r =>
      obtain ⟨mid, session⟩ := r
      rw [hr] at hc
      obtain ⟨hmid, _, hkeep⟩ := connectPeer_consistent h hr
      obtain ⟨hend, hkeep'⟩ := ih hmid hc
      rw [List.append_assoc] at hend
      exact ⟨hend, fun p s hs => hkeep' p s (hkeep p s hs)⟩

/-! ## both ends -/

/-- the session under the address of a key is the link to this key -/
theorem Consistent.linkOf (h : Consistent c sk keys node) {peer : PublicKey} (hpeer : peer ∈ keys)
    (hapart : HashesApart c.toCrypto (keys.map keyInput))
    (hs : node.sessions.get? (addressOf c peer) = some session) : LinkOf c sk peer session := by
  obtain ⟨peer', hpeer', haddr, hlink⟩ := h.session _ _ hs
  have hinput : keyInput peer = keyInput peer' :=
    hapart _ (List.mem_map.mpr ⟨peer, hpeer, rfl⟩) _ (List.mem_map.mpr ⟨peer', hpeer', rfl⟩) haddr
  rw [keyInput_inj hinput]
  exact hlink

/-- **The channel of a session leads back to it.** -/
theorem Consistent.sessionOf (h : Consistent c sk keys node) {peer : PublicKey}
    (hpeer : peer ∈ keys)
    (hkeys : HashesApart c.toCrypto (keys.map keyInput))
    (hchannels : HashesApart c.toCrypto (keys.map (channelInput c sk)))
    (hs : node.sessions.get? (addressOf c peer) = some session) :
    sessionOf node session.channelId = some session := by
  obtain ⟨p, hp⟩ := h.listed _ _ hs
  obtain ⟨found, hfound, hid⟩ := h.channel _ _ hp
  obtain ⟨peer', hpeer', rfl, hlink'⟩ := h.session _ _ hfound
  have hlink := h.linkOf hpeer hkeys hs
  rw [hlink.channel, hlink'.channel] at hid
  have hinput := hchannels _ (List.mem_map.mpr ⟨peer', hpeer', rfl⟩) _
    (List.mem_map.mpr ⟨peer, hpeer, rfl⟩) hid
  rw [channelInput_inj hinput, hs] at hfound
  cases hfound
  unfold AdnlTransportNode.sessionOf
  rw [hp]
  show node.sessions.get? (addressOf c peer') = some session
  rw [channelInput_inj hinput]
  exact hs

theorem field_channel (pkt : FastPacket) (sharedSecret : Uint256) :
    decodeWord 256 (field (pkt.encode c sharedSecret) 0 32) = pkt.channelOrRecipientId := by
  simp [FastPacket.encode, FastPacket.header, field_head, decodeWord_encodeWord]

end

section
variable {SocketAddr : Type} {c : AdnlCrypto} {a b : SecretKey} {keysA keysB : List PublicKey}
  {nodeA nodeA' nodeB : AdnlTransportNode SocketAddr} {sessionA sessionB : PeerSession SocketAddr}

/-- **Both ends hold one channel and one secret.** -/
theorem link_sessions (hc : c.Lawful) (hA : Consistent c a keysA nodeA)
    (hB : Consistent c b keysB nodeB) (hmemA : c.publicKey b ∈ keysA)
    (hmemB : c.publicKey a ∈ keysB)
    (hkeysA : HashesApart c.toCrypto (keysA.map keyInput))
    (hkeysB : HashesApart c.toCrypto (keysB.map keyInput))
    (hgetA : nodeA.sessions.get? (addressOf c (c.publicKey b)) = some sessionA)
    (hgetB : nodeB.sessions.get? (addressOf c (c.publicKey a)) = some sessionB) :
    sessionA.channelId = sessionB.channelId ∧ sessionA.sharedSecret = sessionB.sharedSecret := by
  have hlinkA := hA.linkOf hmemA hkeysA hgetA
  have hlinkB := hB.linkOf hmemB hkeysB hgetB
  constructor
  · rw [hlinkA.channel, hlinkB.channel, channelInput_symm hc]
  · rw [hlinkA.secret, hlinkB.secret, linkSecret_symm hc]

theorem sendDatagram_cases {peer : PublicKey} {endpoint : SocketAddr} {payload wire : Bytes}
    {nonce : Uint256}
    (h : sendDatagram c nodeA peer endpoint payload nonce = some (nodeA', wire)) :
    ∃ session, connectPeer c nodeA peer endpoint = some (nodeA', session) ∧
      wire = (⟨session.channelId, nodeA.abstractAddress, nonce, payload⟩ : FastPacket).encode c
        session.sharedSecret := by
  unfold sendDatagram at h
  cases hr : connectPeer c nodeA peer endpoint with
  | none =>
    rw [hr] at h
    cases h
  | some r =>
    rw [hr] at h
    cases h
    exact ⟨r.2, rfl, rfl⟩

/-- **What one end sends, the other receives**, unless the channel has the identifier of the
receiver itself. -/
theorem datagram_received (hc : c.Lawful) (hA : Consistent c a keysA nodeA)
    (hB : Consistent c b keysB nodeB) (hmemB : c.publicKey a ∈ keysB)
    (hkeysA : HashesApart c.toCrypto ((keysA ++ [c.publicKey b]).map keyInput))
    (hkeysB : HashesApart c.toCrypto (keysB.map keyInput))
    (hchannels : HashesApart c.toCrypto (keysB.map (channelInput c b)))
    (hgetB : nodeB.sessions.get? (addressOf c (c.publicKey a)) = some sessionB)
    (hown : sessionB.channelId ≠ nodeB.abstractAddress) {endpoint srcAddr : SocketAddr}
    {payload wire : Bytes} {nonce : Uint256} (hlen : payload.length ≤ 65535)
    (hsend : sendDatagram c nodeA (c.publicKey b) endpoint payload nonce = some (nodeA', wire)) :
    recvDatagram c nodeB wire srcAddr = .ok (nodeA.abstractAddress, payload, srcAddr) := by
  obtain ⟨session, hcall, rfl⟩ := sendDatagram_cases hsend
  obtain ⟨hA', hgetA, _⟩ := connectPeer_consistent hA hcall
  obtain ⟨hid, hsecret⟩ := link_sessions hc hA' hB
    (List.mem_append_right _ (List.mem_singleton_self _)) hmemB hkeysA hkeysB hgetA hgetB
  have hfound := hB.sessionOf hmemB hkeysB hchannels hgetB
  have hpkt : FastPacket.decode c ((⟨session.channelId, nodeA.abstractAddress, nonce, payload⟩ :
      FastPacket).encode c session.sharedSecret) sessionB.sharedSecret
        = .ok ⟨session.channelId, nodeA.abstractAddress, nonce, payload⟩ := by
    rw [← hsecret]
    exact FastPacket.decode_encode c _ _ hlen
  refine recvDatagram_channel ?_ ?_ hpkt
  · unfold fullPacketOf
    rw [field_channel, if_neg (by rw [hid]; exact hown)]
  · rw [field_channel]
    show AdnlTransportNode.sessionOf nodeB session.channelId = _
    rw [hid]
    exact hfound

end

/-- **Both ends of a link agree.**  The holders `a` and `b` of two keys connect to each other, after
any other connections.  Then their sessions have one channel and one secret, every packet of the
channel from `a` is read by `b` in the session that its first bytes lead to, also after later
connections, and every full packet for `b` is read with the key of `b`. -/
theorem link_agrees {SocketAddr : Type} (c : AdnlCrypto) (hc : c.Lawful) (a b : SecretKey)
    (callsA callsB later : List (PublicKey × SocketAddr)) (endpointA endpointB : SocketAddr)
    {nodeA nodeB : AdnlTransportNode SocketAddr}
    (hA : connectAll c callsA (AdnlTransportNode.bind c a) = some nodeA)
    (hB : connectAll c callsB (AdnlTransportNode.bind c b) = some nodeB)
    (hkeysA : HashesApart c.toCrypto ((callsA.map Prod.fst ++ [c.publicKey b]).map keyInput))
    (hkeysB : HashesApart c.toCrypto
      ((callsB.map Prod.fst ++ [c.publicKey a] ++ later.map Prod.fst).map keyInput))
    (hchannels : HashesApart c.toCrypto
      ((callsB.map Prod.fst ++ [c.publicKey a] ++ later.map Prod.fst).map (channelInput c b))) :
    ∃ nodeA' sessionA nodeB' sessionB,
      connectPeer c nodeA (c.publicKey b) endpointB = some (nodeA', sessionA) ∧
      connectPeer c nodeB (c.publicKey a) endpointA = some (nodeB', sessionB) ∧
      sessionA.channelId = sessionB.channelId ∧ sessionA.sharedSecret = sessionB.sharedSecret ∧
      (∀ nodeB'', connectAll c later nodeB' = some nodeB'' → ∀ pkt : FastPacket,
        pkt.channelOrRecipientId = sessionA.channelId → pkt.payload.length ≤ 65535 →
        ∃ session, sessionOf nodeB''
            (decodeWord 256 (field (pkt.encode c sessionA.sharedSecret) 0 32)) = some session ∧
          FastPacket.decode c (pkt.encode c sessionA.sharedSecret) session.sharedSecret
            = .ok pkt) ∧
      ∀ (pkt : FullPacket) (ephemeralSecret nonce : Uint256), pkt.payload.length ≤ 65535 →
        ∃ wire, pkt.encode c (c.publicKey b) ephemeralSecret nonce = some wire ∧
          FullPacket.decode c wire b = .ok pkt := by
  have hconA := (connectAll_consistent (bind_consistent c a) hA).1
  have hconB := (connectAll_consistent (bind_consistent c b) hB).1
  rw [List.nil_append] at hconA hconB
  obtain ⟨⟨nodeA', sessionA⟩, hcallA⟩ := connectPeer_ok hconA endpointB (hc.valid b)
  obtain ⟨⟨nodeB', sessionB⟩, hcallB⟩ := connectPeer_ok hconB endpointA (hc.valid a)
  obtain ⟨hconA', hgetA, _⟩ := connectPeer_consistent hconA hcallA
  obtain ⟨hconB', hgetB, _⟩ := connectPeer_consistent hconB hcallB
  have hmemB : c.publicKey a ∈ callsB.map Prod.fst ++ [c.publicKey a] ++ later.map Prod.fst :=
    List.mem_append_left _ (List.mem_append_right _ (List.mem_singleton_self _))
  obtain ⟨hid, hsecret⟩ := link_sessions hc hconA' (hconB'.mono fun _ hk =>
      List.mem_append_left _ hk) (List.mem_append_right _ (List.mem_singleton_self _)) hmemB
    hkeysA hkeysB hgetA hgetB
  refine ⟨nodeA', sessionA, nodeB', sessionB, hcallA, hcallB, hid, hsecret, ?_, ?_⟩
  · intro nodeB'' hlater pkt hpkt hlen
    obtain ⟨hconB'', hkeep⟩ := connectAll_consistent hconB' hlater
    have hfound := hconB''.sessionOf hmemB hkeysB hchannels (hkeep _ _ hgetB)
    refine ⟨sessionB, ?_, ?_⟩
    · rw [field_channel, hpkt, hid]
      exact hfound
    · rw [← hsecret]
      exact FastPacket.decode_encode c pkt _ hlen
  · intro pkt ephemeralSecret nonce hlen
    exact FullPacket.decode_encode hc pkt b ephemeralSecret nonce hlen

theorem sampleAdnl_lawful : sampleAdnl.Lawful :=
  ⟨fun _ => rfl, fun _ => rfl, fun a b => BitVec.add_comm a b⟩

/-- a node that has connected to a third one -/
def sampleEnd (seed : Uint256) : AdnlTransportNode Unit :=
  (connectAll sampleAdnl [(⟨3⟩, ())] (AdnlTransportNode.bind sampleAdnl ⟨seed⟩)).getD
    (AdnlTransportNode.bind sampleAdnl ⟨seed⟩)

theorem sampleEnd_eq (seed : Uint256) : connectAll sampleAdnl [(⟨3⟩, ())]
    (AdnlTransportNode.bind sampleAdnl ⟨seed⟩) = some (sampleEnd seed) := by
  obtain ⟨r, hr⟩ : ∃ r, connectPeer sampleAdnl
      (AdnlTransportNode.bind sampleAdnl ⟨seed⟩ : AdnlTransportNode Unit) ⟨3⟩ () = some r :=
    connectPeer_ok (bind_consistent sampleAdnl ⟨seed⟩) () rfl
  unfold sampleEnd connectAll
  rw [hr]
  rfl

/-- two nodes that both know a third one, where the second meets a fourth one afterwards -/
theorem link_agrees_sample : ∃ nodeA sessionA nodeB sessionB,
    connectPeer sampleAdnl (sampleEnd 1) ⟨2⟩ () = some (nodeA, sessionA) ∧
    connectPeer sampleAdnl (sampleEnd 2) ⟨1⟩ () = some (nodeB, sessionB) ∧
    sessionA.channelId = sessionB.channelId ∧ sessionA.sharedSecret = sessionB.sharedSecret ∧
    ∀ nodeB', connectAll sampleAdnl [(⟨4⟩, ())] nodeB = some nodeB' →
      ∃ session, sessionOf nodeB' sessionA.channelId = some session ∧
        FastPacket.decode sampleAdnl ((⟨sessionA.channelId, 1, 7, [1, 2]⟩ : FastPacket).encode
          sampleAdnl sessionA.sharedSecret) session.sharedSecret
            = .ok ⟨sessionA.channelId, 1, 7, [1, 2]⟩ := by
  obtain ⟨nodeA, sessionA, nodeB, sessionB, hA, hB, hid, hsecret, hfast, _⟩ :=
    link_agrees sampleAdnl sampleAdnl_lawful ⟨1⟩ ⟨2⟩ [(⟨3⟩, ())] [(⟨3⟩, ())] [(⟨4⟩, ())] () ()
      (sampleEnd_eq 1) (sampleEnd_eq 2) (by unfold HashesApart; decide +kernel)
      (by unfold HashesApart; decide +kernel) (by unfold HashesApart; decide +kernel)
  refine ⟨nodeA, sessionA, nodeB, sessionB, hA, hB, hid, hsecret, fun nodeB' hlater => ?_⟩
  obtain ⟨session, hsession, hdecode⟩ :=
    hfast nodeB' hlater ⟨sessionA.channelId, 1, 7, [1, 2]⟩ rfl (Nat.le_of_ble_eq_true rfl)
  rw [field_channel] at hsession
  exact ⟨session, hsession, hdecode⟩

end Onx
