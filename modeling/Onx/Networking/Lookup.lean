import Onx.Networking.RoutingTable

/-!
# Lookups

A lookup keeps the nearest contacts that it knows and asks those that it has not asked, until no nearer
one comes.  Every round asks someone new, so that it ends.

* `Lookup.Kept`       what holds between rounds: different contacts, sorted, and no one asked twice;
* `loop_some`         more rounds than there are contacts are enough;
* `lookup_ends`       **every lookup ends**, with the nearest contacts that it knows;
* `Lookup.Sources`    a contact that is known was in the table, or a peer answered with it;
* `authentic_iff`     **when a lookup uses authentic contacts only**: if the peers answer with no others;
                      for any answers only if the table is empty.
-/

namespace Onx
namespace DhtDaemon
namespace Lookup

section
variable {c : Crypto} {transport : DhtTransport} {target : Uint256} {d : DhtDaemon} {s r : Lookup}

/-- a number for each contact -/
def number (x : DhtContact) : Nat := x.nodeId.toNat * 2^256 + x.publicKey.bytes.toNat

theorem number_lt (x : DhtContact) : number x < CONTACTS := by
  have hid := x.nodeId.isLt
  have hkey := x.publicKey.bytes.isLt
  unfold number CONTACTS
  omega

theorem number_inj {x y : DhtContact} (h : number x = number y) : x = y := by
  obtain ⟨id, ⟨key⟩⟩ := x
  obtain ⟨id', ⟨key'⟩⟩ := y
  have hkey := key.isLt
  have hkey' := key'.isLt
  have hsum : id.toNat * 2^256 + key.toNat = id'.toNat * 2^256 + key'.toNat := h
  rw [DhtContact.mk.injEq, PublicKey.mk.injEq]
  exact ⟨BitVec.eq_of_toNat_eq (by omega), BitVec.eq_of_toNat_eq (by omega)⟩

theorem length_le_of_nodup {xs : List DhtContact} (h : xs.Nodup) : xs.length ≤ CONTACTS := by
  have hsub : xs.map number ⊆ List.range CONTACTS := by
    intro n hn
    obtain ⟨x, _, rfl⟩ := List.mem_map.mp hn
    exact List.mem_range.mpr (number_lt x)
  have hlen := ((h.map fun _ _ hxy => number_inj hxy).subperm hsub).length_le
  rwa [List.length_map, List.length_range] at hlen

/-! ## a round -/

theorem nodup_foldl_addKnown {nodes known : List DhtContact} (h : known.Nodup) :
    (nodes.foldl addKnown known).Nodup := by
  induction nodes generalizing known with
  | nil => exact h
  | cons node nodes ih =>
    refine ih ?_
    unfold addKnown
    split_ifs with hknown
    · exact h
    · have hnot : node ∉ known := fun hmem => hknown (List.contains_iff_mem.mpr hmem)
      exact List.nodup_append.mpr ⟨h, List.nodup_singleton node, fun a ha b hb =>
        fun hab => hnot (List.mem_singleton.mp hb ▸ hab ▸ ha)⟩

/-- contacts that are known already change nothing -/
theorem foldl_addKnown_of_mem {nodes known : List DhtContact} (h : ∀ x ∈ nodes, x ∈ known) :
    nodes.foldl addKnown known = known := by
  induction nodes with
  | nil => rfl
  | cons node nodes ih =>
    have hnode : known.contains node = true := List.contains_iff_mem.mpr (h node List.mem_cons_self)
    rw [List.foldl_cons, addKnown, if_pos hnode]
    exact ih fun x hx => h x (List.mem_cons_of_mem _ hx)

theorem foldl_ask_queried (peers : List DhtContact) (s : Lookup) :
    (peers.foldl (ask c transport target) s).queried = s.queried ++ peers := by
  induction peers generalizing s with
  | nil => exact (List.append_nil _).symm
  | cons peer peers ih =>
    rw [List.foldl_cons, ih, ask_eq, List.append_assoc]
    rfl

theorem foldl_ask_nodup (peers : List DhtContact) (h : s.known.Nodup) :
    (peers.foldl (ask c transport target) s).known.Nodup := by
  refine Runs.run_inv (I:=fun s : Lookup => s.known.Nodup) (fun s peer hs => ?_) peers h
  rw [ask_eq]
  exact nodup_foldl_addKnown hs

theorem mem_round {x : DhtContact} (h : x ∈ s.round) : x ∈ s.known ∧ x ∉ s.queried := by
  obtain ⟨hknown, hnew⟩ := List.mem_filter.mp (List.mem_of_mem_take h)
  refine ⟨hknown, fun hmem => ?_⟩
  rw [List.contains_iff_mem.mpr hmem] at hnew
  cases hnew

/-- what holds between rounds -/
structure Kept (target : Uint256) (s : Lookup) : Prop where
  queried_nodup : s.queried.Nodup
  known_nodup : s.known.Nodup
  sorted : s.known.Pairwise fun a b => distance target a ≤ distance target b
  bounded : s.known.length ≤ K_BUCKET_SIZE

theorem Kept.askRound (h : s.Kept target) : (s.askRound c transport target s.round).Kept target where
  queried_nodup := by
    show (s.round.foldl (ask c transport target) s).queried.Nodup
    rw [foldl_ask_queried]
    refine List.nodup_append.mpr ⟨h.queried_nodup,
      (h.known_nodup.filter _).sublist (List.take_sublist _ _), fun a ha b hb hab => ?_⟩
    exact (mem_round hb).2 (hab ▸ ha)
  known_nodup := KeySort.nodup_least (foldl_ask_nodup _ h.known_nodup)
  sorted := KeySort.pairwise_least
  bounded := KeySort.length_least_le

/-- **More rounds than there are contacts are enough.** -/
theorem loop_some {fuel : Nat} (h : s.Kept target) (hfuel : CONTACTS < fuel + s.queried.length) :
    ∃ r, loop c transport target fuel s = some r := by
  induction fuel generalizing s with
  | zero =>
    have hlen := length_le_of_nodup h.queried_nodup
    omega
  | succ fuel ih =>
    unfold loop
    dsimp only
    split_ifs with hempty hstop
    · exact ⟨_, rfl⟩
    · exact ⟨_, rfl⟩
    · refine ih h.askRound ?_
      have hpos : 0 < s.round.length := by
        rw [List.length_pos_iff]
        exact fun hnil => hempty (List.isEmpty_iff.mpr hnil)
      show CONTACTS < fuel + (s.round.foldl (ask c transport target) s).queried.length
      rw [foldl_ask_queried, List.length_append]
      omega

/-- and more change nothing -/
theorem loop_mono {fuel : Nat} (extra : Nat) (h : loop c transport target fuel s = some r) :
    loop c transport target (fuel + extra) s = some r := by
  induction fuel generalizing s with
  | zero => cases h
  | succ fuel ih =>
    rw [Nat.succ_add]
    unfold loop at h ⊢
    dsimp only at h ⊢
    split_ifs at h ⊢ with hempty hstop
    · exact h
    · exact h
    · exact ih h

/-! ## where contacts come from -/

/-- the contact was in the table, or a peer answered with it -/
def Source (transport : DhtTransport) (target : Uint256) (d : DhtDaemon) (s : Lookup) (x : DhtContact) : Prop :=
  x ∈ d.closestContacts target K_BUCKET_SIZE ∨ x ∈ heard transport target d.self s.queried

/-- what a lookup knows, from what it heard -/
structure Sources (c : Crypto) (transport : DhtTransport) (target : Uint256) (d : DhtDaemon) (s : Lookup) :
    Prop where
  traced : s.Traced c transport target d
  known : ∀ x ∈ s.known, s.Source transport target d x
  queried : ∀ x ∈ s.queried, s.Source transport target d x
  /-- what it has heard of nothing new changes nothing -/
  quiet : (∀ x ∈ heard transport target d.self s.queried, x ∈ d.closestContacts target K_BUCKET_SIZE) →
    s.known = d.closestContacts target K_BUCKET_SIZE

theorem Sources.start : (d.startLookup target).Sources c transport target d :=
  ⟨⟨rfl, rfl⟩, fun _ hx => .inl hx, fun _ hx => absurd hx List.not_mem_nil, fun _ => rfl⟩

/-- what is heard at a call -/
theorem Traced.heard_ask (h : s.Traced c transport target d) (peer : DhtContact) :
    heard transport target d.self (s.ask c transport target peer).queried
      = heard transport target d.self s.queried
        ++ nodesOf (transport s.calls peer (.findNode s.daemon.self target)) := by
  have hself : s.daemon.self = d.self := by
    rw [h.daemon_eq, foldl_addContact_self]
  rw [ask_eq, h.calls_eq, hself]
  exact heard_concat d.self s.queried peer

theorem Source.ask {x : DhtContact} (htraced : s.Traced c transport target d) (peer : DhtContact)
    (h : s.Source transport target d x) : (s.ask c transport target peer).Source transport target d x := by
  unfold Source
  rw [htraced.heard_ask]
  exact h.imp_right (List.mem_append_left _)

theorem Sources.ask {peer : DhtContact} (h : s.Sources c transport target d)
    (hpeer : s.Source transport target d peer) :
    (s.ask c transport target peer).Sources c transport target d := by
  have hheard := h.traced.heard_ask peer
  refine ⟨h.traced.ask peer, fun x hx => ?_, fun x hx => ?_, fun hquiet => ?_⟩
  · rw [ask_eq] at hx
    rcases mem_foldl_addKnown.mp hx with hx | hx
    · exact (h.known x hx).ask h.traced peer
    · refine .inr ?_
      rw [hheard]
      exact List.mem_append_right _ hx
  · rw [ask_eq] at hx
    rcases List.mem_append.mp hx with hx | hx
    · exact (h.queried x hx).ask h.traced peer
    · rw [List.mem_singleton.mp hx]
      exact hpeer.ask h.traced peer
  · rw [hheard] at hquiet
    have hbefore := h.quiet fun x hx => hquiet x (List.mem_append_left _ hx)
    rw [ask_eq]
    refine (foldl_addKnown_of_mem fun x hx => ?_).trans hbefore
    rw [hbefore]
    exact hquiet x (List.mem_append_right _ hx)

theorem Sources.foldl_ask {peers : List DhtContact} (h : s.Sources c transport target d)
    (hpeers : ∀ peer ∈ peers, s.Source transport target d peer) :
    (peers.foldl (Lookup.ask c transport target) s).Sources c transport target d := by
  induction peers generalizing s with
  | nil => exact h
  | cons peer peers ih =>
    refine ih (h.ask (hpeers peer List.mem_cons_self)) fun p hp => ?_
    exact (hpeers p (List.mem_cons_of_mem _ hp)).ask h.traced peer

theorem Sources.askRound (h : s.Sources c transport target d) :
    (s.askRound c transport target s.round).Sources c transport target d := by
  have hasked : (s.round.foldl (Lookup.ask c transport target) s).Sources c transport target d :=
    h.foldl_ask fun peer hpeer => h.known peer (mem_round hpeer).1
  refine ⟨⟨hasked.traced.calls_eq, hasked.traced.daemon_eq⟩, fun x hx => ?_, hasked.queried, fun hquiet => ?_⟩
  · exact hasked.known x (KeySort.mem_of_mem_least hx)
  · show KeySort.least (distance target) K_BUCKET_SIZE (s.round.foldl (Lookup.ask c transport target) s).known = _
    rw [hasked.quiet hquiet]
    exact KeySort.least_eq_self KeySort.pairwise_least KeySort.length_least_le

end

end Lookup

section
variable {c : Crypto} {transport : DhtTransport} {target : Uint256} {d : DhtDaemon} {s : Lookup}

theorem kept_start (h : d.buckets.flatten.Nodup) : (d.startLookup target).Kept target :=
  ⟨List.nodup_nil, KeySort.nodup_least h, KeySort.pairwise_least, KeySort.length_least_le⟩

theorem findNode_some (h : d.buckets.flatten.Nodup) (c : Crypto) (transport : DhtTransport)
    (target : Uint256) : ∃ s, d.findNode c transport target = some s :=
  Lookup.loop_some (kept_start h) (by
    show CONTACTS < CONTACTS + 1 + 0
    omega)

theorem findNode_kept (h : d.buckets.flatten.Nodup) (hs : d.findNode c transport target = some s) :
    s.Kept target := Lookup.loop_inv (fun _ hs => hs.askRound) (kept_start h) hs

theorem findNode_sources (hs : d.findNode c transport target = some s) :
    s.Sources c transport target d := Lookup.loop_inv (fun _ hs => hs.askRound) Lookup.Sources.start hs

end

theorem after_nodup (c : Crypto) (k : PublicKey) (es : List Event) : (after c k es).buckets.flatten.Nodup :=
  (after_wellFormed k es).unique.of_map

/-- how a lookup ends -/
structure Ended (target : Uint256) (d : DhtDaemon) (transport : DhtTransport) (s : Lookup) : Prop where
  /-- no contact is asked twice -/
  queried_nodup : s.queried.Nodup
  length_le : s.known.length ≤ 20
  nodup : s.known.Nodup
  sorted : s.known.Pairwise fun a b => xorDistance a.nodeId target ≤ xorDistance b.nodeId target
  /-- if the peers answer with nothing else than the contacts at the start, these are found -/
  quiet : (∀ x ∈ heard transport target d.self s.queried, x ∈ d.closestContacts target K_BUCKET_SIZE) →
    s.known = d.closestContacts target K_BUCKET_SIZE

/-- **Every lookup ends**, whatever the peers answer. -/
theorem lookup_ends (c : Crypto) (localPublicKey : PublicKey) (es : List Event) (transport : DhtTransport)
    (target : Uint256) : ∃ s, Ended target (after c localPublicKey es) transport s
      ∧ (after c localPublicKey es).findNode c transport target = some s
      ∧ ∃ fuel, ∀ extra, Lookup.loop c transport target (fuel + extra)
        ((after c localPublicKey es).startLookup target) = some s := by
  have hnodup := after_nodup c localPublicKey es
  obtain ⟨s, hs⟩ := findNode_some hnodup c transport target
  have hkept := findNode_kept hnodup hs
  exact ⟨s, ⟨hkept.queried_nodup, hkept.bounded, hkept.known_nodup, hkept.sorted,
    (findNode_sources hs).quiet⟩, hs, CONTACTS + 1, fun extra => Lookup.loop_mono extra hs⟩

/-! ## contacts that are not authentic -/

/-- contacts whose identifiers are the addresses of their keys, and not that of the node -/
def AuthenticOnly (c : Crypto) (home : Uint256) (xs : List DhtContact) : Prop :=
  ∀ x ∈ xs, x.Authentic c ∧ x.nodeId ≠ home

section
variable {c : Crypto} {transport : DhtTransport} {target : Uint256} {d : DhtDaemon} {s r : Lookup}

theorem authenticOnly_closest {contacts : List DhtContact} (h : d.WellFormed c contacts)
    (target : Uint256) (limit : Nat) : AuthenticOnly c d.self.nodeId (d.closestContacts target limit) := by
  intro x hx
  obtain ⟨bucket, hbucket, hmem⟩ := List.mem_flatten.mp ((h.closest target limit).stored x hx)
  exact h.authentic bucket hbucket x hmem

/-- what peers answer is used as it is -/
theorem authenticOnly_of_heard {contacts : List DhtContact} (h : d.WellFormed c contacts)
    (hs : d.findNode c transport target = some s)
    (hheard : AuthenticOnly c d.self.nodeId (heard transport target d.self s.queried)) :
    AuthenticOnly c d.self.nodeId (s.queried ++ s.known) := by
  have hsources := findNode_sources hs
  have hgood : ∀ x, s.Source transport target d x → x.Authentic c ∧ x.nodeId ≠ d.self.nodeId :=
    fun x hx => hx.elim (authenticOnly_closest h target K_BUCKET_SIZE x) (hheard x)
  intro x hx
  rcases List.mem_append.mp hx with hx | hx
  · exact hgood x (hsources.queried x hx)
  · exact hgood x (hsources.known x hx)

/-! ### a contact that every peer answers with -/

/-- the same contact at every call -/
def answerAll (f : DhtContact) : DhtTransport := fun _ _ _ => .ok (.nodes [f])

/-- the lookup knows the contacts at the start, and perhaps the one that is answered -/
structure Told (d : DhtDaemon) (target : Uint256) (f : DhtContact) (s : Lookup) : Prop where
  nodup : s.known.Nodup
  known : ∀ x ∈ s.known, x ∈ d.closestContacts target K_BUCKET_SIZE ∨ x = f

variable {f : DhtContact}

theorem mem_ask (s : Lookup) (peer x : DhtContact) :
    x ∈ (s.ask c (answerAll f) target peer).known ↔ x ∈ s.known ∨ x = f := by
  rw [Lookup.ask_eq]
  refine Lookup.mem_foldl_addKnown.trans (or_congr_right ?_)
  exact List.mem_singleton

theorem Told.ask (h : Told d target f s) (peer : DhtContact) :
    Told d target f (s.ask c (answerAll f) target peer) := by
  refine ⟨?_, fun x hx => ((mem_ask s peer x).mp hx).elim (h.known x) .inr⟩
  rw [Lookup.ask_eq]
  exact Lookup.nodup_foldl_addKnown h.nodup

theorem Told.foldl_ask (h : Told d target f s) (peers : List DhtContact) :
    Told d target f (peers.foldl (Lookup.ask c (answerAll f) target) s) :=
  Runs.run_inv (fun _ peer hs => hs.ask peer) peers h

theorem mem_foldl_ask {peers : List DhtContact} (h : peers ≠ [] ∨ f ∈ s.known) :
    f ∈ (peers.foldl (Lookup.ask c (answerAll f) target) s).known := by
  induction peers generalizing s with
  | nil => exact h.resolve_left fun hne => hne rfl
  | cons peer peers ih => exact ih (.inr ((mem_ask s peer f).mpr (.inr rfl)))

/-- no more than two contacts of the table are as near as that -/
theorem length_near_le (h : (d.buckets.flatten.map DhtContact.nodeId).Nodup) (target : Uint256) (limit : Nat) :
    ((d.closestContacts target limit).filter fun x => Lookup.distance target x ≤ 1).length ≤ 2 := by
  have hnodup : (((d.closestContacts target limit).filter fun x => Lookup.distance target x ≤ 1).map
      (Lookup.distance target)).Nodup := by
    refine List.Nodup.map_on (fun x hx y hy hxy => ?_) ((KeySort.nodup_least h.of_map).filter _)
    have hx := KeySort.mem_of_mem_least (List.mem_of_mem_filter hx)
    have hy := KeySort.mem_of_mem_least (List.mem_of_mem_filter hy)
    exact List.inj_on_of_nodup_map h hx hy (BitVec.xor_left_inj target |>.mp hxy)
  have hsub : ((d.closestContacts target limit).filter fun x => Lookup.distance target x ≤ 1).map
      (Lookup.distance target) ⊆ [0, 1] := by
    intro n hn
    obtain ⟨x, hx, rfl⟩ := List.mem_map.mp hn
    have hle := BitVec.le_def.mp (of_decide_eq_true (List.mem_filter.mp hx).2)
    rw [List.mem_cons, List.mem_singleton, BitVec.toNat_eq, BitVec.toNat_eq]
    have hone : (1 : Uint256).toNat = 1 := rfl
    have hzero : (0 : Uint256).toNat = 0 := rfl
    omega
  have hlen := (List.subperm_of_subset hnodup hsub).length_le
  rwa [List.length_map] at hlen

/-- **A contact that is near enough stays**, authentic or not. -/
theorem Told.askRound (hd : (d.buckets.flatten.map DhtContact.nodeId).Nodup)
    (hf : Lookup.distance target f ≤ 1) (h : Told d target f s) (hround : s.round ≠ [] ∨ f ∈ s.known) :
    f ∈ (s.askRound c (answerAll f) target s.round).known
      ∧ Told d target f (s.askRound c (answerAll f) target s.round) := by
  have hasked := @Told.foldl_ask c target d s f h s.round
  refine ⟨?_, KeySort.nodup_least hasked.nodup, fun x hx => hasked.known x (KeySort.mem_of_mem_least hx)⟩
  refine KeySort.mem_least_of_few hasked.nodup (mem_foldl_ask hround) (fun x hx hne hle => ?_)
    (Nat.lt_of_le_of_lt (length_near_le hd target K_BUCKET_SIZE) (by decide))
  exact List.mem_filter.mpr ⟨(hasked.known x hx).resolve_right hne, decide_eq_true (hle.trans hf)⟩

theorem round_start (h : d.buckets.flatten ≠ []) : (d.startLookup target).round ≠ [] := by
  have hpos := List.length_pos_iff.mpr h
  have hall : (d.startLookup target).round
      = (d.closestContacts target K_BUCKET_SIZE).take LOOKUP_ALPHA :=
    congrArg (List.take LOOKUP_ALPHA) (List.filter_eq_self.mpr fun _ _ => rfl)
  have hlen : (d.closestContacts target K_BUCKET_SIZE).length = min K_BUCKET_SIZE d.buckets.flatten.length :=
    KeySort.length_least
  rw [hall, ← List.length_pos_iff, List.length_take, hlen]
  unfold LOOKUP_ALPHA K_BUCKET_SIZE
  omega

/-- **Such a contact is found**, at every node that asks anyone. -/
theorem answered_known (hd : (d.buckets.flatten.map DhtContact.nodeId).Nodup) (hne : d.buckets.flatten ≠ [])
    (hf : Lookup.distance target f ≤ 1) (hs : d.findNode c (answerAll f) target = some s) : f ∈ s.known := by
  have hstart : Told d target f (d.startLookup target) := ⟨KeySort.nodup_least hd.of_map, fun _ hx => .inl hx⟩
  have hround := @round_start target d hne
  have hfirst := hstart.askRound (c:=c) hd hf (.inl hround)
  unfold findNode Lookup.loop at hs
  dsimp only at hs
  rw [if_neg fun hempty => hround (List.isEmpty_iff.mp hempty)] at hs
  split_ifs at hs with hstop
  · exact Option.some.inj hs ▸ hfirst.1
  · refine (Lookup.loop_inv (I:=fun s => f ∈ s.known ∧ Told d target f s) (fun s hI => ?_) hfirst hs).1
    exact hI.2.askRound hd hf (.inr hI.1)

/-- one key is enough to make one up -/
theorem exists_forged (c : Crypto) (target : Uint256) :
    ∃ f : DhtContact, Lookup.distance target f ≤ 1 ∧ ¬ f.Authentic c := by
  by_cases h : (KeyDescription.newEd25519 ⟨0⟩).computeAbstractAddress c = target
  · refine ⟨⟨1 ^^^ target, ⟨0⟩⟩, ?_, fun hauth => ?_⟩
    · unfold Lookup.distance xorDistance
      rw [BitVec.xor_assoc, BitVec.xor_self, BitVec.xor_zero]
    · have heq : target = 1 ^^^ target := h.symm.trans hauth
      have hzero : (0 : Uint256) = 1 := by
        refine (BitVec.xor_left_inj target).mp ?_
        rw [← heq]
        exact BitVec.zero_xor
      cases hzero
  · refine ⟨⟨target, ⟨0⟩⟩, ?_, h⟩
    unfold Lookup.distance xorDistance
    rw [BitVec.xor_self]
    exact BitVec.le_def.mpr (Nat.zero_le _)

end

/-- **When a lookup uses authentic contacts only.**  In every run in which the peers answer with no
others; whatever they answer, only if there is no one to ask. -/
theorem authentic_iff (c : Crypto) (localPublicKey : PublicKey) (es : List Event) (target : Uint256) :
    (∀ transport s, (after c localPublicKey es).findNode c transport target = some s →
      AuthenticOnly c (after c localPublicKey es).self.nodeId
        (heard transport target (after c localPublicKey es).self s.queried) →
      AuthenticOnly c (after c localPublicKey es).self.nodeId (s.queried ++ s.known))
    ∧ ((∀ transport s, (after c localPublicKey es).findNode c transport target = some s →
        AuthenticOnly c (after c localPublicKey es).self.nodeId (s.queried ++ s.known))
      ↔ (after c localPublicKey es).buckets.flatten = []) := by
  have hwell := after_wellFormed (c:=c) localPublicKey es
  refine ⟨fun transport s hs hheard => authenticOnly_of_heard hwell hs hheard, fun h => ?_,
    fun hempty transport s hs => ?_⟩
  · by_contra hne
    obtain ⟨f, hnear, hforged⟩ := exists_forged c target
    obtain ⟨s, hs⟩ := findNode_some (after_nodup c localPublicKey es) c (answerAll f) target
    have hknown := answered_known hwell.unique hne hnear hs
    exact hforged (h _ s hs f (List.mem_append_right _ hknown)).1
  · have hclosest : (after c localPublicKey es).closestContacts target K_BUCKET_SIZE = [] := by
      unfold closestContacts
      rw [hempty]
      rfl
    have hround : ((after c localPublicKey es).startLookup target).round = [] := by
      unfold startLookup Lookup.round
      rw [hclosest]
      rfl
    unfold findNode Lookup.loop at hs
    dsimp only at hs
    rw [hround] at hs
    obtain rfl := Option.some.inj hs
    show AuthenticOnly c _ ([] ++ (after c localPublicKey es).closestContacts target K_BUCKET_SIZE)
    rw [hclosest]
    exact fun x hx => absurd hx List.not_mem_nil

/-- **A peer makes up a contact**, with the identifier that is looked for and the key 0, and it is found. -/
theorem forged_contact : ∃ s, (after sampleCrypto ⟨0⟩ [.addContact (.fromPublicKey sampleCrypto ⟨1⟩)]).findNode
      sampleCrypto (answerAll ⟨5, ⟨0⟩⟩) 5 = some s
    ∧ ⟨5, ⟨0⟩⟩ ∈ s.known ∧ ¬ DhtContact.Authentic sampleCrypto ⟨5, ⟨0⟩⟩ := by
  obtain ⟨s, hs⟩ := findNode_some
    (after_nodup sampleCrypto ⟨0⟩ [.addContact (.fromPublicKey sampleCrypto ⟨1⟩)]) sampleCrypto
    (answerAll ⟨5, ⟨0⟩⟩) 5
  have hwell := after_wellFormed (c:=sampleCrypto) ⟨0⟩ [.addContact (.fromPublicKey sampleCrypto ⟨1⟩)]
  exact ⟨s, hs, answered_known hwell.unique (by decide +kernel) (by decide) hs, by decide +kernel⟩

end DhtDaemon

end Onx
