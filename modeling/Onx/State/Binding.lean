import Onx.State.Tree

/-!
# The state root binds the accounts

The root cell of a trie determines the trie, and the trie holds the accounts, so the state root
determines the accounts up to a SHA-256 collision between cells of the two trees.

* `rootCell_inj`         the three kinds of root cells differ in the length of their data, a leaf
                         carries its key and the hash of its record, a branch the hashes below it;
* `accounts_of_trie`     a trie is built from one account map;
* `state_root_binding`   equal state roots, equal accounts.
-/

namespace Onx.State

section
variable {c : Crypto}

/-! ## root cells -/

/-- the length of the data tells the kind of a root cell -/
def rootDataLen : AccountTrie → Nat
  | .empty => 13
  | .leaf _ _ => 32
  | .branch _ _ => 0

theorem length_rootCell (t : AccountTrie) : (rootCell c t).dataBytes.length = rootDataLen t := by
  cases t with
  | empty => rfl
  | leaf key state => exact length_encodeWord 32 key
  | branch left right => rfl

theorem rootDataLen_eq {t t' : AccountTrie} (h : rootCell c t = rootCell c t') :
    rootDataLen t = rootDataLen t' := by
  rw [← length_rootCell (c := c), ← length_rootCell (c := c), h]

theorem leafCell_inj {key key' : Uint256} {state state' : AccountState}
    (hinj : NoCollision c [recordCell state, recordCell state'])
    (h : leafCell c key state = leafCell c key' state') : key = key' ∧ state = state' := by
  have hkey : encodeWord 32 key = encodeWord 32 key' := congrArg Cell.dataBytes h
  have hrefs : [(recordCell state).hash c] = [(recordCell state').hash c] :=
    congrArg Cell.cellRefs h
  have hrecord : recordCell state = recordCell state' :=
    hinj _ (by simp) _ (by simp) (List.cons.inj hrefs).1
  have hbytes : state.toBytes = state'.toBytes := congrArg Cell.dataBytes hrecord
  exact ⟨encodeWord_inj (n:=32) rfl hkey, AccountState.toBytes_inj hbytes⟩

theorem rootCell_mem (t : AccountTrie) : rootCell c t ∈ cellsOf c t :=
  (cellsOf_trie t).root_mem

theorem cellsOf_left {left right : AccountTrie} {d : Cell} (h : d ∈ cellsOf c left) :
    d ∈ cellsOf c (.branch left right) :=
  List.mem_append_left _ (List.mem_append_left _ h)

theorem cellsOf_right {left right : AccountTrie} {d : Cell} (h : d ∈ cellsOf c right) :
    d ∈ cellsOf c (.branch left right) :=
  List.mem_append_left _ (List.mem_append_right _ h)

theorem cellsOf_child (b : Bool) {left right : AccountTrie} {d : Cell}
    (h : d ∈ cellsOf c (if b then right else left)) : d ∈ cellsOf c (.branch left right) := by
  cases b with
  | false => exact cellsOf_left h
  | true => exact cellsOf_right h

/-- the subtries of two branches with one root cell have one root cell -/
theorem branchCell_inj {left right left' right' : AccountTrie}
    (hinj : NoCollision c
      (cellsOf c (.branch left right) ++ cellsOf c (.branch left' right')))
    (h : rootCell c (.branch left right) = rootCell c (.branch left' right')) :
    rootCell c left = rootCell c left' ∧ rootCell c right = rootCell c right' := by
  have hrefs : [(rootCell c left).hash c, (rootCell c right).hash c]
      = [(rootCell c left').hash c, (rootCell c right').hash c] := congrArg Cell.cellRefs h
  obtain ⟨hl, hrest⟩ := List.cons.inj hrefs
  obtain ⟨hr, _⟩ := List.cons.inj hrest
  constructor
  · exact hinj _ (List.mem_append_left _ (cellsOf_left (rootCell_mem left)))
      _ (List.mem_append_right _ (cellsOf_left (rootCell_mem left'))) hl
  · exact hinj _ (List.mem_append_left _ (cellsOf_right (rootCell_mem right)))
      _ (List.mem_append_right _ (cellsOf_right (rootCell_mem right'))) hr

/-- **The root cell determines the trie.** -/
theorem rootCell_inj : ∀ t t' : AccountTrie, NoCollision c (cellsOf c t ++ cellsOf c t') →
    rootCell c t = rootCell c t' → t = t' := by
  intro t
  induction t with
  | empty =>
    intro t' _ h
    have hlen := rootDataLen_eq h
    cases t' with
    | empty => rfl
    | leaf key' state' => simp [rootDataLen] at hlen
    | branch left' right' => simp [rootDataLen] at hlen
  | leaf key state =>
    intro t' hinj h
    have hlen := rootDataLen_eq h
    cases t' with
    | empty => simp [rootDataLen] at hlen
    | leaf key' state' =>
      have hrecords : NoCollision c [recordCell state, recordCell state'] :=
        hinj.mono (by simp [cellsOf])
      obtain ⟨hkey, hstate⟩ := leafCell_inj hrecords h
      rw [hkey, hstate]
    | branch left' right' => simp [rootDataLen] at hlen
  | branch left right ihl ihr =>
    intro t' hinj h
    have hlen := rootDataLen_eq h
    cases t' with
    | empty => simp [rootDataLen] at hlen
    | leaf key' state' => simp [rootDataLen] at hlen
    | branch left' right' =>
      obtain ⟨hl, hr⟩ := branchCell_inj hinj h
      have hleft : NoCollision c (cellsOf c left ++ cellsOf c left') :=
        hinj.mono fun d hd => List.mem_append.mpr
          ((List.mem_append.mp hd).imp cellsOf_left cellsOf_left)
      have hright : NoCollision c (cellsOf c right ++ cellsOf c right') :=
        hinj.mono fun d hd => List.mem_append.mpr
          ((List.mem_append.mp hd).imp cellsOf_right cellsOf_right)
      rw [ihl left' hleft hl, ihr right' hright hr]

end

/-! ## the accounts of a trie -/

section
variable (t : ShardStateTree)

theorem accountItems_below : BitTrie.Below 256 t.accountItems := by
  refine BitTrie.below_top ?_
  have hids : t.accountItems.map Prod.fst = t.accounts.keys.map AccountId.id := by
    unfold ShardStateTree.accountItems OrdMap.keys
    rw [List.map_map, List.map_map]
    rfl
  rw [hids]
  exact t.accounts.keys_nodup.map fun a b h => by
    obtain ⟨i⟩ := a
    obtain ⟨j⟩ := b
    exact congrArg AccountId.mk h

theorem entries_trie : t.trie.entries.Perm t.accountItems :=
  BitTrie.entries_ofItems 256 _ (accountItems_below t)

end

theorem item_injective : Function.Injective
    (fun x : AccountId × AccountState => (x.1.id, x.2)) := by
  intro x y h
  obtain ⟨⟨i⟩, s⟩ := x
  obtain ⟨⟨j⟩, s'⟩ := y
  obtain ⟨hid, hstate⟩ := Prod.mk.inj h
  dsimp only at hid hstate
  rw [hid, hstate]

/-- **A trie is built from one account map.** -/
theorem accounts_of_trie {t t' : ShardStateTree} (h : t.trie = t'.trie) :
    t.accounts = t'.accounts := by
  have hperm : t.accountItems.Perm t'.accountItems := by
    have ht := entries_trie t
    rw [h] at ht
    exact ht.symm.trans (entries_trie t')
  exact OrdMap.ext_perm ((List.map_perm_map_iff item_injective).mp hperm)

section
variable (c : Crypto)

/-- **Two state trees have one state root exactly if they have the same accounts**, if
`domain_hash` does not collide on the cells that are hashed for the two trees. -/
theorem state_root_binding (t t' : ShardStateTree)
    (hinj : ∀ a ∈ t.trieCells c ++ t'.trieCells c, ∀ b ∈ t.trieCells c ++ t'.trieCells c,
      domainHash c ONX_CELL_HASH_V1_TAG a.toBytes = domainHash c ONX_CELL_HASH_V1_TAG b.toBytes →
      a.toBytes = b.toBytes) :
    t.stateRootHash c = t'.stateRootHash c ↔ t.accounts = t'.accounts := by
  have hcells : NoCollision c (cellsOf c t.trie ++ cellsOf c t'.trie) := by
    rw [← t.trieCells_eq, ← t'.trieCells_eq]
    exact fun a ha b hb heq => Cell.toBytes_inj (hinj a ha b hb heq)
  refine ⟨fun h => ?_, fun h => ?_⟩
  · rw [t.stateRootHash_eq, t'.stateRootHash_eq] at h
    have hroot := hcells _ (List.mem_append_left _ (rootCell_mem t.trie))
      _ (List.mem_append_right _ (rootCell_mem t'.trie)) h
    exact accounts_of_trie (rootCell_inj _ _ hcells hroot)
  · obtain ⟨accounts⟩ := t
    obtain ⟨accounts'⟩ := t'
    cases h
    rfl

end

/-- two accounts whose ids differ in the first bit -/
def sampleTree : ShardStateTree :=
  (ShardStateTree.new.insert ⟨0⟩ .uninitialized).insert ⟨BitVec.ofNat 256 (2^255)⟩ .destroyed

theorem state_root_binding_sample :
    sampleTree.stateRootHash sampleCrypto = ShardStateTree.new.stateRootHash sampleCrypto
      ↔ sampleTree.accounts = ShardStateTree.new.accounts :=
  state_root_binding sampleCrypto sampleTree ShardStateTree.new (by decide +kernel)

end Onx.State
