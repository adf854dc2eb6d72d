import Onx.State.CellCodec
import Onx.State.Codec

/-!
# Representations of bags and proofs

A bag is written in the order in which its hash map yields the cells, and read in any order, with
cells that are repeated, and with bits in a descriptor that mean nothing.

* `oneForm_iff`                a bag is written in one way exactly if it has at most one cell;
* `reencodes_iff`              bytes that are read are what is written exactly if they hold one entry
                               without spare bits;
* `second_encoding`            every bag that is read can be read from other bytes;
* `one_representation_iff`     **when there is one byte representation**, of bags and of proofs;
* `orders_differ`              two orders of two cells.
-/

namespace Onx

namespace BagOfCells

/-- all orders of the hash map give the same bytes -/
def OneForm (self : BagOfCells) : Prop :=
  ∀ order order', order.Perm self.cells.entries → order'.Perm self.cells.entries →
    self.toBytes order = self.toBytes order'

/-- whatever the order, the bag is written as the first `n` bytes of the slice -/
def Reencodes (self : BagOfCells) (slice : Bytes) (n : Nat) : Prop :=
  ∀ order, order.Perm self.cells.entries → self.toBytes order = slice.take n

/-- the number of entries that a slice declares -/
def declaredCount (slice : Bytes) : Uint32 := decodeWord 32 ((slice.drop 32).take 4)

/-- one entry, whose descriptor has no spare bits -/
def OneEntry (slice : Bytes) : Prop :=
  declaredCount slice = 1 ∧ Cell.spareBits (slice.drop 72) = 0

instance instDecidableOneEntry (slice : Bytes) : Decidable (OneEntry slice) := by
  unfold OneEntry
  infer_instance

theorem window_take {α : Type} {l : List α} {i m n : Nat} (h : i + m ≤ n) :
    ((l.take n).drop i).take m = (l.drop i).take m := by
  rw [List.drop_take, List.take_take, Nat.min_eq_left (by omega)]

/-! ## orders -/

theorem toBytes_inj_order {self : BagOfCells} {order order' : List (Uint256 × Cell)}
    (h : self.toBytes order = self.toBytes order') :
    order.flatMap entryBytes = order'.flatMap entryBytes := by
  unfold toBytes at h
  obtain ⟨_, h⟩ := append_inj_be rfl h
  exact (append_inj_be rfl h).2

/-- **A bag is written in one way exactly if it has at most one cell.** -/
theorem oneForm_iff {self : BagOfCells} : self.OneForm ↔ self.cells.size ≤ 1 := by
  obtain ⟨rootHash, ⟨entries, hsorted⟩⟩ := self
  constructor
  · intro h
    by_contra hsize
    match entries with
    | [] => exact hsize (Nat.zero_le _)
    | [_] => exact hsize (Nat.le_refl _)
    | first :: second :: rest =>
      have heq := toBytes_inj_order (h _ (second :: first :: rest) (List.Perm.refl _)
        (List.Perm.swap _ _ _))
      simp only [List.flatMap_cons, entryBytes, List.append_assoc] at heq
      obtain ⟨hkeys, _⟩ := append_inj_be (by simp) heq
      have hkey : first.1 = second.1 := encodeWord_inj (n:=32) rfl hkeys
      have hlt := (List.pairwise_cons.mp hsorted).1 second List.mem_cons_self
      exact ne_of_lt hlt hkey
  · intro hsize order order' hperm hperm'
    have hsame : order = order' := by
      match entries with
      | [] => rw [hperm.eq_nil, hperm'.eq_nil]
      | [_] => rw [List.perm_singleton.mp hperm, List.perm_singleton.mp hperm']
      | _ :: _ :: _ => exact absurd hsize (by simp [OrdMap.size])
    rw [hsame]

/-! ## what is read -/

section
variable {c : Crypto} {slice : Bytes} {boc : BagOfCells} {n : Nat}

/-- a bag that is read from one entry -/
theorem fromBytes_one (h : fromBytes c slice = .ok (boc, n)) (hone : declaredCount slice = 1) :
    ∃ cell m, n = 72 + m ∧ Cell.fromBytes ((slice.drop 72).take m) = .ok (cell, m)
      ∧ boc.cells = OrdMap.empty.insert (cell.hash c) cell
      ∧ boc.toBytes [(cell.hash c, cell)] = slice.take 72 ++ cell.toBytes := by
  obtain ⟨hhead, cells, hread, hnew⟩ := fromBytes_ok h
  unfold declaredCount at hone
  rw [hone, show (1 : Uint32).toNat = 0 + 1 from rfl] at hread
  obtain ⟨cell, m, hlen, hentry, hcell, hrest⟩ := readCells_succ hread
  cases hrest
  rw [List.drop_drop] at hcell
  rw [new_eq hnew]
  refine ⟨cell, m, by omega, hcell, rfl, ?_⟩
  have hroot : (slice.take 32).length = 32 := List.length_take_of_le (by omega)
  have hcount : ((slice.drop 32).take 4).length = 4 :=
    List.length_take_of_le (by rw [List.length_drop]; omega)
  have hsplit : slice.take 72 = slice.take 32 ++ ((slice.drop 32).take 4 ++ (slice.drop 36).take 36) := by
    rw [show (72 : Nat) = 32 + (4 + 36) from rfl, List.take_add, List.take_add, List.drop_drop]
  have hword := encodeWord_decodeWord (w:=32) rfl hcount
  rw [hone] at hword
  unfold toBytes entryBytes
  rw [hsplit, hentry, ← hword, encodeWord_decodeWord (n:=32) rfl hroot]
  simp [OrdMap.size, OrdMap.insert, OrdMap.insertEntry, OrdMap.empty, Cell.length_of_fromBytes hcell]

/-- the entries of a bag with one cell -/
theorem order_of_one {cells : OrdMap Uint256 Cell} {key : Uint256} {cell : Cell}
    {order : List (Uint256 × Cell)} (h : cells = OrdMap.empty.insert key cell) :
    order.Perm cells.entries ↔ order = [(key, cell)] := by
  rw [h]
  exact List.perm_singleton

/-- bytes that are written back declare as many entries as the bag has cells -/
theorem Reencodes.declared (h : fromBytes c slice = .ok (boc, n)) (hback : boc.Reencodes slice n) :
    declaredCount slice = 1 := by
  have hform : boc.OneForm := fun order order' hperm hperm' =>
    (hback order hperm).trans (hback order' hperm').symm
  have hone : boc.cells.size = 1 := by
    obtain ⟨root, hroot⟩ := (Built.fromBytes h).root_held
    have hpos := List.length_pos_of_mem (OrdMap.mem_entries_iff.mpr hroot)
    have hsize := oneForm_iff.mp hform
    unfold OrdMap.size at hsize ⊢
    omega
  have hbytes := hback _ (List.Perm.refl _)
  have hlen := congrArg List.length hbytes
  have hword := congrArg (fun bytes => (bytes.drop 32).take 4) hbytes
  unfold toBytes at hlen hword
  rw [List.length_append, List.length_append, length_encodeWord, length_encodeWord,
    List.length_take] at hlen
  rw [List.drop_left' (length_encodeWord 32 boc.rootHash), List.take_left' (length_encodeWord 4 _),
    window_take (by omega), hone] at hword
  unfold declaredCount
  rw [← hword, decodeWord_encodeWord (n:=4) rfl]
  rfl

/-- **Bytes that are read are what is written exactly if they hold one entry without spare bits.** -/
theorem reencodes_iff (h : fromBytes c slice = .ok (boc, n)) :
    boc.Reencodes slice n ↔ OneEntry slice := by
  unfold OneEntry
  refine ⟨fun hback => ?_, fun ⟨hone, hspare⟩ order hperm => ?_⟩
  · have hone := hback.declared h
    obtain ⟨cell, m, rfl, hcell, hcells, hbytes⟩ := fromBytes_one h hone
    have hwritten := hback _ ((order_of_one hcells).mpr rfl)
    rw [hbytes, List.take_add, List.append_cancel_left_eq] at hwritten
    exact ⟨hone, (Cell.toBytes_take_iff hcell).mp hwritten⟩
  · obtain ⟨cell, m, rfl, hcell, hcells, hbytes⟩ := fromBytes_one h hone
    rw [(order_of_one hcells).mp hperm, hbytes, List.take_add,
      (Cell.toBytes_take_iff hcell).mpr hspare]

/-- the reader goes forward -/
theorem readCells_forward : ∀ (count : Nat) (rest : Bytes) (offset : Nat)
    (cells : OrdMap Uint256 Cell) (r : OrdMap Uint256 Cell × Nat),
    readCells c count rest offset cells = .ok r → offset ≤ r.2 := by
  intro count
  induction count with
  | zero =>
    intro rest offset cells r h
    cases h
    exact Nat.le_refl _
  | succ count ih =>
    intro rest offset cells r h
    obtain ⟨cell, len, _, _, _, hrest⟩ := readCells_succ h
    have hle := ih _ _ _ _ hrest
    omega

/-- **Every bag that is read can be read from other bytes**, with a spare bit in its first cell or
without. -/
theorem second_encoding (h : fromBytes c slice = .ok (boc, n)) :
    ∃ slice', fromBytes c slice' = .ok (boc, n) ∧ slice'.take n ≠ slice.take n := by
  obtain ⟨hhead, cells, hread, hnew⟩ := fromBytes_ok h
  have hcount : (decodeWord 32 ((slice.drop 32).take 4)).toNat ≠ 0 := by
    intro hzero
    rw [hzero] at hread
    cases hread
    cases hnew
  obtain ⟨count, hsucc⟩ := Nat.exists_eq_succ_of_ne_zero hcount
  rw [hsucc] at hhead
  rw [hsucc] at hread
  obtain ⟨cell, m, hlen, _, hcell, hrest⟩ := readCells_succ hread
  obtain ⟨bytes, hbytes, hsame, hne⟩ := cell.exists_other ((slice.drop 72).take m)
  rw [Cell.length_of_fromBytes hcell] at hsame
  have hm : bytes.length < 2^32 := by
    rw [hsame, ← Cell.length_of_fromBytes hcell, ← toNat_cellLength cell]
    exact BitVec.isLt _
  have hforward := readCells_forward _ _ _ _ _ hrest
  dsimp only at hforward
  rw [List.length_drop] at hlen
  refine ⟨encodeWord 32 (decodeWord 256 (slice.take 32))
      ++ (encodeWord 4 (decodeWord 32 ((slice.drop 32).take 4))
        ++ (encodeWord 32 (cell.hash c) ++ (encodeWord 4 (BitVec.ofNat 32 bytes.length)
          ++ (bytes ++ (slice.drop 36).drop (36 + m))))), ?_, fun heq => hne ?_⟩
  · refine fromBytes_of_readCells ?_ ?_ hnew
    · simp only [List.length_append, length_encodeWord, List.length_drop]
      omega
    · rw [hsucc, readCells_encoded hbytes hm, hsame]
      exact hrest
  · have hwindow := congrArg (fun s => (s.drop 72).take m) heq
    rw [window_take (by omega), window_take (by omega)] at hwindow
    rw [← hwindow]
    rw [show (72 : Nat) = 32 + (4 + (32 + 4)) from rfl, ← List.drop_drop, ← List.drop_drop,
      ← List.drop_drop, List.drop_left' (length_encodeWord 32 _),
      List.drop_left' (length_encodeWord 4 _), List.drop_left' (length_encodeWord 32 _),
      List.drop_left' (length_encodeWord 4 _), List.take_left' hsame]

end

end BagOfCells

/-! ## proofs -/

namespace MerkleProof

/-- the fields before the bag -/
def head (self : MerkleProof) : Bytes :=
  encodeWord 4 self.magicBytes ++ (encodeWord 32 self.targetKey ++ encodeWord 32 self.rootHash)

/-- `to_bytes`, for an order of the hash map of the bag -/
def toBytes (self : MerkleProof) (order : List (Uint256 × Cell)) : Bytes :=
  self.head ++ self.proofBoc.toBytes order

/-- all orders of the hash map give the same bytes -/
def OneForm (self : MerkleProof) : Prop :=
  ∀ order order', order.Perm self.proofBoc.cells.entries → order'.Perm self.proofBoc.cells.entries →
    self.toBytes order = self.toBytes order'

/-- whatever the order, the proof is written as the first `n` bytes of the slice -/
def Reencodes (self : MerkleProof) (slice : Bytes) (n : Nat) : Prop :=
  ∀ order, order.Perm self.proofBoc.cells.entries → self.toBytes order = slice.take n

theorem length_head (self : MerkleProof) : self.head.length = 68 := by
  unfold head
  rw [List.length_append, List.length_append, length_encodeWord, length_encodeWord,
    length_encodeWord]

theorem oneForm_iff {self : MerkleProof} : self.OneForm ↔ self.proofBoc.cells.size ≤ 1 := by
  rw [← BagOfCells.oneForm_iff]
  unfold OneForm BagOfCells.OneForm toBytes
  simp only [List.append_cancel_left_eq]

section
variable {c : Crypto}

/-- a proof off the input, from a bag off the input -/
theorem fromBytes_of_bag {proof : MerkleProof} {bs : Bytes} {m : Nat} (hverify : proof.verify = .ok ())
    (hbag : BagOfCells.fromBytes c bs = .ok (proof.proofBoc, m)) :
    fromBytes c (proof.head ++ bs) = .ok (proof, 68 + m) := by
  obtain ⟨magic, target, root, boc⟩ := proof
  have htarget := length_encodeWord 32 target
  have hroot := length_encodeWord 32 root
  unfold fromBytes head
  rw [if_neg, List.append_assoc, List.append_assoc, readWord_encodeWord (n:=4) rfl]
  · dsimp only at hbag ⊢
    rw [show (64 : Nat) = 32 + 32 from rfl, ← List.drop_drop, List.take_left' htarget,
      List.drop_left' htarget, List.take_left' hroot, List.drop_left' hroot, hbag,
      decodeWord_encodeWord (n:=32) rfl, decodeWord_encodeWord (n:=32) rfl]
    dsimp only
    rw [hverify]
  · simp only [List.length_append, length_encodeWord]
    omega

variable {slice : Bytes} {proof : MerkleProof} {n : Nat}

theorem reencodes_iff (h : fromBytes c slice = .ok (proof, n)) :
    proof.Reencodes slice n ↔ BagOfCells.OneEntry (slice.drop 68) := by
  obtain ⟨hhead, _, m, rfl, hbag⟩ := fromBytes_ok h
  rw [← BagOfCells.reencodes_iff hbag]
  unfold Reencodes BagOfCells.Reencodes toBytes head
  simp only [List.take_add, hhead, List.append_cancel_left_eq]

theorem second_encoding (h : fromBytes c slice = .ok (proof, n)) :
    ∃ slice', fromBytes c slice' = .ok (proof, n) ∧ slice'.take n ≠ slice.take n := by
  obtain ⟨hhead, hverify, m, rfl, hbag⟩ := fromBytes_ok h
  obtain ⟨bs, hbs, hne⟩ := BagOfCells.second_encoding hbag
  refine ⟨proof.head ++ bs, fromBytes_of_bag hverify hbs, fun heq => hne ?_⟩
  rw [List.take_add, List.take_add, List.take_left' proof.length_head,
    List.drop_left' proof.length_head, hhead] at heq
  exact List.append_cancel_left heq

end
end MerkleProof

namespace BagOfCells

/-- **When there is one byte representation**: of a bag or a proof, if it has at most one cell; of
bytes that are read, if they hold one entry without spare bits.  And whatever is read, bag or proof,
can be read from other bytes. -/
theorem one_representation_iff (c : Crypto) :
    (∀ boc : BagOfCells, boc.OneForm ↔ boc.cells.size ≤ 1)
    ∧ (∀ proof : MerkleProof, proof.OneForm ↔ proof.proofBoc.cells.size ≤ 1)
    ∧ (∀ slice boc n, fromBytes c slice = .ok (boc, n) → (boc.Reencodes slice n ↔ OneEntry slice)
      ∧ ∃ slice', fromBytes c slice' = .ok (boc, n) ∧ slice'.take n ≠ slice.take n)
    ∧ ∀ slice proof n, MerkleProof.fromBytes c slice = .ok (proof, n) →
      (proof.Reencodes slice n ↔ OneEntry (slice.drop 68))
      ∧ ∃ slice', MerkleProof.fromBytes c slice' = .ok (proof, n) ∧ slice'.take n ≠ slice.take n :=
  ⟨fun _ => oneForm_iff, fun _ => MerkleProof.oneForm_iff,
    fun _ _ _ h => ⟨reencodes_iff h, second_encoding h⟩,
    fun _ _ _ h => ⟨MerkleProof.reencodes_iff h, MerkleProof.second_encoding h⟩⟩

/-- a leaf alone -/
def leafBag : BagOfCells := fromRoot sampleCrypto Cell.sampleLeaf

/-- its proof -/
def leafProof : MerkleProof := ⟨MERKLE_PROOF_MAGIC, 0, leafBag.rootHash, leafBag⟩

theorem fromBytes_leafBag : fromBytes sampleCrypto (leafBag.toBytes leafBag.cells.entries)
    = .ok (leafBag, (leafBag.toBytes leafBag.cells.entries).length) := by
  have hread := fromBytes_toBytes (fromRoot_wellKeyed Cell.sampleLeaf) ⟨Cell.sampleLeaf, by decide +kernel⟩
    (by decide +kernel) (by decide +kernel) (List.Perm.refl leafBag.cells.entries) []
  rwa [List.append_nil] at hread

theorem one_representation_sample :
    (leafBag.Reencodes (leafBag.toBytes leafBag.cells.entries) 75
      ↔ OneEntry (leafBag.toBytes leafBag.cells.entries))
    ∧ (leafProof.Reencodes (leafProof.toBytes leafBag.cells.entries) 143
      ↔ OneEntry ((leafProof.toBytes leafBag.cells.entries).drop 68)) := by
  have hlen : (leafBag.toBytes leafBag.cells.entries).length = 75 := by decide +kernel
  have hread := fromBytes_leafBag
  rw [hlen] at hread
  have hproof : leafProof.verify = .ok () :=
    leafProof.verify_ok_iff.mpr ⟨rfl, by decide +kernel, rfl⟩
  exact ⟨((one_representation_iff sampleCrypto).2.2.1 _ _ _ hread).1,
    ((one_representation_iff sampleCrypto).2.2.2 _ _ _ (MerkleProof.fromBytes_of_bag hproof hread)).1⟩

/-- **Two orders of two cells**: different bytes of one bag, both accepted. -/
theorem orders_differ :
    fromBytes sampleCrypto (sampleBag.toBytes sampleBag.cells.entries) = .ok (sampleBag, 145)
    ∧ fromBytes sampleCrypto (sampleBag.toBytes sampleBag.cells.entries.reverse) = .ok (sampleBag, 145)
    ∧ sampleBag.toBytes sampleBag.cells.entries ≠ sampleBag.toBytes sampleBag.cells.entries.reverse := by
  have hread : ∀ order : List (Uint256 × Cell), order.Perm sampleBag.cells.entries →
      fromBytes sampleCrypto (sampleBag.toBytes order ++ [])
        = .ok (sampleBag, (sampleBag.toBytes order).length) := fun order hperm =>
    fromBytes_toBytes (addCell_wellKeyed (fromRoot_wellKeyed Cell.sampleRoot) Cell.sampleLeaf)
      ⟨Cell.sampleRoot, by decide +kernel⟩ (by decide +kernel) (by decide +kernel) hperm []
  have hfirst := hread _ (List.Perm.refl _)
  have hsecond := hread _ (List.reverse_perm _)
  rw [List.append_nil] at hfirst hsecond
  rw [show (sampleBag.toBytes sampleBag.cells.entries).length = 145 by decide +kernel] at hfirst
  rw [show (sampleBag.toBytes sampleBag.cells.entries.reverse).length = 145 by decide +kernel]
    at hsecond
  exact ⟨hfirst, hsecond, by decide +kernel⟩

end BagOfCells

end Onx
