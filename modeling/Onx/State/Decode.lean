import Onx.State.Tree

/-!
# Reading bags and proofs from bytes

`BagOfCells.fromBytes` compares every cell with the hash it is stored under, so the bag it returns
is content addressed: `BagOfCells.fromBytes_wellKeyed`.  The other public constructors but `new`
keep this property, `new` takes the keys of its map as they are.
-/

namespace Onx

namespace BagOfCells
section
variable (c : Crypto)

/-- the entry loop of `from_bytes`: entries left to read, input from `offset` on, cells so far -/
def readCells : Nat → Bytes → Nat → OrdMap Uint256 Cell →
    Except StateModelError (OrdMap Uint256 Cell × Nat)
  | 0, _, offset, cells => .ok (cells, offset)
  | n + 1, rest, offset, cells =>
    if rest.length < 36 then .error (.deserializationError "Truncated BoC cell entry header")
    else
      let hash := decodeWord 256 (rest.take 32)
      match readWord 4 32 (rest.drop 32) with
      | .error e => .error e
      | .ok (len, content) =>
        if content.length < len.toNat then
          .error (.deserializationError "Truncated BoC cell content")
        else
          match Cell.fromBytes (content.take len.toNat) with
          | .error e => .error e
          | .ok (cell, consumed) =>
            if consumed ≠ len.toNat then .error (.trailingBytes (len.toNat - consumed))
            else if cell.hash c ≠ hash then
              .error (.deserializationError "Cell hash mismatch in BoC entry")
            else
              readCells n (content.drop len.toNat) (offset + 36 + len.toNat)
                (cells.insert hash cell)

def fromBytes (slice : Bytes) : Except StateModelError (BagOfCells × Nat) :=
  if slice.length < 36 then
    .error (.deserializationError "Slice too short for BoC root hash and count")
  else
    let rootHash := decodeWord 256 (slice.take 32)
    match readWord 4 32 (slice.drop 32) with
    | .error e => .error e
    | .ok (count, rest) =>
      if count.toNat > (slice.length - 36) / 36 then
        .error (.deserializationError "BoC cell count exceeds remaining input capacity")
      else
        match readCells c count.toNat rest 36 OrdMap.empty with
        | .error e => .error e
        | .ok (cells, offset) =>
          match new rootHash cells with
          | .error e => .error e
          | .ok boc => .ok (boc, offset)

/-- every cell is stored under its own hash -/
def WellKeyed (self : BagOfCells) : Prop :=
  ∀ h d, self.getCell h = some d → d.hash c = h

/-- content addressed, without a cycle below the root -/
structure Addressed (boc : BagOfCells) : Prop where
  keyed : boc.WellKeyed c
  acyclic : Dfs.Acyclic (refsIn boc.cells) boc.rootHash

end

section
variable {c : Crypto}

theorem new_ok {rootHash : Uint256} {cells : OrdMap Uint256 Cell}
    (hroot : cells.contains rootHash = true) (hdag : verifyDag ⟨rootHash, cells⟩ = .ok ()) :
    new rootHash cells = .ok ⟨rootHash, cells⟩ := by
  unfold new
  rw [hroot, hdag]
  rfl

theorem new_root_held {rootHash : Uint256} {cells : OrdMap Uint256 Cell} {boc : BagOfCells}
    (h : new rootHash cells = .ok boc) : cells.contains rootHash = true := by
  unfold new at h
  split_ifs at h with hroot
  simpa using hroot

theorem new_eq {rootHash : Uint256} {cells : OrdMap Uint256 Cell} {boc : BagOfCells}
    (h : new rootHash cells = .ok boc) : boc = ⟨rootHash, cells⟩ := by
  unfold new at h
  split_ifs at h
  cases hv : verifyDag ⟨rootHash, cells⟩ with
  | error e =>
    rw [hv] at h
    cases h
  | ok u =>
    rw [hv] at h
    cases h
    rfl

theorem insert_wellKeyed {rootHash rootHash' : Uint256} {cells : OrdMap Uint256 Cell} (cell : Cell)
    (h : WellKeyed c ⟨rootHash, cells⟩) :
    WellKeyed c ⟨rootHash', cells.insert (cell.hash c) cell⟩ := by
  intro k d hd
  by_cases hk : k = cell.hash c
  · subst hk
    have hd' : some cell = some d := (OrdMap.get?_insert_self cells _ cell).symm.trans hd
    cases hd'
    rfl
  · exact h k d ((OrdMap.get?_insert_of_ne cells cell hk).symm.trans hd)

theorem empty_wellKeyed (rootHash : Uint256) : WellKeyed c ⟨rootHash, OrdMap.empty⟩ :=
  fun _ _ hd => nomatch hd

theorem fromRoot_wellKeyed (root : Cell) : WellKeyed c (fromRoot c root) :=
  insert_wellKeyed root (empty_wellKeyed 0)

theorem addCell_snd (self : BagOfCells) (cell : Cell) :
    (self.addCell c cell).2 = ⟨self.rootHash, self.cells.insert (cell.hash c) cell⟩ := by
  unfold addCell
  dsimp only
  cases verifyDag ⟨self.rootHash, self.cells.insert (cell.hash c) cell⟩ <;> rfl

theorem addCell_wellKeyed {self : BagOfCells} (h : self.WellKeyed c) (cell : Cell) :
    (self.addCell c cell).2.WellKeyed c := by
  obtain ⟨rootHash, cells⟩ := self
  rw [addCell_snd]
  exact insert_wellKeyed cell h

/-- what `new` builds has passed the cycle check -/
theorem new_verified {rootHash : Uint256} {cells : OrdMap Uint256 Cell} {boc : BagOfCells}
    (h : new rootHash cells = .ok boc) : boc.verifyDag = .ok () := by
  have heq := new_eq h
  unfold new at h
  split_ifs at h
  cases hv : verifyDag ⟨rootHash, cells⟩ with
  | error e =>
    rw [hv] at h
    cases h
  | ok u => rw [heq, hv]

/-- **One entry**: its bytes, and its cell, which goes under its own hash. -/
theorem readCells_succ {n : Nat} {rest : Bytes} {offset : Nat} {cells : OrdMap Uint256 Cell}
    {r : OrdMap Uint256 Cell × Nat} (h : readCells c (n + 1) rest offset cells = .ok r) :
    ∃ cell len, 36 + len ≤ rest.length
      ∧ rest.take 36 = encodeWord 32 (cell.hash c) ++ encodeWord 4 (BitVec.ofNat 32 len)
      ∧ Cell.fromBytes ((rest.drop 36).take len) = .ok (cell, len)
      ∧ readCells c n (rest.drop (36 + len)) (offset + 36 + len) (cells.insert (cell.hash c) cell)
        = .ok r := by
  unfold readCells at h
  split_ifs at h with hhead
  rw [readWord_eq (by rw [List.length_drop]; omega)] at h
  dsimp only at h
  rw [List.drop_drop, List.length_drop] at h
  split_ifs at h with hcontent
  cases hc : Cell.fromBytes ((rest.drop (32 + 4)).take
      (decodeWord 32 ((rest.drop 32).take 4)).toNat) with
  | error e =>
    rw [hc] at h
    cases h
  | ok y =>
    obtain ⟨cell, consumed⟩ := y
    rw [hc] at h
    dsimp only at h
    split_ifs at h with hlen hhash
    rw [not_not.mp hlen] at hc
    rw [← not_not.mp hhash, List.drop_drop] at h
    refine ⟨cell, _, by omega, ?_, hc, h⟩
    have hhash32 : (rest.take 32).length = 32 := List.length_take_of_le (by omega)
    have hlen4 : ((rest.drop 32).take 4).length = 4 :=
      List.length_take_of_le (by rw [List.length_drop]; omega)
    rw [not_not.mp hhash, encodeWord_decodeWord (n:=32) rfl hhash32, BitVec.ofNat_toNat,
      BitVec.setWidth_eq, encodeWord_decodeWord (n:=4) rfl hlen4, ← List.take_add]

theorem readCells_wellKeyed : ∀ n rest offset (cells : OrdMap Uint256 Cell) r,
    WellKeyed c ⟨0, cells⟩ → readCells c n rest offset cells = .ok r → WellKeyed c ⟨0, r.1⟩ := by
  intro n
  induction n with
  | zero =>
    intro rest offset cells r hk h
    cases h
    exact hk
  | succ n ih =>
    intro rest offset cells r hk h
    obtain ⟨cell, _, _, _, _, hrest⟩ := readCells_succ h
    exact ih _ _ _ r (insert_wellKeyed cell hk) hrest

/-- **A bag that is read**: as many entries as declared, and `new`. -/
theorem fromBytes_ok {slice : Bytes} {boc : BagOfCells} {n : Nat}
    (h : fromBytes c slice = .ok (boc, n)) :
    36 + 36 * (decodeWord 32 ((slice.drop 32).take 4)).toNat ≤ slice.length ∧ ∃ cells,
      readCells c (decodeWord 32 ((slice.drop 32).take 4)).toNat (slice.drop 36) 36 OrdMap.empty
        = .ok (cells, n)
      ∧ new (decodeWord 256 (slice.take 32)) cells = .ok boc := by
  unfold fromBytes at h
  split_ifs at h with hhead
  rw [readWord_eq (by rw [List.length_drop]; omega)] at h
  dsimp only at h
  rw [List.drop_drop] at h
  split_ifs at h
  cases hr : readCells c (decodeWord 32 ((slice.drop 32).take 4)).toNat (slice.drop (32 + 4)) 36
      OrdMap.empty with
  | error e =>
    rw [hr] at h
    cases h
  | ok y =>
    obtain ⟨cells, offset⟩ := y
    rw [hr] at h
    dsimp only at h
    cases hn : new (decodeWord 256 (slice.take 32)) cells with
    | error e =>
      rw [hn] at h
      cases h
    | ok b =>
      rw [hn] at h
      cases h
      exact ⟨by omega, cells, rfl, hn⟩

/-- what is read goes through `new`, with cells under their own hashes -/
theorem fromBytes_new {slice : Bytes} {boc : BagOfCells} {n : Nat}
    (h : fromBytes c slice = .ok (boc, n)) :
    ∃ rootHash cells, new rootHash cells = .ok boc ∧ WellKeyed c ⟨rootHash, cells⟩ := by
  obtain ⟨_, cells, hread, hnew⟩ := fromBytes_ok h
  exact ⟨_, cells, hnew, readCells_wellKeyed _ _ _ _ _ (empty_wellKeyed 0) hread⟩

/-- **A bag that is read is content addressed.** -/
theorem fromBytes_wellKeyed {slice : Bytes} {boc : BagOfCells} {n : Nat}
    (h : fromBytes c slice = .ok (boc, n)) : boc.WellKeyed c := by
  obtain ⟨rootHash, cells, hnew, hkeyed⟩ := fromBytes_new h
  rw [new_eq hnew]
  exact hkeyed

/-- it has passed the cycle check as well -/
theorem fromBytes_addressed {slice : Bytes} {boc : BagOfCells} {n : Nat}
    (h : fromBytes c slice = .ok (boc, n)) : boc.Addressed c := by
  obtain ⟨rootHash, cells, hnew, _⟩ := fromBytes_new h
  exact ⟨fromBytes_wellKeyed h, acyclic_iff.mpr (verifyDag_iff.mp (new_verified hnew))⟩

/-- the bags that the public functions build, failed calls of `add_cell` included -/
inductive Built (c : Crypto) : BagOfCells → Prop where
  | new {rootHash : Uint256} {cells : OrdMap Uint256 Cell} {boc : BagOfCells} :
      BagOfCells.new rootHash cells = .ok boc → Built c boc
  | fromRoot (root : Cell) : Built c (BagOfCells.fromRoot c root)
  | addCell {boc : BagOfCells} (cell : Cell) : Built c boc → Built c (boc.addCell c cell).2
  | fromBytes {slice : Bytes} {boc : BagOfCells} {n : Nat} :
      BagOfCells.fromBytes c slice = .ok (boc, n) → Built c boc

/-- a bag holds its root -/
theorem Built.root_held {boc : BagOfCells} (h : Built c boc) :
    ∃ root, boc.getCell boc.rootHash = some root := by
  induction h with
  | new hnew =>
    have hheld := new_root_held hnew
    rw [new_eq hnew]
    exact OrdMap.contains_iff.mp hheld
  | fromRoot root => exact ⟨root, OrdMap.get?_insert_self _ _ _⟩
  | addCell cell _ ih =>
    obtain ⟨root, hroot⟩ := ih
    rw [addCell_snd]
    unfold getCell at hroot ⊢
    dsimp only
    rw [OrdMap.get?_insert]
    split_ifs
    · exact ⟨cell, rfl⟩
    · exact ⟨root, hroot⟩
  | fromBytes hread =>
    obtain ⟨rootHash, cells, hnew, _⟩ := fromBytes_new hread
    have hheld := new_root_held hnew
    rw [new_eq hnew]
    exact OrdMap.contains_iff.mp hheld

end
end BagOfCells

def MerkleProof.fromBytes (c : Crypto) (slice : Bytes) : Except StateModelError (MerkleProof × Nat) :=
  if slice.length < 4 + 32 + 32 then
    .error (.deserializationError "Slice too short for MerkleProof header")
  else
    match readWord 4 32 slice with
    | .error e => .error e
    | .ok (magic, cursor) =>
      match BagOfCells.fromBytes c (cursor.drop 64) with
      | .error e => .error e
      | .ok (boc, consumed) =>
        let proof : MerkleProof :=
          ⟨magic, decodeWord 256 (cursor.take 32), decodeWord 256 ((cursor.drop 32).take 32), boc⟩
        match proof.verify with
        | .error e => .error e
        | .ok () => .ok (proof, 4 + 32 + 32 + consumed)

/-- **A proof that is read**: its fields, and a bag behind them that passes `verify` with them. -/
theorem MerkleProof.fromBytes_ok {c : Crypto} {slice : Bytes} {proof : MerkleProof} {n : Nat}
    (h : MerkleProof.fromBytes c slice = .ok (proof, n)) :
    slice.take 68 = encodeWord 4 proof.magicBytes ++ (encodeWord 32 proof.targetKey
        ++ encodeWord 32 proof.rootHash)
      ∧ proof.verify = .ok ()
      ∧ ∃ m, n = 68 + m ∧ BagOfCells.fromBytes c (slice.drop 68) = .ok (proof.proofBoc, m) := by
  unfold MerkleProof.fromBytes at h
  split_ifs at h with hhead
  rw [readWord_eq (by omega)] at h
  dsimp only at h
  rw [List.drop_drop, List.drop_drop] at h
  cases hb : BagOfCells.fromBytes c (slice.drop (4 + 64)) with
  | error e =>
    rw [hb] at h
    cases h
  | ok y =>
    obtain ⟨boc, consumed⟩ := y
    rw [hb] at h
    dsimp only at h
    cases hv : MerkleProof.verify ⟨decodeWord 32 (slice.take 4), decodeWord 256
        ((slice.drop 4).take 32), decodeWord 256 ((slice.drop (4 + 32)).take 32), boc⟩ with
    | error e =>
      rw [hv] at h
      cases h
    | ok u =>
      rw [hv] at h
      cases h
      refine ⟨?_, hv, consumed, rfl, rfl⟩
      have hmagic : (slice.take 4).length = 4 := List.length_take_of_le (by omega)
      have htarget : ((slice.drop 4).take 32).length = 32 :=
        List.length_take_of_le (by rw [List.length_drop]; omega)
      have hroot : ((slice.drop (4 + 32)).take 32).length = 32 :=
        List.length_take_of_le (by rw [List.length_drop]; omega)
      rw [encodeWord_decodeWord (n:=4) rfl hmagic, encodeWord_decodeWord (n:=32) rfl htarget,
        encodeWord_decodeWord (n:=32) rfl hroot, show (68 : Nat) = 4 + (32 + 32) from rfl,
        List.take_add, List.take_add, List.drop_drop]

/-- **A proof that is read has passed `verify`**, and its bag is content addressed. -/
theorem MerkleProof.fromBytes_spec {c : Crypto} {slice : Bytes} {proof : MerkleProof} {n : Nat}
    (h : MerkleProof.fromBytes c slice = .ok (proof, n)) :
    proof.verify = .ok () ∧ BagOfCells.Built c proof.proofBoc ∧ proof.proofBoc.WellKeyed c := by
  obtain ⟨_, hverify, _, _, hb⟩ := MerkleProof.fromBytes_ok h
  exact ⟨hverify, .fromBytes hb, BagOfCells.fromBytes_wellKeyed hb⟩

end Onx
