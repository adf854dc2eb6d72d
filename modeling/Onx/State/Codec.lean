import Onx.Lib.Slices
import Onx.State.Decode

/-!
# The bytes of a bag of cells

`fromSlice` is `from_bytes` once more, with each access to its input and each sum; it is none where
one of them panics.

* `BagOfCells.fromSlice_eq`      no access panics, and the result is that of `fromBytes`;
* `BagOfCells.fromBytes_toBytes` a serialized bag reads back, in whatever order its cells stand;
* `BagOfCells.codec`             both, and what is accepted is well formed.
-/

namespace Onx
open Checked

namespace Cell

/-- the reference loop of `from_bytes`, from `offset` on -/
def readRefsAt : Nat → Bytes → Nat → Option (List Uint256 × Nat)
  | 0, _, offset => some ([], offset)
  | n + 1, slice, offset => do
    let stop ← add offset 32
    let part ← range slice offset stop
    let refHash ← copy 32 part
    let offset ← add offset 32
    let (refs, offset) ← readRefsAt n slice offset
    some (decodeWord 256 refHash :: refs, offset)

def fromSlice (slice : Bytes) : Option (Except StateModelError (Cell × Nat)) :=
  if slice.length < 2 then
    some (.error (.deserializationError "Slice too short for cell descriptor"))
  else match readWord 2 16 slice with
  | .error e => some (.error e)
  | .ok (descriptor, _) => do
    let d1 := (descriptor >>> 8).setWidth 8
    let d2 := (descriptor &&& 0xFF).setWidth 8
    let refCount := (d1 &&& 0x07).toNat
    let isSpecial := d1 &&& 0x08 != 0
    let dataLen := d2.toNat
    if refCount > MAX_CELL_REFS then some (.error (.tooManyReferences refCount MAX_CELL_REFS))
    else if dataLen > MAX_CELL_DATA_BYTES then
      some (.error (.dataTooLarge dataLen MAX_CELL_DATA_BYTES))
    else
      let requiredLen ← add (2 + dataLen) (refCount * 32)
      if slice.length < requiredLen then
        some (.error (.deserializationError
          s!"Truncated Cell payload: expected {requiredLen} bytes, got {slice.length}"))
      else
        let offset ← add 2 dataLen
        let dataBytes ← range slice 2 offset
        let (cellRefs, offset) ← readRefsAt refCount slice offset
        match newWithSpecial dataBytes cellRefs isSpecial with
        | .error e => some (.error e)
        | .ok cell => some (.ok (cell, offset))

theorem readRefsAt_eq (slice : Bytes) : ∀ n offset, offset + n * 32 ≤ slice.length →
    offset + n * 32 < 2^64 →
    readRefsAt n slice offset = some (readRefs n (slice.drop offset), offset + n * 32) := by
  intro n
  induction n with
  | zero =>
    intro offset _ _
    rfl
  | succ n ih =>
    intro offset hlen hword
    have hcopy : 32 ≤ (slice.drop offset).length := by
      rw [List.length_drop]
      omega
    have hnext := ih (offset + 32) (by omega) (by omega)
    have hrange : range slice offset (offset + 32) = some ((slice.drop offset).take 32) :=
      range_eq (by omega)
    have hstop : offset + 32 + n * 32 = offset + (n + 1) * 32 := by omega
    unfold readRefsAt readRefs
    rw [add_eq (by omega)]
    simp only [Option.bind_eq_bind, Option.bind_some, hrange, copy_take hcopy, hnext, hstop,
      List.drop_drop]

/-- the two bytes of a descriptor -/
theorem descriptor_split (d1 d2 : Byte) (payload : Bytes) :
    ((decodeWord 16 ((d1 :: d2 :: payload).take 2)) >>> 8).setWidth 8 = d1
      ∧ (decodeWord 16 ((d1 :: d2 :: payload).take 2) &&& 0xFF).setWidth 8 = d2 := by
  have h1 : d1.toNat < 256 := d1.isLt
  have h2 : d2.toNat < 256 := d2.isLt
  have hnat : (decodeWord 16 ((d1 :: d2 :: payload).take 2)).toNat = 256 * d1.toNat + d2.toNat := by
    show (BitVec.ofNat 16 (256 * (256 * 0 + d1.toNat) + d2.toNat)).toNat = _
    rw [BitVec.toNat_ofNat]
    omega
  constructor
  · apply BitVec.eq_of_toNat_eq
    rw [BitVec.toNat_setWidth, BitVec.toNat_ushiftRight, hnat, Nat.shiftRight_eq_div_pow]
    omega
  · apply BitVec.eq_of_toNat_eq
    have hmask : (0xFF : BitVec 16).toNat = 2^8 - 1 := rfl
    rw [BitVec.toNat_setWidth, BitVec.toNat_and, hnat, hmask, Nat.and_two_pow_sub_one_eq_mod]
    omega

/-- **Reading a cell does not panic.** -/
theorem fromSlice_eq (slice : Bytes) : fromSlice slice = some (fromBytes slice) := by
  unfold fromSlice
  match slice with
  | [] => rfl
  | [_] => rfl
  | d1 :: d2 :: payload =>
    have hlen : (d1 :: d2 :: payload).length = 2 + payload.length := by
      rw [List.length_cons, List.length_cons]
      omega
    obtain ⟨h1, h2⟩ := descriptor_split d1 d2 payload
    have hd2 : d2.toNat < 256 := d2.isLt
    rw [if_neg (by omega), readWord_eq (by omega)]
    unfold fromBytes
    dsimp only
    rw [h1, h2]
    by_cases hrefs : (d1 &&& 0x07).toNat > MAX_CELL_REFS
    · rw [if_pos hrefs, if_pos hrefs]
    by_cases hdata : d2.toNat > MAX_CELL_DATA_BYTES
    · rw [if_neg hrefs, if_neg hrefs, if_pos hdata, if_pos hdata]
    rw [if_neg hrefs, if_neg hrefs, if_neg hdata, if_neg hdata]
    have hr : (d1 &&& 0x07).toNat ≤ 4 := Nat.not_lt.mp hrefs
    rw [add_eq (by omega)]
    simp only [Option.bind_eq_bind, Option.bind_some]
    rw [hlen]
    by_cases hshort : 2 + payload.length < 2 + d2.toNat + (d1 &&& 0x07).toNat * 32
    · rw [if_pos hshort, if_pos hshort]
    rw [if_neg hshort, if_neg hshort]
    have hrange : range (d1 :: d2 :: payload) 2 (2 + d2.toNat) = some (payload.take d2.toNat) :=
      range_eq (by omega)
    have hloop := readRefsAt_eq (d1 :: d2 :: payload) (d1 &&& 0x07).toNat (2 + d2.toNat)
      (by omega) (by omega)
    have hdrop : (d1 :: d2 :: payload).drop (2 + d2.toNat) = payload.drop d2.toNat := by
      rw [← List.drop_drop]
      rfl
    rw [add_eq (by omega)]
    simp only [Option.bind_some, hrange, hloop, hdrop]
    cases newWithSpecial (payload.take d2.toNat)
      (readRefs (d1 &&& 0x07).toNat (payload.drop d2.toNat)) (d1 &&& 0x08 != 0) <;> rfl

/-- what is consumed is within the input -/
theorem fromBytes_consumed {slice : Bytes} {cell : Cell} {n : Nat}
    (h : fromBytes slice = .ok (cell, n)) : n ≤ slice.length := by
  match slice with
  | [] => cases h
  | [_] => cases h
  | d1 :: d2 :: payload =>
    unfold fromBytes at h
    dsimp only at h
    split_ifs at h with _ _ hshort
    rw [List.length_cons, List.length_cons]
    cases hn : newWithSpecial (payload.take d2.toNat)
        (readRefs (d1 &&& 0x07).toNat (payload.drop d2.toNat)) (d1 &&& 0x08 != 0) with
    | error e =>
      rw [hn] at h
      cases h
    | ok cell' =>
      rw [hn] at h
      cases h
      omega

end Cell

namespace BagOfCells
section
variable (c : Crypto)

/-- the entry loop of `from_bytes`, from `offset` on -/
def readCellsAt : Nat → Bytes → Nat → OrdMap Uint256 Cell →
    Option (Except StateModelError (OrdMap Uint256 Cell × Nat))
  | 0, _, offset, cells => some (.ok (cells, offset))
  | n + 1, slice, offset, cells => do
    let stop ← add offset 36
    if slice.length < stop then
      some (.error (.deserializationError "Truncated BoC cell entry header"))
    else
      let stop ← add offset 32
      let part ← range slice offset stop
      let hash ← copy 32 part
      let offset ← add offset 32
      let cellCursor ← rangeFrom slice offset
      match readWord 4 32 cellCursor with
      | .error e => some (.error e)
      | .ok (len, _) => do
        let offset ← add offset 4
        let stop ← add offset len.toNat
        if slice.length < stop then
          some (.error (.deserializationError "Truncated BoC cell content"))
        else
          let content ← range slice offset stop
          match ← Cell.fromSlice content with
          | .error e => some (.error e)
          | .ok (cell, cellConsumed) => do
            if cellConsumed ≠ len.toNat then
              let remaining ← sub len.toNat cellConsumed
              some (.error (.trailingBytes remaining))
            else
              let offset ← add offset len.toNat
              if cell.hash c ≠ decodeWord 256 hash then
                some (.error (.deserializationError "Cell hash mismatch in BoC entry"))
              else readCellsAt n slice offset (cells.insert (decodeWord 256 hash) cell)

def fromSlice (slice : Bytes) : Option (Except StateModelError (BagOfCells × Nat)) :=
  if slice.length < 36 then
    some (.error (.deserializationError "Slice too short for BoC root hash and count"))
  else do
    let part ← range slice 0 32
    let rootHash ← copy 32 part
    let cursor ← rangeFrom slice 32
    match readWord 4 32 cursor with
    | .error e => some (.error e)
    | .ok (count, _) => do
      let offset ← add 32 4
      if count.toNat > (slice.length - offset) / 36 then
        some (.error (.deserializationError "BoC cell count exceeds remaining input capacity"))
      else
        match ← readCellsAt c count.toNat slice offset OrdMap.empty with
        | .error e => some (.error e)
        | .ok (cells, offset) =>
          match new (decodeWord 256 rootHash) cells with
          | .error e => some (.error e)
          | .ok boc => some (.ok (boc, offset))

/-- one cell of `to_bytes` -/
def entryBytes (entry : Uint256 × Cell) : Bytes :=
  encodeWord 32 entry.1
    ++ (encodeWord 4 (BitVec.ofNat 32 entry.2.toBytes.length) ++ entry.2.toBytes)

/-- `to_bytes`, with the cells in the order in which the hash map yields them -/
def toBytes (self : BagOfCells) (entries : List (Uint256 × Cell)) : Bytes :=
  encodeWord 32 self.rootHash
    ++ (encodeWord 4 (BitVec.ofNat 32 self.cells.size) ++ entries.flatMap entryBytes)

end

section
variable {c : Crypto}

/-! ## no panic -/

theorem readCellsAt_eq {slice : Bytes} (hslice : slice.length < 2^63) :
    ∀ n offset cells, offset ≤ slice.length →
      readCellsAt c n slice offset cells = some (readCells c n (slice.drop offset) offset cells) := by
  intro n
  induction n with
  | zero =>
    intro offset cells _
    rfl
  | succ n ih =>
    intro offset cells hoff
    unfold readCellsAt readCells
    rw [add_eq (by omega)]
    simp only [Option.bind_eq_bind, Option.bind_some, List.length_drop]
    by_cases hhead : slice.length < offset + 36
    · rw [if_pos hhead, if_pos (by omega)]
    rw [if_neg hhead, if_neg (by omega), add_eq (by omega)]
    have hrange : range slice offset (offset + 32) = some ((slice.drop offset).take 32) :=
      range_eq (by omega)
    have hcopy : copy 32 ((slice.drop offset).take 32) = some ((slice.drop offset).take 32) :=
      copy_take (by rw [List.length_drop]; omega)
    have hword : 4 ≤ (slice.drop (offset + 32)).length := by
      rw [List.length_drop]
      omega
    simp only [Option.bind_some, hrange, hcopy,
      rangeFrom_eq (show offset + 32 ≤ slice.length by omega),
      List.drop_drop, readWord_eq hword]
    generalize decodeWord 32 ((slice.drop (offset + 32)).take 4) = len
    have hlen : len.toNat < 2^32 := len.isLt
    rw [add_eq (by omega)]
    simp only [Option.bind_some, List.length_drop]
    rw [add_eq (by omega)]
    simp only [Option.bind_some]
    by_cases hcontent : slice.length < offset + 32 + 4 + len.toNat
    · rw [if_pos hcontent, if_pos (by omega)]
    rw [if_neg hcontent, if_neg (by omega), range_eq (by omega)]
    simp only [Option.bind_some, Cell.fromSlice_eq]
    cases hc : Cell.fromBytes ((slice.drop (offset + 32 + 4)).take len.toNat) with
    | error e => rfl
    | ok r =>
      obtain ⟨cell, consumed⟩ := r
      have hconsumed := (Cell.fromBytes_consumed hc).trans (List.length_take_le _ _)
      dsimp only
      by_cases hall : consumed ≠ len.toNat
      · rw [if_pos hall, if_pos hall, sub_eq hconsumed]
        rfl
      rw [if_neg hall, if_neg hall]
      by_cases hhash : cell.hash c ≠ decodeWord 256 ((slice.drop offset).take 32)
      · rw [if_pos hhash, if_pos hhash]
      rw [if_neg hhash, if_neg hhash, ih _ _ (by omega)]

/-- **Reading a bag does not panic**, and gives what `fromBytes` does. -/
theorem fromSlice_eq (slice : Slice) : fromSlice c slice.bytes = some (fromBytes c slice.bytes) := by
  obtain ⟨slice, hslice⟩ := slice
  dsimp only
  unfold fromSlice fromBytes
  by_cases hhead : slice.length < 36
  · rw [if_pos hhead, if_pos hhead]
  have hrange : range slice 0 32 = some (slice.take 32) :=
    range_eq (s:=slice) (a:=0) (n:=32) (by omega)
  have hcopy : copy 32 (slice.take 32) = some (slice.take 32) := copy_take (by omega)
  have hword : 4 ≤ (slice.drop 32).length := by
    rw [List.length_drop]
    omega
  rw [if_neg hhead, if_neg hhead]
  simp only [Option.bind_eq_bind, Option.bind_some, hrange, hcopy,
    rangeFrom_eq (show 32 ≤ slice.length by omega), readWord_eq hword, List.drop_drop]
  generalize decodeWord 32 ((slice.drop 32).take 4) = count
  rw [add_eq (by decide)]
  simp only [Option.bind_some]
  by_cases hcap : count.toNat > (slice.length - 36) / 36
  · rw [if_pos hcap, if_pos hcap]
  rw [if_neg hcap, if_neg hcap, readCellsAt_eq hslice _ _ _ (by omega)]
  simp only [Option.bind_some]
  cases readCells c count.toNat (slice.drop (32 + 4)) (32 + 4) OrdMap.empty with
  | error e => rfl
  | ok r =>
    obtain ⟨cells, offset⟩ := r
    cases hn : new (decodeWord 256 (slice.take 32)) cells with
    | error e =>
      dsimp only
      rw [hn]
    | ok boc =>
      dsimp only
      rw [hn]

/-! ## round trip -/

theorem length_entryBytes (entry : Uint256 × Cell) : 36 ≤ (entryBytes entry).length := by
  unfold entryBytes
  rw [List.length_append, List.length_append, length_encodeWord, length_encodeWord]
  omega

theorem length_entries (entries : List (Uint256 × Cell)) :
    36 * entries.length ≤ (entries.flatMap entryBytes).length := by
  induction entries with
  | nil => exact Nat.zero_le _
  | cons entry entries ih =>
    have hentry := length_entryBytes entry
    rw [List.flatMap_cons, List.length_append, List.length_cons]
    omega

/-- the length field of a cell holds its length -/
theorem toNat_cellLength (cell : Cell) :
    (BitVec.ofNat 32 cell.toBytes.length).toNat = cell.toBytes.length := by
  have hd : cell.dataBytes.length ≤ 128 := cell.data_le
  have hr : cell.cellRefs.length ≤ 4 := cell.refs_le
  rw [BitVec.toNat_ofNat, Cell.length_toBytes]
  omega

/-- one entry off the input, whichever way its cell is written -/
theorem readCells_encoded {cell : Cell} {bytes : Bytes}
    (hcell : Cell.fromBytes bytes = .ok (cell, bytes.length)) (hlen : bytes.length < 2^32) (n : Nat)
    (rest : Bytes) (offset : Nat) (cells : OrdMap Uint256 Cell) :
    readCells c (n + 1) (encodeWord 32 (cell.hash c)
        ++ (encodeWord 4 (BitVec.ofNat 32 bytes.length) ++ (bytes ++ rest))) offset cells
      = readCells c n rest (offset + 36 + bytes.length) (cells.insert (cell.hash c) cell) := by
  have hhash := length_encodeWord 32 (cell.hash c)
  have hword := length_encodeWord 4 (BitVec.ofNat 32 bytes.length)
  have hnat : (BitVec.ofNat 32 bytes.length).toNat = bytes.length := by
    rw [BitVec.toNat_ofNat, Nat.mod_eq_of_lt hlen]
  conv_lhs => unfold readCells
  rw [if_neg, List.take_left' hhash, List.drop_left' hhash, decodeWord_encodeWord (n:=32) rfl,
    readWord_encodeWord (n:=4) rfl]
  · dsimp only
    rw [hnat, if_neg, List.take_left, List.drop_left, hcell]
    · dsimp only
      rw [if_neg (not_not.mpr rfl), if_neg (not_not.mpr rfl)]
    · rw [List.length_append]
      omega
  · rw [List.length_append, List.length_append, hhash, hword]
    omega

/-- one entry as it is written -/
theorem readCells_entry {entry : Uint256 × Cell} (hkey : entry.2.hash c = entry.1) (n : Nat)
    (rest : Bytes) (offset : Nat) (cells : OrdMap Uint256 Cell) :
    readCells c (n + 1) (entryBytes entry ++ rest) offset cells
      = readCells c n rest (offset + (entryBytes entry).length) (cells.insert entry.1 entry.2) := by
  obtain ⟨hash, cell⟩ := entry
  obtain rfl : cell.hash c = hash := hkey
  have hsize : (entryBytes (cell.hash c, cell)).length = 36 + cell.toBytes.length := by
    unfold entryBytes
    dsimp only
    rw [List.length_append, List.length_append, length_encodeWord, length_encodeWord]
    omega
  have hread := Cell.fromBytes_toBytes cell []
  rw [List.append_nil] at hread
  have hword := toNat_cellLength cell
  have hlt := (BitVec.ofNat 32 cell.toBytes.length).isLt
  rw [hword] at hlt
  rw [hsize, ← Nat.add_assoc, ← readCells_encoded hread hlt n rest offset cells]
  unfold entryBytes
  rw [List.append_assoc, List.append_assoc]

/-- the entry loop on entries whose keys are the hashes of their cells -/
theorem readCells_entries (suffix : Bytes) : ∀ (entries : List (Uint256 × Cell)) (offset : Nat)
    (cells : OrdMap Uint256 Cell), (∀ entry ∈ entries, entry.2.hash c = entry.1) →
    readCells c entries.length (entries.flatMap entryBytes ++ suffix) offset cells
      = .ok (entries.foldl (fun acc e => acc.insert e.1 e.2) cells,
          offset + (entries.flatMap entryBytes).length) := by
  intro entries
  induction entries with
  | nil =>
    intro offset cells _
    rfl
  | cons entry entries ih =>
    intro offset cells hkeys
    obtain ⟨hkey, hrest⟩ := List.forall_mem_cons.mp hkeys
    rw [List.flatMap_cons, List.append_assoc, List.length_cons, readCells_entry hkey,
      ih _ _ hrest, List.foldl_cons, List.length_append, Nat.add_assoc]

/-- cells inserted in any order of a map make up the map -/
theorem foldl_insert_perm {cells : OrdMap Uint256 Cell} {entries : List (Uint256 × Cell)}
    (h : entries.Perm cells.entries) :
    entries.foldl (fun acc e => acc.insert e.1 e.2) OrdMap.empty = cells := by
  have hnd : (entries.map Prod.fst).Nodup := (h.map Prod.fst).nodup_iff.mpr cells.keys_nodup
  exact OrdMap.ext_perm ((OrdMap.perm_foldl_insert (fun _ _ => rfl) hnd).trans h)

/-- a bag off the input, from entries that make up its map -/
theorem fromBytes_of_readCells {rootHash : Uint256} {count : Uint32} {body : Bytes}
    {cells : OrdMap Uint256 Cell} {n : Nat} {boc : BagOfCells} (hcap : 36 * count.toNat ≤ body.length)
    (hread : readCells c count.toNat body 36 OrdMap.empty = .ok (cells, n))
    (hnew : new rootHash cells = .ok boc) :
    fromBytes c (encodeWord 32 rootHash ++ (encodeWord 4 count ++ body)) = .ok (boc, n) := by
  have hroot := length_encodeWord 32 rootHash
  have hword := length_encodeWord 4 count
  unfold fromBytes
  rw [if_neg, List.take_left' hroot, List.drop_left' hroot, decodeWord_encodeWord (n:=32) rfl,
    readWord_encodeWord (n:=4) rfl]
  · dsimp only
    rw [if_neg, hread]
    · dsimp only
      rw [hnew]
    · rw [List.length_append, List.length_append, hroot, hword]
      omega
  · rw [List.length_append, List.length_append, hroot, hword]
    omega

/-- **A serialized bag reads back**, whatever follows it and however its cells are ordered. -/
theorem fromBytes_toBytes {self : BagOfCells} (hkeyed : self.WellKeyed c)
    (hroot : ∃ root, self.getCell self.rootHash = some root) (hdag : self.verifyDag = .ok ())
    (hsize : self.cells.size < 2^32) {entries : List (Uint256 × Cell)}
    (hentries : entries.Perm self.cells.entries) (suffix : Bytes) :
    fromBytes c (self.toBytes entries ++ suffix) = .ok (self, (self.toBytes entries).length) := by
  obtain ⟨rootHash, cells⟩ := self
  have hlen : entries.length = cells.size := hentries.length_eq
  have hcount : (BitVec.ofNat 32 cells.size).toNat = entries.length := by
    rw [BitVec.toNat_ofNat, hlen]
    exact Nat.mod_eq_of_lt hsize
  have hkeys : ∀ entry ∈ entries, entry.2.hash c = entry.1 := fun entry hentry =>
    hkeyed entry.1 entry.2 (OrdMap.mem_entries_iff.mp (hentries.mem_iff.mp hentry))
  have hbytes : toBytes ⟨rootHash, cells⟩ entries ++ suffix = encodeWord 32 rootHash
      ++ (encodeWord 4 (BitVec.ofNat 32 cells.size)
        ++ (entries.flatMap entryBytes ++ suffix)) := by
    unfold toBytes
    rw [List.append_assoc, List.append_assoc]
  have htotal : (toBytes ⟨rootHash, cells⟩ entries).length
      = 36 + (entries.flatMap entryBytes).length := by
    unfold toBytes
    rw [List.length_append, List.length_append, length_encodeWord, length_encodeWord]
    omega
  have hcap := length_entries entries
  rw [hbytes, htotal]
  refine fromBytes_of_readCells ?_ ?_ (new_ok (OrdMap.contains_iff.mpr hroot) hdag)
  · rw [hcount, List.length_append]
    omega
  · rw [hcount, readCells_entries suffix entries 36 OrdMap.empty hkeys, foldl_insert_perm hentries]

/-! ## what is read -/

/-- the entry loop stays within the input -/
theorem readCells_offset : ∀ n rest offset (cells : OrdMap Uint256 Cell) r,
    readCells c n rest offset cells = .ok r → r.2 ≤ offset + rest.length := by
  intro n
  induction n with
  | zero =>
    intro rest offset cells r h
    cases h
    exact Nat.le_add_right _ _
  | succ n ih =>
    intro rest offset cells r h
    obtain ⟨cell, len, hlen, _, _, hrest⟩ := readCells_succ h
    have hle := ih _ _ _ _ hrest
    rw [List.length_drop] at hle
    omega

theorem fromBytes_consumed {slice : Bytes} {boc : BagOfCells} {n : Nat}
    (h : fromBytes c slice = .ok (boc, n)) : n ≤ slice.length := by
  obtain ⟨hhead, cells, hread, _⟩ := fromBytes_ok h
  have hle := readCells_offset _ _ _ _ _ hread
  rw [List.length_drop] at hle
  omega

/-- **The codec of bags.**  Reading inverts writing, for any order of the cells and any suffix; on
no slice does it panic, and what it accepts is within the slice, content addressed, rooted and
acyclic. -/
theorem codec (c : Crypto) :
    (∀ (boc : BagOfCells) (entries : List (Uint256 × Cell)) (suffix : Bytes),
      boc.WellKeyed c → (∃ root, boc.getCell boc.rootHash = some root) → boc.verifyDag = .ok () →
      boc.cells.size < 2^32 → entries.Perm boc.cells.entries →
        fromBytes c (boc.toBytes entries ++ suffix) = .ok (boc, (boc.toBytes entries).length))
    ∧ (∀ slice : Slice, fromSlice c slice.bytes = some (fromBytes c slice.bytes))
    ∧ ∀ (slice : Bytes) (boc : BagOfCells) (consumed : Nat),
      fromBytes c slice = .ok (boc, consumed) → consumed ≤ slice.length ∧ boc.Addressed c
        ∧ ∃ root, boc.getCell boc.rootHash = some root :=
  ⟨fun _ _ suffix hkeyed hroot hdag hsize hentries =>
      fromBytes_toBytes hkeyed hroot hdag hsize hentries suffix,
    fromSlice_eq,
    fun _ _ _ h => ⟨fromBytes_consumed h, fromBytes_addressed h, (Built.fromBytes h).root_held⟩⟩

/-- a root and a leaf below it -/
def sampleBag : BagOfCells :=
  ((fromRoot sampleCrypto Cell.sampleRoot).addCell sampleCrypto Cell.sampleLeaf).2

/-- two cells in reverse order, with a byte behind them -/
theorem codec_sample :
    fromBytes sampleCrypto (sampleBag.toBytes sampleBag.cells.entries.reverse ++ [7])
        = .ok (sampleBag, (sampleBag.toBytes sampleBag.cells.entries.reverse).length)
      ∧ (sampleBag.toBytes sampleBag.cells.entries.reverse).length = 145
      ∧ sampleBag.Addressed sampleCrypto := by
  have hread := (codec sampleCrypto).1 sampleBag sampleBag.cells.entries.reverse [7]
    (addCell_wellKeyed (fromRoot_wellKeyed Cell.sampleRoot) Cell.sampleLeaf)
    ⟨Cell.sampleRoot, by decide +kernel⟩ (by decide +kernel) (by decide +kernel) (List.reverse_perm _)
  exact ⟨hread, by decide +kernel, ((codec sampleCrypto).2.2 _ _ _ hread).2.1⟩

end
end BagOfCells

end Onx
