import Onx.Lib.PrefixFree
import Onx.Lib.Slices
import Onx.State.Account

/-!
# The bytes of account records

`fromSlice` is `from_bytes` once more, with the cursor and the offset that it moves side by side and
each access to its input.

* `fromSlice_eq`     no access panics, and the result is that of `fromBytes`;
* `fromBytes_ok`     what is read, and the bytes it was read from;
* `prefixFree`       a record is read whatever follows it;
* `account_codec`    **the codec of account records.**
-/

namespace Onx
open Checked Codes

/-- `read` of an integer of `n` bytes -/
def readFront (n w : Nat) (cursor : Bytes) : Run StateModelError (BitVec w × Bytes) :=
  if cursor.length < n then
    throw (.deserializationError s!"truncated input: expected {n} bytes, got {cursor.length}")
  else do
    let (head, tail) ← splitAt cursor n
    let buf ← copy n head
    pure (decodeWord w buf, tail)

namespace AccountState

def frozenFields (cursor : Bytes) (offset : Nat) : Run StateModelError (AccountState × Nat) := do
  let (balance, cursor) ← readFront 16 128 cursor
  let offset ← add offset 16
  let (lt, cursor) ← readFront 8 64 cursor
  let offset ← add offset 8
  if cursor.length < 32 then
    throw (.deserializationError "Truncated Frozen AccountState storage hash")
  else do
    let part ← range cursor 0 32
    let storageHash ← copy 32 part
    let offset ← add offset 32
    pure (.frozen balance lt (decodeWord 256 storageHash), offset)

def activeFields (cursor : Bytes) (offset : Nat) : Run StateModelError (AccountState × Nat) := do
  let (balance, cursor) ← readFront 16 128 cursor
  let offset ← add offset 16
  let (lt, cursor) ← readFront 8 64 cursor
  let offset ← add offset 8
  if cursor.length < 64 then
    throw (.deserializationError "Truncated Active AccountState hashes")
  else do
    let part ← range cursor 0 32
    let codeHash ← copy 32 part
    let cursor ← rangeFrom cursor 32
    let offset ← add offset 32
    let part ← range cursor 0 32
    let dataHash ← copy 32 part
    let cursor ← rangeFrom cursor 32
    let offset ← add offset 32
    let (cellCount, cursor) ← readFront 4 32 cursor
    let offset ← add offset 4
    let (byteCount, _) ← readFront 8 64 cursor
    let offset ← add offset 8
    pure (.active balance lt (decodeWord 256 codeHash) (decodeWord 256 dataHash) ⟨cellCount, byteCount⟩,
      offset)

/-- `from_bytes` with its accesses -/
def fromSlice (slice : Bytes) : Run StateModelError (AccountState × Nat) :=
  if slice.isEmpty then throw (.deserializationError "Empty byte slice for AccountState")
  else do
    let (stateTypeVal, cursor) ← readFront 1 8 slice
    let stateType ← Run.ofExcept id (AccountType.fromU8 stateTypeVal)
    match stateType with
    | .uninitialized => pure (.uninitialized, 1)
    | .destroyed => pure (.destroyed, 1)
    | .frozen => frozenFields cursor 1
    | .active => activeFields cursor 1

/-! ## no access panics -/

theorem readFront_eq (n w : Nat) (cursor : Bytes) :
    readFront n w cursor = Run.ofExcept id (readWord n w cursor) := by
  unfold readFront readWord
  by_cases hshort : cursor.length < n
  · rw [if_pos hshort, if_pos hshort]
    rfl
  · have hlen : n ≤ cursor.length := Nat.not_lt.mp hshort
    rw [if_neg hshort, if_neg hshort, splitAt_eq hlen, Run.lift_some, pure_bind]
    dsimp only
    rw [copy_take hlen]
    rfl

/-- one more integer is read, here and by the decoder -/
theorem readFront_bind {α : Type} {n w : Nat} {cursor : Bytes} {k : BitVec w × Bytes → Run StateModelError α}
    {k' : BitVec w × Bytes → Except StateModelError α}
    (h : ∀ x rest, k (x, rest) = Run.ofExcept id (k' (x, rest))) :
    readFront n w cursor >>= k = Run.ofExcept id (readWord n w cursor >>= k') := by
  rw [readFront_eq, Run.ofExcept_bind]
  refine bind_congr ?_
  rintro ⟨x, rest⟩
  exact h x rest

theorem frozenFields_eq (cursor : Bytes) :
    frozenFields cursor 1 = Run.ofExcept id (readFrozen cursor) := by
  unfold frozenFields readFrozen
  refine readFront_bind fun balance cursor => ?_
  dsimp only
  rw [Run.add_bind (by omega)]
  refine readFront_bind fun lt cursor => ?_
  dsimp only
  rw [Run.add_bind (by omega)]
  by_cases hshort : cursor.length < 32
  · rw [if_pos hshort, if_pos hshort]
    rfl
  · rw [if_neg hshort, if_neg hshort, Run.copyFront_bind (Nat.not_lt.mp hshort), Run.add_bind (by omega)]
    rfl

theorem activeFields_eq (cursor : Bytes) :
    activeFields cursor 1 = Run.ofExcept id (readActive cursor) := by
  unfold activeFields readActive
  refine readFront_bind fun balance cursor => ?_
  dsimp only
  rw [Run.add_bind (by omega)]
  refine readFront_bind fun lt cursor => ?_
  dsimp only
  rw [Run.add_bind (by omega)]
  by_cases hshort : cursor.length < 64
  · rw [if_pos hshort, if_pos hshort]
    rfl
  have hlen : 64 ≤ cursor.length := Nat.not_lt.mp hshort
  have hrest : 32 ≤ (cursor.drop 32).length := by
    rw [List.length_drop]
    omega
  rw [if_neg hshort, if_neg hshort]
  -- the two hashes, with the cursor and the offset moved past each
  rw [Run.copyFront_bind (by omega), Run.rangeFrom_bind (by omega), Run.add_bind (by omega),
    Run.copyFront_bind hrest, Run.rangeFrom_bind hrest, Run.add_bind (by omega), List.drop_drop]
  refine readFront_bind fun cellCount cursor => ?_
  dsimp only
  rw [Run.add_bind (by omega)]
  refine readFront_bind fun byteCount _ => ?_
  dsimp only
  rw [Run.add_bind (by omega)]
  rfl

theorem decodeWord_singleton (b : Byte) : decodeWord 8 [b] = b := by
  have hb : encodeWord 1 b = [b] := by
    unfold encodeWord beBytes beBytes
    rw [Nat.pow_zero, Nat.div_one, BitVec.ofNat_toNat, BitVec.setWidth_eq]
  rw [← hb]
  exact decodeWord_encodeWord (n:=1) rfl b

/-- **Reading a record does not panic.** -/
theorem fromSlice_eq (slice : Bytes) : (fromSlice slice).run = some (fromBytes slice) := by
  rw [← Run.run_ofExcept (fromBytes slice)]
  cases slice with
  | nil => rfl
  | cons b cursor =>
    unfold fromSlice fromBytes
    rw [if_neg (by simp), readFront_eq, readWord_eq (by simp), Run.ofExcept_ok, pure_bind,
      Run.ofExcept_bind]
    dsimp only
    rw [List.take_succ_cons, List.take_zero, decodeWord_singleton, List.drop_succ_cons, List.drop_zero]
    congr 1
    refine bind_congr fun stateType => ?_
    cases stateType with
    | uninitialized => rfl
    | destroyed => rfl
    | frozen => exact frozenFields_eq cursor
    | active => exact activeFields_eq cursor

/-! ## what is read -/

theorem readWord_ok {n w : Nat} (hw : w = 8 * n) {cursor rest : Bytes} {x : BitVec w}
    (h : readWord n w cursor = .ok (x, rest)) : cursor = encodeWord n x ++ rest := by
  unfold readWord at h
  split_ifs at h with hshort
  cases h
  rw [encodeWord_decodeWord hw (List.length_take_of_le (Nat.not_lt.mp hshort)), List.take_append_drop]

/-- the 32 bytes of a hash -/
theorem encodeWord_take (cursor : Bytes) (h : 32 ≤ cursor.length) :
    encodeWord 32 (decodeWord 256 (cursor.take 32)) ++ cursor.drop 32 = cursor := by
  rw [encodeWord_decodeWord (n:=32) rfl (List.length_take_of_le h), List.take_append_drop]

theorem readFrozen_ok {cursor : Bytes} {s : AccountState} {n : Nat} (h : readFrozen cursor = .ok (s, n)) :
    ∃ rest, AccountType.frozen.toU8 :: cursor = s.toBytes ++ rest ∧ n = s.toBytes.length := by
  unfold readFrozen at h
  obtain ⟨⟨balance, cursor₁⟩, hbalance, h⟩ := bind_ok h
  obtain ⟨⟨lt, cursor₂⟩, hlt, h⟩ := bind_ok h
  dsimp only at h
  split_ifs at h with hshort
  cases h
  refine ⟨cursor₂.drop 32, ?_, by simp [toBytes]⟩
  unfold toBytes
  rw [readWord_ok (n:=16) rfl hbalance, readWord_ok (n:=8) rfl hlt, List.cons_append, List.append_assoc,
    List.append_assoc, encodeWord_take cursor₂ (Nat.not_lt.mp hshort)]

theorem readActive_ok {cursor : Bytes} {s : AccountState} {n : Nat} (h : readActive cursor = .ok (s, n)) :
    ∃ rest, AccountType.active.toU8 :: cursor = s.toBytes ++ rest ∧ n = s.toBytes.length := by
  unfold readActive at h
  obtain ⟨⟨balance, cursor₁⟩, hbalance, h⟩ := bind_ok h
  obtain ⟨⟨lt, cursor₂⟩, hlt, h⟩ := bind_ok h
  dsimp only at h
  split_ifs at h with hshort
  obtain ⟨⟨cellCount, cursor₃⟩, hcells, h⟩ := bind_ok h
  dsimp only at h
  obtain ⟨⟨byteCount, rest⟩, hbytes, h⟩ := bind_ok h
  cases h
  have hdata := encodeWord_take (cursor₂.drop 32) (by
    rw [List.length_drop]
    omega)
  rw [List.drop_drop, readWord_ok (n:=4) rfl hcells, readWord_ok (n:=8) rfl hbytes] at hdata
  have hhashes := encodeWord_take cursor₂ (by omega)
  rw [← hdata] at hhashes
  refine ⟨rest, ?_, by simp [toBytes]⟩
  unfold toBytes
  dsimp only
  rw [readWord_ok (n:=16) rfl hbalance, readWord_ok (n:=8) rfl hlt]
  simp only [List.cons_append, List.append_assoc, hhashes]

theorem toU8_of_fromU8 {b : Byte} {t : AccountType} (h : AccountType.fromU8 b = .ok t) : b = t.toU8 := by
  unfold AccountType.fromU8 at h
  split_ifs at h with hb hb hb hb <;> cases h <;> exact hb

/-- **What is read was written**, and something behind it. -/
theorem fromBytes_ok {bytes : Bytes} {s : AccountState} {n : Nat} (h : fromBytes bytes = .ok (s, n)) :
    ∃ rest, bytes = s.toBytes ++ rest ∧ n = s.toBytes.length := by
  cases bytes with
  | nil => cases h
  | cons b cursor =>
    unfold fromBytes at h
    obtain ⟨stateType, htype, h⟩ := bind_ok h
    rw [toU8_of_fromU8 htype]
    cases stateType with
    | uninitialized =>
      cases h
      exact ⟨cursor, rfl, rfl⟩
    | destroyed =>
      cases h
      exact ⟨cursor, rfl, rfl⟩
    | frozen => exact readFrozen_ok h
    | active => exact readActive_ok h

/-- a record is read, whatever follows it -/
theorem prefixFree : PrefixFree toBytes := by
  have hresult : Function.Injective fun s : AccountState =>
      (.ok (s, s.toBytes.length) : Except StateModelError (AccountState × Nat)) :=
    fun _ _ h => congrArg Prod.fst (Except.ok.inj h)
  exact .of_read hresult fromBytes_toBytes

end AccountState

/-- what is claimed of the records of two accounts, and of any bytes -/
structure RecordCodec (s s' : AccountState) (suffix bytes : Bytes) : Prop where
  decode_encode : (AccountState.fromSlice (s.toBytes ++ suffix)).run = some (.ok (s, s.toBytes.length))
  returns : (AccountState.fromSlice bytes).run ≠ none
  encode_decode : ∀ n, (AccountState.fromSlice bytes).run = some (.ok (s, n)) →
    n ≤ bytes.length ∧ s.toBytes = bytes.take n
  injective : s.toBytes = s'.toBytes → s = s'
  no_prefix : s.toBytes <+: s'.toBytes → s.toBytes = s'.toBytes

/-- **The codec of account records.** -/
theorem account_codec (s s' : AccountState) (suffix bytes : Bytes) : RecordCodec s s' suffix bytes where
  decode_encode := by rw [AccountState.fromSlice_eq, AccountState.fromBytes_toBytes]
  returns := by
    rw [AccountState.fromSlice_eq]
    exact Option.some_ne_none _
  encode_decode n h := by
    rw [AccountState.fromSlice_eq] at h
    obtain ⟨rest, rfl, rfl⟩ := AccountState.fromBytes_ok (Option.some.inj h)
    exact ⟨by simp, (List.take_left' rfl).symm⟩
  injective h := AccountState.prefixFree.injective h
  no_prefix h := congrArg AccountState.toBytes (AccountState.prefixFree.eq_of_prefix h)

end Onx
