import Onx.State.Cell

/-!
# Account records

The stored form of an account.  `AccountState.fromBytes_toBytes`: a record reads back, whatever
follows it.
-/

namespace Onx

inductive AccountType where
  | uninitialized
  | active
  | frozen
  | destroyed
deriving DecidableEq

namespace AccountType

def fromU8 (value : Byte) : Except StateModelError AccountType :=
  if value = 0x00 then .ok .uninitialized
  else if value = 0x01 then .ok .active
  else if value = 0x02 then .ok .frozen
  else if value = 0x03 then .ok .destroyed
  else .error (.invalidStateType value)

def toU8 : AccountType → Byte
  | .uninitialized => 0x00
  | .active => 0x01
  | .frozen => 0x02
  | .destroyed => 0x03

theorem fromU8_toU8 (t : AccountType) : fromU8 t.toU8 = .ok t := by
  cases t <;> rfl

/-- the name that `{:?}` prints -/
def debug : AccountType → String
  | .uninitialized => "Uninitialized"
  | .active => "Active"
  | .frozen => "Frozen"
  | .destroyed => "Destroyed"

end AccountType

structure StorageStat where
  cellCount : Uint32
  byteCount : Uint64
deriving DecidableEq

inductive AccountState where
  | uninitialized
  | active (balanceNanos : Uint128) (lastTransLt : Uint64) (codeHash dataHash : Uint256)
      (storageStat : StorageStat)
  | frozen (balanceNanos : Uint128) (lastTransLt : Uint64) (storageHash : Uint256)
  | destroyed
deriving DecidableEq

/-- `read`: a big-endian integer from the front of a cursor -/
def readWord (n w : Nat) (cursor : Bytes) : Except StateModelError (BitVec w × Bytes) :=
  if cursor.length < n then
    .error (.deserializationError
      s!"truncated input: expected {n} bytes, got {cursor.length}")
  else .ok (decodeWord w (cursor.take n), cursor.drop n)

theorem readWord_eq {n w : Nat} {cursor : Bytes} (h : n ≤ cursor.length) :
    readWord n w cursor = .ok (decodeWord w (cursor.take n), cursor.drop n) :=
  if_neg (Nat.not_lt.mpr h)

theorem readWord_encodeWord {n w : Nat} (hw : w = 8 * n) (x : BitVec w) (rest : Bytes) :
    readWord n w (encodeWord n x ++ rest) = .ok (x, rest) := by
  have hlen := length_encodeWord n x
  unfold readWord
  rw [if_neg, List.take_left' hlen, List.drop_left' hlen, decodeWord_encodeWord hw]
  rw [List.length_append, hlen]
  omega

namespace AccountState

def accountType : AccountState → AccountType
  | .uninitialized => .uninitialized
  | .active .. => .active
  | .frozen .. => .frozen
  | .destroyed => .destroyed

/-- the balance in nanocoins, or 0 where there is none -/
def balanceNanos : AccountState → Uint128
  | .active balance .. => balance
  | .frozen balance .. => balance
  | .uninitialized => 0
  | .destroyed => 0

def toBytes (self : AccountState) : Bytes :=
  match self with
  | .uninitialized => [AccountType.uninitialized.toU8]
  | .active balance lt code data stat =>
    AccountType.active.toU8 :: (encodeWord 16 balance ++ encodeWord 8 lt ++ encodeWord 32 code
      ++ encodeWord 32 data ++ encodeWord 4 stat.cellCount ++ encodeWord 8 stat.byteCount)
  | .frozen balance lt storage =>
    AccountType.frozen.toU8 :: (encodeWord 16 balance ++ encodeWord 8 lt ++ encodeWord 32 storage)
  | .destroyed => [AccountType.destroyed.toU8]

/-- the fields of a frozen account -/
def readFrozen (cursor : Bytes) : Except StateModelError (AccountState × Nat) := do
  let (balance, cursor) ← readWord 16 128 cursor
  let (lt, cursor) ← readWord 8 64 cursor
  if cursor.length < 32 then
    .error (.deserializationError "Truncated Frozen AccountState storage hash")
  else .ok (.frozen balance lt (decodeWord 256 (cursor.take 32)), 1 + 16 + 8 + 32)

/-- the fields of an active account -/
def readActive (cursor : Bytes) : Except StateModelError (AccountState × Nat) := do
  let (balance, cursor) ← readWord 16 128 cursor
  let (lt, cursor) ← readWord 8 64 cursor
  if cursor.length < 64 then
    .error (.deserializationError "Truncated Active AccountState hashes")
  else
    let code := decodeWord 256 (cursor.take 32)
    let data := decodeWord 256 ((cursor.drop 32).take 32)
    let (cellCount, cursor) ← readWord 4 32 (cursor.drop 64)
    let (byteCount, _) ← readWord 8 64 cursor
    .ok (.active balance lt code data ⟨cellCount, byteCount⟩, 1 + 16 + 8 + 32 + 32 + 4 + 8)

def fromBytes : Bytes → Except StateModelError (AccountState × Nat)
  | [] => .error (.deserializationError "Empty byte slice for AccountState")
  | b :: cursor => do
    match ← AccountType.fromU8 b with
    | .uninitialized => .ok (.uninitialized, 1)
    | .destroyed => .ok (.destroyed, 1)
    | .frozen => readFrozen cursor
    | .active => readActive cursor

theorem readFrozen_encode (balance : Uint128) (lt : Uint64) (storage : Uint256) (suffix : Bytes) :
    readFrozen (encodeWord 16 balance ++ encodeWord 8 lt ++ encodeWord 32 storage ++ suffix)
      = .ok (.frozen balance lt storage, 57) := by
  unfold readFrozen
  rw [List.append_assoc, List.append_assoc, readWord_encodeWord (w:=128) rfl]
  dsimp only [bind, Except.bind]
  rw [readWord_encodeWord (w:=64) rfl]
  dsimp only
  rw [if_neg, List.take_left' (length_encodeWord 32 storage), decodeWord_encodeWord (n:=32) rfl]
  rw [List.length_append, length_encodeWord]
  omega

theorem readActive_encode (balance : Uint128) (lt : Uint64) (code data : Uint256)
    (stat : StorageStat) (suffix : Bytes) :
    readActive (encodeWord 16 balance ++ encodeWord 8 lt ++ encodeWord 32 code
        ++ encodeWord 32 data ++ encodeWord 4 stat.cellCount ++ encodeWord 8 stat.byteCount ++ suffix)
      = .ok (.active balance lt code data stat, 101) := by
  have h64 : (encodeWord 32 code ++ encodeWord 32 data).length = 64 := by simp
  unfold readActive
  rw [List.append_assoc, List.append_assoc, List.append_assoc, List.append_assoc, List.append_assoc,
    readWord_encodeWord (w:=128) rfl]
  dsimp only [bind, Except.bind]
  rw [readWord_encodeWord (w:=64) rfl]
  dsimp only
  rw [if_neg, List.take_left' (length_encodeWord 32 code),
    List.drop_left' (length_encodeWord 32 code), List.take_left' (length_encodeWord 32 data),
    ← List.append_assoc (encodeWord 32 code), List.drop_left' h64, readWord_encodeWord (w:=32) rfl]
  · dsimp only
    rw [readWord_encodeWord (w:=64) rfl, decodeWord_encodeWord (n:=32) rfl,
      decodeWord_encodeWord (n:=32) rfl]
  · simp only [List.length_append, length_encodeWord]
    omega

/-- **A stored account reads back.** -/
theorem fromBytes_toBytes (s : AccountState) (suffix : Bytes) :
    fromBytes (s.toBytes ++ suffix) = .ok (s, s.toBytes.length) := by
  cases s with
  | uninitialized => rfl
  | destroyed => rfl
  | frozen balance lt storage =>
    have hlen : (toBytes (.frozen balance lt storage)).length = 57 := by simp [toBytes]
    rw [hlen]
    unfold toBytes fromBytes
    rw [List.cons_append]
    dsimp only
    rw [AccountType.fromU8_toU8]
    dsimp only [bind, Except.bind]
    rw [readFrozen_encode]
  | active balance lt code data stat =>
    have hlen : (toBytes (.active balance lt code data stat)).length = 101 := by simp [toBytes]
    rw [hlen]
    unfold toBytes fromBytes
    rw [List.cons_append]
    dsimp only
    rw [AccountType.fromU8_toU8]
    dsimp only [bind, Except.bind]
    rw [readActive_encode]

theorem toBytes_inj {s s' : AccountState} (h : s.toBytes = s'.toBytes) : s = s' := by
  have hs := fromBytes_toBytes s []
  have hs' := fromBytes_toBytes s' []
  rw [h, hs'] at hs
  exact (Prod.mk.inj (Except.ok.inj hs)).1.symm

theorem length_toBytes_le (s : AccountState) : 0 < s.toBytes.length ∧ s.toBytes.length ≤ 128 := by
  cases s <;> simp [toBytes]

/-! ## transitions -/

/-- the logical time goes on, and the new record carries it -/
def validateLt (curLt nextLt newLt : Uint64) : Except StateModelError Unit :=
  if newLt.toNat ≤ curLt.toNat ∨ nextLt ≠ newLt then .error (.logicalTimeRegression curLt newLt)
  else .ok ()

def validateTransition (self next : AccountState) (newLt : Uint64) : Except StateModelError Unit :=
  match self, next with
  | .destroyed, _ =>
    .error (.invalidStateTransition "Cannot perform transition on a Destroyed account")
  | .uninitialized, .active _ lastTransLt .. =>
    if lastTransLt ≠ newLt then .error (.logicalTimeRegression lastTransLt newLt) else .ok ()
  | .uninitialized, .uninitialized => .ok ()
  | .uninitialized, _ => .error (.invalidStateTransition
      "Uninitialized account can only transition to Active or remain Uninitialized")
  | .active _ curLt .., .active _ nextLt .. => validateLt curLt nextLt newLt
  | .active _ curLt .., .frozen _ nextLt _ => validateLt curLt nextLt newLt
  | .active .., .destroyed => .ok ()
  | .frozen _ curLt _, .active _ nextLt .. => validateLt curLt nextLt newLt
  | .frozen _ curLt _, .frozen _ nextLt _ => validateLt curLt nextLt newLt
  | .frozen .., .destroyed => .ok ()
  | self, next =>
    let current := self.accountType.debug
    let target := next.accountType.debug
    .error (.invalidStateTransition s!"Invalid state transition from {current} to {target}")

/-- the check of the next record's balance, which records without a balance do not have -/
def validateBalance (next : AccountState) (expectedNextBalance : Uint128) :
    Except StateModelError Unit :=
  let check (balanceNanos : Uint128) : Except StateModelError Unit :=
    if balanceNanos ≠ expectedNextBalance then
      let expected := expectedNextBalance.toNat
      let found := balanceNanos.toNat
      .error (.invalidStateTransition s!"Expected next state balance {expected}, found {found}")
    else .ok ()
  match next with
  | .active balance .. => check balance
  | .frozen balance .. => check balance
  | .uninitialized => .ok ()
  | .destroyed => .ok ()

/-- a delta is an `i128` -/
def validateTransitionWithDelta (self next : AccountState) (newLt : Uint64)
    (balanceDelta : BitVec 128) : Except StateModelError Unit := do
  self.validateTransition next newLt
  let curBalance := self.balanceNanos
  let unsignedAbs := balanceDelta.toInt.natAbs
  if balanceDelta.toInt < 0 ∧ unsignedAbs > curBalance.toNat then .error .balanceUnderflow
  else
    let expectedNextBalance :=
      if balanceDelta.toInt ≥ 0 then satAdd curBalance balanceDelta
      else curBalance - BitVec.ofNat 128 unsignedAbs
    validateBalance next expectedNextBalance

end AccountState

end Onx
