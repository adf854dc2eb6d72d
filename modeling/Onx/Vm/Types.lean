import Mathlib.Tactic.Ring
import Onx.DataStructures.Message
import Onx.Lib.Machine
import Onx.State.Cell

/-!
# Values of the virtual machine

Integers, byte strings, cells, slices and builders, with signed 128-bit arithmetic.  Arithmetic is
checked as in a build with overflow checks; byte strings are shorter than `isize::MAX`, so the sum
of two lengths is exact, and allocation succeeds.

* `toI128`, `fromI128`      128-bit integers in 32-byte words;
* `Slice.readBits`          reading from a cell; `readBits_no_panic`;
* `Builder.appendBits`      writing to a builder; `appendBits_fits` keeps its bits within its bytes.
-/

namespace Onx.Vm
open Machine

inductive ExceptionKind where
  | outOfGas
  | integerOverflow
  | absentNode
  | malformedCell
  | typeMismatch
deriving DecidableEq

structure ExecutionContext where
  genUtime : Uint32
  startLt : Uint64
  endLt : Uint64
  gasLimit : Uint64
deriving DecidableEq

/-! ## machine integers -/

def I128_MIN : Int := -2^127

/-- an `i128` result, or nothing where it is out of range -/
def checkedI128 (x : Int) : Option Int := if -2^127 ≤ x ∧ x < 2^127 then some x else none

/-- `checked_shl`: bits are shifted out, only the amount is checked -/
def checkedShl (x : Int) (n : Nat) : Option Int :=
  if n < 128 then some (Int.bmod (x * 2^n) (2^128)) else none

/-- `as usize` -/
def asUsize (x : Int) : Nat := (BitVec.ofInt 64 x).toNat

/-- a `usize` result, or nothing where it is out of range -/
def checkedUsize (n : Nat) : Option Nat := if n < 2^64 then some n else none

/-- `div_ceil` -/
def divCeil (a b : Nat) : Nat := (a + b - 1) / b

/-- the last 16 bytes of a word, in two's complement -/
def toI128 (bytes : Uint256) : Int := (bytes.setWidth 128).toInt

/-- the sign-extended word -/
def fromI128 (val : Int) : Uint256 := BitVec.ofInt 256 val

/-! ## slices -/

structure Slice where
  cell : Cell
  bitOffset : Nat
  refOffset : Nat
  childCells : List Cell
deriving DecidableEq

namespace Slice

def new (cell : Cell) : Slice := ⟨cell, 0, 0, []⟩

def remainingBits (self : Slice) : Nat := self.cell.dataBytes.length * 8 - self.bitOffset

def remainingRefs (self : Slice) : Nat := self.cell.cellRefs.length - self.refOffset

/-- the last `n` of `widthBits` bits from the bit `offset` on, onto `res` -/
def readLoop (data : Bytes) (offset widthBits : Nat) : Nat → Uint256 → Option Uint256
  | 0, res => some res
  | n + 1, res =>
    let i := widthBits - (n + 1)
    match data[(offset + i) / 8]? with
    | none => none
    | some b =>
      readLoop data offset widthBits n
        (if b.getLsbD (7 - (offset + i) % 8) then res ||| 1 <<< (255 - (256 - widthBits + i))
          else res)

def readBits (widthBits : Nat) : Prog Slice ExceptionKind Uint256 := do
  let self ← Prog.get
  Prog.failIf (self.remainingBits < widthBits ∨ widthBits > 256) .malformedCell
  let res ← Prog.expect (readLoop self.cell.dataBytes self.bitOffset widthBits widthBits 0)
  Prog.modify (fun self => { self with bitOffset := self.bitOffset + widthBits })
  pure res

end Slice

/-! ## builders -/

structure Builder where
  dataBytes : Bytes
  currentBitLen : Nat
  references : List Cell
deriving DecidableEq

namespace Builder

def default : Builder := ⟨[], 0, []⟩

/-- the body of the loop of `append_bits`; an index out of range panics -/
def appendBit (valBytes : Uint256) (widthBits start i : Nat) (data : Bytes) : Option Bytes :=
  let dest := start + i
  let data := if dest / 8 ≥ data.length then data ++ [0] else data
  if valBytes.getMsbD (256 - widthBits + i) then
    match data[dest / 8]? with
    | none => none
    | some b => some (data.set (dest / 8) (b ||| 1 <<< (7 - dest % 8)))
  else some data

/-- the last `n` of `widthBits` bits -/
def appendLoop (valBytes : Uint256) (widthBits start : Nat) : Nat → Bytes → Option Bytes
  | 0, data => some data
  | n + 1, data =>
    match appendBit valBytes widthBits start (widthBits - (n + 1)) data with
    | none => none
    | some data => appendLoop valBytes widthBits start n data

def appendBits (valBytes : Uint256) (widthBits : Nat) : Prog Builder ExceptionKind Unit := do
  Prog.failIf (widthBits > 256) .malformedCell
  let self ← Prog.get
  let target := self.currentBitLen + widthBits
  Prog.failIf (target > 128 * 8) .malformedCell
  let data ← Prog.expect (appendLoop valBytes widthBits self.currentBitLen widthBits self.dataBytes)
  Prog.modify (fun self => { self with dataBytes := data, currentBitLen := target })

/-- the bits are within the bytes -/
def Fits (self : Builder) : Prop := self.currentBitLen ≤ 8 * self.dataBytes.length

end Builder

inductive StackValue where
  /-- a 32-byte big-endian word -/
  | integer (bytes : Uint256)
  | bytes (v : Bytes)
  | cell (cell : Cell)
  | slice (slice : Slice)
  | builder (builder : Builder)
deriving DecidableEq

inductive ExecutionResult where
  | success (newData : Cell) (outMessages : List Message) (gasUsed : Uint64)
  | exception (kind : ExceptionKind) (gasUsed : Uint64)
deriving DecidableEq

/-! ## reading and writing -/

theorem readBits_apply (widthBits : Nat) (slice : Slice) :
    Slice.readBits widthBits slice
      = if slice.remainingBits < widthBits ∨ widthBits > 256 then .err .malformedCell slice
        else match Slice.readLoop slice.cell.dataBytes slice.bitOffset widthBits widthBits 0 with
          | none => .panic
          | some res => .ok res { slice with bitOffset := slice.bitOffset + widthBits } := by
  unfold Slice.readBits
  rw [get_bind]
  by_cases hroom : slice.remainingBits < widthBits ∨ widthBits > 256
  · rw [bind_err (failIf_pos hroom _ _), if_pos hroom]
  · rw [bind_ok (failIf_neg hroom _ _), if_neg hroom]
    cases Slice.readLoop slice.cell.dataBytes slice.bitOffset widthBits widthBits 0 <;> rfl

theorem appendBits_apply (valBytes : Uint256) (widthBits : Nat) (b : Builder) :
    Builder.appendBits valBytes widthBits b
      = if widthBits > 256 ∨ b.currentBitLen + widthBits > 128 * 8 then .err .malformedCell b
        else match Builder.appendLoop valBytes widthBits b.currentBitLen widthBits b.dataBytes with
          | none => .panic
          | some data => .ok () { b with
              dataBytes := data, currentBitLen := b.currentBitLen + widthBits } := by
  unfold Builder.appendBits
  by_cases hw : widthBits > 256
  · rw [bind_err (failIf_pos hw _ _), if_pos (Or.inl hw)]
  · rw [bind_ok (failIf_neg hw _ _), get_bind]
    by_cases ht : b.currentBitLen + widthBits > 128 * 8
    · rw [bind_err (failIf_pos ht _ _), if_pos (Or.inr ht)]
    · rw [bind_ok (failIf_neg ht _ _), if_neg (not_or.mpr ⟨hw, ht⟩)]
      cases Builder.appendLoop valBytes widthBits b.currentBitLen widthBits b.dataBytes <;> rfl

/-- the bits that are read are there -/
theorem readLoop_some (data : Bytes) (offset widthBits : Nat) : ∀ n res, n ≤ widthBits →
    offset + widthBits ≤ 8 * data.length →
      ∃ r, Slice.readLoop data offset widthBits n res = some r := by
  intro n
  induction n with
  | zero => exact fun res _ _ => ⟨res, rfl⟩
  | succ n ih =>
    intro res hn hlen
    have hin : (offset + (widthBits - (n + 1))) / 8 < data.length := by omega
    unfold Slice.readLoop
    dsimp only
    rw [List.getElem?_eq_getElem hin]
    exact ih _ (by omega) hlen

theorem readBits_no_panic (widthBits : Nat) (s : Slice) :
    Slice.readBits widthBits s ≠ .panic := by
  rw [readBits_apply]
  split_ifs with hout
  · exact nofun
  · have hlen : s.bitOffset + widthBits ≤ 8 * s.cell.dataBytes.length ∨ widthBits = 0 := by
      unfold Slice.remainingBits at hout
      omega
    have hread : ∃ r, Slice.readLoop s.cell.dataBytes s.bitOffset widthBits widthBits 0 = some r := by
      rcases hlen with hlen | rfl
      · exact readLoop_some _ _ _ _ _ (le_refl _) hlen
      · exact ⟨0, rfl⟩
    obtain ⟨r, hr⟩ := hread
    rw [hr]
    exact nofun

/-- a bit next to the written ones is written, or starts a byte -/
theorem appendBit_some (valBytes : Uint256) (widthBits start i : Nat) {data : Bytes}
    (h : start + i ≤ 8 * data.length) :
    ∃ data', Builder.appendBit valBytes widthBits start i data = some data'
      ∧ start + i + 1 ≤ 8 * data'.length ∧ data.length ≤ data'.length
      ∧ data'.length ≤ max data.length ((start + i) / 8 + 1) := by
  have hgrow : ∃ d : Bytes, (if (start + i) / 8 ≥ data.length then data ++ [0] else data) = d
      ∧ (start + i) / 8 < d.length ∧ data.length ≤ d.length
      ∧ d.length ≤ max data.length ((start + i) / 8 + 1) := by
    split_ifs with hge
    · refine ⟨_, rfl, ?_, ?_, ?_⟩ <;> rw [List.length_append, List.length_singleton] <;> omega
    · exact ⟨_, rfl, by omega, by omega, by omega⟩
  obtain ⟨d, hd, hlt, hle, hmax⟩ := hgrow
  unfold Builder.appendBit
  dsimp only
  rw [hd, List.getElem?_eq_getElem hlt]
  split_ifs
  · refine ⟨_, rfl, ?_, ?_, ?_⟩
    all_goals rw [List.length_set]
    · omega
    · exact hle
    · exact hmax
  · exact ⟨_, rfl, by omega, hle, hmax⟩

theorem appendLoop_some (valBytes : Uint256) (widthBits start : Nat) : ∀ n data, n ≤ widthBits →
    start + (widthBits - n) ≤ 8 * data.length →
      ∃ data', Builder.appendLoop valBytes widthBits start n data = some data'
        ∧ start + widthBits ≤ 8 * data'.length
        ∧ data'.length ≤ max data.length ((start + widthBits + 7) / 8) := by
  intro n
  induction n with
  | zero =>
    intro data _ h
    exact ⟨data, rfl, h, by omega⟩
  | succ n ih =>
    intro data hn h
    obtain ⟨mid, hmid, hbits, _, hmax⟩ := appendBit_some valBytes widthBits start
      (widthBits - (n + 1)) h
    obtain ⟨data', hdata', hfit, hmax'⟩ := ih mid (by omega) (by omega)
    refine ⟨data', ?_, hfit, by omega⟩
    unfold Builder.appendLoop
    rw [hmid]
    exact hdata'

/-- **Writing does not panic** where the bits of the builder are within its bytes, and keeps them
there. -/
theorem appendBits_fits (valBytes : Uint256) (widthBits : Nat) {b : Builder} (h : b.Fits) :
    match Builder.appendBits valBytes widthBits b with
    | .ok _ b' => b'.Fits
    | .err _ _ => True
    | .panic => False := by
  obtain ⟨data, hdata, hfit, _⟩ := appendLoop_some valBytes widthBits b.currentBitLen widthBits
    b.dataBytes (le_refl _) (by rw [Nat.sub_self]; exact h)
  rw [appendBits_apply, hdata]
  split_ifs
  · trivial
  · exact hfit

end Onx.Vm
