import Onx.Channels.Arbiter
import Onx.Lib.Coupling
import Onx.Vm.CellSteps

/-!
# The proof of a condition

The arbiter lets the interpreter open the cell of a proof.  Its code has no other instruction, so that a
proof is every cell that is not special.

* `proofCode`, `proofContext`   the code, and what it runs in;
* `verifyMerkleProof`           the check, in at most `n` turns;
* `step_ctos`, `step_ret`      what the code does;
* `verifyMerkleProof_eq`        **what is a proof**.
-/

namespace Onx.Channels
open Machine Vm

/-- `CTOS` and `RET` -/
def proofCode : Cell := ⟨[0x45, 0x72], [], false, Nat.le_of_ble_eq_true rfl, Nat.zero_le _⟩

def proofData : Cell := ⟨[], [], false, Nat.zero_le _, Nat.zero_le _⟩

def proofContext : ExecutionContext where
  genUtime := 0
  startLt := 0
  endLt := 100
  gasLimit := 1000

/-- the message is not read -/
def dummyMessage : Message where
  msgType := .internal
  srcAddress := ⟨WorkchainIdent.BASIC, ⟨0⟩⟩
  destAddress := ⟨WorkchainIdent.BASIC, ⟨0⟩⟩
  amountNanos := 0
  extraCurrencies := []
  createdLt := 0
  bodyCellHash := 0

/-- the interpreter with the cell on its stack -/
def proofInterpreter (proofCell : Cell) : Interpreter :=
  { Interpreter.new proofCode proofData dummyMessage proofContext with stack := [.cell proofCell] }

/-- what the arbiter makes of the result -/
def proofVerdict : ExecutionResult → Except ChannelError Unit
  | .success _ _ _ => .ok ()
  | .exception .absentNode _ => .error .invalidProof
  | .exception _ _ => .error .invalidProof

def PaymentChannelArbiter.verifyMerkleProof (_self : PaymentChannelArbiter) (c : Crypto) (n : Nat)
    (proofCell : Cell) : Option (Except ChannelError Unit) :=
  (run c n (proofInterpreter proofCell)).result.map proofVerdict

/-! ## its two instructions -/

section
variable (c : Crypto) (proofCell : Cell)

theorem step_ctos : step c (proofInterpreter proofCell) =
    if proofCell.isSpecial then .err .absentNode (behind (proofInterpreter proofCell) 10 1 [])
    else .ok true (behind (proofInterpreter proofCell) 10 1 [.slice (Slice.new proofCell)]) := by
  have hop : opcodeAt (proofInterpreter proofCell) = some .cToS := by
    show (byteAt proofCode 0).bind Opcode.ofByte = _
    rfl
  have hgas : HasGas (proofInterpreter proofCell) 10 := by
    show min (0 + 10) (2^64 - 1) ≤ 1000
    decide
  rw [step_cToS hop hgas rfl]
  cases proofCell.isSpecial <;> rfl

/-- `RET` without a caller -/
theorem step_ret (s : Interpreter) (hop : opcodeAt s = some .ret) (hgas : HasGas s 4)
    (hc0 : s.controlRegisters.c0 = none) :
    step c s = .ok false (behind s 4 1 s.stack) := by
  rw [step_of_opcode hop]
  show (consumeGas 4 >>= fun _ => returnToCaller) (behindOpcode s) = _
  have hroom : HasGas (behindOpcode s) 4 := hgas
  have hnone : (pay (behindOpcode s) 4).controlRegisters.c0 = none := hc0
  rw [gas_bind hroom, returnToCaller_apply, hnone]
  rfl

/-- the run returns after two turns at most -/
theorem run_proof : ∃ k, k ≤ 2 ∧ run c k (proofInterpreter proofCell) = .done
    (if proofCell.isSpecial then .exception .absentNode 10 else .success proofData [] 14) := by
  have hstep := step_ctos c proofCell
  cases hspecial : proofCell.isSpecial with
  | true =>
    rw [hspecial, if_pos rfl] at hstep
    refine ⟨1, by decide, loop_succ_of_last rfl ?_⟩
    unfold turn
    rw [hstep]
    rfl
  | false =>
    rw [hspecial, if_neg Bool.false_ne_true] at hstep
    have hfirst : turn c (proofInterpreter proofCell)
        = .next (behind (proofInterpreter proofCell) 10 1 [.slice (Slice.new proofCell)]) := by
      unfold turn
      rw [hstep]
    have hop : opcodeAt (behind (proofInterpreter proofCell) 10 1 [.slice (Slice.new proofCell)])
        = some .ret := by
      show (byteAt proofCode 8).bind Opcode.ofByte = _
      rfl
    have hgas : HasGas (behind (proofInterpreter proofCell) 10 1 [.slice (Slice.new proofCell)]) 4 := by
      show min ((BitVec.ofNat 64 (min (0 + 10) (2^64 - 1))).toNat + 4) (2^64 - 1) ≤ 1000
      decide
    refine ⟨2, le_refl 2, loop_succ_of_last (loop_succ_of_next (n := 0) hfirst) ?_⟩
    unfold turn
    rw [step_ret c _ hop hgas rfl]
    rfl

end

/-- **What is a proof**: every cell that is not special, whatever the channel and its state. -/
theorem verifyMerkleProof_eq (arbiter : PaymentChannelArbiter) (c : Crypto) (proofCell : Cell) (n : Nat) :
    arbiter.verifyMerkleProof c (n + 2) proofCell
      = some (if proofCell.isSpecial then .error .invalidProof else .ok ()) := by
  obtain ⟨k, hk, hrun⟩ := run_proof c proofCell
  have hstays : run c (n + 2) (proofInterpreter proofCell) = run c k (proofInterpreter proofCell) := by
    obtain ⟨m, hm⟩ := Nat.exists_eq_add_of_le (hk.trans (Nat.le_add_left 2 n))
    rw [hm]
    exact loop_stays (not_next_of_done hrun)
  unfold PaymentChannelArbiter.verifyMerkleProof
  rw [hstays, hrun]
  cases proofCell.isSpecial <;> rfl

end Onx.Channels
