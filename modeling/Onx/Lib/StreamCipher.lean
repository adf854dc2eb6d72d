import Mathlib.Data.List.Basic
import Onx.Lib.BigEndian

/-!
# Stream ciphers

A text is encrypted, and decrypted, by adding a stream of bytes to it.  Any text is the decryption
of some other (`xorStream_xorStream`), and the first bytes of a text are encrypted by themselves
(`take_xorStream`).  Adding the difference of two texts changes the encryption of the one to that of
the other (`xorStream_malleable`).
-/

namespace StreamCipher

/-- `bytes` with the stream from its `n`-th byte on -/
def xorFrom (stream : Nat → Byte) (n : Nat) : Bytes → Bytes
  | [] => []
  | b :: bytes => (b ^^^ stream n) :: xorFrom stream (n + 1) bytes

def xorStream (stream : Nat → Byte) (bytes : Bytes) : Bytes := xorFrom stream 0 bytes

variable (stream : Nat → Byte)

@[simp] theorem length_xorFrom (n : Nat) (bytes : Bytes) :
    (xorFrom stream n bytes).length = bytes.length := by
  induction bytes generalizing n with
  | nil => rfl
  | cons b bytes ih => simp [xorFrom, ih]

@[simp] theorem length_xorStream (bytes : Bytes) :
    (xorStream stream bytes).length = bytes.length := length_xorFrom stream 0 bytes

theorem xorFrom_xorFrom (n : Nat) (bytes : Bytes) :
    xorFrom stream n (xorFrom stream n bytes) = bytes := by
  induction bytes generalizing n with
  | nil => rfl
  | cons b bytes ih =>
    show (b ^^^ stream n ^^^ stream n) :: xorFrom stream (n + 1) (xorFrom stream (n + 1) bytes) = _
    rw [ih, BitVec.xor_assoc, BitVec.xor_self, BitVec.xor_zero]

/-- **Decryption is encryption once more.** -/
@[simp] theorem xorStream_xorStream (bytes : Bytes) :
    xorStream stream (xorStream stream bytes) = bytes := xorFrom_xorFrom stream 0 bytes

theorem xorStream_inj {a b : Bytes} (h : xorStream stream a = xorStream stream b) : a = b := by
  rw [← xorStream_xorStream stream a, h, xorStream_xorStream]

theorem take_xorFrom (n k : Nat) (bytes : Bytes) :
    (xorFrom stream n bytes).take k = xorFrom stream n (bytes.take k) := by
  induction bytes generalizing n k with
  | nil => simp [xorFrom]
  | cons b bytes ih =>
    cases k with
    | zero => rfl
    | succ k => simp [xorFrom, ih]

theorem take_xorStream (k : Nat) (bytes : Bytes) :
    (xorStream stream bytes).take k = xorStream stream (bytes.take k) :=
  take_xorFrom stream 0 k bytes

theorem drop_xorFrom (n k : Nat) (bytes : Bytes) :
    (xorFrom stream n bytes).drop k = xorFrom stream (n + k) (bytes.drop k) := by
  induction bytes generalizing n k with
  | nil => simp [xorFrom]
  | cons b bytes ih =>
    cases k with
    | zero => rfl
    | succ k =>
      show (xorFrom stream (n + 1) bytes).drop k = xorFrom stream (n + (k + 1)) (bytes.drop k)
      rw [ih, Nat.add_assoc, Nat.add_comm 1 k]

theorem drop_xorStream_inj {k : Nat} {a b : Bytes}
    (h : (xorStream stream a).drop k = (xorStream stream b).drop k) : a.drop k = b.drop k := by
  unfold xorStream at h
  rw [drop_xorFrom, drop_xorFrom] at h
  rw [← xorFrom_xorFrom stream (0 + k) (a.drop k), h, xorFrom_xorFrom]

/-- byte by byte -/
def xorBytes (a b : Bytes) : Bytes := List.zipWith (· ^^^ ·) a b

theorem xorFrom_malleable (n : Nat) {a b : Bytes} (h : a.length = b.length) :
    xorBytes (xorFrom stream n a) (xorBytes a b) = xorFrom stream n b := by
  induction a generalizing n b with
  | nil =>
    rw [List.eq_nil_of_length_eq_zero h.symm]
    rfl
  | cons x a ih =>
    cases b with
    | nil => simp at h
    | cons y b =>
      show (x ^^^ stream n ^^^ (x ^^^ y)) :: xorBytes (xorFrom stream (n + 1) a) (xorBytes a b)
        = (y ^^^ stream n) :: xorFrom stream (n + 1) b
      have hbyte : x ^^^ stream n ^^^ (x ^^^ y) = y ^^^ stream n := by
        rw [BitVec.xor_comm x (stream n), BitVec.xor_assoc, ← BitVec.xor_assoc x x y,
          BitVec.xor_self, BitVec.zero_xor, BitVec.xor_comm]
      rw [hbyte, ih (n + 1) (Nat.succ.inj h)]

/-- **A stream cipher is malleable**: who knows a text changes it to another without the key. -/
theorem xorStream_malleable {a b : Bytes} (h : a.length = b.length) :
    xorBytes (xorStream stream a) (xorBytes a b) = xorStream stream b :=
  xorFrom_malleable stream 0 h

end StreamCipher
