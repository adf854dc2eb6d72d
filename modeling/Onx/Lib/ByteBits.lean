import Mathlib.Data.List.Basic
import Mathlib.Data.Fintype.EquivFin
import Onx.Lib.BigEndian

/-!
# Bits in byte strings

A byte string as a row of bits, the eight of a byte from its highest or from its lowest one.

* `getBit`, `setBit`   one bit; `getBit_setBit`: setting one leaves the others;
* `getBit_setBits`     bits that are set one after the other;
* `pack`               bits written into as many bytes as they need; `getBit_pack`, `pack_inj`;
* `row`                the bits of a byte string as a list; `eq_pack_iff`: packed bits are followed
                       by the zeros that complete the last byte;
* `getBit_encodeWord`  the bits of a word in its bytes; `leadingZeros_spec`: the first that is set.
-/

namespace ByteBits

/-- where the bits of a byte are -/
structure Order where
  place : Nat → Nat
  place_lt : ∀ r < 8, place r < 8
  place_inj : ∀ r < 8, ∀ s < 8, place r = place s → r = s

def msbFirst : Order where
  place r := 7 - r
  place_lt := fun _ _ => by omega
  place_inj := fun _ _ _ _ _ => by omega

def lsbFirst : Order where
  place r := r
  place_lt := fun _ h => h
  place_inj := fun _ _ _ _ h => h

variable (o : Order)

def getBit (bytes : Bytes) (i : Nat) : Bool :=
  (bytes[i / 8]?.getD 0).getLsbD (o.place (i % 8))

def setBit (bytes : Bytes) (i : Nat) : Bytes :=
  bytes.modify (i / 8) (fun b => b ||| 1#8 <<< o.place (i % 8))

def zeros (n : Nat) : Bytes := List.replicate n 0

@[simp] theorem length_setBit (bytes : Bytes) (i : Nat) :
    (setBit o bytes i).length = bytes.length := List.length_modify ..

@[simp] theorem length_zeros (n : Nat) : (zeros n).length = n := List.length_replicate

@[simp] theorem getBit_zeros (n i : Nat) : getBit o (zeros n) i = false := by
  have hbyte : (zeros n)[i / 8]?.getD 0 = 0 := by
    unfold zeros
    rw [List.getElem?_replicate]
    split_ifs <;> rfl
  unfold getBit
  rw [hbyte]
  exact BitVec.getLsbD_zero

theorem getLsbD_one_shiftLeft {p q : Nat} (hp : p < 8) :
    (1#8 <<< p).getLsbD q = decide (p = q) := by
  rw [BitVec.getLsbD_shiftLeft, BitVec.getLsbD_one]
  by_cases h : p = q
  · subst h
    simp [hp]
  · simp [h]
    omega

/-- **Setting one bit** leaves the others. -/
theorem getBit_setBit {bytes : Bytes} {i : Nat} (hi : i / 8 < bytes.length) (j : Nat) :
    getBit o (setBit o bytes i) j = (decide (i = j) || getBit o bytes j) := by
  have hi8 : i % 8 < 8 := Nat.mod_lt _ (by omega)
  have hj8 : j % 8 < 8 := Nat.mod_lt _ (by omega)
  unfold getBit setBit
  rw [List.getElem?_modify]
  by_cases hbyte : i / 8 = j / 8
  · have hbit : o.place (i % 8) = o.place (j % 8) ↔ i = j := by
      refine ⟨fun h => ?_, fun h => by rw [h]⟩
      have hmod := o.place_inj _ hi8 _ hj8 h
      omega
    rw [← hbyte, List.getElem?_eq_getElem hi]
    simp only [if_pos, Option.map_eq_map, Option.map_some, Option.getD_some]
    rw [BitVec.getLsbD_or, getLsbD_one_shiftLeft (o.place_lt _ hi8), Bool.or_comm,
      decide_eq_decide.mpr hbit]
  · have hne : i ≠ j := by
      intro h
      exact hbyte (by rw [h])
    simp [hbyte, hne]

/-- bits set one after the other -/
def setBits (is : List Nat) (bytes : Bytes) : Bytes := is.foldl (setBit o) bytes

@[simp] theorem length_setBits (is : List Nat) (bytes : Bytes) :
    (setBits o is bytes).length = bytes.length := by
  induction is generalizing bytes with
  | nil => rfl
  | cons i is ih =>
    show (setBits o is (setBit o bytes i)).length = _
    rw [ih, length_setBit]

theorem getBit_setBits {is : List Nat} {bytes : Bytes} (h : ∀ i ∈ is, i / 8 < bytes.length)
    (j : Nat) : getBit o (setBits o is bytes) j = (decide (j ∈ is) || getBit o bytes j) := by
  induction is generalizing bytes with
  | nil => simp [setBits]
  | cons i is ih =>
    have hrest : ∀ k ∈ is, k / 8 < (setBit o bytes i).length := fun k hk => by
      rw [length_setBit]
      exact h k (List.mem_cons_of_mem _ hk)
    show getBit o (setBits o is (setBit o bytes i)) j = _
    rw [ih hrest, getBit_setBit o (h i List.mem_cons_self)]
    by_cases hij : i = j
    · simp [hij]
    · simp [hij, Ne.symm hij]

/-- byte strings with the same bits are the same -/
theorem ext {a b : Bytes} (hlen : a.length = b.length)
    (h : ∀ i < 8 * a.length, getBit o a i = getBit o b i) : a = b := by
  have hplace : ∀ p < 8, ∃ r < 8, o.place r = p := by
    -- an injection of the eight positions into themselves
    intro p hp
    have hsurj : Function.Surjective fun r : Fin 8 => (⟨o.place r, o.place_lt r r.isLt⟩ : Fin 8) := by
      refine Finite.surjective_of_injective fun r s hrs => ?_
      exact Fin.ext (o.place_inj r r.isLt s s.isLt (Fin.mk.inj hrs))
    obtain ⟨r, hr⟩ := hsurj ⟨p, hp⟩
    exact ⟨r, r.isLt, congrArg Fin.val hr⟩
  refine List.ext_getElem hlen fun k hk hk' => BitVec.eq_of_getLsbD_eq fun p hp => ?_
  obtain ⟨r, hr, rfl⟩ := hplace p hp
  have hbit := h (8 * k + r) (by omega)
  have hdiv : (8 * k + r) / 8 = k := by omega
  have hmod : (8 * k + r) % 8 = r := by omega
  unfold getBit at hbit
  rwa [hdiv, hmod, List.getElem?_eq_getElem hk, List.getElem?_eq_getElem hk'] at hbit

/-! ## packed bits -/

/-- each bit that is set, written to its place -/
def pack (bits : List Bool) : Bytes :=
  bits.zipIdx.foldl (fun out (bit, i) => if bit then setBit o out i else out)
    (zeros ((bits.length + 7) / 8))

theorem foldl_pack (xs : List (Bool × Nat)) (out : Bytes) :
    xs.foldl (fun out (bit, i) => if bit then setBit o out i else out) out
      = setBits o ((xs.filter Prod.fst).map Prod.snd) out := by
  induction xs generalizing out with
  | nil => rfl
  | cons x xs ih =>
    obtain ⟨bit, i⟩ := x
    cases bit with
    | false => exact ih out
    | true => exact ih (setBit o out i)

theorem mem_ones {bits : List Bool} {i : Nat} :
    i ∈ (bits.zipIdx.filter Prod.fst).map Prod.snd ↔ bits[i]? = some true := by
  rw [List.mem_map]
  constructor
  · rintro ⟨⟨bit, k⟩, hmem, rfl⟩
    obtain ⟨hmem, hbit⟩ := List.mem_filter.mp hmem
    have hget := List.mk_mem_zipIdx_iff_getElem?.mp hmem
    rw [hget]
    exact congrArg some hbit
  · intro h
    exact ⟨(true, i), List.mem_filter.mpr ⟨List.mk_mem_zipIdx_iff_getElem?.mpr h, rfl⟩, rfl⟩

theorem length_pack (bits : List Bool) : (pack o bits).length = (bits.length + 7) / 8 := by
  unfold pack
  rw [foldl_pack, length_setBits, length_zeros]

theorem getBit_pack (bits : List Bool) (i : Nat) :
    getBit o (pack o bits) i = bits[i]?.getD false := by
  have hin : ∀ k ∈ (bits.zipIdx.filter Prod.fst).map Prod.snd,
      k / 8 < (zeros ((bits.length + 7) / 8)).length := by
    intro k hk
    have hlt := (List.getElem?_eq_some_iff.mp (mem_ones.mp hk)).1
    rw [length_zeros]
    omega
  unfold pack
  rw [foldl_pack, getBit_setBits o hin, getBit_zeros, Bool.or_false]
  by_cases h : i ∈ (bits.zipIdx.filter Prod.fst).map Prod.snd
  · rw [decide_eq_true h, mem_ones.mp h]
    rfl
  · rw [decide_eq_false h]
    rw [mem_ones] at h
    cases hget : bits[i]? with
    | none => rfl
    | some b =>
      cases b with
      | false => rfl
      | true => exact absurd hget h

/-- **Packed bits and their number determine the bits.** -/
theorem pack_inj {a b : List Bool} (hlen : a.length = b.length) (h : pack o a = pack o b) :
    a = b := by
  refine List.ext_getElem hlen fun i hi hi' => ?_
  have hbit : getBit o (pack o a) i = getBit o (pack o b) i := by rw [h]
  rwa [getBit_pack, getBit_pack, List.getElem?_eq_getElem hi, List.getElem?_eq_getElem hi'] at hbit

/-! ## rows of bits -/

/-- how many bits complete the last byte -/
def padding (n : Nat) : Nat := 8 * ((n + 7) / 8) - n

theorem getElem?_map_range (f : Nat → Bool) (n i : Nat) :
    ((List.range n).map f)[i]? = if i < n then some (f i) else none := by
  rw [List.getElem?_map]
  split_ifs with hi
  · rw [List.getElem?_range hi]
    rfl
  · rw [List.getElem?_eq_none (by rw [List.length_range]; omega)]
    rfl

/-- the bits of a byte string -/
def row (bytes : Bytes) : List Bool := (List.range (8 * bytes.length)).map (getBit o bytes)

@[simp] theorem length_row (bytes : Bytes) : (row o bytes).length = 8 * bytes.length := by
  unfold row
  rw [List.length_map, List.length_range]

theorem getElem?_row (bytes : Bytes) (i : Nat) :
    (row o bytes)[i]? = if i < 8 * bytes.length then some (getBit o bytes i) else none := by
  exact getElem?_map_range ..

theorem row_inj {a b : Bytes} : row o a = row o b ↔ a = b := by
  refine ⟨fun h => ?_, fun h => by rw [h]⟩
  have hlen : 8 * a.length = 8 * b.length := by
    rw [← length_row o a, ← length_row o b, h]
  refine ext o (by omega) fun i hi => ?_
  have hget : (row o a)[i]? = (row o b)[i]? := by rw [h]
  rw [getElem?_row, getElem?_row, if_pos hi, if_pos (by omega)] at hget
  exact Option.some.inj hget

theorem getBit_eq_false {bytes : Bytes} {i : Nat} (h : 8 * bytes.length ≤ i) :
    getBit o bytes i = false := by
  unfold getBit
  rw [List.getElem?_eq_none (by omega)]
  exact BitVec.getLsbD_zero

theorem getBit_append (a b : Bytes) (i : Nat) : getBit o (a ++ b) i
    = if i < 8 * a.length then getBit o a i else getBit o b (i - 8 * a.length) := by
  unfold getBit
  rw [List.getElem?_append]
  split_ifs with hbyte hbit hbit
  · rfl
  · omega
  · omega
  · have hdiv : i / 8 - a.length = (i - 8 * a.length) / 8 := by omega
    have hmod : i % 8 = (i - 8 * a.length) % 8 := by omega
    rw [hdiv, hmod]

theorem row_append (a b : Bytes) : row o (a ++ b) = row o a ++ row o b := by
  refine List.ext_getElem? fun i => ?_
  rw [List.getElem?_append, getElem?_row, getElem?_row, getElem?_row, length_row, getBit_append,
    List.length_append]
  split_ifs <;> first | rfl | omega

/-- packed bits, and the zeros behind them -/
theorem row_pack (bits : List Bool) :
    row o (pack o bits) = bits ++ List.replicate (padding bits.length) false := by
  refine List.ext_getElem? fun i => ?_
  rw [getElem?_row, length_pack, getBit_pack, List.getElem?_append, List.getElem?_replicate]
  unfold padding
  by_cases hi : i < bits.length
  · rw [if_pos (by omega), if_pos hi, List.getElem?_eq_getElem hi]
    rfl
  · rw [if_neg hi, List.getElem?_eq_none (Nat.not_lt.mp hi)]
    split_ifs <;> first | rfl | omega

theorem eq_pack_iff {bytes : Bytes} {bits : List Bool} :
    bytes = pack o bits ↔ row o bytes = bits ++ List.replicate (padding bits.length) false := by
  rw [← row_pack, row_inj]

/-! ## words -/

theorem getElem?_beBytes (n v k : Nat) (hk : k < n) :
    (beBytes n v)[k]? = some (BitVec.ofNat 8 (v / 256^(n - 1 - k))) := by
  induction n generalizing k with
  | zero => exact absurd hk (Nat.not_lt_zero k)
  | succ n ih =>
    unfold beBytes
    cases k with
    | zero => rfl
    | succ k =>
      rw [List.getElem?_cons_succ, ih k (by omega)]
      congr 4
      omega

theorem getBit_encodeWord {n w : Nat} (hw : w = 8 * n) (x : BitVec w) (i : Nat) :
    getBit msbFirst (encodeWord n x) i = x.getMsbD i := by
  by_cases hi : i < w
  · have hk : i / 8 < n := by omega
    unfold getBit encodeWord
    rw [getElem?_beBytes n x.toNat (i / 8) hk]
    show (BitVec.ofNat 8 (x.toNat / 256^(n - 1 - i / 8))).getLsbD (7 - i % 8) = _
    have hpow : (256 : Nat)^(n - 1 - i / 8) = 2^(8 * (n - 1 - i / 8)) := pow256 _
    have hplace : 7 - i % 8 + 8 * (n - 1 - i / 8) = w - 1 - i := by omega
    rw [BitVec.getLsbD_ofNat, hpow, Nat.testBit_div_two_pow, hplace, BitVec.testBit_toNat,
      BitVec.getMsbD_eq_getLsbD]
    have h8 : 7 - i % 8 < 8 := by omega
    simp [hi, h8]
  · rw [getBit_eq_false msbFirst (by rw [length_encodeWord]; omega), BitVec.getMsbD_of_ge _ _ (by omega)]

/-- the number of zeros before the first bit of a byte that is set -/
def leadingZeros (byte : Byte) : Nat := (List.range 8).findIdx byte.getMsbD

theorem leadingZeros_spec {byte : Byte} (h : byte ≠ 0) :
    leadingZeros byte < 8 ∧ byte.getMsbD (leadingZeros byte) = true
      ∧ ∀ j < leadingZeros byte, byte.getMsbD j = false := by
  have hex : ∃ i ∈ List.range 8, byte.getMsbD i = true := by
    by_contra hnone
    push Not at hnone
    refine h (BitVec.eq_of_getMsbD_eq fun i hi => ?_)
    have hfalse := hnone i (List.mem_range.mpr hi)
    rw [Bool.eq_false_of_not_eq_true hfalse]
    exact BitVec.getMsbD_zero.symm
  have hlt : leadingZeros byte < (List.range 8).length := List.findIdx_lt_length_of_exists hex
  have hfound := @List.findIdx_getElem _ byte.getMsbD (List.range 8) hlt
  have hrange : ∀ (j : Nat) (hj : j < (List.range 8).length), (List.range 8)[j] = j :=
    fun _ hj => List.getElem_range hj
  refine ⟨(List.length_range (n:=8)) ▸ hlt, (congrArg byte.getMsbD (hrange _ hlt)).symm.trans hfound,
    fun j hj => ?_⟩
  have hbefore := List.not_of_lt_findIdx hj
  rw [hrange j (hj.trans hlt)] at hbefore
  exact hbefore

end ByteBits
