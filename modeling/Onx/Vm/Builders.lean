import Onx.Vm.Bits
import Onx.Vm.CellSteps

/-!
# What a builder holds

Bits are written where the counted bits end, bytes where the bytes end. The two are the same only
as long as no bytes were written and the bits fill their last byte.

* `Write`                 what is written, with the bits it stands for;
* `Wrote`, `Writes`, `Built`, `Ended`   successful steps, from a fresh builder to a cell;
* `Write.Applied`, `applies_of_writes`   what they make of the builder;
* `Split`                 a builder with bits, the rest of their last byte, and bytes;
* `InPlace`               later bits fit that rest, and what was written reads the same there;
* `concatenates_iff`      **when a cell holds what was written, in order**;
* `bits_misplaced`        bits written behind a byte.
-/

namespace Onx.Vm
open Machine ByteBits

inductive Write where
  | bits (widthBits : Nat) (valBytes : Uint256)
  | bytes (v : Bytes)
  | ref (cell : Cell)

namespace Write

/-- what is written with a width -/
def bitRow : Write → List Bool
  | .bits widthBits valBytes => wordBits widthBits valBytes
  | _ => []

/-- what is written as bytes -/
def byteRow : Write → List Bool
  | .bytes v => ByteBits.row msbFirst v
  | _ => []

/-- what is written -/
def row (x : Write) : List Bool := x.bitRow ++ x.byteRow

/-- what a successful write makes of a builder -/
def Applied : Write → Builder → Builder → Prop
  | .bits widthBits valBytes, b, b' => Builder.appendBits valBytes widthBits b = .ok () b'
  | .bytes v, b, b' =>
    b.dataBytes.length + v.length ≤ 128 ∧ b' = { b with dataBytes := b.dataBytes ++ v }
  | .ref cell, b, b' =>
    b.references.length < 4 ∧ b' = { b with references := b.references ++ [cell] }

end Write

/-! ## steps -/

/-- a successful step of a write, from one builder to the next -/
inductive Wrote (c : Crypto) : Write → Builder → Builder → Prop where
  | bits {s t : Interpreter} {width : Uint16} {signed : Byte} {valBytes : Uint256} {b b' : Builder}
      {rest rest' : List StackValue} (hop : opcodeAt s = some .stBits)
      (himm : immediates s.currentCode (s.pcBits + 8) = some (width, signed))
      (hstack : s.stack = .integer valBytes :: .builder b :: rest)
      (hstep : step c s = .ok true t) (hresult : t.stack = .builder b' :: rest') :
      Wrote c (.bits width.toNat valBytes) b b'
  | bytes {s t : Interpreter} {v : Bytes} {b b' : Builder} {rest rest' : List StackValue}
      (hop : opcodeAt s = some .stBytes) (hstack : s.stack = .bytes v :: .builder b :: rest)
      (hstep : step c s = .ok true t) (hresult : t.stack = .builder b' :: rest') :
      Wrote c (.bytes v) b b'
  | ref {s t : Interpreter} {cell : Cell} {b b' : Builder} {rest rest' : List StackValue}
      (hop : opcodeAt s = some .stRef) (hstack : s.stack = .cell cell :: .builder b :: rest)
      (hstep : step c s = .ok true t) (hresult : t.stack = .builder b' :: rest') :
      Wrote c (.ref cell) b b'

/-- one write after the other, wherever the builder is in between -/
inductive Writes (c : Crypto) : List Write → Builder → Builder → Prop where
  | nil {b : Builder} : Writes c [] b b
  | cons {x : Write} {xs : List Write} {b mid b' : Builder} (h : Wrote c x b mid)
      (rest : Writes c xs mid b') : Writes c (x :: xs) b b'

/-- a builder that `NEWC` pushes -/
def Fresh (c : Crypto) (b : Builder) : Prop :=
  ∃ s t rest, opcodeAt s = some .newC ∧ step c s = .ok true t ∧ t.stack = .builder b :: rest

/-- writes on a fresh builder -/
def Built (c : Crypto) (xs : List Write) (b : Builder) : Prop :=
  ∃ fresh, Fresh c fresh ∧ Writes c xs fresh b

/-- the cell that `ENDC` pushes for a builder -/
def Ended (c : Crypto) (b : Builder) (cell : Cell) : Prop :=
  ∃ s t rest rest', opcodeAt s = some .endC ∧ s.stack = .builder b :: rest
    ∧ step c s = .ok true t ∧ t.stack = .cell cell :: rest'

/-- writes, applied one after the other -/
def Applies : List Write → Builder → Builder → Prop
  | [], b, b' => b' = b
  | x :: xs, b, b' => ∃ mid, x.Applied b mid ∧ Applies xs mid b'

section
variable {c : Crypto} {s t : Interpreter} {b b' : Builder} {x : Write} {xs ys : List Write}
  {rest rest' : List StackValue} {cell : Cell}

theorem applied_of_wrote (h : Wrote c x b b') : x.Applied b b' := by
  cases h with
  | @bits s t width signed valBytes _ _ rest _ hop himm hstack hstep hresult =>
    rw [step_stBits hop (hasGas_of_step hop rfl hstep) himm hstack] at hstep
    obtain ⟨_, mid, happend, hpush⟩ := onLocal_bind_eq_ok.mp (goneOn_eq_ok.mp hstep).2
    show Builder.appendBits valBytes width.toNat b = .ok () b'
    rw [happend, StackValue.builder.inj (eq_of_push hpush hresult)]
  | @bytes s t v _ _ rest _ hop hstack hstep hresult =>
    have hgas : HasGas s (10 + divCeil v.length 32) := by
      by_contra hgas
      have hbody : stBytes (behindOpcode s)
          = .err .outOfGas { behindOpcode s with stack := .builder b :: rest, gasUsed := s.gasLimit } :=
        (operand_bind .bytes (s := behindOpcode s) hstack rfl).trans
          (bind_err (consumeGas_out (s := { behindOpcode s with stack := .builder b :: rest })
            (Nat.not_le.mp hgas)))
      rw [step_goesOn_err hop rfl hbody] at hstep
      cases hstep
    rw [step_stBytes hop hgas hstack] at hstep
    obtain ⟨hfull, hpush⟩ := failIf_bind_eq_ok.mp (goneOn_eq_ok.mp hstep).2
    exact ⟨Nat.not_lt.mp hfull, StackValue.builder.inj (eq_of_push hpush hresult)⟩
  | @ref s t cell _ _ rest _ hop hstack hstep hresult =>
    rw [step_stRef hop (hasGas_of_step hop rfl hstep) hstack] at hstep
    obtain ⟨hfull, hpush⟩ := failIf_bind_eq_ok.mp (goneOn_eq_ok.mp hstep).2
    exact ⟨Nat.not_le.mp hfull, StackValue.builder.inj (eq_of_push hpush hresult)⟩

theorem applies_of_writes (h : Writes c xs b b') : Applies xs b b' := by
  induction h with
  | nil => rfl
  | cons h rest ih => exact ⟨_, applied_of_wrote h, ih⟩

theorem eq_of_fresh (h : Fresh c b) : b = Builder.default := by
  obtain ⟨s, t, rest, hop, hstep, hresult⟩ := h
  rw [step_newC hop (hasGas_of_step hop rfl hstep)] at hstep
  exact StackValue.builder.inj (eq_of_push (goneOn_eq_ok.mp hstep).2 hresult)

theorem applies_of_built (h : Built c xs b) : Applies xs Builder.default b := by
  obtain ⟨fresh, hfresh, hwrites⟩ := h
  rw [← eq_of_fresh hfresh]
  exact applies_of_writes hwrites

/-- the cell of a builder -/
theorem ended_cell (h : Ended c b cell) : cell.dataBytes = b.dataBytes
    ∧ cell.cellRefs = b.references.map (Cell.hash c) ∧ cell.isSpecial = false := by
  obtain ⟨s, t, rest, rest', hop, hstack, hstep, hresult⟩ := h
  rw [step_endC hop (hasGas_of_step hop rfl hstep) hstack] at hstep
  unfold Cell.new Cell.newWithSpecial at hstep
  by_cases hdata : b.dataBytes.length > MAX_CELL_DATA_BYTES
  · rw [dif_pos hdata] at hstep
    cases hstep
  · rw [dif_neg hdata] at hstep
    by_cases hrefs : (b.references.map (Cell.hash c)).length > MAX_CELL_REFS
    · rw [dif_pos hrefs] at hstep
      cases hstep
    · rw [dif_neg hrefs] at hstep
      rw [StackValue.cell.inj (eq_of_push (goneOn_eq_ok.mp hstep).2 hresult)]
      exact ⟨rfl, rfl, rfl⟩

theorem applies_append : Applies (xs ++ ys) b b' ↔ ∃ mid, Applies xs b mid ∧ Applies ys mid b' := by
  induction xs generalizing b with
  | nil => exact ⟨fun h => ⟨b, rfl, h⟩, fun ⟨mid, hmid, h⟩ => hmid ▸ h⟩
  | cons x xs ih =>
    constructor
    · rintro ⟨next, hx, h⟩
      obtain ⟨mid, hxs, hys⟩ := ih.mp h
      exact ⟨mid, ⟨next, hx, hxs⟩, hys⟩
    · rintro ⟨mid, ⟨next, hx, hxs⟩, hys⟩
      exact ⟨next, hx, ih.mpr ⟨mid, hxs, hys⟩⟩

end

/-! ## bits and bytes -/

/-- bits, the rest of their last byte, and bytes -/
structure Split (b : Builder) (front : List Bool) (tail : Bytes) : Prop where
  dataBytes_eq : b.dataBytes = ByteBits.pack msbFirst front ++ tail
  currentBitLen_eq : b.currentBitLen = front.length

section
variable {b b' : Builder} {x : Write} {xs : List Write} {front bits : List Bool} {tail : Bytes}
  {widthBits : Nat} {valBytes : Uint256}

theorem byteRow_eq_nil_iff {v : Bytes} : (Write.bytes v).byteRow = [] ↔ v = [] := by
  show row msbFirst v = [] ↔ _
  rw [← List.length_eq_zero_iff, length_row, ← List.length_eq_zero_iff]
  omega

theorem applied_packed (h : x.Applied b b') (hno : x.byteRow = []) (hb : Packed b bits) :
    Packed b' (bits ++ x.row) := by
  rw [show x.row = x.bitRow ++ x.byteRow from rfl, hno, List.append_nil]
  cases x with
  | bits widthBits valBytes => exact packed_appendBits hb h
  | bytes v =>
    obtain ⟨_, rfl⟩ := (show _ ∧ b' = _ from h)
    obtain rfl := byteRow_eq_nil_iff.mp hno
    rw [show (Write.bytes []).bitRow = [] from rfl, List.append_nil, List.append_nil]
    exact hb
  | ref cell =>
    obtain ⟨_, rfl⟩ := (show _ ∧ b' = _ from h)
    rw [show (Write.ref cell).bitRow = [] from rfl, List.append_nil]
    exact ⟨hb.dataBytes_eq, hb.currentBitLen_eq⟩

/-- without bytes the bits are packed -/
theorem applies_packed (h : Applies xs b b') (hno : ∀ x ∈ xs, x.byteRow = []) (hb : Packed b bits) :
    Packed b' (bits ++ xs.flatMap Write.row) := by
  induction xs generalizing b bits with
  | nil =>
    rw [show b' = b from h, List.flatMap_nil, List.append_nil]
    exact hb
  | cons x xs ih =>
    obtain ⟨mid, hx, hxs⟩ := h
    have hmid := applied_packed hx (hno x List.mem_cons_self) hb
    rw [List.flatMap_cons, ← List.append_assoc]
    exact ih hxs (fun y hy => hno y (List.mem_cons_of_mem _ hy)) hmid

/-- bits that fit the rest of the last byte -/
theorem split_of_appendBits (hb : Split b front tail)
    (hroom : widthBits ≤ padding front.length)
    (h : Builder.appendBits valBytes widthBits b = .ok () b') :
    Split b' (front ++ wordBits widthBits valBytes) tail := by
  obtain ⟨hdata, hlen⟩ := hb
  have hfits : b.Fits := by
    show b.currentBitLen ≤ 8 * b.dataBytes.length
    rw [hdata, hlen, List.length_append, ByteBits.length_pack]
    omega
  have hbytes : (ByteBits.pack msbFirst (front ++ wordBits widthBits valBytes)).length
      = (ByteBits.pack msbFirst front).length := by
    unfold padding at hroom
    rw [ByteBits.length_pack, ByteBits.length_pack, List.length_append, length_wordBits]
    omega
  obtain ⟨_, hlen', hlength, hbits⟩ := appendBits_bits hfits h
  rw [hlen] at hlen' hlength hbits
  rw [hdata] at hlength hbits
  refine ⟨ByteBits.ext msbFirst ?_ fun j _ => ?_, ?_⟩
  · rw [hlength, List.length_append, List.length_append, hbytes, ByteBits.length_pack]
    unfold padding at hroom
    omega
  · rw [hbits, getBit_append, getBit_append, hbytes]
    split_ifs with hj
    · rw [getBit_pack, getBit_pack, getBit_append_wordBits]
    · have hbehind : ¬ (front.length ≤ j ∧ j < front.length + widthBits) := by
        unfold padding at hroom
        rw [ByteBits.length_pack] at hj
        omega
      rw [decide_eq_false hbehind, Bool.false_and, Bool.or_false]
  · rw [hlen', List.length_append, length_wordBits]

/-- a write whose bits fit that rest -/
theorem applied_split (h : x.Applied b b') (hb : Split b front tail)
    (hroom : x.bitRow.length ≤ padding front.length) :
    ∃ tail', Split b' (front ++ x.bitRow) tail'
      ∧ row msbFirst tail' = row msbFirst tail ++ x.byteRow := by
  cases x with
  | bits widthBits valBytes =>
    have hwidth : (Write.bits widthBits valBytes).bitRow.length = widthBits :=
      length_wordBits widthBits valBytes
    exact ⟨tail, split_of_appendBits hb (by omega) h, (List.append_nil _).symm⟩
  | bytes v =>
    obtain ⟨_, rfl⟩ := (show _ ∧ b' = _ from h)
    rw [show (Write.bytes v).bitRow = [] from rfl, List.append_nil,
      show (Write.bytes v).byteRow = row msbFirst v from rfl, ← row_append]
    refine ⟨tail ++ v, ⟨?_, hb.currentBitLen_eq⟩, rfl⟩
    show b.dataBytes ++ v = _
    rw [hb.dataBytes_eq, List.append_assoc]
  | ref cell =>
    obtain ⟨_, rfl⟩ := (show _ ∧ b' = _ from h)
    rw [show (Write.ref cell).bitRow = [] from rfl, List.append_nil]
    exact ⟨tail, ⟨hb.dataBytes_eq, hb.currentBitLen_eq⟩, (List.append_nil _).symm⟩

/-- bits and bytes, as long as the bits fit the rest of the last byte -/
theorem applies_split (h : Applies xs b b') (hb : Split b front tail)
    (hroom : (xs.flatMap Write.bitRow).length ≤ padding front.length) :
    ∃ tail', Split b' (front ++ xs.flatMap Write.bitRow) tail'
      ∧ row msbFirst tail' = row msbFirst tail ++ xs.flatMap Write.byteRow := by
  induction xs generalizing b front tail with
  | nil =>
    refine ⟨tail, ?_, (List.append_nil _).symm⟩
    rw [show b' = b from h, List.flatMap_nil, List.append_nil]
    exact hb
  | cons x xs ih =>
    obtain ⟨mid, hx, hxs⟩ := h
    rw [List.flatMap_cons, List.length_append] at hroom
    obtain ⟨tail', hmid, htail⟩ := applied_split hx hb (by omega)
    rw [List.flatMap_cons, List.flatMap_cons, ← List.append_assoc, ← List.append_assoc, ← htail]
    refine ih hxs hmid ?_
    rw [List.length_append]
    unfold padding at hroom ⊢
    omega

/-- how many bytes one write leaves at most -/
theorem applied_length (h : x.Applied b b') (hb : b.Fits) : b'.Fits
    ∧ b'.currentBitLen = b.currentBitLen + x.bitRow.length
    ∧ 8 * b'.dataBytes.length ≤ max (8 * b.dataBytes.length) (8 * ((b'.currentBitLen + 7) / 8))
      + x.byteRow.length := by
  cases x with
  | bits widthBits valBytes =>
    obtain ⟨hfits, hlen, hlength, _⟩ := appendBits_bits hb h
    have hwidth : (Write.bits widthBits valBytes).bitRow.length = widthBits :=
      length_wordBits widthBits valBytes
    exact ⟨hfits, by omega, by omega⟩
  | bytes v =>
    obtain ⟨_, rfl⟩ := (show _ ∧ b' = _ from h)
    have hrow : (Write.bytes v).byteRow.length = 8 * v.length := length_row msbFirst v
    have hlength : (b.dataBytes ++ v).length = b.dataBytes.length + v.length := List.length_append
    unfold Builder.Fits at hb ⊢
    dsimp only
    exact ⟨by omega, rfl, by omega⟩
  | ref cell =>
    obtain ⟨_, rfl⟩ := (show _ ∧ b' = _ from h)
    exact ⟨hb, rfl, Nat.le_add_right_of_le (Nat.le_max_left _ _)⟩

/-- how many bytes there are at most -/
theorem applies_length (h : Applies xs b b') (hb : b.Fits) : b'.Fits
    ∧ b'.currentBitLen = b.currentBitLen + (xs.flatMap Write.bitRow).length
    ∧ 8 * b'.dataBytes.length ≤ max (8 * b.dataBytes.length) (8 * ((b'.currentBitLen + 7) / 8))
      + (xs.flatMap Write.byteRow).length := by
  induction xs generalizing b with
  | nil =>
    rw [show b' = b from h]
    exact ⟨hb, rfl, by rw [List.flatMap_nil, List.length_nil]; omega⟩
  | cons x xs ih =>
    obtain ⟨mid, hx, hxs⟩ := h
    obtain ⟨hfits, hlen, hbytes⟩ := applied_length hx hb
    obtain ⟨ihfits, ihlen, ihbytes⟩ := ih hxs hfits
    rw [List.flatMap_cons, List.flatMap_cons, List.length_append, List.length_append]
    exact ⟨ihfits, by omega, by omega⟩

end

/-! ## order -/

/-- the writes before the first byte -/
def firstWrites (xs : List Write) : List Write := xs.takeWhile fun x => x.byteRow.isEmpty

/-- the writes from the first byte on -/
def laterWrites (xs : List Write) : List Write := xs.dropWhile fun x => x.byteRow.isEmpty

/-- what is written later has its bits fit the last byte of what was written first, and reads the
same if its bits come first, then zeros up to the byte, then its bytes -/
def InPlace (xs : List Write) : Prop :=
  let room := padding ((firstWrites xs).flatMap Write.row).length
  let later := laterWrites xs
  let bits := later.flatMap Write.bitRow
  let zeros := List.replicate (room - bits.length) false
  bits.length ≤ room ∧ later.flatMap Write.row ++ zeros = bits ++ zeros ++ later.flatMap Write.byteRow

theorem length_flatMap_row (xs : List Write) : (xs.flatMap Write.row).length
    = (xs.flatMap Write.bitRow).length + (xs.flatMap Write.byteRow).length := by
  induction xs with
  | nil => rfl
  | cons x xs ih =>
    rw [List.flatMap_cons, List.flatMap_cons, List.flatMap_cons, List.length_append,
      List.length_append, List.length_append, ih]
    unfold Write.row
    rw [List.length_append]
    omega

theorem applies_xs {xs : List Write} {b b' : Builder} (h : Applies xs b b') (hb : Packed b []) :
    ∃ mid, Packed mid ((firstWrites xs).flatMap Write.row) ∧ Applies (laterWrites xs) mid b' := by
  have hsplit : firstWrites xs ++ laterWrites xs = xs := List.takeWhile_append_dropWhile
  rw [← hsplit] at h
  obtain ⟨mid, hfirst, hlater⟩ := applies_append.mp h
  have hnone : ∀ x ∈ firstWrites xs, x.byteRow = [] := fun x hx =>
    List.isEmpty_iff.mp (List.all_eq_true.mp List.all_takeWhile x hx)
  exact ⟨mid, applies_packed hfirst hnone hb, hlater⟩

/-- bits that do not fit leave the builder too short -/
theorem applies_short {xs : List Write} {mid b : Builder} {front : List Bool}
    (h : Applies (laterWrites xs) mid b) (hmid : Packed mid front)
    (hroom : padding front.length < ((laterWrites xs).flatMap Write.bitRow).length) :
    b.dataBytes.length
      < (ByteBits.pack msbFirst (front ++ (laterWrites xs).flatMap Write.row)).length := by
  have hhead := List.head?_dropWhile_not (fun x : Write => x.byteRow.isEmpty) xs
  have hdata : mid.dataBytes.length = (front.length + 7) / 8 := by
    rw [hmid.dataBytes_eq, ByteBits.length_pack]
  rw [ByteBits.length_pack, List.length_append, length_flatMap_row]
  unfold padding at hroom
  cases hlater : laterWrites xs with
  | nil =>
    rw [hlater] at hroom
    exact absurd hroom (Nat.not_lt_zero _)
  | cons x rest =>
    rw [show xs.dropWhile _ = x :: rest from hlater] at hhead
    have hx : x.byteRow ≠ [] := fun hempty => by
      rw [List.head?_cons] at hhead
      dsimp only at hhead
      rw [hempty] at hhead
      cases hhead
    cases x with
    | bits widthBits valBytes => exact absurd rfl hx
    | ref cell => exact absurd rfl hx
    | bytes v =>
      have hv : v.length ≠ 0 := fun hzero =>
        hx (byteRow_eq_nil_iff.mpr (List.length_eq_zero_iff.mp hzero))
      rw [hlater] at h hroom
      obtain ⟨next, hnext, hrest⟩ := h
      obtain ⟨_, hlen, hbytes⟩ := applies_length hrest (applied_length hnext hmid.fits).1
      obtain ⟨_, rfl⟩ := (show _ ∧ next = _ from hnext)
      have hcount : mid.currentBitLen = front.length := hmid.currentBitLen_eq
      have hrow : (Write.bytes v).byteRow.length = 8 * v.length := length_row msbFirst v
      have hnone : (Write.bytes v).bitRow.length = 0 := rfl
      dsimp only at hlen hbytes
      rw [List.length_append] at hbytes
      rw [List.flatMap_cons, List.length_append] at hroom
      rw [List.flatMap_cons, List.flatMap_cons, List.length_append, List.length_append]
      omega

/-- no bits are written behind bytes, and the bits before them fill their last byte -/
theorem inPlace_of_aligned {xs : List Write}
    (hbits : (laterWrites xs).flatMap Write.bitRow = [])
    (hfull : padding ((firstWrites xs).flatMap Write.row).length = 0) : InPlace xs := by
  have hrow : (laterWrites xs).flatMap Write.row = (laterWrites xs).flatMap Write.byteRow := by
    refine List.flatMap_congr fun x hx => ?_
    unfold Write.row
    rw [List.flatMap_eq_nil_iff.mp hbits x hx, List.nil_append]
  unfold InPlace
  dsimp only
  rw [hbits, hfull, hrow]
  refine ⟨le_refl _, ?_⟩
  show _ ++ [] = [] ++ [] ++ _
  rw [List.append_nil, List.append_nil, List.nil_append]

/-- **When a cell holds what was written, in order**, followed by the zeros that complete its last
byte. -/
theorem concatenates_iff {c : Crypto} {xs : List Write} {b : Builder} {cell : Cell}
    (hbuilt : Built c xs b) (hended : Ended c b cell) :
    cell.dataBytes = ByteBits.pack msbFirst (xs.flatMap Write.row) ↔ InPlace xs := by
  obtain ⟨mid, hmid, hlater⟩ := applies_xs (applies_of_built hbuilt) packed_default
  have hwritten : xs.flatMap Write.row
      = (firstWrites xs).flatMap Write.row ++ (laterWrites xs).flatMap Write.row := by
    rw [← List.flatMap_append]
    exact congrArg _ List.takeWhile_append_dropWhile.symm
  rw [(ended_cell hended).1, hwritten]
  unfold InPlace
  dsimp only
  have hlength := length_flatMap_row (laterWrites xs)
  generalize (firstWrites xs).flatMap Write.row = front at hmid
  by_cases hroom : ((laterWrites xs).flatMap Write.bitRow).length ≤ padding front.length
  · rw [and_iff_right hroom, eq_pack_iff]
    have hstart : Split mid front [] := by
      refine ⟨?_, hmid.currentBitLen_eq⟩
      rw [hmid.dataBytes_eq, List.append_nil]
    obtain ⟨tail, hsplit, htail⟩ := applies_split hlater hstart hroom
    rw [show ByteBits.row msbFirst ([] : Bytes) = [] from rfl, List.nil_append] at htail
    have hbytes : ((laterWrites xs).flatMap Write.byteRow).length = 8 * tail.length := by
      rw [← htail, length_row]
    have hbits : padding (front ++ (laterWrites xs).flatMap Write.bitRow).length
        = padding front.length - ((laterWrites xs).flatMap Write.bitRow).length := by
      rw [List.length_append]
      unfold padding at hroom ⊢
      omega
    have hall : padding (front ++ (laterWrites xs).flatMap Write.row).length
        = padding front.length - ((laterWrites xs).flatMap Write.bitRow).length := by
      rw [List.length_append, hlength, hbytes]
      unfold padding at hroom ⊢
      omega
    rw [hsplit.dataBytes_eq, row_append, row_pack, htail, hbits, hall, List.append_assoc,
      List.append_assoc, List.append_assoc, List.append_cancel_left_eq, eq_comm, List.append_assoc]
  · refine iff_of_false (fun h => ?_) fun h => hroom h.1
    have hshort := applies_short hlater hmid (Nat.not_le.mp hroom)
    rw [h] at hshort
    exact Nat.lt_irrefl _ hshort

theorem fresh_default (c : Crypto) : Fresh c Builder.default :=
  ⟨oneInstruction (codeOf [0x40] (by decide)) [], _, [],
    opcodeAt_oneInstruction .newC _ (by decide) [], rfl, rfl⟩

/-- 8 bits behind a builder -/
theorem wrote_byte (c : Crypto) {valBytes : Uint256} {b b' : Builder}
    (h : Builder.appendBits valBytes 8 b = .ok () b') :
    Wrote c (.bits 8 valBytes) b b' := by
  have hop := opcodeAt_oneInstruction .stBits (codeOf [0x42, 0, 8, 0] (by decide))
    (by decide) [.integer valBytes, .builder b]
  have himm : immediates (codeOf [0x42, 0, 8, 0] (by decide)) 8 = some (8, 0) := by decide
  have hstep := step_stBits (c := c) hop (Nat.le_of_ble_eq_true rfl) himm rfl
  rw [onLocal_eq, show Builder.appendBits valBytes (8 : Uint16).toNat b = .ok () b' from h] at hstep
  exact .bits hop himm rfl (hstep.trans rfl) rfl

/-- a byte string behind a builder -/
theorem wrote_bytes (c : Crypto) {v : Bytes} {b : Builder} (h : b.dataBytes.length + v.length ≤ 128) :
    Wrote c (.bytes v) b { b with dataBytes := b.dataBytes ++ v } := by
  have hop := opcodeAt_oneInstruction .stBytes (codeOf [0x44] (by decide))
    (by decide) [.bytes v, .builder b]
  have hgas : HasGas (oneInstruction (codeOf [0x44] (by decide)) [.bytes v, .builder b])
      (10 + divCeil v.length 32) := by
    show min (0 + (10 + (v.length + 31) / 32)) (2^64 - 1) ≤ 1000
    omega
  have hstep := step_stBytes (c := c) hop hgas rfl
  rw [bind_ok (failIf_neg (Nat.not_lt.mpr h) _ _)] at hstep
  exact .bytes hop rfl (hstep.trans rfl) rfl

theorem ended_of_le (c : Crypto) {b : Builder} (hdata : b.dataBytes.length ≤ MAX_CELL_DATA_BYTES)
    (hrefs : (b.references.map (Cell.hash c)).length ≤ MAX_CELL_REFS) :
    Ended c b ⟨b.dataBytes, b.references.map (Cell.hash c), false, hdata,
      hrefs⟩ := by
  have hop := opcodeAt_oneInstruction .endC (codeOf [0x41] (by decide))
    (by decide) [.builder b]
  have hstep := step_endC (c := c) hop (Nat.le_of_ble_eq_true rfl) rfl
  unfold Cell.new at hstep
  rw [Cell.newWithSpecial_eq hdata hrefs] at hstep
  exact ⟨_, _, _, _, hop, rfl, hstep.trans rfl, rfl⟩

theorem concatenates_sample : ∃ b cell,
    Built sampleCrypto [.bits 8 0xAB, .bytes [0xCD]] b ∧ Ended sampleCrypto b cell
    ∧ cell.dataBytes = ByteBits.pack msbFirst [true, false, true, false, true, false, true, true,
      true, true, false, false, true, true, false, true] := by
  have hbits : Wrote sampleCrypto (.bits 8 0xAB) Builder.default ⟨[0xAB], 8, []⟩ := wrote_byte _ rfl
  have hbytes : Wrote sampleCrypto (.bytes [0xCD]) ⟨[0xAB], 8, []⟩ ⟨[0xAB, 0xCD], 8, []⟩ :=
    wrote_bytes _ (b := ⟨[0xAB], 8, []⟩) (by decide)
  have hbuilt : Built sampleCrypto [.bits 8 0xAB, .bytes [0xCD]] ⟨[0xAB, 0xCD], 8, []⟩ :=
    ⟨_, fresh_default _, .cons hbits (.cons hbytes .nil)⟩
  have hended := ended_of_le sampleCrypto (b := ⟨[0xAB, 0xCD], 8, []⟩) (by decide) (Nat.zero_le _)
  exact ⟨_, _, hbuilt, hended, (concatenates_iff hbuilt hended).mpr (inPlace_of_aligned rfl rfl)⟩

/-- 8 bits behind the byte FF are joined to it -/
theorem bits_misplaced :
    (∃ b cell, Built sampleCrypto [.bytes [0xFF], .bits 8 1] b ∧ Ended sampleCrypto b cell
      ∧ cell.dataBytes = [0xFF])
    ∧ ¬ ∀ c xs b cell, Built c xs b → Ended c b cell →
      cell.dataBytes = ByteBits.pack msbFirst (xs.flatMap Write.row) := by
  have hbuilt : Built sampleCrypto [.bytes [0xFF], .bits 8 1] ⟨[0xFF], 8, []⟩ :=
    ⟨_, fresh_default _, .cons (wrote_bytes _ (b := Builder.default) (by decide))
      (.cons (wrote_byte _ rfl) .nil)⟩
  have hended := ended_of_le sampleCrypto (b := ⟨[0xFF], 8, []⟩) (by decide) (Nat.zero_le _)
  refine ⟨⟨_, _, hbuilt, hended, rfl⟩, fun h => ?_⟩
  have hlength := congrArg List.length (h _ _ _ _ hbuilt hended)
  rw [ByteBits.length_pack] at hlength
  exact absurd hlength (by decide)

end Onx.Vm
