import Onx.Lib.Slices
import Onx.Primitives

/-!
# Byte strings

Byte strings of a fixed length, and those with their length in front of them, in `n` big-endian bytes.

* `FixedBytes`               `read_iff`;
* `BoundedBytes`             a payload and the bound it was checked against;
* `read_iff`                 what is read is what is written, if its length fits the prefix;
* `read_encode_long`         **what does not fit is read as something else**, without an error;
* `byte_string_codec`        strings one behind the other, and the bounds for which nothing goes wrong.
-/

namespace Onx

/-! ## fixed length -/

structure FixedBytes (n : Nat) where
  bytes : Bytes
  length_eq : bytes.length = n

namespace FixedBytes
variable {n : Nat}

def encode (self : FixedBytes n) : Bytes := self.bytes

/-- from the front of the input, with what is behind it -/
def read (cursor : Bytes) : Except PrimitiveError (FixedBytes n × Bytes) :=
  if h : cursor.length < n then .error (.truncated n cursor.length)
  else .ok (⟨cursor.take n, List.length_take_of_le (Nat.not_lt.mp h)⟩, cursor.drop n)

def decodeExact (bytes : Bytes) : Except PrimitiveError (FixedBytes n) :=
  if h : bytes.length < n then .error (.truncated n bytes.length)
  else if h' : bytes.length > n then .error (.trailingBytes n bytes.length)
  else .ok ⟨bytes, by omega⟩

theorem ext_bytes {b b' : FixedBytes n} (h : b.bytes = b'.bytes) : b = b' := by
  cases b
  cases b'
  congr

theorem read_iff {cursor rest : Bytes} {b : FixedBytes n} :
    read cursor = .ok (b, rest) ↔ cursor = b.encode ++ rest := by
  unfold read
  constructor
  · intro h
    split_ifs at h with hshort
    cases h
    exact (List.take_append_drop n cursor).symm
  · rintro rfl
    have hlen : b.encode.length = n := b.length_eq
    rw [dif_neg (by rw [List.length_append]; omega), Except.ok.injEq, Prod.mk.injEq]
    exact ⟨ext_bytes (List.take_left' hlen), List.drop_left' hlen⟩

/-- nothing may follow -/
theorem decodeExact_iff {bytes : Bytes} {b : FixedBytes n} :
    decodeExact bytes = .ok b ↔ bytes = b.encode := by
  unfold decodeExact
  constructor
  · intro h
    split_ifs at h
    cases h
    rfl
  · rintro rfl
    have hlen : b.encode.length = n := b.length_eq
    rw [dif_neg (by omega), dif_neg (by omega)]
    rfl

end FixedBytes

/-! ## a length in front -/

/-- a payload within a bound, to be written with a length of `n` bytes -/
structure BoundedBytes (n : Nat) where
  payload : Bytes
  maxLen : Nat
  length_le : payload.length ≤ maxLen

abbrev BoundedBytesU16 := BoundedBytes 2
abbrev BoundedBytesU32 := BoundedBytes 4

namespace BoundedBytes
variable {n : Nat}

def new (payload : Bytes) (maxLen : Nat) : Except PrimitiveError (BoundedBytes n) :=
  if h : payload.length > maxLen then .error (.lengthOutOfRange payload.length maxLen)
  else .ok ⟨payload, maxLen, Nat.not_lt.mp h⟩

/-- the length is cut to the width of the prefix -/
def encode (self : BoundedBytes n) : Bytes :=
  encodeWord n (BitVec.ofNat (8 * n) self.payload.length) ++ self.payload

/-- the part of `read` behind the prefix -/
def readPayload (declared : Nat) (rest : Bytes) (maxLen : Nat) :
    Except PrimitiveError (BoundedBytes n × Bytes) :=
  if h : declared > maxLen then .error (.lengthOutOfRange declared maxLen)
  else if rest.length < declared then .error (.truncated declared rest.length)
  else .ok (⟨rest.take declared, maxLen,
    (List.length_take_le declared rest).trans (Nat.not_lt.mp h)⟩, rest.drop declared)

/-- from the front of the input, with what is behind it -/
def read (cursor : Bytes) (maxLen : Nat) : Except PrimitiveError (BoundedBytes n × Bytes) :=
  if cursor.length < n then .error (.truncated n cursor.length)
  else
    let declared := (decodeWord (8 * n) (cursor.take n)).toNat
    let rest := cursor.drop n
    readPayload declared rest maxLen

def decodeExact (bytes : Bytes) (maxLen : Nat) : Except PrimitiveError (BoundedBytes n) := do
  let (value, cursor) ← read bytes maxLen
  if cursor ≠ [] then .error (.trailingBytes (bytes.length - cursor.length) bytes.length)
  else .ok value

/-- strings one behind the other -/
def readAll : List Nat → Bytes → Except PrimitiveError (List (BoundedBytes n) × Bytes)
  | [], cursor => .ok ([], cursor)
  | maxLen :: maxLens, cursor => do
    let (value, cursor) ← read cursor maxLen
    let (values, cursor) ← readAll maxLens cursor
    .ok (value :: values, cursor)

/-- the length fits the prefix -/
def Fits (b : BoundedBytes n) : Prop := b.payload.length < 2^(8 * n)

/-! ### what is read -/

section
variable {cursor rest : Bytes} {maxLen : Nat} {b b' : BoundedBytes n}

theorem ext_fields (hpayload : b.payload = b'.payload) (hmax : b.maxLen = b'.maxLen) : b = b' := by
  cases b
  cases b'
  dsimp only at hpayload hmax
  subst hpayload hmax
  rfl

theorem readPayload_iff {declared : Nat} {tail : Bytes} :
    readPayload declared tail maxLen = .ok (b, rest)
      ↔ b.maxLen = maxLen ∧ b.payload.length = declared ∧ tail = b.payload ++ rest := by
  unfold readPayload
  constructor
  · intro h
    split_ifs at h with hlarge hshort
    cases h
    exact ⟨rfl, List.length_take_of_le (Nat.not_lt.mp hshort), (List.take_append_drop declared tail).symm⟩
  · rintro ⟨rfl, rfl, rfl⟩
    rw [dif_neg (Nat.not_lt.mpr b.length_le), if_neg (by rw [List.length_append]; omega),
      Except.ok.injEq, Prod.mk.injEq]
    exact ⟨ext_fields List.take_left rfl, List.drop_left⟩

/-- the prefix of what is written says the length cut to its width -/
theorem read_encode (b : BoundedBytes n) (rest : Bytes) (maxLen : Nat) :
    read (n:=n) (b.encode ++ rest) maxLen
      = readPayload (b.payload.length % 2^(8 * n)) (b.payload ++ rest) maxLen := by
  have hlong : ¬ (b.encode ++ rest).length < n := by
    rw [encode, List.length_append, List.length_append, length_encodeWord]
    omega
  unfold read
  rw [if_neg hlong]
  dsimp only
  rw [encode, List.append_assoc, List.take_left' (length_encodeWord n _),
    List.drop_left' (length_encodeWord n _), decodeWord_encodeWord rfl, BitVec.toNat_ofNat]

/-- **What is read is what is written,** if its length fits the prefix. -/
theorem read_iff : read cursor maxLen = .ok (b, rest)
    ↔ b.maxLen = maxLen ∧ b.Fits ∧ cursor = b.encode ++ rest := by
  constructor
  · intro h
    unfold read at h
    split_ifs at h with hshort
    obtain ⟨hmax, hlen, htail⟩ := readPayload_iff.mp h
    have hprefix : encodeWord n (BitVec.ofNat (8 * n) b.payload.length) = cursor.take n := by
      rw [hlen, BitVec.ofNat_toNat, BitVec.setWidth_eq,
        encodeWord_decodeWord rfl (List.length_take_of_le (Nat.not_lt.mp hshort))]
    have hfits : b.Fits := by
      rw [Fits, hlen]
      exact (decodeWord (8 * n) (cursor.take n)).isLt
    refine ⟨hmax, hfits, ?_⟩
    rw [encode, hprefix, List.append_assoc, ← htail, List.take_append_drop]
  · rintro ⟨hmax, hfits, rfl⟩
    rw [read_encode, Nat.mod_eq_of_lt hfits]
    exact readPayload_iff.mpr ⟨hmax, rfl, rfl⟩

/-- **What does not fit is read as something else**: a part of it, with the end as the next bytes. -/
theorem read_encode_long (b : BoundedBytes n) (rest : Bytes) (hlong : ¬ b.Fits) :
    ∃ part : BoundedBytes n, read (b.encode ++ rest) b.maxLen
        = .ok (part, b.payload.drop (b.payload.length % 2^(8 * n)) ++ rest)
      ∧ part.payload = b.payload.take (b.payload.length % 2^(8 * n)) ∧ part ≠ b := by
  have hle : b.payload.length % 2^(8 * n) ≤ b.payload.length := Nat.mod_le _ _
  have hlen : (b.payload.take (b.payload.length % 2^(8 * n))).length = b.payload.length % 2^(8 * n) :=
    List.length_take_of_le hle
  refine ⟨⟨b.payload.take (b.payload.length % 2^(8 * n)), b.maxLen, ?_⟩, ?_, rfl, fun heq => ?_⟩
  · rw [hlen]
    exact hle.trans b.length_le
  · rw [read_encode]
    refine readPayload_iff.mpr ⟨rfl, hlen, ?_⟩
    rw [← List.append_assoc, List.take_append_drop]
  · have hsame := congrArg (fun x => x.payload.length) heq
    dsimp only at hsame
    have hlt : b.payload.length % 2^(8 * n) < 2^(8 * n) := Nat.mod_lt _ (Nat.two_pow_pos _)
    rw [← hlen, hsame] at hlt
    exact hlong hlt

theorem decodeExact_iff {bytes : Bytes} :
    decodeExact bytes maxLen = .ok b ↔ b.maxLen = maxLen ∧ b.Fits ∧ bytes = b.encode := by
  constructor
  · intro h
    obtain ⟨⟨value, cursor⟩, hread, h⟩ := Checked.bind_ok h
    dsimp only at h
    split_ifs at h with hrest
    cases h
    obtain ⟨hmax, hfits, hbytes⟩ := read_iff.mp hread
    rw [not_not.mp hrest, List.append_nil] at hbytes
    exact ⟨hmax, hfits, hbytes⟩
  · rintro ⟨hmax, hfits, rfl⟩
    have hread : read b.encode maxLen = .ok (b, []) :=
      read_iff.mpr ⟨hmax, hfits, (List.append_nil _).symm⟩
    rw [decodeExact, hread]
    rfl

theorem new_iff {payload : Bytes} : new payload maxLen = .ok b ↔ b.payload = payload ∧ b.maxLen = maxLen := by
  unfold new
  constructor
  · intro h
    split_ifs at h
    cases h
    exact ⟨rfl, rfl⟩
  · rintro ⟨rfl, rfl⟩
    exact dif_neg (Nat.not_lt.mpr b.length_le)

/-! ### strings one behind the other -/

theorem readAll_iff {maxLens : List Nat} {bs : List (BoundedBytes n)} :
    readAll maxLens cursor = .ok (bs, rest)
      ↔ bs.map BoundedBytes.maxLen = maxLens ∧ (∀ b ∈ bs, b.Fits) ∧ cursor = bs.flatMap encode ++ rest := by
  induction maxLens generalizing cursor bs with
  | nil =>
    constructor
    · intro h
      cases h
      exact ⟨rfl, nofun, rfl⟩
    · rintro ⟨hmax, _, rfl⟩
      cases List.map_eq_nil_iff.mp hmax
      rfl
  | cons maxLen maxLens ih =>
    constructor
    · intro h
      obtain ⟨⟨value, tail⟩, hread, h⟩ := Checked.bind_ok h
      obtain ⟨⟨values, tail'⟩, hreads, h⟩ := Checked.bind_ok h
      cases h
      obtain ⟨hmax, hfits, rfl⟩ := read_iff.mp hread
      obtain ⟨hmaxs, hall, hcursor⟩ := ih.mp hreads
      refine ⟨?_, ?_, ?_⟩
      · rw [List.map_cons, hmax, hmaxs]
      · exact List.forall_mem_cons.mpr ⟨hfits, hall⟩
      · rw [List.flatMap_cons, List.append_assoc, ← hcursor]
    · rintro ⟨hmaxs, hall, rfl⟩
      cases bs with
      | nil => cases hmaxs
      | cons value values =>
        obtain ⟨hmax, hrest⟩ := List.cons_eq_cons.mp hmaxs
        obtain ⟨hfits, hall⟩ := List.forall_mem_cons.mp hall
        have hread : read ((value :: values).flatMap encode ++ rest) maxLen
            = .ok (value, values.flatMap encode ++ rest) :=
          read_iff.mpr ⟨hmax, hfits, by rw [List.flatMap_cons, List.append_assoc]⟩
        have hreads : readAll maxLens (values.flatMap encode ++ rest) = .ok (values, rest) :=
          ih.mpr ⟨hrest, hall, rfl⟩
        rw [readAll, hread]
        show (readAll maxLens (values.flatMap encode ++ rest) >>= _) = _
        rw [hreads]
        rfl

/-- every string that `new` takes survives exactly if the bound fits the prefix -/
theorem round_trip_iff (n maxLen : Nat) :
    (∀ payload (b : BoundedBytes n), new payload maxLen = .ok b → decodeExact b.encode maxLen = .ok b)
      ↔ maxLen < 2^(8 * n) := by
  constructor
  · intro h
    by_contra hlarge
    let b : BoundedBytes n := ⟨List.replicate (2^(8 * n)) 0, maxLen,
      by rw [List.length_replicate]; exact Nat.not_lt.mp hlarge⟩
    obtain ⟨_, hfits, _⟩ := decodeExact_iff.mp (h b.payload b (new_iff.mpr ⟨rfl, rfl⟩))
    have hlen : b.payload.length = 2^(8 * n) := List.length_replicate
    exact absurd hfits (by rw [Fits, hlen]; exact Nat.lt_irrefl _)
  · rintro hsmall payload b hnew
    obtain ⟨_, hmax⟩ := new_iff.mp hnew
    exact decodeExact_iff.mpr ⟨hmax, b.length_le.trans_lt (hmax ▸ hsmall), rfl⟩

end

end BoundedBytes

/-- **The codec of byte strings.**  Strings one behind the other are read from exactly the bytes that
those whose lengths fit their prefixes are written as; one that does not fit is read as a part of it,
without an error; and no such string exists exactly if the bound fits the prefix. -/
theorem byte_string_codec (n : Nat) :
    (∀ maxLens cursor rest, ∀ bs : List (BoundedBytes n),
      BoundedBytes.readAll maxLens cursor = .ok (bs, rest)
        ↔ bs.map BoundedBytes.maxLen = maxLens ∧ (∀ b ∈ bs, b.Fits)
          ∧ cursor = bs.flatMap BoundedBytes.encode ++ rest)
    ∧ (∀ (b : BoundedBytes n) rest, ¬ b.Fits →
      ∃ part : BoundedBytes n, BoundedBytes.read (b.encode ++ rest) b.maxLen
          = .ok (part, b.payload.drop (b.payload.length % 2^(8 * n)) ++ rest)
        ∧ part.payload = b.payload.take (b.payload.length % 2^(8 * n)) ∧ part ≠ b)
    ∧ ∀ maxLen, (∀ payload (b : BoundedBytes n), BoundedBytes.new payload maxLen = .ok b →
      BoundedBytes.decodeExact b.encode maxLen = .ok b) ↔ maxLen < 2^(8 * n) :=
  ⟨fun _ _ _ _ => BoundedBytes.readAll_iff, BoundedBytes.read_encode_long, BoundedBytes.round_trip_iff n⟩

end Onx
