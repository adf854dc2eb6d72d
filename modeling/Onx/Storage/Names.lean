import Mathlib.Data.List.Lex
import Onx.DataStructures.Block
import Onx.State.Tree

/-!
# File names of the store

Each record lives in a file named by its column family and the hexadecimal form of its key.
Names and journals are ASCII, so a character stands for a byte.

* `unhex_hex`          hexadecimal text reads back;
* `FileKey.path_inj`   different records have different files;
* `FileKey.path_plain` a path has no space, line break or dot.
-/

namespace Onx.Storage

abbrev Text := List Char

inductive StorageError where
  | state (e : StateModelError)
  | corrupt (message : String)
  | rootMismatch (expected actual : Uint256)
  /-- not in the source: a recursion of the model without fuel, which no call returns -/
  | depth
deriving DecidableEq

/-! ## hexadecimal text -/

/-- two lower-case digits a byte -/
def hex (v : Bytes) : Text :=
  v.flatMap (fun b => [Nat.digitChar (b.toNat / 16), Nat.digitChar (b.toNat % 16)])

def hexValue (ch : Char) : Option Nat :=
  if '0' ≤ ch ∧ ch ≤ '9' then some (ch.toNat - 48)
  else if 'a' ≤ ch ∧ ch ≤ 'f' then some (ch.toNat - 87)
  else if 'A' ≤ ch ∧ ch ≤ 'F' then some (ch.toNat - 55)
  else none

/-- `u8::from_str_radix(pair, 16)`, which takes a leading plus sign -/
def hexPair (a b : Char) : Option Byte :=
  if a = '+' then (hexValue b).map (BitVec.ofNat 8)
  else match hexValue a, hexValue b with
  | some x, some y => some (BitVec.ofNat 8 (16 * x + y))
  | _, _ => none

def unhexPairs : Text → Option Bytes
  | a :: b :: rest =>
    match hexPair a b, unhexPairs rest with
    | some x, some bs => some (x :: bs)
    | _, _ => none
  | _ => some []

def unhex (v : Text) : Except StorageError Bytes :=
  if v.length % 2 ≠ 0 then .error (.corrupt "invalid hexadecimal storage key")
  else match unhexPairs v with
  | some bs => .ok bs
  | none => .error (.corrupt "invalid hexadecimal storage data")

theorem hexValue_digitChar {n : Nat} (h : n < 16) : hexValue (Nat.digitChar n) = some n := by
  have hall : ∀ m : Fin 16, hexValue (Nat.digitChar m.val) = some m.val := by decide
  exact hall ⟨n, h⟩

theorem digitChar_ne_plus {n : Nat} (h : n < 16) : Nat.digitChar n ≠ '+' := by
  have hall : ∀ m : Fin 16, Nat.digitChar m.val ≠ '+' := by decide
  exact hall ⟨n, h⟩

theorem hexPair_digits (b : Byte) :
    hexPair (Nat.digitChar (b.toNat / 16)) (Nat.digitChar (b.toNat % 16)) = some b := by
  have hb : b.toNat < 256 := b.isLt
  have hhi : b.toNat / 16 < 16 := by omega
  have hlo : b.toNat % 16 < 16 := by omega
  unfold hexPair
  rw [if_neg (digitChar_ne_plus hhi), hexValue_digitChar hhi, hexValue_digitChar hlo]
  refine congrArg some (BitVec.eq_of_toNat_eq ?_)
  rw [BitVec.toNat_ofNat]
  omega

theorem hex_cons (b : Byte) (v : Bytes) : hex (b :: v)
    = Nat.digitChar (b.toNat / 16) :: Nat.digitChar (b.toNat % 16) :: hex v := rfl

theorem hex_append (v w : Bytes) : hex (v ++ w) = hex v ++ hex w := List.flatMap_append

theorem length_hex (v : Bytes) : (hex v).length = 2 * v.length := by
  induction v with
  | nil => rfl
  | cons b v ih =>
    rw [hex_cons, List.length_cons, List.length_cons, ih, List.length_cons]
    omega

theorem unhexPairs_hex (v : Bytes) : unhexPairs (hex v) = some v := by
  induction v with
  | nil => rfl
  | cons b v ih =>
    rw [hex_cons, unhexPairs, hexPair_digits, ih]

/-- **Hexadecimal text reads back.** -/
theorem unhex_hex (v : Bytes) : unhex (hex v) = .ok v := by
  unfold unhex
  rw [if_neg, unhexPairs_hex]
  rw [length_hex]
  omega

theorem hex_inj {v w : Bytes} (h : hex v = hex w) : v = w := by
  have hv := unhexPairs_hex v
  rw [h, unhexPairs_hex] at hv
  exact (Option.some.inj hv).symm

/-- an even part of hexadecimal text is the text of the first bytes -/
theorem hex_take (v : Bytes) (n : Nat) : (hex v).take (2 * n) = hex (v.take n) := by
  induction n generalizing v with
  | zero => rfl
  | succ n ih =>
    cases v with
    | nil => simp [hex]
    | cons b v =>
      rw [hex_cons, List.take_succ_cons, hex_cons, ← ih v]
      rfl

/-! ## names -/

/-- neither a separator of the journal nor of a path -/
def Plain (ch : Char) : Prop :=
  ch ≠ ' ' ∧ ch ≠ '\n' ∧ ch ≠ '\r' ∧ ch ≠ '/' ∧ ch ≠ '.'

instance (ch : Char) : Decidable (Plain ch) := inferInstanceAs (Decidable (_ ∧ _))

theorem plain_digitChar {n : Nat} (h : n < 16) : Plain (Nat.digitChar n) := by
  have hall : ∀ m : Fin 16, Plain (Nat.digitChar m.val) := by decide
  exact hall ⟨n, h⟩

theorem plain_hex (v : Bytes) : ∀ ch ∈ hex v, Plain ch := by
  induction v with
  | nil => exact fun _ h => nomatch h
  | cons b v ih =>
    have hb : b.toNat < 256 := b.isLt
    intro ch hch
    rw [hex_cons] at hch
    rcases List.mem_cons.mp hch with rfl | hch
    · exact plain_digitChar (by omega)
    · rcases List.mem_cons.mp hch with rfl | hch
      · exact plain_digitChar (by omega)
      · exact ih ch hch

def accountKey (s : ShardIdent) (a : AccountId) : Bytes := s.toBytes ++ a.toBytes

/-- the records of the four column families -/
inductive FileKey where
  | cell (hash : Uint256)
  | account (shard : ShardIdent) (id : AccountId)
  | blockHeader (hash : Uint256)
  | shardState (shard : ShardIdent)
deriving DecidableEq

def CELLS : Text := "cells".toList
def ACCOUNTS : Text := "accounts".toList
def BLOCK_HEADERS : Text := "block_headers".toList
def SHARD_STATES : Text := "shard_states".toList

def COLUMN_FAMILIES : List Text := [CELLS, ACCOUNTS, BLOCK_HEADERS, SHARD_STATES]

/-- the file of a key below the root of the store -/
def file (cf : Text) (key : Bytes) : Text := cf ++ '/' :: hex key

namespace FileKey

def family : FileKey → Text
  | .cell _ => CELLS
  | .account .. => ACCOUNTS
  | .blockHeader _ => BLOCK_HEADERS
  | .shardState _ => SHARD_STATES

def key : FileKey → Bytes
  | .cell hash => encodeWord 32 hash
  | .account shard id => accountKey shard id
  | .blockHeader hash => encodeWord 32 hash
  | .shardState shard => shard.toBytes

def path (k : FileKey) : Text := file k.family k.key

end FileKey

theorem plain_families : ∀ cf ∈ COLUMN_FAMILIES, ∀ ch ∈ cf, Plain ch := by
  have h : COLUMN_FAMILIES.all (fun cf => cf.all (fun ch => decide (Plain ch))) = true := by decide
  simpa only [List.all_eq_true, decide_eq_true_eq] using h

theorem FileKey.family_mem (k : FileKey) : k.family ∈ COLUMN_FAMILIES := by
  cases k <;> simp [family, COLUMN_FAMILIES]

theorem plain_family (k : FileKey) : ∀ ch ∈ k.family, Plain ch :=
  plain_families k.family k.family_mem

/-- texts with a slash behind a part without one are cut there -/
theorem append_slash_inj {a b a' b' : Text} (ha : '/' ∉ a) (ha' : '/' ∉ a')
    (h : a ++ '/' :: b = a' ++ '/' :: b') : a = a' ∧ b = b' := by
  induction a generalizing a' with
  | nil =>
    cases a' with
    | nil => exact ⟨rfl, List.tail_eq_of_cons_eq h⟩
    | cons ch a' =>
      have hch : '/' = ch := List.head_eq_of_cons_eq h
      exact absurd (hch ▸ List.mem_cons_self) ha'
  | cons ch a ih =>
    cases a' with
    | nil =>
      have hch : ch = '/' := List.head_eq_of_cons_eq h
      exact absurd (hch ▸ List.mem_cons_self) ha
    | cons ch' a' =>
      have hhead : ch = ch' := List.head_eq_of_cons_eq h
      obtain ⟨h1, h2⟩ := ih (fun hm => ha (List.mem_cons_of_mem _ hm))
        (fun hm => ha' (List.mem_cons_of_mem _ hm)) (List.tail_eq_of_cons_eq h)
      rw [hhead, h1]
      exact ⟨rfl, h2⟩

theorem accountKey_inj {s s' : ShardIdent} {a a' : AccountId}
    (h : accountKey s a = accountKey s' a') : s = s' ∧ a = a' := by
  obtain ⟨hs, ha⟩ := append_inj_be (by simp) h
  exact ⟨ShardIdent.toBytes_inj hs, AccountId.toBytes_inj ha⟩

namespace FileKey

theorem slash_not_mem_family (k : FileKey) : '/' ∉ k.family :=
  fun h => (plain_family k '/' h).2.2.2.1 rfl

theorem family_key_inj {k k' : FileKey} (hf : k.family = k'.family) (hk : k.key = k'.key) :
    k = k' := by
  cases k with
  | cell h =>
    cases k' with
    | cell => rw [encodeWord_inj (n:=32) rfl hk]
    | account => exact absurd hf (show CELLS ≠ ACCOUNTS by decide)
    | blockHeader => exact absurd hf (show CELLS ≠ BLOCK_HEADERS by decide)
    | shardState => exact absurd hf (show CELLS ≠ SHARD_STATES by decide)
  | account s a =>
    cases k' with
    | cell => exact absurd hf (show ACCOUNTS ≠ CELLS by decide)
    | account s' a' =>
      obtain ⟨hs, ha⟩ := accountKey_inj hk
      rw [hs, ha]
    | blockHeader => exact absurd hf (show ACCOUNTS ≠ BLOCK_HEADERS by decide)
    | shardState => exact absurd hf (show ACCOUNTS ≠ SHARD_STATES by decide)
  | blockHeader h =>
    cases k' with
    | cell => exact absurd hf (show BLOCK_HEADERS ≠ CELLS by decide)
    | account => exact absurd hf (show BLOCK_HEADERS ≠ ACCOUNTS by decide)
    | blockHeader => rw [encodeWord_inj (n:=32) rfl hk]
    | shardState => exact absurd hf (show BLOCK_HEADERS ≠ SHARD_STATES by decide)
  | shardState s =>
    cases k' with
    | cell => exact absurd hf (show SHARD_STATES ≠ CELLS by decide)
    | account => exact absurd hf (show SHARD_STATES ≠ ACCOUNTS by decide)
    | blockHeader => exact absurd hf (show SHARD_STATES ≠ BLOCK_HEADERS by decide)
    | shardState => rw [ShardIdent.toBytes_inj hk]

/-- **Different records have different files.** -/
theorem path_inj {k k' : FileKey} (h : k.path = k'.path) : k = k' := by
  obtain ⟨hf, hk⟩ := append_slash_inj k.slash_not_mem_family k'.slash_not_mem_family h
  exact family_key_inj hf (hex_inj hk)

/-- a path has no space, line break or dot -/
theorem path_plain (k : FileKey) : ∀ ch ∈ k.path, ch = '/' ∨ Plain ch := by
  intro ch hch
  rcases List.mem_append.mp hch with hch | hch
  · exact Or.inr (plain_family k ch hch)
  · rcases List.mem_cons.mp hch with rfl | hch
    · exact Or.inl rfl
    · exact Or.inr (plain_hex k.key ch hch)

end FileKey

end Onx.Storage
