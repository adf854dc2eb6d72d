import Mathlib.Data.Finmap
import Onx.Vm.DictionaryNodes

/-!
# Dictionaries are finite maps

* `Key`, `Key.bits`            a key of a call, and the bits that are looked at;
* `DictMap`, `Call.apply`      the finite map that a dictionary is for, and what calls do to it;
* `Represents`                 a dictionary and its map; `exec_represents`: each call keeps them in
                               step;
* `dictionary_is_finite_map`   **every sequence of calls is answered as the map answers it**.
-/

namespace Onx.Vm
open Machine

/-! ## calls on a finite map -/

abbrev BitString (w : Nat) := { bits : List Bool // bits.length = w }

abbrev DictMap (w : Nat) := Finmap fun _ : BitString w => Cell

/-- as many bytes as `w` bits need -/
structure Key (w : Nat) where
  bytes : Bytes
  length_eq : bytes.length = divCeil w 8

/-- the first `w` bits, each byte from its highest one -/
def Key.bits {w : Nat} (key : Key w) : BitString w :=
  ⟨(List.range w).map (ByteBits.getBit ByteBits.msbFirst key.bytes), by
    rw [List.length_map, List.length_range]⟩

inductive Call (w : Nat) where
  | get (key : Key w)
  | set (key : Key w) (value : Cell)
  | delete (key : Key w)

namespace Call
variable {w : Nat}

def key : Call w → Key w
  | get key => key
  | set key _ => key
  | delete key => key

/-- the value of the key before the call, and the map after it -/
def apply (call : Call w) (m : DictMap w) : Option Cell × DictMap w :=
  (m.lookup call.key.bits, match call with
    | get _ => m
    | set key value => m.insert key.bits value
    | delete key => m.erase key.bits)

def exec (c : Crypto) : Call w → Prog Dictionary DictionaryError (Option Cell)
  | get key => Dictionary.get key.bytes
  | set key value => Dictionary.set c key.bytes value
  | delete key => Dictionary.delete c key.bytes

end Call

/-! ## the bits of a key -/

theorem mapM_eq_map {α β : Type} {f : α → Option β} {g : α → β} {l : List α}
    (h : ∀ a ∈ l, f a = some (g a)) : l.mapM f = some (l.map g) := by
  induction l with
  | nil => rfl
  | cons a l ih =>
    have hl := ih fun b hb => h b (List.mem_cons_of_mem _ hb)
    rw [List.mapM_cons, h a List.mem_cons_self, hl]
    rfl

theorem keyBits_bytes {σ : Type} {w : Nat} (key : Key w) (s : σ) :
    keyBits key.bytes w s = .ok key.bits.1 s := by
  have hlen : key.bytes.length = (w + 8 - 1) / 8 := key.length_eq
  unfold keyBits
  rw [bind_ok (failIf_neg (by omega) _ _)]
  have hbit : ∀ i ∈ List.range w, (key.bytes[i / 8]?.map fun b => b.getLsbD (7 - i % 8))
      = some (ByteBits.getBit ByteBits.msbFirst key.bytes i) := by
    intro i hi
    have hlt := List.mem_range.mp hi
    have hin : i / 8 < key.bytes.length := by omega
    unfold ByteBits.getBit
    rw [List.getElem?_eq_getElem hin]
    rfl
  rw [mapM_eq_map hbit]
  rfl

/-! ## a dictionary and its map -/

section
variable (c : Crypto)

structure Represents (w : Nat) (d : Dictionary) (m : DictMap w) : Prop where
  keyBits_eq : d.keyBits = w
  fits : ∀ t, d.root = some t → t.Fits w
  rootCell_eq : d.rootCell = d.root.bind fun t => (serialize c t).toOption
  lookup_eq : ∀ key : BitString w, m.lookup key = rootLookup d.root key.1

variable {c} {w : Nat} {d : Dictionary} {m : DictMap w}

theorem insert_spec {root : Option Node} (hroot : ∀ t, root = some t → t.Fits w)
    (bits : BitString w) (value : Cell) :
    ∃ t, insert root bits.1 value none = .ok t (rootLookup root bits.1) ∧ t.Fits w
      ∧ ∀ key, t.lookup key = if key = bits.1 then some value else rootLookup root key := by
  cases root with
  | none =>
    refine ⟨.leaf bits.1 value, rfl, bits.2, fun key => ?_⟩
    rw [Patricia.lookup_leaf]
    exact if_congr eq_comm rfl rfl
  | some t =>
    obtain ⟨t', hrun, hfits, hlookup⟩ := insertNode_spec t value none (hroot t rfl) bits.2
    refine ⟨t', ?_, hfits, hlookup⟩
    rw [Option.or_none] at hrun
    exact hrun

theorem remove_spec {root : Option Node} (hroot : ∀ t, root = some t → t.Fits w)
    (bits : BitString w) :
    ∃ r, remove root bits.1 none = .ok r (rootLookup root bits.1) ∧ (∀ t, r = some t → t.Fits w)
      ∧ ∀ key, rootLookup r key = if key = bits.1 then none else rootLookup root key := by
  cases root with
  | none =>
    refine ⟨none, rfl, fun _ h => (nomatch h), fun key => ?_⟩
    show none = if key = bits.1 then none else none
    rw [ite_self]
  | some t =>
    obtain ⟨r, hrun, hfits, hlookup⟩ := removeNode_spec t bits.1 none (hroot t rfl)
    refine ⟨r, ?_, hfits, hlookup⟩
    rw [Option.or_none] at hrun
    exact hrun

/-- a root with one key changed stands for the map with this key changed -/
theorem Represents.update (h : Represents c w d m) {root : Option Node} {m' : DictMap w}
    (hfits : ∀ t, root = some t → t.Fits w) {bits : BitString w} {v : Option Cell}
    (hlookup : ∀ key, rootLookup root key = if key = bits.1 then v else rootLookup d.root key)
    (hm : ∀ key, m'.lookup key = if key = bits then v else m.lookup key) :
    Represents c w ⟨d.keyBits, root, root.bind fun t => (serialize c t).toOption⟩ m' where
  keyBits_eq := h.keyBits_eq
  fits := hfits
  rootCell_eq := rfl
  lookup_eq := by
    intro key
    rw [hm, hlookup, h.lookup_eq]
    exact if_congr Subtype.ext_iff rfl rfl

theorem lookup_insert (m : DictMap w) (bits : BitString w) (value : Cell) (key : BitString w) :
    (m.insert bits value).lookup key = if key = bits then some value else m.lookup key := by
  by_cases h : key = bits
  · rw [if_pos h, h, Finmap.lookup_insert]
  · rw [if_neg h, Finmap.lookup_insert_of_ne _ h]

theorem lookup_erase (m : DictMap w) (bits key : BitString w) :
    (m.erase bits).lookup key = if key = bits then none else m.lookup key := by
  by_cases h : key = bits
  · rw [if_pos h, h, Finmap.lookup_erase]
  · rw [if_neg h, Finmap.lookup_erase_ne h]

theorem Represents.keyBits (h : Represents c w d m) (key : Key w) :
    Vm.keyBits key.bytes d.keyBits d = .ok key.bits.1 d := by
  rw [h.keyBits_eq]
  exact keyBits_bytes key d

theorem get_represents (h : Represents c w d m) (key : Key w) :
    Dictionary.get key.bytes d = .ok (m.lookup key.bits) d := by
  unfold Dictionary.get
  rw [get_bind, bind_ok (h.keyBits key), h.lookup_eq]
  cases d.root with
  | none => rfl
  | some t => exact getNode_eq t key.bits.1 d

theorem set_represents (h : Represents c w d m) (hw : w ≤ 1023) (key : Key w) (value : Cell) :
    ∃ d', Dictionary.set c key.bytes value d = .ok (m.lookup key.bits) d'
      ∧ Represents c w d' (m.insert key.bits value) := by
  obtain ⟨t, hrun, hfits, hlookup⟩ := insert_spec h.fits key.bits value
  obtain ⟨cell, hcell⟩ := exists_serialize c hfits hw
  have hroot : ∀ t', some t = some t' → t'.Fits w := fun _ heq => Option.some.inj heq ▸ hfits
  have hrep := h.update hroot (v:=some value) hlookup (lookup_insert m key.bits value)
  refine ⟨_, ?_, hrep⟩
  unfold Dictionary.set
  rw [get_bind, bind_ok (h.keyBits key), h.lookup_eq]
  have hlocal : (Prog.onLocal (insert d.root key.bits.1 value) none : Prog Dictionary _ _)
      { d with root := none } = .ok (t, rootLookup d.root key.bits.1) { d with root := none } := by
    unfold Prog.onLocal
    rw [hrun]
  rw [bind_ok (show Prog.modify _ d = .ok () { d with root := none } from rfl), bind_ok hlocal]
  dsimp only
  rw [bind_ok (show Prog.modify _ _ = .ok () { d with root := some t } from rfl), hcell]
  show Res.ok _ _ = Res.ok _ (Dictionary.mk d.keyBits (some t) (serialize c t).toOption)
  rw [hcell]
  rfl

theorem delete_represents (h : Represents c w d m) (hw : w ≤ 1023) (key : Key w) :
    ∃ d', Dictionary.delete c key.bytes d = .ok (m.lookup key.bits) d'
      ∧ Represents c w d' (m.erase key.bits) := by
  obtain ⟨r, hrun, hfits, hlookup⟩ := remove_spec h.fits key.bits
  have hrep := h.update hfits hlookup (lookup_erase m key.bits)
  refine ⟨_, ?_, hrep⟩
  unfold Dictionary.delete
  rw [get_bind, bind_ok (h.keyBits key), h.lookup_eq]
  have hlocal : (Prog.onLocal (remove d.root key.bits.1) none : Prog Dictionary _ _)
      { d with root := none } = .ok (r, rootLookup d.root key.bits.1) { d with root := none } := by
    unfold Prog.onLocal
    rw [hrun]
  rw [bind_ok (show Prog.modify _ d = .ok () { d with root := none } from rfl), bind_ok hlocal]
  dsimp only
  rw [bind_ok (show Prog.modify _ _ = .ok () { d with root := r } from rfl)]
  cases r with
  | none => rfl
  | some t =>
    obtain ⟨cell, hcell⟩ := exists_serialize c (hfits t rfl) hw
    dsimp only
    rw [hcell]
    show Res.ok _ _ = Res.ok _ (Dictionary.mk d.keyBits (some t) (serialize c t).toOption)
    rw [hcell]
    rfl

/-- **One call** is answered as the map answers it. -/
theorem exec_represents (hw : w ≤ 1023) (call : Call w) (d : Dictionary) (m : DictMap w)
    (h : Represents c w d m) :
    ∃ d', call.exec c d = .ok (call.apply m).1 d' ∧ Represents c w d' (call.apply m).2 := by
  cases call with
  | get key => exact ⟨d, get_represents h key, h⟩
  | set key value => exact set_represents h hw key value
  | delete key => exact delete_represents h hw key

theorem represents_new (hw : 1 ≤ w) (hw' : w ≤ 1023) :
    ∃ d, Dictionary.new w = .ok d ∧ Represents c w d ∅ := by
  refine ⟨⟨w, none, none⟩, ?_, rfl, fun _ h => (nomatch h), rfl, fun key => ?_⟩
  · unfold Dictionary.new
    rw [if_pos ⟨hw, hw'⟩]
  · exact Finmap.lookup_empty key

/-- the values of a root, as those of bit strings of one length -/
theorem rootLookup_eq_none {root : Option Node} (hfits : ∀ t, root = some t → t.Fits w)
    {key : List Bool} (h : key.length ≠ w) : rootLookup root key = none := by
  cases root with
  | none => rfl
  | some t =>
    by_contra hsome
    exact h ((hfits t rfl).length_eq hsome)

theorem Represents.rootCell_none_iff (h : Represents c w d m) (hw : w ≤ 1023) :
    d.rootCell = none ↔ m = ∅ := by
  rw [h.rootCell_eq]
  cases hroot : d.root with
  | none =>
    refine ⟨fun _ => Finmap.ext_lookup fun key => ?_, fun _ => rfl⟩
    rw [h.lookup_eq, hroot, Finmap.lookup_empty]
    rfl
  | some t =>
    obtain ⟨cell, hcell⟩ := exists_serialize c (h.fits t hroot) hw
    have hsome : ((some t).bind fun t => (serialize c t).toOption) = some cell := by
      rw [Option.bind_some, hcell]
      rfl
    rw [hsome]
    refine ⟨fun h' => (nomatch h'), fun hm => ?_⟩
    -- a node holds a key
    obtain ⟨key, hkey⟩ := t.exists_lookup
    have hlen := (h.fits t hroot).length_eq hkey
    have heq := h.lookup_eq ⟨key, hlen⟩
    rw [hm, Finmap.lookup_empty, hroot] at heq
    exact absurd heq.symm hkey

/-- **A dictionary is a finite map**: every sequence of calls is answered as the map answers it,
without a panic or an error, and there is a root cell exactly when the map is not empty. -/
theorem dictionary_is_finite_map (c : Crypto) {w : Nat} (hw : 1 ≤ w) (hw' : w ≤ 1023) :
    ∃ d, Dictionary.new w = .ok d ∧ ∀ es : List (Call w), ∃ d',
      calls (Call.exec c) es d = .ok (answers Call.apply es ∅).1 d'
      ∧ (d'.rootCell = none ↔ (answers Call.apply es ∅).2 = ∅) := by
  obtain ⟨d, hnew, hrep⟩ := represents_new (c:=c) hw hw'
  refine ⟨d, hnew, fun es => ?_⟩
  obtain ⟨d', hrun, hrep'⟩ := calls_refine (exec_represents hw') es hrep
  exact ⟨d', hrun, hrep'.rootCell_none_iff hw'⟩

theorem dictionary_of_bytes : 1 ≤ 8 ∧ 8 ≤ 1023 ∧ ∃ d, Dictionary.new 8 = .ok d
    ∧ ∀ es : List (Call 8), ∃ d',
      calls (Call.exec sampleCrypto) es d = .ok (answers Call.apply es ∅).1 d'
      ∧ (d'.rootCell = none ↔ (answers Call.apply es ∅).2 = ∅) :=
  ⟨by decide, by decide, dictionary_is_finite_map sampleCrypto (by decide) (by decide)⟩

end

end Onx.Vm
