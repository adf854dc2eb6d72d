import Onx.State.Tree
import Onx.Vm.DictionaryMap

/-!
# The root cell commits to the map

Two dictionaries of one width have the same root cell exactly if they stand for the same map,
however they came about, up to a collision between cells of the two.

* `nodeCell_inj`        the cell of a node determines its tag, its label and its references;
* `serialize_inj`       so the cell of a root determines the trie;
* `Represents.root_eq`  and a map determines the trie, since a map has one compressed trie;
* `root_cell_binding`   **equal root cells, equal maps**.
-/

namespace Onx.Vm
open Machine

section
variable (c : Crypto)

/-- the cells that are referred to below a node -/
def nodeCells : Node → List Cell
  | .leaf suffix value => labelCells c suffix ++ [value]
  | .branch label zero one =>
    labelCells c label ++ (serialize c zero).toOption.toList ++ (serialize c one).toOption.toList
      ++ nodeCells zero ++ nodeCells one

def Dictionary.nodeCells (d : Dictionary) : List Cell := d.root.toList.flatMap (Vm.nodeCells c)

variable {c}

/-! ## cells of nodes -/

variable (c) in
/-- a long label goes on in one cell -/
theorem labelCells_long {bits : List Bool} (hlong : ¬ bits.length ≤ 1000)
    (hbits : bits.length ≤ 1023) :
    ∃ tail, labelCells c bits = [tail] ∧ tail.dataBytes = 0xD2 :: pack (bits.drop 1000) := by
  have hrest : (bits.drop 1000).length ≤ 1000 := by
    rw [List.length_drop]
    omega
  obtain ⟨tail, htail, hdata, _⟩ := labelTail_ok c hrest
  refine ⟨tail, ?_, hdata⟩
  unfold labelCells
  rw [if_neg hlong, htail]
  rfl

theorem take_append_drop_inj {a b : List Bool} (n : Nat) (ht : a.take n = b.take n)
    (hd : a.drop n = b.drop n) : a = b := by
  rw [← List.take_append_drop n a, ht, hd, List.take_append_drop]

/-- the tail of a long label, by its reference -/
theorem labelCells_inj {bits bits' : List Bool} (hlen : bits.length = bits'.length)
    (hbits : bits.length ≤ 1023) (hinj : NoCollision c (labelCells c bits ++ labelCells c bits'))
    (h : (labelCells c bits).map (Cell.hash c) = (labelCells c bits').map (Cell.hash c)) :
    bits.drop 1000 = bits'.drop 1000 := by
  by_cases hshort : bits.length ≤ 1000
  · rw [List.drop_eq_nil_of_le hshort, List.drop_eq_nil_of_le (hlen ▸ hshort)]
  · obtain ⟨t, hcells, hdata⟩ := labelCells_long c hshort hbits
    obtain ⟨t', hcells', hdata'⟩ := labelCells_long c (hlen ▸ hshort) (hlen ▸ hbits)
    rw [hcells, hcells'] at hinj h
    have hcell : t = t' := hinj _ (by simp) _ (by simp) (List.cons.inj h).1
    rw [hcell, hdata'] at hdata
    refine ByteBits.pack_inj _ ?_ (List.cons.inj hdata).2.symm
    rw [List.length_drop, List.length_drop, hlen]

/-- **The cell of a node determines the node** up to what the references stand for. -/
theorem nodeCell_inj {tag tag' : Byte} {bits bits' : List Bool} {refs refs' : List Uint256}
    {cell : Cell} (hbits : bits.length ≤ 1023) (hbits' : bits'.length ≤ 1023)
    (hrefs : refs.length ≤ 3) (hrefs' : refs'.length ≤ 3)
    (hinj : NoCollision c (labelCells c bits ++ labelCells c bits'))
    (h : nodeCell c tag bits refs = .ok cell) (h' : nodeCell c tag' bits' refs' = .ok cell) :
    tag = tag' ∧ bits = bits' ∧ refs = refs' := by
  obtain ⟨a, ha, hdata, hr, _⟩ := nodeCell_ok c tag hbits hrefs
  obtain ⟨b, hb, hdata', hr', _⟩ := nodeCell_ok c tag' hbits' hrefs'
  rw [h] at ha
  rw [h'] at hb
  cases ha
  cases hb
  rw [hdata] at hdata'
  obtain ⟨htag, hrest⟩ := List.cons.inj hdata'
  obtain ⟨hlen, hpack⟩ := append_inj_be (by simp) hrest
  have hlen : bits.length = bits'.length := beBytes_inj (by omega) (by omega) hlen
  have htake : bits.take 1000 = bits'.take 1000 := by
    refine ByteBits.pack_inj _ ?_ hpack
    rw [List.length_take, List.length_take, hlen]
  have hcount : (labelCells c bits).length = (labelCells c bits').length := by
    by_cases hshort : bits.length ≤ 1000
    · unfold labelCells
      rw [if_pos hshort, if_pos (hlen ▸ hshort)]
    · obtain ⟨t, ht, _⟩ := labelCells_long c hshort hbits
      obtain ⟨t', ht', _⟩ := labelCells_long c (hlen ▸ hshort) hbits'
      rw [ht, ht']
      rfl
  rw [hr] at hr'
  obtain ⟨hlabel, hrefs⟩ := List.append_inj hr' (by rw [List.length_map, List.length_map, hcount])
  refine ⟨htag, ?_, hrefs⟩
  exact take_append_drop_inj 1000 htake (labelCells_inj hlen hbits hinj hlabel)

/-- the bits in the cell of a node -/
def Node.bits : Node → List Bool
  | .leaf suffix _ => suffix
  | .branch label _ _ => label

/-- two nodes whose cells do not collide: the same of their labels -/
theorem noCollision_labels {t t' : Node}
    (h : NoCollision c (nodeCells c t ++ nodeCells c t')) :
    NoCollision c (labelCells c t.bits ++ labelCells c t'.bits) := by
  have hsub : ∀ (t : Node), ∀ d ∈ labelCells c t.bits, d ∈ nodeCells c t := by
    intro t d hd
    cases t with
    | leaf suffix value => exact List.mem_append_left _ hd
    | branch label zero one =>
      simp only [nodeCells, List.mem_append]
      exact Or.inl (Or.inl (Or.inl (Or.inl hd)))
  exact h.parts (hsub t) (hsub t')

/-- the same of their branches -/
theorem noCollision_branches {label label' : List Bool} {zero one zero' one' : Node}
    (h : NoCollision c (nodeCells c (.branch label zero one)
      ++ nodeCells c (.branch label' zero' one'))) :
    NoCollision c (nodeCells c zero ++ nodeCells c zero')
    ∧ NoCollision c (nodeCells c one ++ nodeCells c one') := by
  have hzero : ∀ (label : List Bool) (zero one : Node), ∀ d ∈ nodeCells c zero,
      d ∈ nodeCells c (.branch label zero one) := by
    intro label zero one d hd
    exact List.mem_append_left _ (List.mem_append_right _ hd)
  have hone : ∀ (label : List Bool) (zero one : Node), ∀ d ∈ nodeCells c one,
      d ∈ nodeCells c (.branch label zero one) := by
    intro label zero one d hd
    exact List.mem_append_right _ hd
  exact ⟨h.parts (hzero label zero one) (hzero label' zero' one'),
    h.parts (hone label zero one) (hone label' zero' one')⟩

/-- **The cell of a root determines the trie.** -/
theorem serialize_inj {t t' : Node} {n n' : Nat} {cell : Cell} (ht : t.Fits n) (ht' : t'.Fits n')
    (hn : n ≤ 1023) (hn' : n' ≤ 1023) (hinj : NoCollision c (nodeCells c t ++ nodeCells c t'))
    (h : serialize c t = .ok cell) (h' : serialize c t' = .ok cell) : t = t' := by
  induction t generalizing t' n n' cell with
  | leaf suffix value =>
    have hlen : suffix.length = n := ht
    cases t' with
    | leaf suffix' value' =>
      have hlen' : suffix'.length = n' := ht'
      have hlabels : NoCollision c (labelCells c suffix ++ labelCells c suffix') :=
        noCollision_labels hinj
      obtain ⟨_, hs, hrefs⟩ := nodeCell_inj (by omega) (by omega) (by simp) (by simp) hlabels h h'
      have hv : value = value' := by
        refine hinj value ?_ value' ?_ (List.cons.inj hrefs).1
        · simp [nodeCells]
        · simp [nodeCells]
      rw [hs, hv]
    | branch label zero one =>
      obtain ⟨hlt, hz, ho⟩ := ht'
      obtain ⟨zc, hzc⟩ := exists_serialize c hz (by omega)
      obtain ⟨oc, hoc⟩ := exists_serialize c ho (by omega)
      unfold serialize at h'
      rw [hzc, hoc] at h'
      have hlabels : NoCollision c (labelCells c suffix ++ labelCells c label) :=
        noCollision_labels hinj
      have htag := (nodeCell_inj (by omega) (by omega) (by simp) (by simp) hlabels h h').1
      exact absurd htag (by decide)
  | branch label zero one ihz iho =>
    obtain ⟨hlt, hz, ho⟩ := ht
    obtain ⟨zc, hzc⟩ := exists_serialize c hz (by omega)
    obtain ⟨oc, hoc⟩ := exists_serialize c ho (by omega)
    unfold serialize at h
    rw [hzc, hoc] at h
    cases t' with
    | leaf suffix' value' =>
      have hlen' : suffix'.length = n' := ht'
      have hlabels : NoCollision c (labelCells c label ++ labelCells c suffix') :=
        noCollision_labels hinj
      have htag := (nodeCell_inj (by omega) (by omega) (by simp) (by simp) hlabels h h').1
      exact absurd htag (by decide)
    | branch label' zero' one' =>
      obtain ⟨hlt', hz', ho'⟩ := ht'
      obtain ⟨zc', hzc'⟩ := exists_serialize c hz' (by omega)
      obtain ⟨oc', hoc'⟩ := exists_serialize c ho' (by omega)
      unfold serialize at h'
      rw [hzc', hoc'] at h'
      have hlabels : NoCollision c (labelCells c label ++ labelCells c label') :=
        noCollision_labels hinj
      obtain ⟨_, hl, hrefs⟩ := nodeCell_inj (by omega) (by omega) (by simp) (by simp) hlabels h h'
      obtain ⟨hzh, hrest⟩ := List.cons.inj hrefs
      obtain ⟨hoh, _⟩ := List.cons.inj hrest
      have hzeq : zc = zc' := by
        refine hinj zc ?_ zc' ?_ hzh
        · simp [nodeCells, hzc, Except.toOption]
        · simp [nodeCells, hzc', Except.toOption]
      have hoeq : oc = oc' := by
        refine hinj oc ?_ oc' ?_ hoh
        · simp [nodeCells, hoc, Except.toOption]
        · simp [nodeCells, hoc', Except.toOption]
      obtain ⟨hzinj, hoinj⟩ := noCollision_branches hinj
      rw [hl, ihz hz hz' (by omega) (by omega) hzinj hzc (hzeq ▸ hzc'),
        iho ho ho' (by omega) (by omega) hoinj hoc (hoeq ▸ hoc')]

/-! ## dictionaries -/

variable {w : Nat} {d d' : Dictionary} {m m' : DictMap w}

/-- **A map has one trie.** -/
theorem Represents.root_eq (h : Represents c w d m) (h' : Represents c w d' m) :
    d.root = d'.root := by
  have hlookup : ∀ key, rootLookup d.root key = rootLookup d'.root key := by
    intro key
    by_cases hlen : key.length = w
    · rw [← h.lookup_eq ⟨key, hlen⟩, ← h'.lookup_eq ⟨key, hlen⟩]
    · rw [rootLookup_eq_none h.fits hlen, rootLookup_eq_none h'.fits hlen]
  cases hroot : d.root with
  | none =>
    cases hroot' : d'.root with
    | none => rfl
    | some t' =>
      obtain ⟨key, hkey⟩ := t'.exists_lookup
      have heq := hlookup key
      rw [hroot, hroot'] at heq
      exact absurd heq.symm hkey
  | some t =>
    cases hroot' : d'.root with
    | none =>
      obtain ⟨key, hkey⟩ := t.exists_lookup
      have heq := hlookup key
      rw [hroot, hroot'] at heq
      exact absurd heq hkey
    | some t' =>
      rw [hroot, hroot'] at hlookup
      exact congrArg some (Patricia.eq_of_lookup hlookup)

theorem Represents.root_eq_of_rootCell (h : Represents c w d m) (h' : Represents c w d' m')
    (hw : w ≤ 1023) (hinj : NoCollision c (d.nodeCells c ++ d'.nodeCells c))
    (hcell : d.rootCell = d'.rootCell) : d.root = d'.root := by
  rw [h.rootCell_eq, h'.rootCell_eq] at hcell
  unfold Dictionary.nodeCells at hinj
  cases hroot : d.root with
  | none =>
    cases hroot' : d'.root with
    | none => rfl
    | some t' =>
      obtain ⟨cell, hser⟩ := exists_serialize c (h'.fits t' hroot') hw
      rw [hroot, hroot', Option.bind_some, hser] at hcell
      cases hcell
  | some t =>
    obtain ⟨cell, hser⟩ := exists_serialize c (h.fits t hroot) hw
    cases hroot' : d'.root with
    | none =>
      rw [hroot, hroot', Option.bind_some, hser] at hcell
      cases hcell
    | some t' =>
      obtain ⟨cell', hser'⟩ := exists_serialize c (h'.fits t' hroot') hw
      rw [hroot, hroot', Option.bind_some, Option.bind_some, hser, hser'] at hcell
      cases hcell
      rw [hroot, hroot'] at hinj
      have hcells : NoCollision c (nodeCells c t ++ nodeCells c t') := by
        simpa using hinj
      exact congrArg some
        (serialize_inj (h.fits t hroot) (h'.fits t' hroot') hw hw hcells hser hser')

/-- **The root cell is canonical and binding**: after any two sequences of calls two dictionaries
of one width have the same root cell exactly if they stand for the same map, if no two of their
cells have one hash. -/
theorem root_cell_binding (c : Crypto) {w : Nat} {start d d' : Dictionary}
    (hnew : Dictionary.new w = .ok start) {es fs : List (Call w)} {outs outs' : List (Option Cell)}
    (hd : calls (Call.exec c) es start = .ok outs d)
    (hd' : calls (Call.exec c) fs start = .ok outs' d')
    (hinj : NoCollision c (d.nodeCells c ++ d'.nodeCells c)) :
    d.rootCell = d'.rootCell ↔ (answers Call.apply es ∅).2 = (answers Call.apply fs ∅).2 := by
  have hw : 1 ≤ w ∧ w ≤ 1023 := by
    by_contra h
    unfold Dictionary.new at hnew
    rw [if_neg h] at hnew
    cases hnew
  obtain ⟨start', hnew', hrep⟩ := represents_new (c:=c) hw.1 hw.2
  rw [hnew] at hnew'
  cases hnew'
  have hafter : ∀ {gs : List (Call w)} {outs : List (Option Cell)} {e : Dictionary},
      calls (Call.exec c) gs start = .ok outs e →
        Represents c w e (answers Call.apply gs ∅).2 := by
    intro gs outs e he
    obtain ⟨e', hrun, hrep'⟩ := calls_refine (exec_represents hw.2) gs hrep
    rw [he] at hrun
    cases hrun
    exact hrep'
  have h := hafter hd
  have h' := hafter hd'
  constructor
  · intro hcell
    have hroot := h.root_eq_of_rootCell h' hw.2 hinj hcell
    refine Finmap.ext_lookup fun key => ?_
    rw [h.lookup_eq, h'.lookup_eq, hroot]
  · intro hmap
    rw [hmap] at h
    rw [h.rootCell_eq, h'.rootCell_eq, h.root_eq h']

end

def sampleKey (b : Byte) : Key 8 := ⟨[b], rfl⟩

def sampleValue (b : Byte) : Cell :=
  ⟨[b], [], false, Nat.le_of_ble_eq_true rfl, Nat.zero_le _⟩

/-- a key that is set and deleted again leaves no trace -/
theorem root_cell_binding_sample : ∃ d d' outs outs',
    calls (Call.exec sampleCrypto) [.set (sampleKey 1) (sampleValue 1),
      .set (sampleKey 2) (sampleValue 2), .delete (sampleKey 1)] ⟨8, none, none⟩ = .ok outs d
    ∧ calls (Call.exec sampleCrypto) [.set (sampleKey 2) (sampleValue 2)] ⟨8, none, none⟩
      = .ok outs' d'
    ∧ (d.rootCell = d'.rootCell ↔
      (answers Call.apply [.set (sampleKey 1) (sampleValue 1),
        .set (sampleKey 2) (sampleValue 2), .delete (sampleKey 1)] ∅).2
      = (answers Call.apply [.set (sampleKey 2) (sampleValue 2)] ∅).2) :=
  ⟨_, _, _, _, rfl, rfl, root_cell_binding sampleCrypto (w:=8) rfl rfl rfl (by
    unfold NoCollision
    decide +kernel)⟩

end Onx.Vm
