import Mathlib.Data.Finset.Preimage
import Onx.Lib.RefCount
import Onx.Storage.Store

/-!
# Stored cells as a counted heap

The cell records of a store, or of a store under a batch, are a heap of counted cells; the cell
operations are the operations of that heap.

* `putCells_spec`   new cells with count zero (`RefCount.Puts`);
* `adjust_up`       one more on every cell within reach (`RefCount.Up`);
* `adjust_down`     one less, as far down as counts reach zero (`RefCount.Down`);
* `adjust_up_ok`, `adjust_down_ok`   when a pass succeeds; it never runs out of fuel;
* `adjust_rewrites`   a pass rewrites cells that were read, and nothing else.
-/

namespace Onx.Storage
open RefCount Dfs

/-- the cells that can be read -/
def cellsOf (c : Crypto) (read : FileKey → Option Bytes) : Heap Uint256 Cell := fun h =>
  match read (.cell h) with
  | none => none
  | some v =>
    match decodeCellRecord c h v with
    | .error _ => none
    | .ok (n, cell) => some (n.toNat, cell)

section
variable {c : Crypto} {d : Disk} {read read' : FileKey → Option Bytes} {h : Uint256}

theorem cellsOf_none (hr : read (.cell h) = none) : cellsOf c read h = none := by
  unfold cellsOf
  rw [hr]

theorem cellsOf_congr (hr : read (.cell h) = read' (.cell h)) :
    cellsOf c read h = cellsOf c read' h := by
  unfold cellsOf
  rw [hr]

theorem cellsOf_decode {v : Bytes} {n : Uint64} {cell : Cell} (hr : read (.cell h) = some v)
    (hd : decodeCellRecord c h v = .ok (n, cell)) : cellsOf c read h = some (n.toNat, cell) := by
  unfold cellsOf
  rw [hr]
  dsimp only
  rw [hd]

/-- a written record is a cell of the heap -/
theorem cellsOf_record {n : Uint64} {cell : Cell} (hh : cell.hash c = h)
    (hr : read (.cell h) = some (encodeCellRecord n cell)) :
    cellsOf c read h = some (n.toNat, cell) := by
  subst hh
  exact cellsOf_decode hr (decodeCellRecord_encode n cell)

theorem exists_record {n : ℕ} {cell : Cell} (hc : cellsOf c read h = some (n, cell)) :
    ∃ v m, read (.cell h) = some v ∧ decodeCellRecord c h v = .ok (m, cell) ∧ m.toNat = n := by
  unfold cellsOf at hc
  cases hr : read (.cell h) with
  | none =>
    rw [hr] at hc
    cases hc
  | some v =>
    rw [hr] at hc
    dsimp only at hc
    cases hd : decodeCellRecord c h v with
    | error e =>
      rw [hd] at hc
      cases hc
    | ok x =>
      rw [hd] at hc
      cases hc
      exact ⟨v, x.1, rfl, hd, rfl⟩

/-- a cell of the heap stands under its hash, and its count is a `u64` -/
theorem cellsOf_some {n : ℕ} {cell : Cell} (hc : cellsOf c read h = some (n, cell)) :
    cell.hash c = h ∧ n < 2^64 := by
  obtain ⟨v, m, _, hd, rfl⟩ := exists_record hc
  exact ⟨hash_of_decode hd, m.isLt⟩

/-- the cells of a heap are what `get_cell` and `cell_refcount` return -/
theorem getCell_of_cellsOf {n : ℕ} {cell : Cell} (hc : cellsOf c d.read h = some (n, cell)) :
    getCell c d h = .ok (some cell) ∧ cellRefcount c d h = .ok (some (BitVec.ofNat 64 n)) := by
  obtain ⟨v, m, hr, hd, rfl⟩ := exists_record hc
  unfold getCell cellRefcount
  rw [hr]
  dsimp only
  rw [hd]
  refine ⟨rfl, ?_⟩
  rw [BitVec.ofNat_toNat, BitVec.setWidth_eq]
  rfl

/-! ## new cells -/

/-- a batch whose cell puts are new cells -/
structure FreshCells (c : Crypto) (d : Disk) (b : Batch) : Prop where
  fresh : ∀ h v, b.lastPut (.cell h) = some v →
    d.read (.cell h) = none ∧ ∃ cell : Cell, cell.hash c = h ∧ v = encodeCellRecord 0 cell

theorem FreshCells.puts {b : Batch} (hb : FreshCells c d b) :
    Puts (cellsOf c d.read) (cellsOf c (b.pending d)) := by
  constructor
  · intro h x hx
    rw [← hx]
    refine cellsOf_congr ?_
    unfold Batch.pending
    cases hl : b.lastPut (.cell h) with
    | none => rfl
    | some v =>
      rw [cellsOf_none (hb.fresh h v hl).1] at hx
      cases hx
  · intro h n cell hnone hsome
    cases hl : b.lastPut (.cell h) with
    | none =>
      have hsame : cellsOf c (b.pending d) h = cellsOf c d.read h := by
        refine cellsOf_congr ?_
        unfold Batch.pending
        rw [hl]
        rfl
      rw [hsame, hnone] at hsome
      cases hsome
    | some v =>
      obtain ⟨_, cell', hh, rfl⟩ := hb.fresh h v hl
      have hrec : cellsOf c (b.pending d) h = some ((0 : Uint64).toNat, cell') := by
        refine cellsOf_record hh ?_
        unfold Batch.pending
        rw [hl]
        rfl
      rw [hrec] at hsome
      cases hsome
      rfl

/-- what `put_cells` changes in a batch -/
structure CellPuts (c : Crypto) (d : Disk) (b b' : Batch) : Prop where
  removes : b'.removes = b.removes
  other : ∀ k, (∀ h, k ≠ .cell h) → b'.lastPut k = b.lastPut k
  fresh : FreshCells c d b → FreshCells c d b'

theorem CellPuts.refl (b : Batch) : CellPuts c d b b := ⟨rfl, fun _ _ => rfl, id⟩

theorem CellPuts.trans {b b' b'' : Batch} (h1 : CellPuts c d b b') (h2 : CellPuts c d b' b'') :
    CellPuts c d b b'' :=
  ⟨h2.removes.trans h1.removes, fun k hk => (h2.other k hk).trans (h1.other k hk),
    fun h => h2.fresh (h1.fresh h)⟩

theorem cellPuts_push {b : Batch} {cell : Cell} (hn : d.read (.cell (cell.hash c)) = none) :
    CellPuts c d b (b.pushPut (.cell (cell.hash c)) (encodeCellRecord 0 cell)) := by
  refine ⟨rfl, fun k hk => ?_, fun hb => ⟨fun h v hl => ?_⟩⟩
  · rw [lastPut_pushPut, if_neg (hk _)]
  · rw [lastPut_pushPut] at hl
    split_ifs at hl with heq
    · cases heq
      cases hl
      exact ⟨hn, cell, rfl, rfl⟩
    · exact hb.fresh h v hl

/-- a cell of a list is put, or stored with the same bytes -/
theorem putCells_cons {cell : Cell} {cells : List Cell} {b b' : Batch}
    (h : putCells c d (cell :: cells) b = .ok b') : ∃ mid, putCells c d cells mid = .ok b' ∧
      CellPuts c d b mid ∧ (FreshCells c d b →
        ∃ n, cellsOf c (mid.pending d) (cell.hash c) = some (n, cell)) := by
  unfold putCells at h
  cases hr : d.read (.cell (cell.hash c)) with
  | none =>
    rw [hr] at h
    refine ⟨_, h, cellPuts_push hr, fun _ => ⟨_, cellsOf_record (n := 0) rfl ?_⟩⟩
    unfold Batch.pending
    rw [lastPut_pushPut, if_pos rfl]
    rfl
  | some v =>
    rw [hr] at h
    dsimp only at h
    cases hd : decodeCellRecord c (cell.hash c) v with
    | error e =>
      rw [hd] at h
      cases h
    | ok x =>
      obtain ⟨n, old⟩ := x
      rw [hd] at h
      dsimp only at h
      split_ifs at h with hne
      have hold : old = cell := by
        by_contra hc
        exact hne hc
      subst hold
      refine ⟨b, h, CellPuts.refl b, fun hb => ⟨n.toNat, cellsOf_decode ?_ hd⟩⟩
      cases hl : b.lastPut (.cell (old.hash c)) with
      | none =>
        unfold Batch.pending
        rw [hl]
        exact hr
      | some w =>
        rw [(hb.fresh _ w hl).1] at hr
        cases hr

theorem putCells_spec {cells : List Cell} {b b' : Batch} (h : putCells c d cells b = .ok b') :
    CellPuts c d b b' := by
  induction cells generalizing b with
  | nil =>
    cases h
    exact CellPuts.refl _
  | cons cell cells ih =>
    obtain ⟨mid, hmid, hput, _⟩ := putCells_cons h
    exact hput.trans (ih hmid)

/-- a put of other cells keeps a cell -/
theorem putCells_keep {cells : List Cell} {b b' : Batch} (h : putCells c d cells b = .ok b')
    {a : Uint256} (ha : ∀ cell ∈ cells, cell.hash c ≠ a) :
    b'.lastPut (.cell a) = b.lastPut (.cell a) := by
  induction cells generalizing b with
  | nil =>
    cases h
    rfl
  | cons cell cells ih =>
    have hne : FileKey.cell a ≠ .cell (cell.hash c) := by
      intro heq
      cases heq
      exact ha cell List.mem_cons_self rfl
    have hrest : ∀ x ∈ cells, x.hash c ≠ a := fun x hx => ha x (List.mem_cons_of_mem _ hx)
    unfold putCells at h
    cases hr : d.read (.cell (cell.hash c)) with
    | none =>
      rw [hr] at h
      rw [ih h hrest, lastPut_pushPut, if_neg hne]
    | some v =>
      rw [hr] at h
      dsimp only at h
      cases hd : decodeCellRecord c (cell.hash c) v with
      | error e =>
        rw [hd] at h
        cases h
      | ok x =>
        rw [hd] at h
        dsimp only at h
        split_ifs at h
        exact ih h hrest

/-- **The cells of a list are held** after their put, if no two of them share a hash. -/
theorem putCells_mem {cells : List Cell} (hinj : NoCollision c cells) {b b' : Batch}
    (h : putCells c d cells b = .ok b') (hb : FreshCells c d b) :
    ∀ cell ∈ cells, ∃ n, cellsOf c (b'.pending d) (cell.hash c) = some (n, cell) := by
  induction cells generalizing b with
  | nil => exact fun _ hm => nomatch hm
  | cons cell cells ih =>
    obtain ⟨mid, hmid, hput, hcell⟩ := putCells_cons h
    have hinj' : NoCollision c cells := hinj.mono fun x hx => List.mem_cons_of_mem _ hx
    have hrest := ih hinj' hmid (hput.fresh hb)
    intro x hx
    by_cases hin : x ∈ cells
    · exact hrest x hin
    · have hxc : x = cell := (List.mem_cons.mp hx).resolve_right hin
      subst hxc
      obtain ⟨n, hn⟩ := hcell hb
      refine ⟨n, ?_⟩
      rw [← hn]
      refine cellsOf_congr (pending_of_lastPut (putCells_keep hmid ?_))
      intro y hy heq
      have hyx : y = x := hinj y (List.mem_cons_of_mem _ hy) x List.mem_cons_self heq
      exact hin (hyx ▸ hy)

/-- a put of cells fails only where a stored record is another cell or none -/
theorem putCells_ok {cells : List Cell} (b : Batch)
    (h : ∀ cell ∈ cells, ∀ v, d.read (.cell (cell.hash c)) = some v →
      ∃ n, decodeCellRecord c (cell.hash c) v = .ok (n, cell)) :
    ∃ b', putCells c d cells b = .ok b' := by
  induction cells generalizing b with
  | nil => exact ⟨b, rfl⟩
  | cons cell cells ih =>
    have hrest : ∀ x ∈ cells, _ := fun x hx => h x (List.mem_cons_of_mem _ hx)
    unfold putCells
    cases hr : d.read (.cell (cell.hash c)) with
    | none => exact ih _ hrest
    | some v =>
      obtain ⟨n, hd⟩ := h cell List.mem_cons_self v hr
      dsimp only
      rw [hd]
      dsimp only
      rw [if_neg (fun hne => hne rfl)]
      exact ih b hrest

/-! ## one cell of a pass -/

/-- **What a pass does at one cell.** -/
theorem adjustOne_cases {up : Bool} {b b' : Batch} {cs : List Uint256}
    (ha : adjustOne c d up h b = .ok (cs, b')) : ∃ n cell,
      cellsOf c (b.pending d) h = some (n, cell) ∧
      ((up = true ∧ n + 1 < 2^64 ∧ cs = cell.cellRefs
          ∧ b' = b.pushPut (.cell h) (encodeCellRecord (BitVec.ofNat 64 (n + 1)) cell)) ∨
        (up = false ∧ n = 1 ∧ cs = cell.cellRefs ∧ b' = b.pushRemove (.cell h)) ∨
        (up = false ∧ ∃ k, n = k + 2 ∧ cs = []
          ∧ b' = b.pushPut (.cell h) (encodeCellRecord (BitVec.ofNat 64 (k + 1)) cell))) := by
  unfold adjustOne at ha
  cases hr : b.pending d (.cell h) with
  | none =>
    rw [hr] at ha
    cases ha
  | some v =>
    rw [hr] at ha
    dsimp only at ha
    cases hd : decodeCellRecord c h v with
    | error e =>
      rw [hd] at ha
      cases ha
    | ok x =>
      obtain ⟨n, cell⟩ := x
      rw [hd] at ha
      dsimp only at ha
      refine ⟨n.toNat, cell, cellsOf_decode hr hd, ?_⟩
      split_ifs at ha with hup hmax h0 h1
      · cases ha
        refine Or.inl ⟨hup, hmax, rfl, ?_⟩
        rw [BitVec.ofNat_add, BitVec.ofNat_toNat, BitVec.setWidth_eq]
        rfl
      · cases ha
        exact Or.inr (Or.inl ⟨by simpa using hup, by rw [h1]; rfl, rfl, rfl⟩)
      · cases ha
        have h0' : n.toNat ≠ 0 := fun he => h0 (BitVec.eq_of_toNat_eq he)
        have h1' : n.toNat ≠ 1 := fun he => h1 (BitVec.eq_of_toNat_eq he)
        refine Or.inr (Or.inr ⟨by simpa using hup, n.toNat - 2, by omega, rfl, ?_⟩)
        have hsub : n - 1 = BitVec.ofNat 64 (n.toNat - 2 + 1) := by
          refine BitVec.eq_of_toNat_eq ?_
          have hn := n.isLt
          rw [BitVec.toNat_sub, BitVec.toNat_ofNat]
          show (2^64 - 1 + n.toNat) % 2^64 = _
          omega
        rw [hsub]

/-- a pass upwards passes at a cell whose count is not the largest -/
theorem adjustOne_up_ok {b : Batch} {n : ℕ} {cell : Cell}
    (hc : cellsOf c (b.pending d) h = some (n, cell)) (hn : n + 1 < 2^64) :
    ∃ r, adjustOne c d true h b = .ok r := by
  obtain ⟨v, m, hr, hd, rfl⟩ := exists_record hc
  unfold adjustOne
  rw [hr]
  dsimp only
  rw [hd]
  dsimp only
  rw [if_pos rfl, if_pos hn]
  exact ⟨_, rfl⟩

/-- a pass downwards passes at a counted cell -/
theorem adjustOne_down_ok {b : Batch} {n : ℕ} {cell : Cell}
    (hc : cellsOf c (b.pending d) h = some (n + 1, cell)) :
    ∃ r, adjustOne c d false h b = .ok r := by
  obtain ⟨v, m, hr, hd, hm⟩ := exists_record hc
  have h0 : m ≠ 0 := by
    intro he
    rw [he] at hm
    cases hm
  unfold adjustOne
  rw [hr]
  dsimp only
  rw [hd]
  dsimp only
  rw [if_neg Bool.false_ne_true, if_neg h0]
  split_ifs
  · exact ⟨_, rfl⟩
  · exact ⟨_, rfl⟩

/-! ## a whole pass -/

/-- what has been changed so far: nothing outside of the cells seen -/
structure Touched (b0 : Batch) (seen : List Uint256) (b : Batch) : Prop where
  lastPut : ∀ k, (∀ a ∈ seen, k ≠ .cell a) → b.lastPut k = b0.lastPut k
  removes : ∀ k, (∀ a ∈ seen, k ≠ .cell a) → (k ∈ b.removes ↔ k ∈ b0.removes)

theorem Touched.pending {b0 b : Batch} {seen : List Uint256} (ht : Touched b0 seen b)
    {a : Uint256} (ha : a ∉ seen) :
    cellsOf c (b.pending d) a = cellsOf c (b0.pending d) a := by
  refine cellsOf_congr (pending_of_lastPut (ht.lastPut _ fun x hx heq => ?_))
  cases heq
  exact ha hx

theorem Touched.push {b0 b : Batch} {seen : List Uint256} (ht : Touched b0 seen b) (a : Uint256)
    (v : Bytes) : Touched b0 (a :: seen) (b.pushPut (.cell a) v) := by
  constructor
  · intro k hk
    rw [lastPut_pushPut, if_neg (hk a List.mem_cons_self)]
    exact ht.lastPut k fun x hx => hk x (List.mem_cons_of_mem _ hx)
  · intro k hk
    exact ht.removes k fun x hx => hk x (List.mem_cons_of_mem _ hx)

theorem Touched.drop {b0 b : Batch} {seen : List Uint256} (ht : Touched b0 seen b) (a : Uint256) :
    Touched b0 (a :: seen) (b.pushRemove (.cell a)) := by
  constructor
  · intro k hk
    exact ht.lastPut k fun x hx => hk x (List.mem_cons_of_mem _ hx)
  · intro k hk
    rw [removes_pushRemove, List.mem_append, List.mem_singleton,
      ht.removes k fun x hx => hk x (List.mem_cons_of_mem _ hx)]
    exact or_iff_left (hk a List.mem_cons_self)

/-- the cells that a pass can act on are fewer than its fuel -/
theorem card_cells (d : Disk) (b : Batch) : ∃ U : Finset Uint256,
    (∀ a x, cellsOf c (b.pending d) a = some x → a ∈ U) ∧
      U.card ≤ d.files.size + b.puts.length := by
  classical
  have hinj : Set.InjOn (fun a => (FileKey.cell a).path) Set.univ := by
    intro a _ a' _ heq
    have hk := FileKey.path_inj heq
    cases hk
    rfl
  refine ⟨(d.files.keys ++ b.puts.map (fun x => x.1.path)).toFinset.preimage
    (fun a => (FileKey.cell a).path) (hinj.mono (Set.subset_univ _)), fun a x hx => ?_, ?_⟩
  · rw [Finset.mem_preimage, List.mem_toFinset]
    obtain ⟨v, m, hr, _⟩ := exists_record (show _ = some (x.1, x.2) from hx)
    unfold Batch.pending at hr
    cases hl : b.lastPut (.cell a) with
    | none =>
      rw [hl] at hr
      exact List.mem_append_left _ (OrdMap.mem_keys_iff.mpr ⟨v, hr⟩)
    | some w =>
      refine List.mem_append_right _ (List.mem_map.mpr ?_)
      unfold Batch.lastPut at hl
      obtain ⟨y, hy, _⟩ := Option.map_eq_some_iff.mp hl
      have hmem := List.mem_reverse.mp (List.mem_of_find?_eq_some hy)
      have hkey := List.find?_some hy
      exact ⟨y, hmem, by rw [of_decide_eq_true hkey]⟩
  · refine le_trans (Finset.card_le_card_of_injOn (fun a => (FileKey.cell a).path)
      (fun a ha => ?_) (hinj.mono (Set.subset_univ _))) (List.toFinset_card_le
        (d.files.keys ++ b.puts.map (fun x => x.1.path))) |>.trans ?_
    · rw [Finset.mem_coe, Finset.mem_preimage] at ha
      exact ha
    · rw [List.length_append, OrdMap.length_keys, List.length_map]

/-- a pass without its fuel: it has passed, or failed at a cell within reach -/
theorem adjustCell_cases {up : Bool} (root : Uint256) {b0 : Batch} {nxt : Uint256 → List Uint256}
    {I : List Uint256 → Batch → Prop} (hs : Sound (adjustOne c d up) nxt I)
    (htouch : ∀ seen b, I seen b → Touched b0 seen b) (hI : I [] b0) :
    (∃ seen b', adjustCell c d root up b0 = .ok b' ∧ I seen b' ∧ ∀ a, a ∈ seen ↔ Reach nxt root a)
      ∨ ∃ e seen b a, adjustCell c d root up b0 = .error e ∧ I seen b ∧ a ∉ seen ∧ Reach nxt root a
        ∧ adjustOne c d up a b = .error e := by
  obtain ⟨U, hU, hcard⟩ := card_cells (c := c) d b0
  have hact : ∀ seen b a r, I seen b → a ∉ seen → adjustOne c d up a b = .ok r → a ∈ U := by
    intro seen b a r hb ha hok
    obtain ⟨n, cell, hc, _⟩ := adjustOne_cases (show _ = Except.ok (r.1, r.2) from hok)
    rw [(htouch seen b hb).pending ha] at hc
    exact hU a _ hc
  have hfuel : (U.filter (· ∉ ([] : List Uint256))).card < d.files.size + b0.puts.length + 1 := by
    have hle := Finset.card_filter_le U (· ∉ ([] : List Uint256))
    omega
  have hne := visit_ne_fuel hs hact _ root [] b0 hI hfuel
  unfold adjustCell
  cases hv : visit (adjustOne c d up) (d.files.size + b0.puts.length + 1) root ([], b0) with
  | error o =>
    cases o with
    | fuel => exact absurd hv hne
    | fail e =>
      obtain ⟨seen, b, a, hb, ha, hreach, hfail⟩ := visit_fail hs _ root [] b0 hI hv
      exact Or.inr ⟨e, seen, b, a, rfl, hb, ha, hreach, hfail⟩
  | ok r =>
    obtain ⟨hb, hseen⟩ := visit_reach hs hI (show _ = Except.ok (r.1, r.2) from hv)
    exact Or.inl ⟨r.1, r.2, rfl, hb, hseen⟩

/-- a pass that succeeds has seen what it reaches -/
theorem adjustCell_ok {up : Bool} {root : Uint256} {b0 b' : Batch} {nxt : Uint256 → List Uint256}
    {I : List Uint256 → Batch → Prop} (hs : Sound (adjustOne c d up) nxt I)
    (htouch : ∀ seen b, I seen b → Touched b0 seen b) (hI : I [] b0)
    (h : adjustCell c d root up b0 = .ok b') :
    ∃ seen, I seen b' ∧ ∀ a, a ∈ seen ↔ Reach nxt root a := by
  rcases adjustCell_cases root hs htouch hI with ⟨seen, b1, hok, hI, hseen⟩ | ⟨e, _, _, _, herr, _⟩
  · rw [hok] at h
    cases h
    exact ⟨seen, hI, hseen⟩
  · rw [herr] at h
    cases h

/-! ## upwards -/

/-- the cells seen have one more -/
structure Raised (c : Crypto) (d : Disk) (b0 : Batch) (seen : List Uint256) (b : Batch) : Prop
    extends Touched b0 seen b where
  same_removes : b.removes = b0.removes
  done : ∀ a ∈ seen, ∃ n cell, cellsOf c (b0.pending d) a = some (n, cell) ∧ n + 1 < 2^64
    ∧ b.lastPut (.cell a) = some (encodeCellRecord (BitVec.ofNat 64 (n + 1)) cell)

theorem sound_up (b0 : Batch) : Sound (adjustOne c d true)
    (next Cell.cellRefs (cellsOf c (b0.pending d))) (Raised c d b0) := by
  constructor
  intro seen b x cs b' hI hx ha
  obtain ⟨n, cell, hc, ⟨_, hn, rfl, rfl⟩ | ⟨hup, _⟩ | ⟨hup, _⟩⟩ := adjustOne_cases ha
  · rw [hI.toTouched.pending hx] at hc
    refine ⟨(next_some hc).symm, hI.toTouched.push x _, hI.same_removes, fun a hm => ?_⟩
    rw [lastPut_pushPut]
    by_cases hax : a = x
    · rw [hax, if_pos rfl]
      exact ⟨n, cell, hc, hn, rfl⟩
    · rw [if_neg fun heq => hax (FileKey.cell.inj heq)]
      exact hI.done a ((List.mem_cons.mp hm).resolve_left hax)
  · cases hup
  · cases hup

theorem raised_nil (b0 : Batch) : Raised c d b0 [] b0 :=
  ⟨⟨fun _ _ => rfl, fun _ _ => Iff.rfl⟩, rfl, fun _ h => nomatch h⟩

theorem raised_of_adjust {root : Uint256} {b b' : Batch} (h : adjustCell c d root true b = .ok b') :
    ∃ seen, Raised c d b seen b'
      ∧ ∀ a, a ∈ seen ↔ Reach (next Cell.cellRefs (cellsOf c (b.pending d))) root a :=
  adjustCell_ok (sound_up b) (fun _ _ hI => hI.toTouched) (raised_nil b) h

/-- only cell records are changed -/
structure CellsOnly (b b' : Batch) : Prop where
  removes : ∀ k, (∀ h, k ≠ .cell h) → (k ∈ b'.removes ↔ k ∈ b.removes)
  lastPut : ∀ k, (∀ h, k ≠ .cell h) → b'.lastPut k = b.lastPut k

theorem Touched.cellsOnly {b0 b : Batch} {seen : List Uint256} (ht : Touched b0 seen b) :
    CellsOnly b0 b :=
  ⟨fun k hk => ht.removes k fun a _ => hk a, fun k hk => ht.lastPut k fun a _ => hk a⟩

/-- **A pass upwards is `Up`**, on what the batch reads. -/
theorem adjust_up {root : Uint256} {b b' : Batch} (h : adjustCell c d root true b = .ok b') :
    Up Cell.cellRefs (cellsOf c (b.pending d)) root (cellsOf c (b'.pending d))
      ∧ b'.removes = b.removes
      ∧ ∀ a, ¬ Reach (next Cell.cellRefs (cellsOf c (b.pending d))) root a →
        b'.lastPut (.cell a) = b.lastPut (.cell a) := by
  obtain ⟨seen, hI, hseen⟩ := raised_of_adjust h
  have hout : ∀ a, ¬ Reach (next Cell.cellRefs (cellsOf c (b.pending d))) root a →
      ∀ x ∈ seen, FileKey.cell a ≠ .cell x :=
    fun a ha x hx heq => ha ((hseen a).mp (FileKey.cell.inj heq ▸ hx))
  refine ⟨⟨fun a ha => ?_, fun a ha => ?_⟩, hI.same_removes, fun a ha => hI.lastPut _ (hout a ha)⟩
  · obtain ⟨n, cell, hc, hn, hput⟩ := hI.done a ((hseen a).mpr ha)
    refine ⟨n, cell, hc, ?_⟩
    have hread : b'.pending d (.cell a)
        = some (encodeCellRecord (BitVec.ofNat 64 (n + 1)) cell) := by
      unfold Batch.pending
      rw [hput]
      rfl
    have hrec := cellsOf_record (cellsOf_some hc).1 hread
    rw [hrec, BitVec.toNat_ofNat, Nat.mod_eq_of_lt hn]
  · exact hI.toTouched.pending fun hm => ha ((hseen a).mp hm)

/-- a pass upwards writes every cell within reach -/
theorem adjust_up_put {root : Uint256} {b b' : Batch} (h : adjustCell c d root true b = .ok b')
    {a : Uint256} (ha : Reach (next Cell.cellRefs (cellsOf c (b.pending d))) root a) :
    ∃ v, b'.lastPut (.cell a) = some v := by
  obtain ⟨seen, hI, hseen⟩ := raised_of_adjust h
  obtain ⟨n, cell, _, _, hput⟩ := hI.done a ((hseen a).mpr ha)
  exact ⟨_, hput⟩

/-- **A pass upwards succeeds** if all cells within reach are there, with counts below the
largest. -/
theorem adjust_up_ok (root : Uint256) (b : Batch)
    (h : ∀ a, Reach (next Cell.cellRefs (cellsOf c (b.pending d))) root a →
      ∃ n cell, cellsOf c (b.pending d) a = some (n, cell) ∧ n + 1 < 2^64) :
    ∃ b', adjustCell c d root true b = .ok b' := by
  rcases adjustCell_cases root (sound_up (c := c) (d := d) b) (fun _ _ hI => hI.toTouched)
    (raised_nil b) with ⟨seen, b1, hok, _⟩ | ⟨e, seen, b1, a, _, hI, ha, hreach, hfail⟩
  · exact ⟨b1, hok⟩
  · obtain ⟨n, cell, hc, hn⟩ := h a hreach
    rw [← hI.toTouched.pending ha] at hc
    obtain ⟨r, hr⟩ := adjustOne_up_ok hc hn
    rw [hr] at hfail
    cases hfail

/-! ## downwards -/

/-- the cells seen have one less, or are removed -/
structure Lowered (c : Crypto) (d : Disk) (b0 : Batch) (seen : List Uint256) (b : Batch) : Prop
    extends Touched b0 seen b where
  done : ∀ a ∈ seen, ∃ n cell, cellsOf c (b0.pending d) a = some (n + 1, cell) ∧
    ((n = 0 ∧ b.lastPut (.cell a) = b0.lastPut (.cell a) ∧ .cell a ∈ b.removes) ∨
      (n ≠ 0 ∧ b.lastPut (.cell a) = some (encodeCellRecord (BitVec.ofNat 64 n) cell)))

theorem sound_down (b0 : Batch) : Sound (adjustOne c d false)
    (sole Cell.cellRefs (cellsOf c (b0.pending d))) (Lowered c d b0) := by
  constructor
  intro seen b x cs b' hI hx ha
  have hold : ∀ a, a ∈ x :: seen → a ≠ x → a ∈ seen :=
    fun a hm hax => (List.mem_cons.mp hm).resolve_left hax
  obtain ⟨n, cell, hc, ⟨hup, _⟩ | ⟨_, rfl, rfl, rfl⟩ | ⟨_, k, rfl, rfl, rfl⟩⟩ := adjustOne_cases ha
  · cases hup
  · rw [hI.toTouched.pending hx] at hc
    have hlast : b.lastPut (.cell x) = b0.lastPut (.cell x) :=
      hI.lastPut _ fun a hm heq => hx (FileKey.cell.inj heq ▸ hm)
    refine ⟨?_, hI.toTouched.drop x, fun a hm => ?_⟩
    · unfold sole
      rw [if_pos (count_some hc), next_some hc]
    · rw [lastPut_pushRemove, removes_pushRemove]
      by_cases hax : a = x
      · subst hax
        exact ⟨0, cell, hc, Or.inl ⟨rfl, hlast,
          List.mem_append_right _ (List.mem_singleton_self _)⟩⟩
      · obtain ⟨n, cell', hc', h | h⟩ := hI.done a (hold a hm hax)
        · exact ⟨n, cell', hc', Or.inl ⟨h.1, h.2.1, List.mem_append_left _ h.2.2⟩⟩
        · exact ⟨n, cell', hc', Or.inr h⟩
  · rw [hI.toTouched.pending hx] at hc
    refine ⟨?_, hI.toTouched.push x _, fun a hm => ?_⟩
    · unfold sole
      rw [if_neg]
      rw [count_some hc]
      omega
    · rw [lastPut_pushPut]
      by_cases hax : a = x
      · subst hax
        exact ⟨k + 1, cell, hc, Or.inr ⟨Nat.succ_ne_zero k, if_pos rfl⟩⟩
      · rw [if_neg fun heq => hax (FileKey.cell.inj heq)]
        exact hI.done a (hold a hm hax)

theorem lowered_nil (b0 : Batch) : Lowered c d b0 [] b0 :=
  ⟨⟨fun _ _ => rfl, fun _ _ => Iff.rfl⟩, fun _ h => nomatch h⟩

theorem lowered_of_adjust {root : Uint256} {b b' : Batch}
    (h : adjustCell c d root false b = .ok b') : ∃ seen, Lowered c d b seen b'
      ∧ ∀ a, a ∈ seen ↔ Reach (sole Cell.cellRefs (cellsOf c (b.pending d))) root a :=
  adjustCell_ok (sound_down b) (fun _ _ hI => hI.toTouched) (lowered_nil b) h

/-- a cell that the pass has not seen stays -/
theorem Lowered.after {b0 b : Batch} {seen : List Uint256} (hI : Lowered c d b0 seen b)
    (hremoves : ∀ a, .cell a ∉ b0.removes) {a : Uint256} (ha : a ∉ seen) :
    cellsOf c (b.after d) a = cellsOf c (b0.pending d) a := by
  have hout : ∀ x ∈ seen, FileKey.cell a ≠ .cell x :=
    fun x hx heq => ha (FileKey.cell.inj heq ▸ hx)
  refine cellsOf_congr ?_
  rw [after_of_not_removed fun hm => hremoves a ((hI.removes _ hout).mp hm)]
  exact pending_of_lastPut (hI.lastPut _ hout)

/-- a cell that is written stays, removed or not -/
theorem cellsOf_after_put {b : Batch} {a : Uint256} {n : Uint64} {cell : Cell}
    (hh : cell.hash c = a) (hput : b.lastPut (.cell a) = some (encodeCellRecord n cell)) :
    cellsOf c (b.after d) a = some (n.toNat, cell) := by
  refine cellsOf_record hh ?_
  unfold Batch.after
  rw [hput]
  rfl

/-- a cell that is removed, and not written, is gone -/
theorem cellsOf_after_remove {b : Batch} {a : Uint256} (hput : b.lastPut (.cell a) = none)
    (hgone : .cell a ∈ b.removes) : cellsOf c (b.after d) a = none := by
  refine cellsOf_none ?_
  unfold Batch.after
  rw [hput, if_pos hgone]
  rfl

/-- **A pass downwards is `Down`**, from what the batch reads to what its commit leaves, if the
batch has no put of a cell that the pass removes. -/
theorem adjust_down {root : Uint256} {b b' : Batch} (h : adjustCell c d root false b = .ok b')
    (hremoves : ∀ a, .cell a ∉ b.removes)
    (hputs : ∀ a, Reach (sole Cell.cellRefs (cellsOf c (b.pending d))) root a →
      count (cellsOf c (b.pending d)) a = 1 → b.lastPut (.cell a) = none) :
    Down Cell.cellRefs (cellsOf c (b.pending d)) root (cellsOf c (b'.after d)) := by
  obtain ⟨seen, hI, hseen⟩ := lowered_of_adjust h
  refine ⟨fun a ha => ?_, fun a ha => hI.after hremoves fun hm => ha ((hseen a).mp hm)⟩
  obtain ⟨n, cell, hc, ⟨rfl, hsame, hgone⟩ | ⟨hn, hput⟩⟩ := hI.done a ((hseen a).mpr ha)
  · refine ⟨0, cell, hc, ?_⟩
    rw [if_pos rfl]
    exact cellsOf_after_remove (hsame.trans (hputs a ha (count_some hc))) hgone
  · refine ⟨n, cell, hc, ?_⟩
    have hlt : n < 2^64 := by
      have hbound := (cellsOf_some hc).2
      omega
    rw [if_neg hn, cellsOf_after_put (cellsOf_some hc).1 hput, BitVec.toNat_ofNat,
      Nat.mod_eq_of_lt hlt]

/-- **What a pass downwards leaves of a cell**, whatever the batch has put: the cell is gone if it
is met with the count one and has no put, and is there otherwise. -/
theorem adjust_down_cell {root : Uint256} {b b' : Batch} (h : adjustCell c d root false b = .ok b')
    (hremoves : ∀ a, .cell a ∉ b.removes) {a : Uint256} {n : ℕ} {cell : Cell}
    (hc : cellsOf c (b.pending d) a = some (n, cell)) :
    (Reach (sole Cell.cellRefs (cellsOf c (b.pending d))) root a ∧ n = 1
        ∧ b.lastPut (.cell a) = none) ∧ cellsOf c (b'.after d) a = none ∨
      ¬ (Reach (sole Cell.cellRefs (cellsOf c (b.pending d))) root a ∧ n = 1
        ∧ b.lastPut (.cell a) = none) ∧ ∃ m, cellsOf c (b'.after d) a = some (m, cell) := by
  obtain ⟨seen, hI, hseen⟩ := lowered_of_adjust h
  by_cases ha : a ∈ seen
  · obtain ⟨k, cell', hc', hcase⟩ := hI.done a ha
    rw [hc] at hc'
    cases hc'
    rcases hcase with ⟨rfl, hsame, hgone⟩ | ⟨hk, hput⟩
    · cases hl : b.lastPut (.cell a) with
      | none =>
        exact Or.inl ⟨⟨(hseen a).mp ha, rfl, rfl⟩, cellsOf_after_remove (hsame.trans hl) hgone⟩
      | some v =>
        -- the put of the same batch outlives the removal
        refine Or.inr ⟨fun hgone => (nomatch hgone.2.2), 1, ?_⟩
        rw [← hc]
        refine cellsOf_congr ?_
        unfold Batch.after Batch.pending
        rw [hsame, hl]
        rfl
    · exact Or.inr ⟨fun hgone => hk (Nat.succ.inj hgone.2.1), _,
        cellsOf_after_put (cellsOf_some hc).1 hput⟩
  · exact Or.inr ⟨fun hgone => ha ((hseen a).mpr hgone.1), n, (hI.after hremoves ha).trans hc⟩

/-- **A pass downwards succeeds** if all cells on its way are counted. -/
theorem adjust_down_ok {root : Uint256} {b : Batch}
    (h : ∀ a, Reach (sole Cell.cellRefs (cellsOf c (b.pending d))) root a →
      1 ≤ count (cellsOf c (b.pending d)) a) :
    ∃ b', adjustCell c d root false b = .ok b' := by
  rcases adjustCell_cases root (sound_down (c := c) (d := d) b)
    (fun _ _ hI => hI.toTouched) (lowered_nil b)
    with ⟨seen, b1, hok, _⟩ | ⟨e, seen, b1, a, _, hI, ha, hreach, hfail⟩
  · exact ⟨b1, hok⟩
  · obtain ⟨n, cell, hc⟩ := some_of_count (n := 0) (h a hreach)
    rw [← hI.toTouched.pending ha] at hc
    obtain ⟨r, hr⟩ := adjustOne_down_ok hc
    rw [hr] at hfail
    cases hfail

/-- **A pass rewrites cells that were read**, and nothing else. -/
theorem adjust_rewrites {root : Uint256} {up : Bool} {b b' : Batch}
    (h : adjustCell c d root up b = .ok b') : CellsOnly b b' ∧ ∀ a v,
      b'.lastPut (.cell a) = some v → b.lastPut (.cell a) = some v ∨
        ∃ n m cell, cellsOf c (b.pending d) a = some (n, cell) ∧ v = encodeCellRecord m cell := by
  have hout : ∀ seen b1, Touched b seen b1 → ∀ a, a ∉ seen →
      b1.lastPut (.cell a) = b.lastPut (.cell a) :=
    fun seen b1 ht a ha => ht.lastPut _ fun x hx heq => ha (FileKey.cell.inj heq ▸ hx)
  cases up with
  | true =>
    obtain ⟨seen, hI, _⟩ := raised_of_adjust h
    refine ⟨hI.toTouched.cellsOnly, fun a v hv => ?_⟩
    by_cases ha : a ∈ seen
    · obtain ⟨n, cell, hc, _, hput⟩ := hI.done a ha
      rw [hput] at hv
      exact Or.inr ⟨n, _, cell, hc, (Option.some.inj hv).symm⟩
    · rw [hout seen _ hI.toTouched a ha] at hv
      exact Or.inl hv
  | false =>
    obtain ⟨seen, hI, _⟩ := lowered_of_adjust h
    refine ⟨hI.toTouched.cellsOnly, fun a v hv => ?_⟩
    by_cases ha : a ∈ seen
    · obtain ⟨n, cell, hc, ⟨_, hsame, _⟩ | ⟨_, hput⟩⟩ := hI.done a ha
      · rw [hsame] at hv
        exact Or.inl hv
      · rw [hput] at hv
        exact Or.inr ⟨n + 1, _, cell, hc, (Option.some.inj hv).symm⟩
    · rw [hout seen _ hI.toTouched a ha] at hv
      exact Or.inl hv

theorem decodeCellRecord_ne_depth (v : Bytes) : decodeCellRecord c h v ≠ .error .depth := by
  intro he
  unfold decodeCellRecord at he
  split at he
  · cases he
  · split at he
    · cases he
    · split at he <;> cases he

theorem adjustOne_ne_depth (up : Bool) (b : Batch) : adjustOne c d up h b ≠ .error .depth := by
  intro he
  unfold adjustOne at he
  split at he
  · cases he
  · split at he
    · rename_i hd
      cases he
      exact decodeCellRecord_ne_depth _ hd
    · split_ifs at he <;> cases he

/-- the model's bound on the depth of a pass is never met -/
theorem adjustCell_ne_depth (root : Uint256) (up : Bool) (b : Batch) :
    adjustCell c d root up b ≠ .error .depth := by
  intro hdepth
  cases up with
  | true =>
    rcases adjustCell_cases root (sound_up (c := c) (d := d) b)
      (fun _ _ hI => hI.toTouched) (raised_nil b)
      with ⟨_, b1, hok, _⟩ | ⟨e, _, b1, a, herr, _, _, _, hfail⟩
    · rw [hok] at hdepth
      cases hdepth
    · rw [herr] at hdepth
      cases hdepth
      exact adjustOne_ne_depth _ b1 hfail
  | false =>
    rcases adjustCell_cases root (sound_down (c := c) (d := d) b)
      (fun _ _ hI => hI.toTouched) (lowered_nil b)
      with ⟨_, b1, hok, _⟩ | ⟨e, _, b1, a, herr, _, _, _, hfail⟩
    · rw [hok] at hdepth
      cases hdepth
    · rw [herr] at hdepth
      cases hdepth
      exact adjustOne_ne_depth _ b1 hfail

end

end Onx.Storage
