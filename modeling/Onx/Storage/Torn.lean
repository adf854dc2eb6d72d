import Onx.Storage.Journal

/-!
# A crash while the journal is written

The journal is written in place, and a store that is opened replays whatever it finds.  A torn
journal ends in the middle of a line, and that line still reads as an operation if it is a removal
with part of its path, or a put with an even number of the digits of its value.

* `cutOps`            the operations that a torn journal spells, if it can be read;
* `replay_take`       what the replay of a torn journal does;
* `crash_atomic_iff`  opening restores the contents before or after the commit exactly when the
                      lines that are left change nothing or change everything;
* `loses_between`     between the removals and the puts, records are lost.
-/

namespace Onx.Storage

/-! ## the lines of a torn journal -/

/-- the operations that the first `k` characters of a line spell -/
def JournalOp.cut (k : Nat) : JournalOp → Option (List JournalOp)
  | .remove path =>
    if k = 0 then some []
    else if k = 1 then none
    else some [.remove (path.take (k - 2))]
  | .put path v =>
    if k = 0 then some []
    else if k < path.length + 3 then none
    else if (k - (path.length + 3)) % 2 = 1 then none
    else some [.put path (v.take ((k - (path.length + 3)) / 2))]

/-- the operations that the first `k` characters of a journal spell -/
def cutOps : List JournalOp → Nat → Option (List JournalOp)
  | [], _ => some []
  | op :: ops, k =>
    if op.line.length < k then (cutOps ops (k - (op.line.length + 1))).map (op :: ·)
    else op.cut k

theorem cut_put_none {path : Text} {v : Bytes} {k : Nat} (h0 : k ≠ 0) (h : k < path.length + 3) :
    (JournalOp.put path v).cut k = none := by
  show (if k = 0 then _ else if k < path.length + 3 then _ else _) = _
  rw [if_neg h0, if_pos h]

theorem cut_put {path : Text} {v : Bytes} (j : Nat) :
    (JournalOp.put path v).cut (path.length + 3 + j)
      = if j % 2 = 1 then none else some [.put path (v.take (j / 2))] := by
  show (if _ = 0 then _ else if _ < path.length + 3 then _ else _) = _
  rw [if_neg (by omega), if_neg (by omega), Nat.add_sub_cancel_left]

theorem lineOps_put_path {path : Text} (h : PlainPath path) :
    lineOps ('P' :: ' ' :: path) = .error (.corrupt "invalid commit journal") := by
  have h1 : cutAt ' ' ('P' :: ' ' :: path) = (['P'], some path) :=
    cutAt_some (a := ['P']) (by decide) path
  unfold lineOps splitn3
  rw [h1]
  dsimp only
  rw [cutAt_none (space_not_mem h)]
  rfl

theorem plainPath_take {path : Text} (h : PlainPath path) (n : Nat) : PlainPath (path.take n) :=
  fun ch hch => h ch (List.mem_of_mem_take hch)

theorem unhex_odd {v : Text} (h : v.length % 2 = 1) :
    unhex v = .error (.corrupt "invalid hexadecimal storage key") := by
  unfold unhex
  rw [if_pos (by omega)]

theorem length_line_put (path : Text) (v : Bytes) :
    (JournalOp.put path v).line.length = path.length + 3 + 2 * v.length := by
  show (path ++ ' ' :: hex v).length + 1 + 1 = _
  rw [List.length_append, List.length_cons, length_hex]
  omega

/-- a `P` line cut in its path -/
theorem take_line_path {path : Text} {j : Nat} (v : Bytes) (h : j ≤ path.length) :
    (JournalOp.put path v).line.take (j + 2) = 'P' :: ' ' :: path.take j := by
  show 'P' :: ' ' :: (path ++ ' ' :: hex v).take j = _
  rw [List.take_append_of_le_length h]

/-- a `P` line cut in its value -/
theorem take_line_value (path : Text) (v : Bytes) (j : Nat) :
    (JournalOp.put path v).line.take (path.length + 3 + j)
      = 'P' :: ' ' :: (path ++ ' ' :: (hex v).take j) := by
  have hsum : path.length + 3 + j = (path.length + (j + 1)) + 2 := by omega
  rw [hsum]
  show 'P' :: ' ' :: (path ++ ' ' :: hex v).take (path.length + (j + 1)) = _
  rw [List.take_length_add_append]
  rfl

/-- the replay of a last line that is cut, against the operations it spells -/
theorem replay_cut {op : JournalOp} (h : op.PathOk) {k : Nat} (hk : k ≤ op.line.length)
    (files : Files) :
    (∃ ops, op.cut k = some ops
        ∧ replay (lines (op.line.take k)) files = (.ok (), ops.foldl JournalOp.apply files))
      ∨ (op.cut k = none ∧ ∃ e files', replay (lines (op.line.take k)) files = (.error e, files')) := by
  have hone : OneLine (op.line.take k) :=
    fun ch hch => oneLine_line h ch (List.mem_of_mem_take hch)
  rcases Nat.eq_zero_or_pos k with rfl | hpos
  · refine Or.inl ⟨[], ?_, rfl⟩
    cases op <;> rfl
  -- a line that is not empty is the only one
  have hlines : lines (op.line.take k) = [op.line.take k] := by
    rw [lines_last hone, if_neg]
    intro hnil
    have hlen := congrArg List.length hnil
    rw [List.length_take, Nat.min_eq_left hk] at hlen
    exact absurd hlen (by simp; omega)
  have herr : ∀ e, lineOps (op.line.take k) = .error e →
      replay [op.line.take k] files = (.error e, files) := by
    intro e he
    unfold replay
    rw [he]
  rw [hlines]
  cases op with
  | remove path =>
    by_cases h1 : k = 1
    · subst h1
      exact Or.inr ⟨rfl, _, _, herr (.corrupt "invalid commit journal") rfl⟩
    · obtain ⟨j, rfl⟩ : ∃ j, k = j + 2 := ⟨k - 2, by omega⟩
      refine Or.inl ⟨[.remove (path.take j)], rfl, ?_⟩
      exact replay_cons (lineOps_remove (plainPath_take h j)) [] files
  | put path v =>
    by_cases h1 : k = 1
    · subst h1
      exact Or.inr ⟨cut_put_none (by omega) (by omega), _, _,
        herr (.corrupt "invalid commit journal") rfl⟩
    by_cases h2 : k < path.length + 3
    · obtain ⟨j, rfl⟩ : ∃ j, k = j + 2 := ⟨k - 2, by omega⟩
      refine Or.inr ⟨cut_put_none (by omega) h2, _, _, herr (.corrupt "invalid commit journal") ?_⟩
      rw [take_line_path v (by omega)]
      exact lineOps_put_path (plainPath_take h j)
    · obtain ⟨j, rfl⟩ : ∃ j, k = path.length + 3 + j := ⟨k - (path.length + 3), by omega⟩
      have hj : j ≤ 2 * v.length := by
        rw [length_line_put] at hk
        omega
      rw [cut_put]
      by_cases hodd : j % 2 = 1
      · have hlen : ((hex v).take j).length % 2 = 1 := by
          rw [List.length_take, length_hex, Nat.min_eq_left hj]
          exact hodd
        refine Or.inr ⟨if_pos hodd, _, _, herr (.corrupt "invalid hexadecimal storage key") ?_⟩
        rw [take_line_value, lineOps_put h, unhex_odd hlen]
      · have heven : (hex v).take j = hex (v.take (j / 2)) := by
          rw [← hex_take, Nat.mul_div_cancel' (Nat.dvd_of_mod_eq_zero (by omega))]
        refine Or.inl ⟨_, if_neg hodd, ?_⟩
        have hops : lineOps ('P' :: ' ' :: (path ++ ' ' :: (hex v).take j))
            = .ok (JournalOp.put path (v.take (j / 2))).fileOps := by
          rw [lineOps_put h, heven, unhex_hex]
        rw [take_line_value]
        exact replay_cons hops [] files

/-- **The replay of a torn journal** applies the operations it spells, or fails. -/
theorem replay_take {ops : List JournalOp} (h : ∀ op ∈ ops, op.PathOk) (k : Nat) (files : Files) :
    (∃ ops', cutOps ops k = some ops'
        ∧ replay (lines ((textOf ops).take k)) files = (.ok (), ops'.foldl JournalOp.apply files))
      ∨ (cutOps ops k = none
        ∧ ∃ e files', replay (lines ((textOf ops).take k)) files = (.error e, files')) := by
  induction ops generalizing k files with
  | nil =>
    refine Or.inl ⟨[], rfl, ?_⟩
    show replay (lines (([] : Text).take k)) files = _
    rw [List.take_nil]
    rfl
  | cons op ops ih =>
    have hop := h op List.mem_cons_self
    have htext : textOf (op :: ops) = op.line ++ ['\n'] ++ textOf ops := rfl
    unfold cutOps
    by_cases hk : op.line.length < k
    · have htake : (textOf (op :: ops)).take k
          = op.line ++ ['\n'] ++ (textOf ops).take (k - (op.line.length + 1)) := by
        rw [htext, List.take_append, List.take_of_length_le (by simp; omega),
          List.length_append, List.length_singleton]
      rw [if_pos hk, htake, lines_cons (oneLine_line hop), replay_cons (lineOps_line hop)]
      rcases ih (fun o ho => h o (List.mem_cons_of_mem _ ho)) (k - (op.line.length + 1))
        (op.apply files) with ⟨ops', hcut, hrep⟩ | ⟨hcut, herr⟩
      · exact Or.inl ⟨op :: ops', by rw [hcut]; rfl, hrep⟩
      · exact Or.inr ⟨by rw [hcut]; rfl, herr⟩
    · have htake : (textOf (op :: ops)).take k = op.line.take k := by
        rw [htext, List.append_assoc, List.take_append_of_le_length (by omega)]
      rw [if_neg hk, htake]
      exact replay_cut hop (by omega) files

/-! ## what the lines name -/

/-- the content that an operation leaves in a file it names -/
def JournalOp.leaves (q : Text) : JournalOp → Option (Option Bytes)
  | .remove path => if q = path then some none else none
  | .put path v =>
    if q = path then some (some v) else if q = withExtensionTmp path then some none else none

/-- the content that the last operation on a file leaves in it -/
def lastOn (q : Text) : List JournalOp → Option (Option Bytes)
  | [] => none
  | op :: ops => (lastOn q ops).or (op.leaves q)

theorem onFile_eq (op : JournalOp) (q : Text) (old : Option Bytes) :
    op.onFile q old = (op.leaves q).getD old := by
  cases op with
  | remove path =>
    unfold JournalOp.onFile JournalOp.leaves
    dsimp only
    split_ifs <;> rfl
  | put path v =>
    unfold JournalOp.onFile JournalOp.leaves
    dsimp only
    split_ifs <;> rfl

theorem fileAfter_eq (ops : List JournalOp) (q : Text) (old : Option Bytes) :
    fileAfter ops q old = (lastOn q ops).getD old := by
  induction ops generalizing old with
  | nil => rfl
  | cons op ops ih =>
    show fileAfter ops q (op.onFile q old) = _
    rw [ih, onFile_eq]
    show _ = ((lastOn q ops).or (op.leaves q)).getD old
    cases lastOn q ops with
    | none => rfl
    | some v => rfl

/-! ## crash atomicity -/

/-- a file below one of the four directories -/
def InFamily (q : Text) : Prop := ∃ cf ∈ COLUMN_FAMILIES, cf ++ ['/'] <+: q

def SameFamilies (files files' : Files) : Prop := ∀ q, InFamily q → files.get? q = files'.get? q

/-- opening after a crash that left `k` bytes of the journal of `b` restores the contents from
before or after the commit -/
def CrashAtomic (files : Files) (b : Batch) (k : Nat) : Prop :=
  (openStore ⟨files, some ((journalText b).take k)⟩).1 = .ok () ∧
    (SameFamilies (openStore ⟨files, some ((journalText b).take k)⟩).2.files files ∨
      SameFamilies (openStore ⟨files, some ((journalText b).take k)⟩).2.files
        (commit b ⟨files, none⟩).2.files)

/-- every file that the operations name ends with the content it had -/
def ChangesNothing (files : Files) (ops : List JournalOp) : Prop :=
  ∀ q, InFamily q → ∀ v, lastOn q ops = some v → v = files.get? q

/-- every file that the journal names ends as the whole journal leaves it -/
def ChangesAll (files : Files) (ops whole : List JournalOp) : Prop :=
  ∀ q, InFamily q → (lastOn q ops).getD (files.get? q) = (lastOn q whole).getD (files.get? q)

/-- the lines that are left can be read, and change nothing or change everything -/
def HarmlessCut (files : Files) (b : Batch) (k : Nat) : Prop :=
  ∃ ops, cutOps b.ops k = some ops ∧ (ChangesNothing files ops ∨ ChangesAll files ops b.ops)

theorem openStore_ok {files files' : Files} {text : Text}
    (h : replay (lines text) files = (.ok (), files')) :
    openStore ⟨files, some text⟩ = (.ok (), ⟨files', none⟩) := by
  unfold openStore recover
  dsimp only
  rw [h]

theorem openStore_error {files files' : Files} {text : Text} {e : StorageError}
    (h : replay (lines text) files = (.error e, files')) :
    openStore ⟨files, some text⟩ = (.error e, ⟨files', some text⟩) := by
  unfold openStore recover
  dsimp only
  rw [h]

theorem same_before (files : Files) (ops : List JournalOp) :
    SameFamilies (ops.foldl JournalOp.apply files) files ↔ ChangesNothing files ops := by
  refine forall_congr' fun q => forall_congr' fun _ => ?_
  rw [get?_applyAll, fileAfter_eq]
  cases lastOn q ops with
  | none => exact ⟨fun _ _ hv => (nomatch hv), fun _ => rfl⟩
  | some v => exact ⟨fun h w hw => (Option.some.inj hw) ▸ h, fun h => h v rfl⟩

theorem same_after (files : Files) (ops whole : List JournalOp) :
    SameFamilies (ops.foldl JournalOp.apply files) (whole.foldl JournalOp.apply files)
      ↔ ChangesAll files ops whole := by
  refine forall_congr' fun q => forall_congr' fun _ => ?_
  rw [get?_applyAll, get?_applyAll, fileAfter_eq, fileAfter_eq]

/-- **Crash atomicity of the journal**: for every store, batch and torn journal. -/
theorem crash_atomic_iff (files : Files) (b : Batch) (k : Nat) :
    CrashAtomic files b k ↔ HarmlessCut files b k := by
  unfold CrashAtomic HarmlessCut journalText
  rw [recover_journalText]
  rcases replay_take b.ops_pathOk k files with ⟨ops, hcut, hrep⟩ | ⟨hcut, e, files', hrep⟩
  · rw [openStore_ok hrep, hcut]
    dsimp only
    rw [same_before, same_after]
    constructor
    · rintro ⟨_, h⟩
      exact ⟨ops, rfl, h⟩
    · rintro ⟨ops', hops, h⟩
      cases hops
      exact ⟨rfl, h⟩
  · rw [openStore_error hrep, hcut]
    constructor
    · rintro ⟨h, _⟩
      cases h
    · rintro ⟨ops, h, _⟩
      cases h

/-! ## harmless cuts -/

/-- a line without its line break is the whole operation -/
theorem cut_length (op : JournalOp) : op.cut op.line.length = some [op] := by
  cases op with
  | remove path =>
    show some [JournalOp.remove (path.take path.length)] = _
    rw [List.take_length]
  | put path v =>
    rw [length_line_put, cut_put, if_neg (by omega), Nat.mul_div_cancel_left _ (by decide),
      List.take_length]

theorem length_textOf_cons (op : JournalOp) (ops : List JournalOp) :
    (textOf (op :: ops)).length = op.line.length + 1 + (textOf ops).length := by
  show (op.line ++ ['\n'] ++ textOf ops).length = _
  rw [List.length_append, List.length_append, List.length_singleton]

/-- only the last line break may be missing from a complete journal -/
theorem cutOps_complete {ops : List JournalOp} {k : Nat} (h : (textOf ops).length ≤ k + 1) :
    cutOps ops k = some ops := by
  induction ops generalizing k with
  | nil => rfl
  | cons op ops ih =>
    have hlen := length_textOf_cons op ops
    unfold cutOps
    by_cases hk : op.line.length < k
    · rw [if_pos hk, ih (by omega)]
      rfl
    · -- nothing follows the cut line
      have hops : ops = [] := by
        cases ops with
        | nil => rfl
        | cons o os =>
          have hpos := length_textOf_cons o os
          omega
      subst hops
      have hk' : k = op.line.length := by
        have hnil : (textOf []).length = 0 := rfl
        omega
      rw [if_neg hk, hk', cut_length]

theorem harmlessCut_start (files : Files) (b : Batch) : HarmlessCut files b 0 := by
  have hcut : cutOps b.ops 0 = some [] := by
    cases b.ops with
    | nil => rfl
    | cons op ops => cases op <;> rfl
  exact ⟨[], hcut, Or.inl fun _ _ _ hv => nomatch hv⟩

theorem harmlessCut_end (files : Files) (b : Batch) {k : Nat}
    (h : (journalText b).length ≤ k + 1) : HarmlessCut files b k :=
  ⟨b.ops, cutOps_complete h, Or.inr fun _ _ => rfl⟩

/-! ## where records are lost -/

theorem inFamily_path (k : FileKey) : InFamily k.path :=
  ⟨k.family, k.family_mem, hex k.key, by rw [List.append_assoc]; rfl⟩

/-- **Between the removals and the puts a crash loses records**: the removals are applied and the
journal is deleted. -/
theorem loses_between {files : Files} {b : Batch} {gone new : FileKey} {v w : Bytes}
    (hgone : gone ∈ b.removes) (hv : files.get? gone.path = some v)
    (hnew : b.lastPut new = some w) (hw : files.get? new.path ≠ some w) :
    ¬ CrashAtomic files b (textOf (b.removes.map (fun k => .remove k.path))).length := by
  have hpaths : ∀ op ∈ b.removes.map (fun k => JournalOp.remove k.path), op.PathOk :=
    fun op hop => b.ops_pathOk op (List.mem_append_left _ hop)
  have htake : (journalText b).take (textOf (b.removes.map (fun k => .remove k.path))).length
      = textOf (b.removes.map (fun k => .remove k.path)) := by
    unfold journalText Batch.ops textOf
    rw [List.flatMap_append, List.take_left]
  have hrep : replay (lines (textOf (b.removes.map (fun k => .remove k.path)))) files
      = (.ok (), (b.removes.map (fun k => .remove k.path)).foldl JournalOp.apply files) := by
    have hlines := lines_journalText hpaths []
    rw [List.append_nil] at hlines
    rw [hlines, replay_append hpaths]
    rfl
  rintro ⟨_, hsame⟩
  rw [htake, openStore_ok hrep, recover_journalText] at hsame
  rcases hsame with hsame | hsame
  · have heq := hsame gone.path (inFamily_path gone)
    rw [get?_applyAll, fileAfter_removes, if_pos hgone, hv] at heq
    cases heq
  · have heq := hsame new.path (inFamily_path new)
    rw [get?_applyAll, get?_applyAll, fileAfter_removes, fileAfter_ops, hnew] at heq
    split_ifs at heq with hin
    · cases heq
    · exact hw heq

/-- a released cell with one reference, and its child that has another one -/
def tornBatch : Batch := (Batch.default.pushRemove (.cell 1)).pushPut (.cell 2) [1]

def tornFiles : Files :=
  (OrdMap.empty.insert (FileKey.cell 1).path [1]).insert (FileKey.cell 2).path [2]

/-- a torn journal removes a record and loses the put that goes with it -/
theorem crash_not_atomic :
    ¬ ∀ files b k, k ≤ (journalText b).length → CrashAtomic files b k := by
  intro h
  refine @loses_between tornFiles tornBatch (.cell 1) (.cell 2) [1] [1] (by decide)
    (by decide +kernel) (by decide +kernel)
    (by decide +kernel) (h _ _ _ ?_)
  decide +kernel

end Onx.Storage
