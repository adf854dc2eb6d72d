import Onx.Storage.Torn

/-!
# A crash while the journal is replayed

The replay is a sequence of operations on files, and a store that is opened again starts it from
the front.  What a file holds in the end is what the last line that names it says, whatever it
holds when the replay starts.

* `recoverOps`             the operations of `recover`; `recover_eq`: it does nothing else;
* `interrupted`            the store after some of them;
* `Replayable`             the disks from which the replay ends as from the first one;
* `replay_crash_harmless`  **interrupted replays leave no trace**, however many there are.
-/

namespace Onx.Storage

inductive DiskOp where
  | file (op : FileOp)
  | removeJournal

def DiskOp.apply (d : Disk) : DiskOp → Disk
  | .file op => { d with files := op.apply d.files }
  | .removeJournal => { d with journal := none }

/-- the operations on files that the lines of a journal bring about, up to a bad one -/
def replayOps : List Text → Except StorageError Unit × List FileOp
  | [] => (.ok (), [])
  | line :: rest =>
    match lineOps line with
    | .error e => (.error e, [])
    | .ok ops => ((replayOps rest).1, ops ++ (replayOps rest).2)

/-- the operations of `recover` -/
def recoverOps (d : Disk) : Except StorageError Unit × List DiskOp :=
  match d.journal with
  | none => (.ok (), [])
  | some text =>
    match replayOps (lines text) with
    | (.error e, ops) => (.error e, ops.map .file)
    | (.ok (), ops) => (.ok (), ops.map .file ++ [.removeJournal])

/-- the store where `recover` stops after `n` operations -/
def interrupted (d : Disk) (n : Nat) : Disk := ((recoverOps d).2.take n).foldl DiskOp.apply d

/-! ## the replay is its operations -/

theorem foldl_file (ops : List FileOp) (d : Disk) :
    (ops.map DiskOp.file).foldl DiskOp.apply d
      = { d with files := ops.foldl FileOp.apply d.files } := by
  induction ops generalizing d with
  | nil => rfl
  | cons op ops ih =>
    rw [List.map_cons, List.foldl_cons, ih]
    rfl

theorem replay_eq (ls : List Text) (files : Files) :
    replay ls files = ((replayOps ls).1, (replayOps ls).2.foldl FileOp.apply files) := by
  induction ls generalizing files with
  | nil => rfl
  | cons line rest ih =>
    unfold replay replayOps
    cases lineOps line with
    | error e => rfl
    | ok ops =>
      dsimp only
      rw [ih, List.foldl_append]

/-- **`recover` is the sequence of its operations.** -/
theorem recover_eq (d : Disk) :
    recover d = ((recoverOps d).1, (recoverOps d).2.foldl DiskOp.apply d) := by
  obtain ⟨files, journal⟩ := d
  cases journal with
  | none => rfl
  | some text =>
    unfold recover recoverOps
    dsimp only
    rw [replay_eq]
    obtain ⟨result, ops⟩ := replayOps (lines text)
    cases result with
    | error e =>
      dsimp only
      rw [foldl_file]
    | ok u =>
      dsimp only
      rw [List.foldl_append, foldl_file]
      rfl

theorem replayOps_lines {ops : List JournalOp} (h : ∀ op ∈ ops, op.PathOk) :
    replayOps (ops.map JournalOp.line) = (.ok (), ops.flatMap JournalOp.fileOps) := by
  induction ops with
  | nil => rfl
  | cons op ops ih =>
    rw [List.map_cons, replayOps, lineOps_line (h op List.mem_cons_self),
      ih fun o ho => h o (List.mem_cons_of_mem _ ho)]
    rfl

/-- the operations on the journal of a batch -/
theorem recoverOps_journal (files : Files) (b : Batch) :
    recoverOps ⟨files, some (journalText b)⟩
      = (.ok (), (b.ops.flatMap JournalOp.fileOps).map .file ++ [.removeJournal]) := by
  have hlines := lines_journalText b.ops_pathOk []
  have hnil : lines [] = [] := rfl
  rw [List.append_nil, hnil, List.append_nil] at hlines
  unfold recoverOps journalText
  dsimp only
  rw [hlines, replayOps_lines b.ops_pathOk]

/-! ## a replay that stops -/

/-- an operation leaves the files alone that its line does not name -/
theorem get?_fileOp {op : JournalOp} {q : Text} (hq : op.leaves q = none) :
    ∀ fileOp ∈ op.fileOps, ∀ files : Files, (fileOp.apply files).get? q = files.get? q := by
  intro fileOp hop files
  cases op with
  | remove path =>
    have hne : q ≠ path := by
      intro heq
      unfold JournalOp.leaves at hq
      dsimp only at hq
      rw [if_pos heq] at hq
      cases hq
    cases List.mem_singleton.mp hop
    show (files.erase path).get? q = _
    rw [OrdMap.get?_erase, if_neg hne]
  | put path v =>
    unfold JournalOp.leaves at hq
    dsimp only at hq
    have hne : q ≠ path := by
      intro heq
      rw [if_pos heq] at hq
      cases hq
    have htmp : q ≠ withExtensionTmp path := by
      intro heq
      rw [if_neg hne, if_pos heq] at hq
      cases hq
    rcases List.mem_cons.mp hop with rfl | hop
    · exact OrdMap.get?_insert_of_ne files v htmp
    · cases List.mem_singleton.mp hop
      unfold FileOp.apply
      dsimp only
      cases files.get? (withExtensionTmp path) with
      | none => rfl
      | some w =>
        dsimp only
        rw [OrdMap.get?_insert_of_ne _ _ hne, OrdMap.get?_erase, if_neg htmp]

theorem leaves_of_lastOn {ops : List JournalOp} {q : Text} (h : lastOn q ops = none) :
    ∀ op ∈ ops, op.leaves q = none := by
  induction ops with
  | nil => exact fun _ hop => nomatch hop
  | cons op ops ih =>
    obtain ⟨hlast, hop⟩ :=
      Option.or_eq_none_iff.mp (show (lastOn q ops).or (op.leaves q) = none from h)
    exact List.forall_mem_cons.mpr ⟨hop, ih hlast⟩

/-- some of the operations of a journal leave the files alone that it does not name -/
theorem get?_some_ops {ops : List JournalOp} {q : Text} (h : lastOn q ops = none)
    {fileOps : List FileOp} (hsub : ∀ fileOp ∈ fileOps, fileOp ∈ ops.flatMap JournalOp.fileOps)
    (files : Files) : (fileOps.foldl FileOp.apply files).get? q = files.get? q := by
  induction fileOps generalizing files with
  | nil => rfl
  | cons fileOp rest ih =>
    obtain ⟨op, hop, hmem⟩ := List.mem_flatMap.mp (hsub fileOp List.mem_cons_self)
    rw [List.foldl_cons, ih fun o ho => hsub o (List.mem_cons_of_mem _ ho)]
    exact get?_fileOp (leaves_of_lastOn h op hop) fileOp hmem files

/-- the store after the replay of the journal of `b` -/
def replayed (b : Batch) (files : Files) : Files := b.ops.foldl JournalOp.apply files

/-- the journal is gone and all is done, or it is there and its replay ends as from `files` -/
inductive Replayable (b : Batch) (files : Files) : Disk → Prop where
  | ended : Replayable b files ⟨replayed b files, none⟩
  | pending {files' : Files} (h : replayed b files' = replayed b files) :
      Replayable b files ⟨files', some (journalText b)⟩

/-- a disk in the middle of a replay -/
theorem replayed_take (b : Batch) (files : Files) (n : Nat) :
    replayed b (((b.ops.flatMap JournalOp.fileOps).take n).foldl FileOp.apply files)
      = replayed b files := by
  refine OrdMap.ext_get? fun q => ?_
  unfold replayed
  rw [get?_applyAll, get?_applyAll, fileAfter_eq, fileAfter_eq]
  cases hlast : lastOn q b.ops with
  | some v => rfl
  | none => exact get?_some_ops hlast (fun _ hop => List.mem_of_mem_take hop) files

theorem foldl_fileOps (ops : List JournalOp) (files : Files) :
    (ops.flatMap JournalOp.fileOps).foldl FileOp.apply files = ops.foldl JournalOp.apply files := by
  induction ops generalizing files with
  | nil => rfl
  | cons op ops ih =>
    rw [List.flatMap_cons, List.foldl_append, List.foldl_cons, ih]
    rfl

/-- **A replay that stops can be replayed.** -/
theorem Replayable.interrupted {b : Batch} {files : Files} {d : Disk} (h : Replayable b files d)
    (n : Nat) : Replayable b files (interrupted d n) := by
  unfold Storage.interrupted
  cases h with
  | ended =>
    have hnone : recoverOps ⟨replayed b files, none⟩ = (.ok (), []) := rfl
    rw [hnone, List.take_nil]
    exact .ended
  | @pending files' hfiles =>
    rw [recoverOps_journal]
    dsimp only
    rw [List.take_append, List.foldl_append, ← List.map_take, foldl_file, List.length_map]
    dsimp only
    cases hrest : n - (b.ops.flatMap JournalOp.fileOps).length with
    | zero => exact .pending ((replayed_take b files' n).trans hfiles)
    | succ k =>
      -- all operations on files are done, and the journal is removed
      have hall : (b.ops.flatMap JournalOp.fileOps).length ≤ n := by omega
      rw [List.take_of_length_le hall, foldl_fileOps, List.take_succ_cons, List.take_nil]
      show Replayable b files ⟨replayed b files', none⟩
      rw [hfiles]
      exact .ended

theorem Replayable.recover {b : Batch} {files : Files} {d : Disk} (h : Replayable b files d) :
    Storage.recover d = (.ok (), ⟨replayed b files, none⟩) := by
  cases h with
  | ended => rfl
  | pending hfiles =>
    rw [← hfiles]
    exact recover_journalText b ⟨_, none⟩

/-! ## temporary files -/

def IsTmp (q : Text) : Prop := ".tmp".toList <:+ q

theorem FileKey.not_tmp (k : FileKey) : ¬ IsTmp k.path := by
  rintro ⟨stem, hstem⟩
  refine k.dot_not_mem ?_
  rw [← hstem]
  exact List.mem_append_right _ (by decide)

/-- a replay makes no temporary file that was not there -/
theorem tmp_after (b : Batch) {q : Text} (hq : IsTmp q) : fileAfter b.ops q none = none := by
  have hops : ∀ op ∈ b.ops, op.onFile q none = none := by
    intro op hop
    rcases List.mem_append.mp hop with hop | hop
    · obtain ⟨k, _, rfl⟩ := List.mem_map.mp hop
      exact ite_self none
    · obtain ⟨x, _, rfl⟩ := List.mem_map.mp hop
      have hne : q ≠ x.1.path := fun heq => x.1.not_tmp (heq ▸ hq)
      unfold JournalOp.onFile
      dsimp only
      rw [if_neg hne, ite_self]
  generalize b.ops = ops at hops
  induction ops with
  | nil => rfl
  | cons op ops ih =>
    show fileAfter ops q (op.onFile q none) = none
    rw [hops op List.mem_cons_self]
    exact ih fun o ho => hops o (List.mem_cons_of_mem _ ho)

/-- every put renames its temporary file -/
theorem tmp_of_put (b : Batch) {x : FileKey × Bytes} (hx : x ∈ b.puts) (old : Option Bytes) :
    fileAfter b.ops (withExtensionTmp x.1.path) old = none := by
  have htmp : IsTmp (withExtensionTmp x.1.path) := by
    rw [withExtensionTmp_eq x.1.dot_not_mem]
    exact List.suffix_append _ _
  have hnamed : lastOn (withExtensionTmp x.1.path) b.ops ≠ none := by
    intro hnone
    have hput : JournalOp.put x.1.path x.2 ∈ b.ops :=
      List.mem_append_right _ (List.mem_map_of_mem hx)
    have hleaves := leaves_of_lastOn hnone _ hput
    have hne : withExtensionTmp x.1.path ≠ x.1.path := fun heq => x.1.not_tmp (heq ▸ htmp)
    unfold JournalOp.leaves at hleaves
    dsimp only at hleaves
    rw [if_neg hne, if_pos rfl] at hleaves
    cases hleaves
  have hnone := tmp_after b htmp
  rw [fileAfter_eq] at hnone ⊢
  cases hlast : lastOn (withExtensionTmp x.1.path) b.ops with
  | none => exact absurd hlast hnamed
  | some v =>
    rw [hlast] at hnone
    exact hnone

/-- **A crash during the replay is harmless.**  After any number of replays that stop after some of
their operations, `recover` leaves exactly the files that it leaves when it is not interrupted, no
journal, no temporary file of a record of the batch, and no other one that was not there before. -/
theorem replay_crash_harmless (files : Files) (b : Batch) (cuts : List Nat) :
    recover (cuts.foldl interrupted ⟨files, some (journalText b)⟩)
        = recover ⟨files, some (journalText b)⟩
      ∧ (recover ⟨files, some (journalText b)⟩).1 = .ok ()
      ∧ (recover ⟨files, some (journalText b)⟩).2.journal = none
      ∧ (∀ x ∈ b.puts, (recover ⟨files, some (journalText b)⟩).2.files.get?
          (withExtensionTmp x.1.path) = none)
      ∧ ∀ q, IsTmp q → files.get? q = none →
        (recover ⟨files, some (journalText b)⟩).2.files.get? q = none := by
  have hstart : Replayable b files ⟨files, some (journalText b)⟩ := .pending rfl
  have hcuts : ∀ (cuts : List Nat) d, Replayable b files d →
      Replayable b files (cuts.foldl interrupted d) := by
    intro cuts
    induction cuts with
    | nil => exact fun _ h => h
    | cons n cuts ih => exact fun d h => ih _ (h.interrupted n)
  rw [(hcuts cuts _ hstart).recover, hstart.recover]
  refine ⟨rfl, rfl, rfl, fun x hx => ?_, fun q hq hnone => ?_⟩
  · show (replayed b files).get? _ = none
    unfold replayed
    rw [get?_applyAll]
    exact tmp_of_put b hx _
  · show (replayed b files).get? q = none
    unfold replayed
    rw [get?_applyAll, hnone]
    exact tmp_after b hq

end Onx.Storage
