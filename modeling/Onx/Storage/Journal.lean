import Mathlib.Data.Char
import Onx.Storage.Names

/-!
# The commit journal

A batch is written to the journal as text, one line a file, and then replayed line by line onto
the directory; the same replay runs when a store is opened.

* `Disk`                  the directory as a map from paths to contents, and the journal;
* `recover`               the replay, with the effects of a journal that fails half-way;
* `lines_journalText`     a complete journal reads as the lines that were written;
* `recover_journalText`   so it is replayed as a whole: removals first, then puts;
* `read_commit`           the store after a commit.
-/

namespace Onx.Storage

abbrev Files := OrdMap Text Bytes

structure Disk where
  files : Files
  /-- the text of `.commit-journal` while the file exists -/
  journal : Option Text

/-! ## file operations -/

inductive FileOp where
  | removeFile (path : Text)
  | writeFile (path : Text) (v : Bytes)
  | rename (src dst : Text)
deriving DecidableEq

/-- a file that is not there cannot be removed or renamed -/
def FileOp.apply (files : Files) : FileOp → Files
  | .removeFile path => files.erase path
  | .writeFile path v => files.insert path v
  | .rename src dst =>
    match files.get? src with
    | some v => (files.erase src).insert dst v
    | none => files

/-- `with_extension("tmp")` -/
def withExtensionTmp (path : Text) : Text :=
  let rev := path.reverse
  let ext := rev.takeWhile (fun ch => ch != '.' && ch != '/')
  match rev.drop ext.length with
  | '.' :: stem =>
    if stem = [] ∨ stem.head? = some '/' then path ++ ".tmp".toList
    else stem.reverse ++ ".tmp".toList
  | _ => path ++ ".tmp".toList

/-! ## lines -/

/-- a line without the carriage return before its line break; `rev` is the line reversed -/
def chomp (rev : Text) : Text :=
  match rev with
  | '\r' :: rest => rest.reverse
  | _ => rev.reverse

/-- `lines()` behind the characters `rev` of the current line -/
def linesFrom (rev : Text) : Text → List Text
  | [] => if rev = [] then [] else [rev.reverse]
  | ch :: rest => if ch = '\n' then chomp rev :: linesFrom [] rest else linesFrom (ch :: rev) rest

def lines (text : Text) : List Text := linesFrom [] text

/-- the text before the first separator, and the text behind it -/
def cutAt (sep : Char) : Text → Text × Option Text
  | [] => ([], none)
  | ch :: rest =>
    if ch = sep then ([], some rest) else (ch :: (cutAt sep rest).1, (cutAt sep rest).2)

/-- `splitn(3, ' ')` -/
def splitn3 (line : Text) : Text × Option Text × Option Text :=
  match cutAt ' ' line with
  | (first, none) => (first, none, none)
  | (first, some rest) =>
    match cutAt ' ' rest with
    | (second, none) => (first, some second, none)
    | (second, some third) => (first, some second, some third)

/-! ## replay -/

/-- what a line of the journal does -/
def lineOps (line : Text) : Except StorageError (List FileOp) :=
  match splitn3 line with
  | (['D'], some path, _) => .ok [.removeFile path]
  | (['P'], some path, some value) =>
    match unhex value with
    | .error e => .error e
    | .ok v => .ok [.writeFile (withExtensionTmp path) v, .rename (withExtensionTmp path) path]
  | _ => .error (.corrupt "invalid commit journal")

/-- the loop of `recover`; the lines before a bad one stay applied -/
def replay : List Text → Files → Except StorageError Unit × Files
  | [], files => (.ok (), files)
  | line :: rest, files =>
    match lineOps line with
    | .error e => (.error e, files)
    | .ok ops => replay rest (ops.foldl FileOp.apply files)

def recover (d : Disk) : Except StorageError Unit × Disk :=
  match d.journal with
  | none => (.ok (), d)
  | some text =>
    match replay (lines text) d.files with
    | (.error e, files) => (.error e, { d with files := files })
    | (.ok (), files) => (.ok (), ⟨files, none⟩)

/-- opening a store replays a journal that is left over -/
def openStore (d : Disk) : Except StorageError Unit × Disk := recover d

/-! ## batches -/

/-- puts in the order in which they were pushed -/
structure Batch where
  puts : List (FileKey × Bytes)
  removes : List FileKey

namespace Batch

def default : Batch := ⟨[], []⟩

def pushPut (b : Batch) (k : FileKey) (v : Bytes) : Batch := { b with puts := b.puts ++ [(k, v)] }

def pushRemove (b : Batch) (k : FileKey) : Batch := { b with removes := b.removes ++ [k] }

end Batch

inductive JournalOp where
  | remove (path : Text)
  | put (path : Text) (v : Bytes)
deriving DecidableEq

/-- the line of an operation, without its line break -/
def JournalOp.line : JournalOp → Text
  | .remove path => 'D' :: ' ' :: path
  | .put path v => 'P' :: ' ' :: (path ++ ' ' :: hex v)

/-- all removals, then all puts -/
def Batch.ops (b : Batch) : List JournalOp :=
  b.removes.map (fun k => .remove k.path) ++ b.puts.map (fun x => .put x.1.path x.2)

def textOf (ops : List JournalOp) : Text := ops.flatMap (fun op => op.line ++ ['\n'])

def journalText (b : Batch) : Text := textOf b.ops

def commit (b : Batch) (d : Disk) : Except StorageError Unit × Disk :=
  recover { d with journal := some (journalText b) }

/-! ## the text of a journal -/

/-- a path that stands in a journal line unambiguously -/
def PlainPath (path : Text) : Prop := ∀ ch ∈ path, ch = '/' ∨ Plain ch

def JournalOp.PathOk : JournalOp → Prop
  | .remove path => PlainPath path
  | .put path _ => PlainPath path

theorem Batch.ops_pathOk (b : Batch) : ∀ op ∈ b.ops, op.PathOk := by
  intro op hop
  rcases List.mem_append.mp hop with hop | hop
  · obtain ⟨k, _, rfl⟩ := List.mem_map.mp hop
    exact k.path_plain
  · obtain ⟨x, _, rfl⟩ := List.mem_map.mp hop
    exact x.1.path_plain

/-- text without line breaks and carriage returns -/
def OneLine (l : Text) : Prop := ∀ ch ∈ l, ch ≠ '\n' ∧ ch ≠ '\r'

theorem oneLine_path {path : Text} (h : PlainPath path) : OneLine path := by
  intro ch hch
  rcases h ch hch with rfl | hp
  · decide
  · exact ⟨hp.2.1, hp.2.2.1⟩

theorem oneLine_line {op : JournalOp} (h : op.PathOk) : OneLine op.line := by
  intro ch hch
  cases op with
  | remove path =>
    rcases List.mem_cons.mp hch with rfl | hch
    · decide
    · rcases List.mem_cons.mp hch with rfl | hch
      · decide
      · exact oneLine_path h ch hch
  | put path v =>
    rcases List.mem_cons.mp hch with rfl | hch
    · decide
    · rcases List.mem_cons.mp hch with rfl | hch
      · decide
      · rcases List.mem_append.mp hch with hch | hch
        · exact oneLine_path h ch hch
        · rcases List.mem_cons.mp hch with rfl | hch
          · decide
          · exact ⟨(plain_hex v ch hch).2.1, (plain_hex v ch hch).2.2.1⟩

theorem chomp_of_oneLine {rev : Text} (h : OneLine rev) : chomp rev = rev.reverse := by
  cases rev with
  | nil => rfl
  | cons ch rest =>
    have hch : ch ≠ '\r' := (h ch List.mem_cons_self).2
    unfold chomp
    split
    · rename_i heq
      exact absurd (List.head_eq_of_cons_eq heq) hch
    · rfl

theorem linesFrom_append {l : Text} (hl : OneLine l) (rev rest : Text) :
    linesFrom rev (l ++ rest) = linesFrom (l.reverse ++ rev) rest := by
  induction l generalizing rev with
  | nil => rfl
  | cons ch l ih =>
    have hch : ch ≠ '\n' := (hl ch List.mem_cons_self).1
    show linesFrom rev (ch :: (l ++ rest)) = _
    unfold linesFrom
    rw [if_neg hch, ih (fun x hx => hl x (List.mem_cons_of_mem _ hx)), List.reverse_cons,
      List.append_assoc]
    cases rest <;> rfl

/-- a complete line is read off the front -/
theorem lines_cons {l : Text} (hl : OneLine l) (rest : Text) :
    lines (l ++ ['\n'] ++ rest) = l :: lines rest := by
  have hrev : OneLine l.reverse := fun ch hch => hl ch (List.mem_reverse.mp hch)
  unfold lines
  rw [List.append_assoc, linesFrom_append hl, List.append_nil]
  show (if '\n' = '\n' then chomp l.reverse :: linesFrom [] rest else _) = _
  rw [if_pos rfl, chomp_of_oneLine hrev, List.reverse_reverse]

/-- the last line may lack its line break -/
theorem lines_last {l : Text} (hl : OneLine l) : lines l = if l = [] then [] else [l] := by
  have h := linesFrom_append hl [] []
  rw [List.append_nil, List.append_nil] at h
  unfold lines
  rw [h]
  show (if l.reverse = [] then [] else [l.reverse.reverse]) = _
  rw [List.reverse_reverse]
  exact if_congr List.reverse_eq_nil_iff rfl rfl

/-- **A complete journal reads as its lines.** -/
theorem lines_journalText {ops : List JournalOp} (h : ∀ op ∈ ops, op.PathOk) (rest : Text) :
    lines (textOf ops ++ rest) = ops.map JournalOp.line ++ lines rest := by
  induction ops with
  | nil => rfl
  | cons op ops ih =>
    show lines (op.line ++ ['\n'] ++ textOf ops ++ rest) = _
    rw [List.append_assoc, lines_cons (oneLine_line (h op List.mem_cons_self)),
      ih (fun o ho => h o (List.mem_cons_of_mem _ ho))]
    rfl

/-! ## the lines of a journal -/

theorem cutAt_none {sep : Char} {a : Text} (h : sep ∉ a) : cutAt sep a = (a, none) := by
  induction a with
  | nil => rfl
  | cons ch a ih =>
    have hch : ch ≠ sep := fun he => h (he ▸ List.mem_cons_self)
    unfold cutAt
    rw [if_neg hch, ih (fun hm => h (List.mem_cons_of_mem _ hm))]

theorem cutAt_some {sep : Char} {a : Text} (h : sep ∉ a) (b : Text) :
    cutAt sep (a ++ sep :: b) = (a, some b) := by
  induction a with
  | nil =>
    show (if sep = sep then _ else _) = _
    rw [if_pos rfl]
  | cons ch a ih =>
    have hch : ch ≠ sep := fun he => h (he ▸ List.mem_cons_self)
    show (if ch = sep then ([], some (a ++ sep :: b))
      else (ch :: (cutAt sep (a ++ sep :: b)).1, (cutAt sep (a ++ sep :: b)).2)) = _
    rw [if_neg hch, ih (fun hm => h (List.mem_cons_of_mem _ hm))]

theorem space_not_mem {path : Text} (h : PlainPath path) : ' ' ∉ path := by
  intro hm
  rcases h ' ' hm with h' | h'
  · exact absurd h' (by decide)
  · exact h'.1 rfl

def JournalOp.fileOps : JournalOp → List FileOp
  | .remove path => [.removeFile path]
  | .put path v => [.writeFile (withExtensionTmp path) v, .rename (withExtensionTmp path) path]

theorem lineOps_remove {path : Text} (h : PlainPath path) :
    lineOps ('D' :: ' ' :: path) = .ok [.removeFile path] := by
  have h1 : cutAt ' ' ('D' :: ' ' :: path) = (['D'], some path) :=
    cutAt_some (a := ['D']) (by decide) path
  unfold lineOps splitn3
  rw [h1]
  dsimp only
  rw [cutAt_none (space_not_mem h)]
  rfl

theorem lineOps_put {path : Text} (h : PlainPath path) (value : Text) :
    lineOps ('P' :: ' ' :: (path ++ ' ' :: value)) = match unhex value with
      | .error e => .error e
      | .ok v => .ok (JournalOp.put path v).fileOps := by
  have h1 : cutAt ' ' ('P' :: ' ' :: (path ++ ' ' :: value)) = (['P'], some (path ++ ' ' :: value)) :=
    cutAt_some (a := ['P']) (by decide) _
  unfold lineOps splitn3
  rw [h1]
  dsimp only
  rw [cutAt_some (space_not_mem h)]
  rfl

theorem lineOps_line {op : JournalOp} (h : op.PathOk) : lineOps op.line = .ok op.fileOps := by
  cases op with
  | remove path => exact lineOps_remove h
  | put path v =>
    show lineOps ('P' :: ' ' :: (path ++ ' ' :: hex v)) = _
    rw [lineOps_put h, unhex_hex]

/-! ## the effect on a file -/

def JournalOp.apply (files : Files) (op : JournalOp) : Files := op.fileOps.foldl FileOp.apply files

/-- the content of a file after an operation; a put passes through a temporary file -/
def JournalOp.onFile (q : Text) (old : Option Bytes) : JournalOp → Option Bytes
  | .remove path => if q = path then none else old
  | .put path v => if q = path then some v else if q = withExtensionTmp path then none else old

/-- the content of a file after a list of operations -/
def fileAfter (ops : List JournalOp) (q : Text) (old : Option Bytes) : Option Bytes :=
  ops.foldl (JournalOp.onFile q) old

theorem get?_apply (op : JournalOp) (files : Files) (q : Text) :
    (op.apply files).get? q = op.onFile q (files.get? q) := by
  cases op with
  | remove path =>
    show (files.erase path).get? q = _
    rw [OrdMap.get?_erase]
    unfold JournalOp.onFile
    dsimp only
    split_ifs <;> rfl
  | put path v =>
    have hmove : JournalOp.apply files (.put path v) = ((files.insert (withExtensionTmp path) v).erase
        (withExtensionTmp path)).insert path v := by
      show (match (files.insert (withExtensionTmp path) v).get? (withExtensionTmp path) with
        | some w => ((files.insert (withExtensionTmp path) v).erase
            (withExtensionTmp path)).insert path w
        | none => files.insert (withExtensionTmp path) v) = _
      rw [OrdMap.get?_insert_self]
    rw [hmove, OrdMap.get?_insert, OrdMap.get?_erase, OrdMap.get?_insert]
    unfold JournalOp.onFile
    dsimp only
    split_ifs <;> rfl

theorem get?_applyAll (ops : List JournalOp) (files : Files) (q : Text) :
    (ops.foldl JournalOp.apply files).get? q = fileAfter ops q (files.get? q) := by
  induction ops generalizing files with
  | nil => rfl
  | cons op ops ih =>
    show (ops.foldl JournalOp.apply (op.apply files)).get? q = _
    rw [ih, get?_apply]
    rfl

theorem replay_cons {line : Text} {ops : List FileOp} (h : lineOps line = .ok ops)
    (rest : List Text) (files : Files) :
    replay (line :: rest) files = replay rest (ops.foldl FileOp.apply files) := by
  show (match lineOps line with | .error e => _ | .ok ops => _) = _
  rw [h]

theorem replay_append {ops : List JournalOp} (h : ∀ op ∈ ops, op.PathOk) (rest : List Text)
    (files : Files) : replay (ops.map JournalOp.line ++ rest) files
      = replay rest (ops.foldl JournalOp.apply files) := by
  induction ops generalizing files with
  | nil => rfl
  | cons op ops ih =>
    show replay (op.line :: (ops.map JournalOp.line ++ rest)) files = _
    rw [replay_cons (lineOps_line (h op List.mem_cons_self))]
    exact ih (fun o ho => h o (List.mem_cons_of_mem _ ho)) _

/-- **A complete journal is replayed as a whole.** -/
theorem recover_journalText (b : Batch) (d : Disk) :
    commit b d = (.ok (), ⟨b.ops.foldl JournalOp.apply d.files, none⟩) := by
  have hlines := lines_journalText b.ops_pathOk []
  have hnil : lines [] = [] := rfl
  rw [List.append_nil, hnil] at hlines
  unfold commit recover journalText
  dsimp only
  rw [hlines, replay_append b.ops_pathOk]
  rfl

/-! ## the store after a commit -/

def Disk.read (d : Disk) (k : FileKey) : Option Bytes := d.files.get? k.path

/-- the last put of a record in a batch -/
def Batch.lastPut (b : Batch) (k : FileKey) : Option Bytes :=
  (b.puts.reverse.find? (fun x => decide (x.1 = k))).map Prod.snd

theorem lastPut_pushPut (b : Batch) (k j : FileKey) (v : Bytes) :
    (b.pushPut k v).lastPut j = if j = k then some v else b.lastPut j := by
  unfold Batch.lastPut Batch.pushPut
  rw [List.reverse_append, List.reverse_singleton, List.singleton_append, List.find?_cons]
  by_cases h : j = k
  · rw [if_pos h, decide_eq_true h.symm]
    rfl
  · rw [if_neg h, decide_eq_false (Ne.symm h)]

@[simp] theorem lastPut_pushRemove (b : Batch) (k j : FileKey) :
    (b.pushRemove k).lastPut j = b.lastPut j := rfl

@[simp] theorem removes_pushPut (b : Batch) (k : FileKey) (v : Bytes) :
    (b.pushPut k v).removes = b.removes := rfl

@[simp] theorem removes_pushRemove (b : Batch) (k : FileKey) :
    (b.pushRemove k).removes = b.removes ++ [k] := rfl

/-- a dotless path gets its temporary name by appending -/
theorem withExtensionTmp_eq {path : Text} (h : '.' ∉ path) :
    withExtensionTmp path = path ++ ".tmp".toList := by
  unfold withExtensionTmp
  dsimp only
  split
  · rename_i stem heq
    have hmem : '.' ∈ path.reverse := List.mem_of_mem_drop (heq ▸ List.mem_cons_self)
    exact absurd (List.mem_reverse.mp hmem) h
  · rfl

theorem FileKey.dot_not_mem (k : FileKey) : '.' ∉ k.path := by
  intro hm
  rcases k.path_plain '.' hm with h | h
  · exact absurd h (by decide)
  · exact h.2.2.2.2 rfl

/-- a temporary file is no record -/
theorem FileKey.path_ne_tmp (k j : FileKey) : k.path ≠ withExtensionTmp j.path := by
  intro h
  rw [withExtensionTmp_eq j.dot_not_mem] at h
  refine k.dot_not_mem ?_
  rw [h]
  exact List.mem_append_right _ (by decide)

theorem fileAfter_removes (ks : List FileKey) (k : FileKey) (old : Option Bytes) :
    fileAfter (ks.map (fun j => .remove j.path)) k.path old = if k ∈ ks then none else old := by
  induction ks generalizing old with
  | nil => rfl
  | cons j ks ih =>
    show fileAfter (ks.map (fun j => .remove j.path)) k.path
      (if k.path = j.path then none else old) = _
    rw [ih]
    by_cases hk : k = j
    · rw [hk, if_pos rfl, if_pos List.mem_cons_self]
      exact ite_self none
    · have hp : k.path ≠ j.path := fun hp => hk (FileKey.path_inj hp)
      rw [if_neg hp]
      simp [hk]

theorem fileAfter_puts (puts : List (FileKey × Bytes)) (k : FileKey) (old : Option Bytes) :
    fileAfter (puts.map (fun x => .put x.1.path x.2)) k.path old
      = ((puts.reverse.find? (fun x => decide (x.1 = k))).map Prod.snd).or old := by
  induction puts using List.reverseRecOn generalizing old with
  | nil => rfl
  | append_singleton puts x ih =>
    rw [List.map_append, fileAfter, List.foldl_append]
    show JournalOp.onFile k.path (fileAfter (puts.map (fun x => .put x.1.path x.2)) k.path old)
      (.put x.1.path x.2) = _
    rw [ih, List.reverse_append, List.reverse_singleton, List.singleton_append, List.find?_cons]
    unfold JournalOp.onFile
    dsimp only
    by_cases hk : x.1 = k
    · rw [hk, if_pos rfl, decide_eq_true rfl]
      rfl
    · have hp : k.path ≠ x.1.path := fun hp => hk (FileKey.path_inj hp).symm
      rw [if_neg hp, if_neg (k.path_ne_tmp x.1), decide_eq_false hk]

theorem fileAfter_ops (b : Batch) (k : FileKey) (old : Option Bytes) :
    fileAfter b.ops k.path old = (b.lastPut k).or (if k ∈ b.removes then none else old) := by
  unfold Batch.ops fileAfter
  rw [List.foldl_append]
  show fileAfter (b.puts.map (fun x => .put x.1.path x.2)) k.path
    (fileAfter (b.removes.map (fun k => .remove k.path)) k.path old) = _
  rw [fileAfter_removes, fileAfter_puts]
  rfl

/-- **A record after a commit** is the last put of the batch, or what the removals leave. -/
theorem read_commit (b : Batch) (d : Disk) (k : FileKey) :
    (commit b d).2.read k = (b.lastPut k).or (if k ∈ b.removes then none else d.read k) := by
  rw [recover_journalText]
  show (b.ops.foldl JournalOp.apply d.files).get? k.path = _
  rw [get?_applyAll, fileAfter_ops]
  rfl

end Onx.Storage
