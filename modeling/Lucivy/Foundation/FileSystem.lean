import Lucivy.Foundation.Bytes

/-! # Files, paths and what an operation changes

A file system as the contents of its files by path and the set of its directories. A name that
comes from outside is resolved as the system resolves it: an absolute one replaces the directory it
is joined to, `.` and empty parts stay, `..` goes up; links are left out. An operation that fails
changes nothing and stops the sequence it stands in.

* `fileTarget dir name` — the file a name joined to a directory denotes.
* `FileSystem.exec`, `statesAfter` — one operation, and every state a sequence goes through.
* `Inside` — below a directory; `fileTarget_inside` — a name that neither starts at the root nor
  goes up stays below.
* `FileOp.Targets` — the file an operation may change; `files_eq_of_mem_statesAfter` — **nothing
  else changes.**
* `FlatDirectory` — a directory of files only, where sequences of writes and removals end. -/

namespace Lucivy.Foundation

open List

/-- A name, or a path written as text. -/
abbrev FileName := List Char

/-- A resolved path, the names from the root down. -/
abbrev FilePath := List FileName

/-- The parts of a path written as text. -/
def pathParts (name : FileName) : List FileName := name.splitOn '/'

/-- The part that stands for the directory itself. -/
def selfPart : FileName := ['.']

/-- The part that stands for the parent directory. -/
def parentPart : FileName := ['.', '.']

/-- One part followed from a path. -/
def followPart (path : FilePath) (part : FileName) : FilePath :=
  if part = [] ∨ part = selfPart then path
  else if part = parentPart then path.dropLast
  else path ++ [part]

/-- `Path::join`, resolved: an absolute name starts at the root. -/
def joinPath (dir : FilePath) (name : FileName) : FilePath :=
  (pathParts name).foldl followPart (if name.head? = some '/' then [] else dir)

/-- The last part names a directory, so that no file can be opened there. -/
def namesDirectory (name : FileName) : Bool :=
  match (pathParts name).getLast? with
  | none => true
  | some part => part = [] ∨ part = selfPart ∨ part = parentPart

/-- The file a name joined to a directory denotes, if it can be one. -/
def fileTarget (dir : FilePath) (name : FileName) : Option FilePath :=
  if namesDirectory name then none else some (joinPath dir name)

/-- **Below a directory.** -/
def Inside (dir path : FilePath) : Prop := ∃ rest, rest ≠ [] ∧ path = dir ++ rest

/-- A name that neither starts at the root nor goes up. -/
def StaysBelow (name : FileName) : Prop :=
  name.head? ≠ some '/' ∧ parentPart ∉ pathParts name

instance (name : FileName) : Decidable (StaysBelow name) := inferInstanceAs (Decidable (_ ∧ _))

/-- The name of a directory entry: one part, and neither `.` nor `..`. -/
def IsEntryName (name : FileName) : Prop :=
  name ≠ [] ∧ '/' ∉ name ∧ name ≠ selfPart ∧ name ≠ parentPart

instance (name : FileName) : Decidable (IsEntryName name) := inferInstanceAs (Decidable (_ ∧ _))

/-! ## Operations -/

/-- **A file system.** -/
structure FileSystem where
  files : FilePath → Option Bytes
  isDir : FilePath → Bool

/-- A file operation; a name is joined to its directory. -/
inductive FileOp where
  /-- `fs::write`. -/
  | write (dir : FilePath) (name : FileName) (data : Bytes)
  /-- `fs::remove_file` on a directory entry, failures ignored. -/
  | remove (dir : FilePath) (name : FileName)
  /-- `fs::rename` within a directory. -/
  | rename (dir : FilePath) (source target : FileName)
  /-- `fs::create_dir_all`. -/
  | createDirAll (dir : FilePath)
deriving DecidableEq, Repr

namespace FileSystem

/-- A file set to a content. -/
def setFile (fs : FileSystem) (path : FilePath) (data : Option Bytes) : FileSystem :=
  ⟨fun p => if p = path then data else fs.files p, fs.isDir⟩

/-- One operation; none where it fails. -/
def exec (fs : FileSystem) : FileOp → Option FileSystem
  | .write dir name data =>
    match fileTarget dir name with
    | none => none
    | some path =>
      if fs.isDir path = false ∧ fs.isDir path.dropLast = true then
        some (fs.setFile path (some data))
      else none
  | .remove dir name => some (fs.setFile (dir ++ [name]) none)
  | .rename dir source target =>
    match fs.files (dir ++ [source]) with
    | none => none
    | some data =>
      -- a file does not replace a directory
      if fs.isDir (dir ++ [target]) = false then
        some ((fs.setFile (dir ++ [source]) none).setFile (dir ++ [target]) (some data))
      else none
  | .createDirAll dir =>
    if ∃ p ∈ dir.inits, (fs.files p).isSome then none
    else some ⟨fs.files, fun p => fs.isDir p || p.isPrefixOf dir⟩

end FileSystem

/-- The states a sequence of operations goes through behind its start; it stops at the first that
fails. -/
def statesAfter (fs : FileSystem) : List FileOp → List FileSystem
  | [] => []
  | op :: ops =>
    match fs.exec op with
    | none => []
    | some fs' => fs' :: statesAfter fs' ops

/-- The state a sequence ends in, if no operation fails. -/
def runOps (fs : FileSystem) (ops : List FileOp) : Option FileSystem :=
  ops.foldlM FileSystem.exec fs

/-! ## Names -/

section Names

variable {dir : FilePath} {name : FileName}

theorem pathParts_eq_singleton (h : '/' ∉ name) : pathParts name = [name] := by
  refine splitOnP_eq_singleton fun c hc => ?_
  rw [beq_eq_false_iff_ne]
  rintro rfl
  exact h hc

/-- A directory entry is where its name says. -/
theorem fileTarget_entry (h : IsEntryName name) : fileTarget dir name = some (dir ++ [name]) := by
  obtain ⟨hne, hslash, hself, hparent⟩ := h
  have hparts := pathParts_eq_singleton hslash
  have hhead : name.head? ≠ some '/' := fun hhead => hslash (mem_of_mem_head? hhead)
  have hdir : namesDirectory name = false := by simp [namesDirectory, hparts, hne, hself, hparent]
  have hjoin : joinPath dir name = dir ++ [name] := by
    simp [joinPath, hparts, hhead, followPart, hne, hself, hparent]
  rw [fileTarget, hdir, hjoin]
  rfl

/-- Parts that do not go up are added behind the path, the empty ones left out. -/
theorem foldl_followPart {parts : List FileName} (h : parentPart ∉ parts) (path : FilePath) :
    parts.foldl followPart path =
      path ++ parts.filter fun part => !decide (part = [] ∨ part = selfPart) := by
  induction parts generalizing path with
  | nil => simp
  | cons part parts ih =>
    obtain ⟨hpart, hparts⟩ := not_or.mp (mt mem_cons.mpr h)
    rw [foldl_cons, ih hparts]
    by_cases hskip : part = [] ∨ part = selfPart
    · rw [followPart, if_pos hskip, filter_cons_of_neg (by rw [decide_eq_true hskip]; decide)]
    · rw [followPart, if_neg hskip, if_neg fun h => hpart h.symm,
        filter_cons_of_pos (by simpa using hskip), append_assoc]
      rfl

/-- **A name that stays below** denotes a file below the directory. -/
theorem fileTarget_inside (h : StaysBelow name) {path : FilePath}
    (hpath : fileTarget dir name = some path) : Inside dir path := by
  obtain ⟨hhead, hparent⟩ := h
  rw [fileTarget] at hpath
  split at hpath
  · cases hpath
  · next hfile =>
    cases hpath
    refine ⟨(pathParts name).filter fun part => !decide (part = [] ∨ part = selfPart), ?_, ?_⟩
    · -- the last part names the file, so it is not left out
      rw [namesDirectory] at hfile
      cases hlast : (pathParts name).getLast? with
      | none => simp [hlast] at hfile
      | some part =>
        simp only [hlast, decide_eq_true_eq, not_or] at hfile
        have hmem : part ∈ pathParts name := mem_of_getLast? hlast
        refine ne_nil_of_mem (mem_filter.mpr ⟨hmem, ?_⟩)
        simp [hfile.1, hfile.2.1]
    · rw [joinPath, if_neg hhead, foldl_followPart hparent]

end Names

/-! ## What an operation changes -/

/-- The files an operation may change. -/
def FileOp.Targets : FileOp → FilePath → Prop
  | .write dir name _, path => fileTarget dir name = some path
  | .remove dir name, path => path = dir ++ [name]
  | .rename dir source target, path => path = dir ++ [source] ∨ path = dir ++ [target]
  | .createDirAll _, _ => False

section Frames

variable {fs fs' : FileSystem} {op : FileOp} {path : FilePath}

theorem FileSystem.files_setFile (fs : FileSystem) (path p : FilePath) (data : Option Bytes) :
    (fs.setFile path data).files p = if p = path then data else fs.files p := rfl

/-- An operation changes only its targets. -/
theorem files_eq_of_exec (h : fs.exec op = some fs') (hpath : ¬ op.Targets path) :
    fs'.files path = fs.files path := by
  cases op with
  | write dir name data =>
    rw [FileSystem.exec] at h
    cases htarget : fileTarget dir name with
    | none => simp [htarget] at h
    | some target =>
      simp only [htarget, Option.ite_none_right_eq_some, Option.some.injEq] at h
      obtain ⟨-, rfl⟩ := h
      refine if_neg ?_
      rintro rfl
      exact hpath htarget
  | remove dir name =>
    cases h
    exact if_neg hpath
  | rename dir source target =>
    obtain ⟨hsource, htarget⟩ := not_or.mp hpath
    rw [FileSystem.exec] at h
    cases hfile : fs.files (dir ++ [source]) with
    | none => simp [hfile] at h
    | some data =>
      simp only [hfile, Option.ite_none_right_eq_some, Option.some.injEq] at h
      obtain ⟨-, rfl⟩ := h
      rw [FileSystem.files_setFile, if_neg htarget, FileSystem.files_setFile, if_neg hsource]
  | createDirAll dir =>
    simp only [FileSystem.exec, Option.ite_none_left_eq_some, Option.some.injEq] at h
    obtain ⟨-, rfl⟩ := h
    rfl

end Frames

/-! ## Sequences -/

section Sequences

variable {fs fs' : FileSystem} {op : FileOp} {ops ops' : List FileOp}

theorem runOps_cons : runOps fs (op :: ops) = (fs.exec op).bind fun next => runOps next ops := rfl

theorem runOps_append :
    runOps fs (ops ++ ops') = (runOps fs ops).bind fun mid => runOps mid ops' := by
  rw [runOps, foldlM_append]
  rfl

/-- **What every operation keeps holds in every state** of the sequence. -/
theorem statesAfter_invariant {P : FileSystem → Prop}
    (hstep : ∀ op ∈ ops, ∀ fs fs', P fs → fs.exec op = some fs' → P fs') (hstart : P fs)
    (h : fs' ∈ statesAfter fs ops) : P fs' := by
  induction ops generalizing fs with
  | nil => cases h
  | cons op ops ih =>
    rw [statesAfter] at h
    cases hexec : fs.exec op with
    | none => simp [hexec] at h
    | some next =>
      simp only [hexec, mem_cons] at h
      have hnext := hstep op mem_cons_self fs next hstart hexec
      rcases h with rfl | h
      · exact hnext
      · exact ih (fun op' hop' => hstep op' (mem_cons_of_mem _ hop')) hnext h

/-- **Nothing but the targets changes**, in any state the sequence goes through. -/
theorem files_eq_of_mem_statesAfter {path : FilePath} (hpath : ∀ op ∈ ops, ¬ op.Targets path)
    (h : fs' ∈ statesAfter fs ops) : fs'.files path = fs.files path := by
  refine statesAfter_invariant (P := fun state => state.files path = fs.files path) ?_ rfl h
  intro op hop state next hstate hexec
  exact (files_eq_of_exec hexec (hpath op hop)).trans hstate

/-- The states of a sequence in two parts: the second is reached if the first ends. -/
theorem mem_statesAfter_append :
    fs' ∈ statesAfter fs (ops ++ ops') ↔
      fs' ∈ statesAfter fs ops ∨ ∃ mid, runOps fs ops = some mid ∧ fs' ∈ statesAfter mid ops' := by
  induction ops generalizing fs with
  | nil => simp [statesAfter, runOps]
  | cons op ops ih =>
    rw [cons_append, statesAfter, statesAfter, runOps_cons]
    cases hexec : fs.exec op with
    | none => simp
    | some next => simp [ih, or_assoc]

/-- A sequence that ends has its end among its states, unless it is empty. -/
theorem mem_statesAfter_of_runOps (hne : ops ≠ []) (h : runOps fs ops = some fs') :
    fs' ∈ statesAfter fs ops := by
  induction ops generalizing fs with
  | nil => exact absurd rfl hne
  | cons op ops ih =>
    rw [runOps_cons] at h
    rw [statesAfter]
    cases hexec : fs.exec op with
    | none => simp [hexec] at h
    | some next =>
      rw [hexec, Option.bind_some] at h
      cases ops with
      | nil =>
        cases h
        exact mem_cons_self
      | cons op' ops => exact mem_cons_of_mem _ (ih (cons_ne_nil _ _) h)

end Sequences

/-! ## Flat directories -/

/-- A directory without directories in it. -/
structure FlatDirectory (fs : FileSystem) (dir : FilePath) : Prop where
  isDir : fs.isDir dir = true
  /-- Its entries are files. -/
  flat : ∀ name, fs.isDir (dir ++ [name]) = false

/-- The names of the files in a directory, in some order. -/
def Lists (fs : FileSystem) (dir : FilePath) (listing : List FileName) : Prop :=
  ∀ name, name ∈ listing ↔ (fs.files (dir ++ [name])).isSome = true

section Flat

variable {fs fs' : FileSystem} {dir : FilePath} {name : FileName} {data : Bytes}

theorem FlatDirectory.of_isDir_eq (h : FlatDirectory fs dir) (heq : fs'.isDir = fs.isDir) :
    FlatDirectory fs' dir :=
  ⟨heq ▸ h.isDir, heq ▸ h.flat⟩

/-- An entry of a flat directory can be written. -/
theorem FlatDirectory.exec_write (h : FlatDirectory fs dir) (hname : IsEntryName name) :
    fs.exec (.write dir name data) = some (fs.setFile (dir ++ [name]) (some data)) := by
  rw [FileSystem.exec, fileTarget_entry hname]
  refine if_pos ⟨h.flat name, ?_⟩
  rw [dropLast_concat]
  exact h.isDir

theorem entry_eq_entry {name' : FileName} : dir ++ [name] = dir ++ [name'] ↔ name = name' := by
  simp

/-- Entries set one after the other as a source has them: the names set hold what it has. -/
theorem runOps_sets {β : Type} {op : β → FileOp} (nameOf : β → FileName)
    (source : FileName → Option Bytes) {entries : List β}
    (hexec : ∀ e ∈ entries, ∀ mid : FileSystem, mid.isDir = fs.isDir →
      mid.exec (op e) = some (mid.setFile (dir ++ [nameOf e]) (source (nameOf e)))) :
    ∃ fs', runOps fs (entries.map op) = some fs' ∧ fs'.isDir = fs.isDir ∧
      ∀ name, fs'.files (dir ++ [name]) =
        if name ∈ entries.map nameOf then source name else fs.files (dir ++ [name]) := by
  induction entries generalizing fs with
  | nil => exact ⟨fs, rfl, rfl, fun name => by simp⟩
  | cons e entries ih =>
    obtain ⟨hfirst, hrest⟩ := forall_mem_cons.mp hexec
    obtain ⟨fs', hrun, hdir, hread⟩ :=
      @ih (fs.setFile (dir ++ [nameOf e]) (source (nameOf e))) hrest
    refine ⟨fs', ?_, hdir, fun name => ?_⟩
    · rw [map_cons, runOps_cons, hfirst fs rfl]
      exact hrun
    · rw [hread name, FileSystem.files_setFile, map_cons]
      by_cases hlater : name ∈ entries.map nameOf
      · rw [if_pos hlater, if_pos (mem_cons_of_mem _ hlater)]
      · rw [if_neg hlater]
        by_cases heq : name = nameOf e
        · rw [if_pos (entry_eq_entry.mpr heq), if_pos (heq ▸ mem_cons_self), heq]
        · rw [if_neg (mt entry_eq_entry.mp heq), if_neg]
          exact fun hmem => (mem_cons.mp hmem).elim heq hlater

/-- Files written from one source: the names written hold the source's bytes. -/
theorem FlatDirectory.runOps_writes (source : FileName → Option Bytes)
    {files : List (FileName × Bytes)} (h : FlatDirectory fs dir)
    (hfiles : ∀ file ∈ files, IsEntryName file.1 ∧ source file.1 = some file.2) :
    ∃ fs', runOps fs (files.map fun file => .write dir file.1 file.2) = some fs' ∧
      fs'.isDir = fs.isDir ∧
      ∀ name, fs'.files (dir ++ [name]) =
        if name ∈ files.map Prod.fst then source name else fs.files (dir ++ [name]) := by
  refine runOps_sets Prod.fst source fun file hfile mid hmid => ?_
  rw [(h.of_isDir_eq hmid).exec_write (hfiles file hfile).1, (hfiles file hfile).2]

/-- Files removed: the names removed hold nothing. -/
theorem runOps_removes (fs : FileSystem) (dir : FilePath) (names : List FileName) :
    ∃ fs', runOps fs (names.map fun name => .remove dir name) = some fs' ∧ fs'.isDir = fs.isDir ∧
      ∀ name, fs'.files (dir ++ [name]) =
        if name ∈ names then none else fs.files (dir ++ [name]) := by
  simpa using runOps_sets id (fun _ => none) fun _ _ _ _ => rfl

end Flat

end Lucivy.Foundation
