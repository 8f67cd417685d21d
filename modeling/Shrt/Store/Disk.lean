import Mathlib.Data.List.Basic
import Mathlib.Logic.Function.Basic
import Shrt.Codec.Record
import Shrt.Lib.HashMap

/-!
# The shared directory

Every instance owns a log shard and a snapshot in one directory and reads the
shards of its siblings.  The append-only log queues lines in memory and
appends them in one write; a tail reader remembers how far it has read a
sibling's log.
-/

namespace Shrt.Store

open Shrt.Codec Shrt.Lib Shrt.Lib.Framing

inductive FileName where
  /-- `data-<i>.log` -/
  | log (i : Inst)
  /-- `data-<i>.snap` -/
  | snap (i : Inst)
  /-- `data-<i>.snap.tmp` -/
  | snapTmp (i : Inst)
  /-- `instance-<i>.lock` -/
  | lock (i : Inst)
  deriving DecidableEq, Repr

def FileName.owner : FileName → Inst
  | .log i | .snap i | .snapTmp i | .lock i => i

/-- The contents of the files that exist. -/
abbrev Dir := FileName → Option Bytes

namespace Dir

def empty : Dir := fun _ => none

/-- What a reader gets; a missing file reads as no bytes. -/
def read (dir : Dir) (f : FileName) : Bytes :=
  (dir f).getD []

def write (dir : Dir) (f : FileName) (b : Bytes) : Dir :=
  Function.update dir f (some b)

def append (dir : Dir) (f : FileName) (b : Bytes) : Dir :=
  dir.write f (dir.read f ++ b)

def remove (dir : Dir) (f : FileName) : Dir :=
  Function.update dir f none

def rename (dir : Dir) (source target : FileName) : Dir :=
  remove (Function.update dir target (dir source)) source

@[simp] theorem read_write_same (dir : Dir) (f : FileName) (b : Bytes) :
    (dir.write f b).read f = b := by
  simp [read, write]

theorem write_other {f g : FileName} (h : g ≠ f) (dir : Dir) (b : Bytes) :
    dir.write f b g = dir g :=
  Function.update_of_ne h _ _

theorem read_write_other {f g : FileName} (h : g ≠ f) (dir : Dir) (b : Bytes) :
    (dir.write f b).read g = dir.read g := by
  rw [read, write_other h, read]

@[simp] theorem read_append_same (dir : Dir) (f : FileName) (b : Bytes) :
    (dir.append f b).read f = dir.read f ++ b :=
  read_write_same _ _ _

theorem append_other {f g : FileName} (h : g ≠ f) (dir : Dir) (b : Bytes) :
    dir.append f b g = dir g :=
  write_other h _ _

theorem remove_other {f g : FileName} (h : g ≠ f) (dir : Dir) : dir.remove f g = dir g :=
  Function.update_of_ne h _ _

theorem rename_target {source target : FileName} (h : target ≠ source) (dir : Dir) :
    dir.rename source target target = dir source := by
  rw [rename, remove_other h, Function.update_self]

theorem rename_other {source target f : FileName} (hs : f ≠ source) (ht : f ≠ target)
    (dir : Dir) : dir.rename source target f = dir f := by
  rw [rename, remove_other hs, Function.update_of_ne ht]

end Dir

/-- The order of `shard_files`: log names sorted as strings. -/
def shardOrder : List Inst :=
  [0, 1, 10, 11, 12, 13, 14, 15, 16, 17, 18, 19,
   2, 20, 21, 22, 23, 24, 25, 26, 27, 28, 29,
   3, 30, 31, 32, 33, 34, 35, 36, 37, 38, 39,
   4, 40, 41, 42, 43, 44, 45, 46, 47, 48, 49,
   5, 50, 51, 52, 53, 54, 55, 56, 57, 58, 59,
   6, 60, 61, 7, 8, 9]

theorem mem_shardOrder (i : Inst) : i ∈ shardOrder := by
  revert i
  decide

theorem nodup_shardOrder : shardOrder.Nodup := by
  decide

/-- The shard logs present in the directory, without the own one. -/
def shardFiles (dir : Dir) (own : Inst) : List Inst :=
  shardOrder.filter fun i => i ≠ own && (dir (.log i)).isSome

theorem mem_shardFiles {dir : Dir} {own i : Inst} :
    i ∈ shardFiles dir own ↔ i ≠ own ∧ (dir (.log i)).isSome := by
  simp [shardFiles, mem_shardOrder]

/-! ## The append-only log -/

/-- The log's queue of bytes not yet written. -/
structure Aof where
  buf : Bytes
  deriving DecidableEq, Repr

namespace Aof

def push (a : Aof) (line : Bytes) : Aof :=
  ⟨a.buf ++ line ++ [NL]⟩

def pushRaw (a : Aof) (bytes : Bytes) : Aof :=
  ⟨a.buf ++ bytes⟩

def pendingBytes (a : Aof) : Nat :=
  a.buf.length

/-- Append the queue to the log in one write. -/
def flush (a : Aof) (dir : Dir) (own : Inst) : Aof × Dir :=
  if a.buf = [] then (a, dir) else (⟨[]⟩, dir.append (.log own) a.buf)

/-- Flush, then reopen the log emptied.  The new handle starts at offset zero
and this process alone writes the file, so later writes still go to its end. -/
def truncate (a : Aof) (dir : Dir) (own : Inst) : Aof × Dir :=
  let flushed := a.flush dir own
  (flushed.1, flushed.2.write (.log own) [])

theorem flush_buf (a : Aof) (dir : Dir) (own : Inst) : (a.flush dir own).1.buf = [] := by
  unfold flush
  split
  · assumption
  · rfl

theorem flush_read_log (a : Aof) (dir : Dir) (own : Inst) :
    (a.flush dir own).2.read (.log own) = dir.read (.log own) ++ a.buf := by
  unfold flush
  split
  · rename_i idle
    simp [idle]
  · simp

theorem flush_other {own : Inst} {f : FileName} (h : f ≠ .log own) (a : Aof) (dir : Dir) :
    (a.flush dir own).2 f = dir f := by
  unfold flush
  split
  · rfl
  · exact Dir.append_other h _ _

theorem flush_present (a : Aof) (dir : Dir) (own : Inst) (present : (dir (.log own)).isSome) :
    ((a.flush dir own).2 (.log own)).isSome := by
  unfold flush
  split
  · exact present
  · simp [Dir.append, Dir.write]

/-- Whatever was queued, the log ends up empty. -/
theorem truncate_eq (a : Aof) (dir : Dir) (own : Inst) :
    a.truncate dir own = (⟨[]⟩, dir.write (.log own) []) := by
  unfold truncate flush
  split
  · rename_i idle
    rw [← idle]
  · simp [Dir.append, Dir.write]

end Aof

def replayFile (dir : Dir) (f : FileName) : List Bytes :=
  lines NL (dir.read f)

/-! ## Tailing a sibling's log -/

structure TailReader where
  offset : Nat
  leftover : Bytes
  deriving DecidableEq, Repr

namespace TailReader

def fromStart : TailReader := ⟨0, []⟩

/-- A file shorter than the offset was replaced: start over. -/
def rewind (r : TailReader) (size : Nat) : TailReader :=
  if size < r.offset then fromStart else r

/-- Read what was appended since the last call and hand out the complete
lines.  `short` is the number of available bytes the read leaves unread.  The
source scans the new bytes alone when nothing was left over and the joined
bytes otherwise: the same scan. -/
def readNew (r : TailReader) (dir : Dir) (f : FileName) (short : Nat) :
    TailReader × List Bytes :=
  let size := (dir.read f).length
  let r := r.rewind size
  if size ≤ r.offset then (r, [])
  else
    let buf := ((dir.read f).drop r.offset).take (size - r.offset - short)
    let framed := scan NL [] (r.leftover ++ buf)
    (⟨r.offset + buf.length, framed.2⟩, framed.1)

end TailReader

end Shrt.Store
