import Mathlib.Data.List.Basic
import Shrt.Lib.Runs
import Shrt.Store.Hearing

/-!
# A follower of a compacting owner

Two instances share a directory.  The owner writes and compacts; the follower
reads the owner's log on polls and on read misses.  A compaction moves rows
into a snapshot that a running follower never reads, and truncates the log
under the follower's offset.
-/

namespace Shrt.Store

open Shrt.Codec Shrt.Lib Shrt.Lib.Utf8 Shrt.Lib.Framing Shrt.Lib.Runs

/-- Both instances, once they run, and their directory.  `truncated` notes
that the owner truncated its log since the follower last read it. -/
structure Pair where
  follower : Option Inner
  owner : Option Inner
  dir : Dir
  truncated : Bool

inductive PairStep where
  | bootFollower (env : Env)
  | bootOwner (env : Env)
  /-- A call on the owner. -/
  | own (env : Env) (call : Call)
  /-- The follower polls. -/
  | poll (env : Env)
  /-- The follower resolves a code, and tails on a miss. -/
  | resolve (env : Env) (code : String)

def Call.writes : Call → Bool
  | .shorten _ _ _ | .shortenMany _ _ | .update _ _ _ _ | .remove _ | .flush | .compact => true
  | _ => false

def Call.truncates : Call → Bool
  | .compact => true
  | _ => false

/-- A read miss on this code reads the log of instance `b`. -/
def Inner.tailReads (b : Inst) (env : Env) (s : Inner) (code : String) : Bool :=
  match encode code with
  | [] => false
  | first :: _ =>
      match (alphaIdx first).filter (· ≠ s.inst) with
      | some k => k == b
      | none => env.clock 1 - s.lastPoll ≥ TAIL_MIN_INTERVAL

def Inner.missReads (b : Inst) (env : Env) (s : Inner) (code : String) : Bool :=
  (s.index.lookup code).isNone && s.tailReads b env code

namespace Pair

def start : Pair := ⟨none, none, .empty, false⟩

/-- One step of the follower `a` or the owner `b`. -/
def step (a b : Inst) (p : Pair) : PairStep → Pair
  | .bootFollower env =>
      match p.follower with
      | some _ => p
      | none =>
          let opened := Inner.new env p.dir a false
          { p with follower := some opened.1, dir := opened.2, truncated := false }
  | .bootOwner env =>
      match p.owner with
      | some _ => p
      | none =>
          let opened := Inner.new env p.dir b false
          { p with owner := some opened.1, dir := opened.2 }
  | .own env call =>
      match p.owner with
      | none => p
      | some s =>
          let w := (World.mk s p.dir).step (env, call)
          { p with
            owner := some w.store
            dir := w.dir
            truncated := p.truncated || call.truncates }
  | .poll env =>
      match p.follower with
      | none => p
      | some s => { p with follower := some (s.pollTails env p.dir), truncated := false }
  | .resolve env code =>
      match p.follower with
      | none => p
      | some s =>
          { p with
            follower := some (s.resolve env p.dir code).2
            truncated := p.truncated && !s.missReads b env code }

def run (a b : Inst) (p : Pair) (schedule : List PairStep) : Pair :=
  schedule.foldl (step a b) p

/-- The operations that the owner has written or queued and the follower has
not read. -/
def unreadOps (b : Inst) (p : Pair) (follower owner : Inner) : List Op :=
  let log := p.dir.read (.log b)
  (if p.truncated then readOps log
    else (readOps log).drop (readOps (log.take (follower.heard b).offset)).length) ++
  readOps ((owner.aof.map Aof.buf).getD [])

/-- The follower finds out about a truncation: the log is shorter than its
offset, or it had read nothing. -/
def Notices (b : Inst) (p : Pair) (follower : Inner) : Prop :=
  p.truncated = true → (p.dir.read (.log b)).length < (follower.heard b).offset ∨
    (follower.heard b).offset = 0

/-- These operations would change no row of the store. -/
def Merged (env : Env) (s : Inner) (ops : List Op) : Prop :=
  ∀ o ∈ ops, ∀ c ∈ [o.c, o.x],
    Index.rows (ops.foldl (apply env s.inst) s.view).index c = s.index.rows c

/-- The owner compacts only when what the follower has not read would change
none of its rows, and the follower reads a truncated log only while it can
notice the truncation. -/
def Careful (b : Inst) (p : Pair) : PairStep → Prop
  | .own env call => call.writes = true ∧
      (call.truncates = true → ∀ s ∈ p.follower, ∀ o ∈ p.owner,
        Merged env s (p.unreadOps b s o))
  | .poll _ => ∀ s ∈ p.follower, p.Notices b s
  | .resolve env code => ∀ s ∈ p.follower, s.missReads b env code = true → p.Notices b s
  | _ => True

instance (b : Inst) (p : Pair) (s : Inner) : Decidable (p.Notices b s) :=
  inferInstanceAs (Decidable (_ → _))

instance (env : Env) (s : Inner) (ops : List Op) : Decidable (Merged env s ops) :=
  inferInstanceAs (Decidable (∀ o ∈ ops, ∀ c ∈ [o.c, o.x], _ = _))

instance (b : Inst) (p : Pair) : ∀ step, Decidable (p.Careful b step)
  | .own _ _ => inferInstanceAs (Decidable (_ ∧ (_ → _)))
  | .poll _ => inferInstanceAs (Decidable (∀ s ∈ p.follower, p.Notices b s))
  | .resolve _ _ => inferInstanceAs (Decidable (∀ s ∈ p.follower, _ → p.Notices b s))
  | .bootFollower _ | .bootOwner _ => isTrue trivial

end Pair

/-! ## Reading the one log that is not empty -/

section OneSibling

variable {dir : Dir} {b : Inst} (quiet : ∀ k, k ≠ b → dir.read (.log k) = [])
include quiet

/-- Of logs read one after another only the one matters. -/
theorem foldl_hear_one (env : Env) (inst : Inst) {js : List Inst} (once : js.Nodup) (e : Ears) :
    let heard := js.foldl (Ears.hear env inst dir) e
    if b ∈ js then
      heard.view = (readSibling env inst dir b e.view (e.heard b)).1 ∧
      heard.heard b = (readSibling env inst dir b e.view (e.heard b)).2
    else heard.view = e.view ∧ heard.heard b = e.heard b := by
  induction js generalizing e with
  | nil => exact ⟨rfl, rfl⟩
  | cons j js ih =>
      obtain ⟨absent, once⟩ := List.nodup_cons.mp once
      have tail := ih once (e.hear env inst dir j)
      rw [List.foldl_cons]
      by_cases same : b = j
      · subst same
        rw [if_neg absent, Ears.hear_self, Ears.hear_view] at tail
        rw [if_pos List.mem_cons_self]
        exact tail
      · rw [Ears.hear_other env inst dir e same, Ears.hear_view,
          readSibling_empty (quiet j (Ne.symm same))] at tail
        simpa only [List.mem_cons, same, false_or] using tail

/-- What the one log gives to a store that reads it. -/
def Inner.Hears (env : Env) (dir : Dir) (b : Inst) (s s' : Inner) : Prop :=
  s'.view = (readSibling env s.inst dir b s.view (s.heard b)).1 ∧
  s'.heard b = (readSibling env s.inst dir b s.view (s.heard b)).2

theorem pollLocked_one (env : Env) {s : Inner} (other : b ≠ s.inst) :
    Inner.Hears env dir b s (s.pollLocked env dir) := by
  have ears := (pollLocked_eq env s dir).1
  have heard := foldl_hear_one quiet env s.inst (env.readerOrder.nodup_keys (s.discovered dir)) s.ears
  rw [← Inner.pollOrder, ← ears] at heard
  split at heard
  · exact heard
  · rename_i unread
    obtain ⟨missing, start⟩ := unread_of_not_mem other unread
    rw [Inner.Hears, start, readSibling_missing env s.inst missing, ← start]
    exact heard

/-- A read miss hears the one log or leaves all as it was. -/
theorem tailMissed_one (env : Env) {s : Inner} (other : b ≠ s.inst) {q : Aof}
    (queue : s.aof = some q) (code : String) :
    if s.tailReads b env code then Inner.Hears env dir b s (s.tailMissed env dir code)
    else (s.tailMissed env dir code).view = s.view ∧
      (s.tailMissed env dir code).heard b = s.heard b := by
  cases bytes : encode code with
  | nil =>
      have reads : s.tailReads b env code = false := by simp only [Inner.tailReads, bytes]
      have missed : s.tailMissed env dir code = s := by simp only [Inner.tailMissed, bytes]
      rw [reads, missed]
      exact ⟨rfl, rfl⟩
  | cons first rest =>
      cases picked : (alphaIdx first).filter (· ≠ s.inst) with
      | none =>
          have missed : s.tailMissed env dir code =
              if env.clock 1 - s.lastPoll ≥ TAIL_MIN_INTERVAL then s.pollLocked env dir else s := by
            simp only [Inner.tailMissed, bytes, queue, picked]
          by_cases due : env.clock 1 - s.lastPoll ≥ TAIL_MIN_INTERVAL
          · have reads : s.tailReads b env code = true := by
              simp only [Inner.tailReads, bytes, picked, due, decide_true]
            rw [reads, missed, if_pos rfl, if_pos due]
            exact pollLocked_one quiet env other
          · have reads : s.tailReads b env code = false := by
              simp only [Inner.tailReads, bytes, picked, due, decide_false]
            rw [reads, missed, if_neg Bool.false_ne_true, if_neg due]
            exact ⟨rfl, rfl⟩
      | some k =>
          have reads : s.tailReads b env code = (k == b) := by
            simp only [Inner.tailReads, bytes, picked]
          rw [reads]
          simp only [Inner.tailMissed, bytes, queue, picked]
          by_cases same : k = b
          · subst same
            rw [beq_self_eq_true, if_pos rfl]
            refine ⟨rfl, ?_⟩
            simp only [Inner.heard, Map.lookup_insert_eq, if_true, Option.getD_some]
          · have apart : (k == b) = false := by simpa using same
            rw [apart, if_neg Bool.false_ne_true]
            refine ⟨readSibling_empty (quiet k same) env s.inst s.view _, ?_⟩
            simp only [Inner.heard, Map.lookup_insert_eq, if_neg (Ne.symm same)]

/-- The rows and the reader of a store after it read the one log, or did not. -/
def Inner.Follows (env : Env) (dir : Dir) (b : Inst) (reads : Bool) (s s' : Inner) : Prop :=
  s'.inst = s.inst ∧ s'.aof = s.aof ∧
  if reads then
    s'.index.rows = (readSibling env s.inst dir b s.view (s.heard b)).1.index.rows ∧
    s'.heard b = (readSibling env s.inst dir b s.view (s.heard b)).2
  else s'.index.rows = s.index.rows ∧ s'.heard b = s.heard b

theorem follows_pollTails (env : Env) {s : Inner} (other : b ≠ s.inst) {q : Aof}
    (queue : s.aof = some q) : Inner.Follows env dir b true s (s.pollTails env dir) := by
  have polled : s.pollTails env dir = s.pollLocked env dir := by
    rw [Inner.pollTails, queue]
  obtain ⟨view, heard⟩ := pollLocked_one quiet env other
  rw [polled]
  refine ⟨rfl, rfl, ?_, heard⟩
  exact congrArg (fun v : View => v.index.rows) view

omit quiet in
/-- Counting a hit changes no row and no reader. -/
theorem Inner.Follows.bump {env : Env} {reads : Bool} {s s' : Inner}
    (follows : Inner.Follows env dir b reads s s') (counting : Env) {code : String} {e : Entry}
    (found : s'.index.lookup code = some e) :
    Inner.Follows env dir b reads s (s'.bump counting code e) := by
  unfold Inner.bump
  split
  · obtain ⟨inst, aof, read⟩ := follows
    refine ⟨inst, aof, ?_⟩
    rw [Journal.rows_counted found]
    exact read
  · exact follows

theorem follows_resolve (env : Env) {s : Inner} (other : b ≠ s.inst) {q : Aof}
    (queue : s.aof = some q) (code : String) :
    Inner.Follows env dir b (s.missReads b env code) s (s.resolve env dir code).2 := by
  cases found : s.index.lookup code with
  | some e =>
      have stays : s.missReads b env code = false := by
        simp [Inner.missReads, found]
      rw [stays, Inner.resolve, found]
      dsimp only
      split
      · have same : Inner.Follows env dir b false s s := ⟨rfl, rfl, rfl, rfl⟩
        exact same.bump env found
      · exact ⟨rfl, rfl, rfl, rfl⟩
  | none =>
      have misses : s.missReads b env code = s.tailReads b env code := by
        simp [Inner.missReads, found]
      have kept := onlyReads_tailMissed env s dir code
      have tailed := tailMissed_one quiet env other queue code
      have missed : Inner.Follows env dir b (s.tailReads b env code) s
          (s.tailMissed env dir code) := by
        refine ⟨kept.inst, kept.aof, ?_⟩
        split at tailed
        · rename_i reads
          rw [reads, if_pos rfl]
          exact ⟨congrArg (fun v : View => v.index.rows) tailed.1, tailed.2⟩
        · rename_i silent
          rw [if_neg silent]
          exact ⟨congrArg (fun v : View => v.index.rows) tailed.1, tailed.2⟩
      rw [misses, Inner.resolve, found, queue]
      dsimp only
      cases again : (s.tailMissed env dir code).index.lookup code with
      | none => exact missed
      | some e =>
          dsimp only
          split
          · exact missed.bump env again
          · exact missed

end OneSibling

end Shrt.Store
