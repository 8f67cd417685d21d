import Mathlib.Data.List.Induction
import Shrt.Store.Restart

/-!
# Handles of a shared store

`Store` derives `Clone` and implements `Drop`: all clones share one engine,
and dropping any of them calls `close` on it.  A shared store is the engine
with the number of handles alive; the two background threads act on it at
their own times.
-/

namespace Shrt.Store

open Shrt.Codec Shrt.Lib Shrt.Lib.Framing

/-- A call through a handle; only `LocalStore::new` opens a store again. -/
abbrev Operation := { call : Call // call ≠ .restart }

/-- What happens to a shared store. -/
inductive Use where
  | clone
  | drop (env : Env)
  | operation (env : Env) (call : Operation)
  /-- A tick of the flush thread. -/
  | flushTick (env : Env)
  /-- A tick of the fsync thread. -/
  | fsyncTick

/-- The shared engine and the number of handles alive. -/
structure Shared where
  world : World
  handles : Nat

namespace Shared

/-- A store opened through one handle; a claimed instance id left its lock
file behind. -/
def opened (env : Env) (dir : Dir) (inst : Inst) (locked : Bool) (pid : Bytes) : Shared :=
  let dir := if locked then dir.write (.lock inst) pid else dir
  let new := Inner.new env dir inst locked
  ⟨⟨new.1, new.2⟩, 1⟩

/-- The flush thread: `flush_public` unless it was stopped. -/
def flushTick (env : Env) (w : World) : World :=
  if .flush ∈ w.store.threads then
    let flushed := w.store.flushLocked env w.dir
    ⟨flushed.1, flushed.2⟩
  else w

/-- The fsync thread: `sync` flushes the queue first. -/
def fsyncTick (w : World) : World :=
  if .fsync ∈ w.store.threads then
    match w.store.aof with
    | none => w
    | some a =>
        let flushed := a.flush w.dir w.store.inst
        ⟨{ w.store with aof := some flushed.1 }, flushed.2⟩
  else w

def step (s : Shared) : Use → Shared
  | .clone => if 0 < s.handles then ⟨s.world, s.handles + 1⟩ else s
  | .drop env => if 0 < s.handles then ⟨s.world.close env, s.handles - 1⟩ else s
  | .operation env call => if 0 < s.handles then ⟨s.world.step (env, call.val), s.handles⟩ else s
  | .flushTick env => ⟨flushTick env s.world, s.handles⟩
  | .fsyncTick => ⟨fsyncTick s.world, s.handles⟩

def run (s : Shared) (uses : List Use) : Shared :=
  uses.foldl step s

end Shared

/-- The engine is up: not stopped, not closed, its lock file in place and its
flush thread running, so that the next tick moves everything that is queued or
counted to the log. -/
structure World.Serves (w : World) : Prop where
  running : w.store.stop = false
  opened : w.store.closed = false
  locked : w.store.lockPath = true → w.dir (.lock w.store.inst) ≠ none
  ticking : .flush ∈ w.store.threads
  persists : ∀ env, ∃ buf, w.store.aof = some ⟨buf⟩ ∧
    (Shared.flushTick env w).dir.read (.log w.store.inst) =
      w.dir.read (.log w.store.inst) ++ buf ++ w.store.hitLines env ∧
    (Shared.flushTick env w).store.aof = some ⟨[]⟩

/-! ## What no operation touches -/

/-- Operations leave the engine's switches, threads and locks alone. -/
structure SameControl (w w' : World) : Prop where
  inst : w'.store.inst = w.store.inst
  lockPath : w'.store.lockPath = w.store.lockPath
  stop : w'.store.stop = w.store.stop
  closed : w'.store.closed = w.store.closed
  threads : w'.store.threads = w.store.threads
  persistent : w'.store.aof.isSome = w.store.aof.isSome
  locks : ∀ k, w'.dir (.lock k) = w.dir (.lock k)

theorem SameControl.refl (w : World) : SameControl w w :=
  ⟨rfl, rfl, rfl, rfl, rfl, rfl, fun _ => rfl⟩

theorem SameControl.trans {w₁ w₂ w₃ : World} (first : SameControl w₁ w₂)
    (second : SameControl w₂ w₃) : SameControl w₁ w₃ :=
  ⟨second.inst.trans first.inst, second.lockPath.trans first.lockPath,
    second.stop.trans first.stop, second.closed.trans first.closed,
    second.threads.trans first.threads, second.persistent.trans first.persistent,
    fun k => (second.locks k).trans (first.locks k)⟩

/-- The index is no part of it. -/
theorem SameControl.index (w : World) (index : Index) :
    SameControl w ⟨{ w.store with index := index }, w.dir⟩ :=
  ⟨rfl, rfl, rfl, rfl, rfl, rfl, fun _ => rfl⟩

theorem sameControl_logRaw (s : Inner) (dir : Dir) (bytes : Bytes) :
    SameControl ⟨s, dir⟩ ⟨(s.logRaw dir bytes).1, (s.logRaw dir bytes).2⟩ := by
  unfold Inner.logRaw
  cases queue : s.aof with
  | none => exact .refl _
  | some a =>
      simp only []
      split
      · exact ⟨rfl, rfl, rfl, rfl, rfl, by simp [queue],
          fun k => Aof.flush_other (by simp) _ _⟩
      · exact ⟨rfl, rfl, rfl, rfl, rfl, by simp [queue], fun _ => rfl⟩

theorem sameControl_flushLocked (env : Env) (s : Inner) (dir : Dir) :
    SameControl ⟨s, dir⟩ ⟨(s.flushLocked env dir).1, (s.flushLocked env dir).2⟩ := by
  cases queue : s.aof with
  | none =>
      simp only [Inner.flushLocked, queue]
      exact .refl _
  | some a =>
      obtain ⟨buf⟩ := a
      rw [flushLocked_eq env queue]
      exact ⟨rfl, rfl, rfl, rfl, rfl, by simp [queue], fun k => Aof.flush_other (by simp) _ _⟩

theorem sameControl_tailMissed (env : Env) (s : Inner) (dir : Dir) (code : String) :
    SameControl ⟨s, dir⟩ ⟨s.tailMissed env dir code, dir⟩ := by
  unfold Inner.tailMissed
  split
  · simp only []
    split
    · exact ⟨rfl, rfl, rfl, rfl, rfl, rfl, fun _ => rfl⟩
    · split
      · exact ⟨rfl, rfl, rfl, rfl, rfl, rfl, fun _ => rfl⟩
      · exact .refl _
  · exact .refl _

theorem sameControl_bump (env : Env) (s : Inner) (dir : Dir) (code : String) (e : Entry) :
    SameControl ⟨s, dir⟩ ⟨s.bump env code e, dir⟩ := by
  unfold Inner.bump
  split
  · exact ⟨rfl, rfl, rfl, rfl, rfl, rfl, fun _ => rfl⟩
  · exact .refl _

theorem sameControl_shorten (env : Env) (w : World) (url : String)
    (aliasCode : Option Alias) (ttl : Int64) :
    SameControl w (w.step (env, .shorten url aliasCode ttl)) := by
  have created : ∀ c now exp, SameControl w
      ⟨(w.store.create w.dir c url now exp).1, (w.store.create w.dir c url now exp).2⟩ := by
    intro c now exp
    exact (SameControl.index w (w.store.index.insert c (w.store.newEntry url now exp))).trans
      (sameControl_logRaw _ _ (rowLine c url now exp w.store.inst.i64 0 ++ [NL]))
  cases aliasCode with
  | some a =>
      simp only [World.step, Inner.shorten, Option.map_some]
      split
      · rename_i taken
        split at taken
        · cases taken
        · cases taken
      · rename_i done called
        split at called
        · cases called
          exact .refl w
        · cases called
          exact created _ _ _
  | none =>
      simp only [World.step, Inner.shorten, Option.map_none]
      cases Inner.freshCode w.store.inst w.store.index env.rng with
      | none => exact .refl w
      | some fresh => exact created _ _ _

theorem sameControl_shortenMany (env : Env) (w : World) (urls : List String) (ttl : Int64) :
    SameControl w (w.step (env, .shortenMany urls ttl)) := by
  cases called : w.store.shortenMany env w.dir urls ttl with
  | none =>
      simp only [World.step, called]
      exact .refl w
  | some done =>
      simp only [World.step, called]
      simp only [Inner.shortenMany] at called
      split at called
      · cases called
      · obtain ⟨⟨index, rows, codes⟩, -, rfl⟩ := Option.map_eq_some_iff.mp called
        exact (SameControl.index w index).trans (sameControl_logRaw _ _ rows)

theorem sameControl_logPush (s : Inner) (dir : Dir) (line : Bytes) :
    SameControl ⟨s, dir⟩ ⟨s.logPush line, dir⟩ :=
  ⟨rfl, rfl, rfl, rfl, rfl, by simp [Inner.logPush], fun _ => rfl⟩

theorem sameControl_mutations (env : Env) (w : World) (code url : String) (ttl : Int64)
    (hasTtl : Bool) :
    SameControl w (w.step (env, .update code url ttl hasTtl)) ∧
      SameControl w (w.step (env, .remove code)) := by
  constructor
  · simp only [World.step, Inner.update]
    cases w.store.index.lookup code with
    | none => exact .refl w
    | some e =>
        simp only []
        split
        · exact .refl w
        · exact (SameControl.index w _).trans (sameControl_logPush _ _ _)
  · simp only [World.step, Inner.remove]
    cases w.store.index.lookup code with
    | none => exact .refl w
    | some e =>
        simp only []
        split
        · exact .refl w
        · exact (SameControl.index w _).trans (sameControl_logPush _ _ _)

theorem sameControl_resolve (env : Env) (w : World) (code : String) :
    SameControl w (w.step (env, .resolve code)) := by
  simp only [World.step, Inner.resolve]
  cases w.store.index.lookup code with
  | some e =>
      simp only []
      split
      · exact sameControl_bump env w.store w.dir code e
      · exact .refl w
  | none =>
      simp only []
      cases queue : w.store.aof with
      | none => exact .refl w
      | some a =>
          have tailed := sameControl_tailMissed env w.store w.dir code
          simp only []
          cases (w.store.tailMissed env w.dir code).index.lookup code with
          | none => exact tailed
          | some e =>
              simp only []
              split
              · exact tailed.trans (sameControl_bump env _ w.dir code e)
              · exact tailed

theorem sameControl_compact (env : Env) (w : World) :
    SameControl w (w.step (env, .compact)) := by
  simp only [World.step, Inner.compact]
  cases queue : w.store.aof with
  | none => exact .refl w
  | some a =>
      obtain ⟨buf⟩ := a
      simp only [flushLocked_eq env queue]
      refine ⟨rfl, rfl, rfl, rfl, rfl, by simp [queue], fun k => ?_⟩
      simp only [Aof.truncate, Aof.flush, if_true]
      rw [Dir.write_other (by simp), Dir.rename_other (by simp) (by simp),
        Dir.write_other (by simp)]
      exact Aof.flush_other (by simp) _ _

theorem sameControl_step (w : World) (env : Env) (call : Operation) :
    SameControl w (w.step (env, call.val)) := by
  obtain ⟨call, running⟩ := call
  cases call with
  | shorten url aliasCode ttl => exact sameControl_shorten env w url aliasCode ttl
  | shortenMany urls ttl => exact sameControl_shortenMany env w urls ttl
  | update code url ttl hasTtl =>
      exact (sameControl_mutations env w code url ttl hasTtl).1
  | remove code => exact (sameControl_mutations env w code "" 0 false).2
  | resolve code => exact sameControl_resolve env w code
  | flush => exact sameControl_flushLocked env w.store w.dir
  | compact => exact sameControl_compact env w
  | poll =>
      simp only [World.step, Inner.pollTails]
      cases w.store.aof with
      | none => exact .refl w
      | some a => exact ⟨rfl, rfl, rfl, rfl, rfl, rfl, fun _ => rfl⟩
  | restart => exact absurd rfl running

/-! ## Up until the first drop -/

/-- The engine as it was opened. -/
structure World.Up (w : World) : Prop where
  running : w.store.stop = false
  opened : w.store.closed = false
  locked : w.store.lockPath = true → w.dir (.lock w.store.inst) ≠ none
  threads : w.store.threads = [.flush, .fsync]
  persistent : w.store.aof.isSome = true

theorem World.Up.serves {w : World} (up : w.Up) : w.Serves where
  running := up.running
  opened := up.opened
  locked := up.locked
  ticking := by simp [up.threads]
  persists := by
    intro env
    obtain ⟨⟨buf⟩, queue⟩ := Option.isSome_iff_exists.mp up.persistent
    refine ⟨buf, queue, ?_⟩
    have ticking : Worker.flush ∈ w.store.threads := by simp [up.threads]
    rw [Shared.flushTick, if_pos ticking, flushLocked_eq env queue]
    refine ⟨?_, rfl⟩
    rw [List.append_assoc]
    exact Aof.flush_read_log _ _ _

theorem World.Up.of_same {w w' : World} (up : w.Up) (same : SameControl w w') : w'.Up := by
  refine ⟨same.stop.trans up.running, same.closed.trans up.opened, ?_,
    same.threads.trans up.threads, same.persistent.trans up.persistent⟩
  rw [same.lockPath, same.inst, same.locks]
  exact up.locked

theorem sameControl_flushTick (env : Env) (w : World) :
    SameControl w (Shared.flushTick env w) := by
  unfold Shared.flushTick
  split
  · exact sameControl_flushLocked env w.store w.dir
  · exact .refl w

theorem sameControl_fsyncTick (w : World) : SameControl w (Shared.fsyncTick w) := by
  unfold Shared.fsyncTick
  split
  · cases queue : w.store.aof with
    | none => exact .refl w
    | some a =>
        exact ⟨rfl, rfl, rfl, rfl, rfl, by simp [queue], fun k => Aof.flush_other (by simp) _ _⟩
  · exact .refl w

theorem up_opened (env : Env) (dir : Dir) (inst : Inst) (locked : Bool) (pid : Bytes) :
    (Shared.opened env dir inst locked pid).world.Up := by
  refine ⟨rfl, rfl, ?_, rfl, rfl⟩
  intro claimed
  change locked = true at claimed
  subst claimed
  simp only [Shared.opened, Inner.new, if_true]
  rw [Dir.write_other (by simp), Dir.write, Function.update_self]
  simp

theorem closed_close (env : Env) (w : World) : (w.close env).store.closed = true := by
  unfold World.close Inner.close
  split
  · assumption
  · exact (sameControl_flushLocked env
      { w.store with closed := true, stop := true, threads := [] } w.dir).closed

def Use.isDrop : Use → Bool
  | .drop _ => true
  | _ => false

namespace Shared

theorem handles_pos_of_step {s : Shared} {use : Use} (alive : 0 < (s.step use).handles) :
    0 < s.handles := by
  cases use with
  | clone =>
      rw [step] at alive
      split at alive <;> assumption
  | drop env =>
      rw [step] at alive
      split at alive <;> assumption
  | operation env call =>
      rw [step] at alive
      split at alive <;> assumption
  | flushTick env => exact alive
  | fsyncTick => exact alive

/-- Everything but a drop leaves the engine's switches alone. -/
theorem sameControl_use (s : Shared) {use : Use} (kept : use.isDrop = false) :
    SameControl s.world (s.step use).world := by
  cases use with
  | clone =>
      rw [step]
      split <;> exact .refl _
  | drop env => cases kept
  | operation env call =>
      rw [step]
      split
      · exact sameControl_step s.world env call
      · exact .refl _
  | flushTick env => exact sameControl_flushTick env s.world
  | fsyncTick => exact sameControl_fsyncTick s.world

/-- While a handle lives the engine is up if nothing was dropped, and closed
if anything was. -/
theorem run_up_or_closed {s : Shared} (up : s.world.Up) (uses : List Use)
    (alive : 0 < (s.run uses).handles) :
    ((∀ use ∈ uses, use.isDrop = false) → (s.run uses).world.Up) ∧
      ((∃ use ∈ uses, use.isDrop = true) → (s.run uses).world.store.closed = true) := by
  induction uses using List.reverseRecOn with
  | nil => exact ⟨fun _ => up, fun ⟨use, member, _⟩ => by cases member⟩
  | append_singleton uses use ih =>
      have stepped : s.run (uses ++ [use]) = (s.run uses).step use := by
        simp [run]
      rw [stepped] at alive ⊢
      obtain ⟨stays, shuts⟩ := ih (handles_pos_of_step alive)
      constructor
      · intro kept
        have before := stays fun u hu => kept u (List.mem_append_left _ hu)
        exact before.of_same (sameControl_use _ (kept use (by simp)))
      · rintro ⟨dropped, member, isDrop⟩
        cases last : use.isDrop with
        | false =>
            have earlier : dropped ∈ uses := by
              rcases List.mem_append.mp member with h | h
              · exact h
              · rw [List.mem_singleton.mp h, last] at isDrop
                cases isDrop
            exact (sameControl_use _ last).closed.trans (shuts ⟨dropped, earlier, isDrop⟩)
        | true =>
            cases use with
            | drop env =>
                rw [step, if_pos (handles_pos_of_step alive)]
                exact closed_close env _
            | clone => cases last
            | operation env call => cases last
            | flushTick env => cases last
            | fsyncTick => cases last

end Shared

/-- As long as a handle lives, the shared engine serves exactly when no handle
was dropped before. -/
theorem serves_iff_none_dropped (env : Env) (dir : Dir) (inst : Inst) (locked : Bool)
    (pid : Bytes) (uses : List Use)
    (alive : 0 < ((Shared.opened env dir inst locked pid).run uses).handles) :
    ((Shared.opened env dir inst locked pid).run uses).world.Serves ↔
      ∀ use ∈ uses, use.isDrop = false := by
  obtain ⟨stays, shuts⟩ :=
    Shared.run_up_or_closed (up_opened env dir inst locked pid) uses alive
  constructor
  · intro serves use member
    by_contra dropped
    have closed := shuts ⟨use, member, by simpa using dropped⟩
    rw [serves.opened] at closed
    cases closed
  · exact fun kept => (stays kept).serves

/-- A request on a cloned handle that is not dropped yet. -/
def clonedUses : List Use :=
  [.clone, .operation (.at 1 []) ⟨.shorten "https://a" (some promo) 0, by simp⟩]

theorem serves_cloned :
    0 < ((Shared.opened (.at 0 []) .empty 0 true [49]).run clonedUses).handles ∧
    ((Shared.opened (.at 0 []) .empty 0 true [49]).run clonedUses).world.Serves := by
  have alive : 0 < ((Shared.opened (.at 0 []) .empty 0 true [49]).run clonedUses).handles := by
    decide +kernel
  exact ⟨alive, (serves_iff_none_dropped _ _ _ _ _ _ alive).mpr
    (by simp [clonedUses, Use.isDrop])⟩

/-- The first clone that is dropped shuts the engine down for all others. -/
theorem dropped_clone_stops_engine :
    ¬ ∀ (env : Env) (dir : Dir) (inst : Inst) (locked : Bool) (pid : Bytes)
      (uses : List Use), 0 < ((Shared.opened env dir inst locked pid).run uses).handles →
      ((Shared.opened env dir inst locked pid).run uses).world.Serves := by
  intro serves
  have up := serves (.at 0 []) .empty 0 true [49] [.clone, .drop (.at 1 [])] (by decide +kernel)
  have closed : ((Shared.opened (.at 0 []) .empty 0 true [49]).run
      [.clone, .drop (.at 1 [])]).world.store.closed = true := by
    decide +kernel
  rw [up.opened] at closed
  cases closed

end Shrt.Store
