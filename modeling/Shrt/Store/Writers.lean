import Mathlib.Data.List.Basic
import Shrt.Store.Restart

/-!
# Concurrent writers

A mutation takes two locks one after the other: it changes the map under the
lock of the shard, and then pushes its line under the lock of the log.  Other
mutations may run in between.  Every call is therefore in one of three stages:
not begun, with its change made and its line still owed to the log, or done.
The owed lines are kept in the order of the changes.
-/

namespace Shrt.Store

open Shrt.Codec Shrt.Lib Shrt.Lib.Runs

/-- A mutation that runs in a thread of its own. -/
inductive Writer where
  | shorten (url : String) (aliasCode : Alias) (ttl : Int64)
  | update (code url : String) (ttl : Int64) (hasTtl : Bool)
  | remove (code : String)

def Writer.call : Writer → Call
  | .shorten url aliasCode ttl => .shorten url (some aliasCode) ttl
  | .update code url ttl hasTtl => .update code url ttl hasTtl
  | .remove code => .remove code

/-- A line that is still to be pushed, and whether the push looks at the size
of the queue. -/
structure Owed where
  line : Rec
  sized : Bool
  deriving DecidableEq, Repr

/-- The first critical section: the change of the map. -/
def Writer.change (env : Env) (s : Inner) : Writer → Inner × Option Owed
  | .shorten url aliasCode ttl =>
      let now := env.clock 0
      let exp := Inner.expiry now ttl
      if aliasCode.val ∈ s.index then (s, none)
      else
        ({ s with index := s.index.insert aliasCode.val (s.newEntry url now exp) },
          some ⟨.row aliasCode.val url now exp s.inst.i64 0, true⟩)
  | .update code url ttl hasTtl =>
      match s.index.lookup code with
      | none => (s, none)
      | some e =>
          if e.i ≠ s.inst.i32 then (s, none)
          else
            let exp := if hasTtl then Inner.expiry (env.clock 0) ttl else e.e
            ({ s with index := s.index.insert code { e with u := url, e := exp } },
              some ⟨.row code url e.a exp s.inst.i64 0, false⟩)
  | .remove code =>
      match s.index.lookup code with
      | none => (s, none)
      | some e =>
          if e.i ≠ s.inst.i32 then (s, none)
          else ({ s with index := s.index.erase code }, some ⟨.del code, false⟩)

/-- The second critical section: the push of the line. -/
def Inner.pushOwed (s : Inner) (dir : Dir) (o : Owed) : Inner × Dir :=
  if o.sized then s.logRaw dir (o.line.line ++ [NL]) else (s.logPush o.line.line, dir)

/-- Both sections in a row are the call. -/
theorem change_then_push (w : World) (env : Env) (writer : Writer) :
    w.step (env, writer.call) =
      match writer.change env w.store with
      | (s, none) => ⟨s, w.dir⟩
      | (s, some o) => ⟨(s.pushOwed w.dir o).1, (s.pushOwed w.dir o).2⟩ := by
  cases writer with
  | shorten url a ttl =>
      simp only [Writer.call, Writer.change, World.step, Inner.shorten, Option.map_some]
      by_cases taken : a.val ∈ w.store.index
      · simp only [if_pos taken]
      · simp only [if_neg taken]
        rfl
  | update code url ttl hasTtl =>
      simp only [Writer.call, Writer.change, World.step, Inner.update]
      cases w.store.index.lookup code with
      | none => rfl
      | some e =>
          simp only []
          split <;> rfl
  | remove code =>
      simp only [Writer.call, Writer.change, World.step, Inner.remove]
      cases w.store.index.lookup code with
      | none => rfl
      | some e =>
          simp only []
          split <;> rfl

/-- The store with the calls that have not begun and the lines that are owed. -/
structure Writers where
  world : World
  ready : List (Env × Writer)
  owed : List Owed

/-- One step of the schedule. -/
inductive Slot where
  /-- The `k`-th call that has not begun makes its change. -/
  | change (k : Nat)
  /-- The `k`-th owed line is pushed. -/
  | push (k : Nat)
  /-- The flush thread runs. -/
  | flush (env : Env)

namespace Writers

def step (s : Writers) : Slot → Writers
  | .change k =>
      match s.ready[k]? with
      | none => s
      | some call =>
          let changed := call.2.change call.1 s.world.store
          ⟨⟨changed.1, s.world.dir⟩, s.ready.eraseIdx k, s.owed ++ changed.2.toList⟩
  | .push k =>
      match s.owed[k]? with
      | none => s
      | some o =>
          let pushed := s.world.store.pushOwed s.world.dir o
          ⟨⟨pushed.1, pushed.2⟩, s.ready, s.owed.eraseIdx k⟩
  | .flush env => ⟨s.world.step (env, .flush), s.ready, s.owed⟩

def run (s : Writers) (schedule : List Slot) : Writers :=
  schedule.foldl step s

/-- No line is pushed before the line of an earlier change of the same code. -/
def InOrder (s : Writers) : Slot → Prop
  | .push k => ∀ o ∈ s.owed[k]?, ∀ earlier ∈ s.owed.take k, earlier.line.code ≠ o.line.code
  | _ => True

instance (s : Writers) : ∀ slot, Decidable (s.InOrder slot)
  | .push k =>
      inferInstanceAs (Decidable (∀ o ∈ s.owed[k]?, ∀ earlier ∈ s.owed.take k,
        earlier.line.code ≠ o.line.code))
  | .change _ => isTrue trivial
  | .flush _ => isTrue trivial

def Finished (s : Writers) : Prop :=
  s.ready = [] ∧ s.owed = []

end Writers

/-! ## Records out of place -/

namespace Journal

/-- A record moves in front of records about other codes. -/
theorem Sound.move {inst : Inst} {index : Index} {dirty : Dirty} {done before after : List Rec}
    {r : Rec} (sound : Sound inst ⟨index, dirty, done ++ (before ++ r :: after)⟩)
    (apart : ∀ x ∈ before, x.code ≠ r.code) :
    Sound inst ⟨index, dirty, done ++ [r] ++ (before ++ after)⟩ := by
  have members : ∀ x, x ∈ done ++ [r] ++ (before ++ after) → x ∈ done ++ (before ++ r :: after) := by
    intro x member
    simp only [List.mem_append, List.mem_cons, List.not_mem_nil, or_false] at member ⊢
    tauto
  refine ⟨fun x hx => sound.allOk x (members x hx), fun x hx => sound.own x (members x hx),
    sound.mine, sound.dirtyPlain, ?_⟩
  have events : ∀ f ∈ before.map recEvent, ∀ k, (recEvent r).on k = none ∨ f.on k = none := by
    intro f member k
    obtain ⟨x, hx, rfl⟩ := List.mem_map.mp member
    by_cases same : k = r.code
    · exact Or.inr (recEvent_on_other (same ▸ Ne.symm (apart x hx)))
    · exact Or.inl (recEvent_on_other same)
  have moved := KeyedLog.run_move events (KeyedLog.run (fun _ => none) (done.map recEvent))
    (after.map recEvent)
  have rows : KeyedLog.run (fun _ => none) ((done ++ (before ++ r :: after)).map recEvent) =
      index.rows := sound.rows
  rw [List.map_append, KeyedLog.run_append, List.map_append, List.map_cons, moved] at rows
  rw [← rows, ← KeyedLog.run_append]
  simp

/-- Draining in front of owed records, which no hit is about. -/
theorem Sound.drainBefore {inst : Inst} {index : Index} {dirty : Dirty} {done owed : List Rec}
    (sound : Sound inst ⟨index, dirty, done ++ owed⟩) (ord : IterOrder String Int64) :
    Sound inst ⟨index, ∅, done ++ hitRecs inst (ord.iter dirty) ++ owed⟩ := by
  have drained := sound.step (.drain ord)
  have members : ∀ x, x ∈ done ++ hitRecs inst (ord.iter dirty) ++ owed →
      x ∈ done ++ owed ++ hitRecs inst (ord.iter dirty) := by
    intro x member
    simp only [List.mem_append] at member ⊢
    tauto
  refine ⟨fun x hx => drained.allOk x (members x hx), fun x hx => drained.own x (members x hx),
    sound.mine, by simp, ?_⟩
  have rows : KeyedLog.run (fun _ => none) ((done ++ owed).map recEvent) = index.rows :=
    sound.rows
  rw [List.map_append, KeyedLog.run_append] at rows
  rw [List.map_append, List.map_append, KeyedLog.run_append, KeyedLog.run_append, run_hitRecs]
  exact rows

end Journal

/-! ## What a schedule preserves -/

/-- The written records followed by the owed ones give the rows of the index. -/
def Writers.Consistent (s : Writers) : Prop :=
  ∃ snap log buf, Sole s.world [] snap log buf ∧
    (s.world.journal (snap ++ log ++ buf ++ s.owed.map Owed.line)).Sound s.world.store.inst

/-- A change is a journal act whose record is owed. -/
theorem change_sound {w : World} {snap log buf owed : List Rec}
    (sole : Sole w [] snap log buf)
    (sound : (w.journal (snap ++ log ++ buf ++ owed)).Sound w.store.inst)
    (env : Env) (writer : Writer) :
    Sole ⟨(writer.change env w.store).1, w.dir⟩ [] snap log buf ∧
    (writer.change env w.store).1.inst = w.store.inst ∧
    (World.journal ⟨(writer.change env w.store).1, w.dir⟩
      (snap ++ log ++ buf ++ (owed ++ (writer.change env w.store).2.toList.map Owed.line))).Sound
        w.store.inst := by
  have reindexed : ∀ index, Sole ⟨{ w.store with index := index }, w.dir⟩ [] snap log buf :=
    fun index =>
      ⟨⟨sole.opened, sole.snapBytes, sole.logFile, sole.queue⟩, sole.alone, sole.unread⟩
  have same : (w.journal (snap ++ log ++ buf ++ (owed ++ ([] : List Rec)))).Sound
      w.store.inst := by
    rw [List.append_nil]
    exact sound
  cases writer with
  | shorten url a ttl =>
      simp only [Writer.change]
      split
      · exact ⟨sole, rfl, same⟩
      · rename_i free
        refine ⟨reindexed _, rfl, ?_⟩
        have step := sound.step (.create (Plain.of_codeOk a.property)
          (Map.not_mem_iff_lookup.mp free) url (env.clock 0) (Inner.expiry (env.clock 0) ttl))
        rw [← List.append_assoc]
        exact step
  | update code url ttl hasTtl =>
      simp only [Writer.change]
      cases found : w.store.index.lookup code with
      | none => exact ⟨sole, rfl, same⟩
      | some ent =>
          simp only []
          split
          · exact ⟨sole, rfl, same⟩
          · refine ⟨reindexed _, rfl, ?_⟩
            have step := sound.step (.amend found url
              (if hasTtl then Inner.expiry (env.clock 0) ttl else ent.e))
            rw [← List.append_assoc]
            exact step
  | remove code =>
      simp only [Writer.change]
      cases found : w.store.index.lookup code with
      | none => exact ⟨sole, rfl, same⟩
      | some ent =>
          simp only []
          split
          · exact ⟨sole, rfl, same⟩
          · refine ⟨reindexed _, rfl, ?_⟩
            have step := sound.step (.drop found)
            rw [← List.append_assoc]
            exact step

theorem Sole.pushOwed {s : Inner} {dir : Dir} {snap log buf : List Rec}
    (sole : Sole ⟨s, dir⟩ [] snap log buf) (o : Owed) :
    ∃ s' dir' log' buf', s.pushOwed dir o = (s', dir') ∧ Sole ⟨s', dir'⟩ [] snap log' buf' ∧
      snap ++ log' ++ buf' = snap ++ log ++ buf ++ [o.line] ∧
      s'.inst = s.inst ∧ s'.index = s.index ∧ s'.dirty = s.dirty := by
  unfold Inner.pushOwed
  split
  · obtain ⟨s', dir', log', buf', pushed, sole', moved, inst, index, dirty⟩ :=
      sole.logRaw [o.line]
    rw [logBytes_singleton] at pushed
    refine ⟨s', dir', log', buf', pushed, sole', ?_, inst, index, dirty⟩
    rw [List.append_assoc, moved]
    simp
  · exact ⟨_, _, log, buf ++ [o.line], rfl, sole.logPush o.line, by simp, rfl, rfl, rfl⟩

theorem Writers.Consistent.step {s : Writers} (consistent : s.Consistent) {slot : Slot}
    (inOrder : s.InOrder slot) : (s.step slot).Consistent := by
  obtain ⟨snap, log, buf, sole, sound⟩ := consistent
  cases slot with
  | change k =>
      rw [Writers.step]
      cases begun : s.ready[k]? with
      | none => exact ⟨snap, log, buf, sole, sound⟩
      | some call =>
          obtain ⟨sole', inst, sound'⟩ := change_sound sole sound call.1 call.2
          refine ⟨snap, log, buf, sole', ?_⟩
          simp only [List.map_append, inst]
          exact sound'
  | push k =>
      rw [Writers.step]
      cases due : s.owed[k]? with
      | none => exact ⟨snap, log, buf, sole, sound⟩
      | some o =>
          obtain ⟨s', dir', log', buf', pushed, sole', moved, inst, index, dirty⟩ :=
            sole.pushOwed o
          obtain ⟨inside, here⟩ := List.getElem?_eq_some_iff.mp due
          have split : s.owed = s.owed.take k ++ o :: s.owed.drop (k + 1) := by
            rw [← here, List.getElem_cons_drop, List.take_append_drop]
          have apart : ∀ x ∈ (s.owed.take k).map Owed.line, x.code ≠ o.line.code := by
            intro x member
            obtain ⟨earlier, hearlier, rfl⟩ := List.mem_map.mp member
            exact inOrder o due earlier hearlier
          rw [split, List.map_append, List.map_cons] at sound
          have settled := sound.move apart
          simp only [pushed]
          refine ⟨snap, log', buf', sole', ?_⟩
          rw [List.eraseIdx_eq_take_drop_succ, List.map_append, moved, World.journal]
          simp only [inst, index, dirty]
          exact settled
  | flush env =>
      rw [Writers.step]
      obtain ⟨dir', flushed, sole'⟩ := sole.flushLocked env
      simp only [World.step, flushed]
      refine ⟨_, _, _, sole', ?_⟩
      have drained := Journal.Sound.drainBefore sound env.dirtyOrder
      rw [List.append_nil, ← List.append_assoc, ← List.append_assoc]
      exact drained

/-- When every line was pushed in the order of the changes of its code and all
calls have returned, a flushed log replays to the index. -/
theorem writers_rows (env flushing opening : Env) (inst : Inst)
    (history : List (Env × Call)) (calls : List (Env × Writer)) (schedule : List Slot)
    (inOrder : Along Writers.step Writers.InOrder
      ⟨(World.fresh env inst).run history, calls, []⟩ schedule)
    (finished : (Writers.run ⟨(World.fresh env inst).run history, calls, []⟩
      schedule).Finished) :
    (((Writers.run ⟨(World.fresh env inst).run history, calls, []⟩ schedule).world.close
      flushing).reopen opening).store.index.rows =
    (Writers.run ⟨(World.fresh env inst).run history, calls, []⟩
      schedule).world.store.index.rows := by
  have start : Writers.Consistent ⟨(World.fresh env inst).run history, calls, []⟩ := by
    obtain ⟨snap, log, buf, sole, sound⟩ := settled_run env inst history
    exact ⟨snap, log, buf, sole, by simpa using sound⟩
  obtain ⟨snap, log, buf, sole, sound⟩ : Writers.Consistent (Writers.run _ schedule) :=
    inOrder.invariant (fun _ _ consistent inOrder => consistent.step inOrder) start
  rw [finished.2, List.map_nil, List.append_nil] at sound
  exact Settled.rows_reopen ⟨snap, log, buf, sole, sound⟩ flushing opening

/-- A history that creates the link the writers below work on. -/
def promoCreated : List (Env × Call) :=
  [(.at 1 [], .shorten "https://a" (some promo) 0)]

def other : Alias := ⟨"other", by decide⟩

/-- A remove whose line is overtaken by the line of another code only. -/
theorem writers_rows_two_codes :
    Along Writers.step Writers.InOrder
      ⟨(World.fresh (.at 0 []) 0).run promoCreated,
        [(.at 2 [], .remove "promo"), (.at 3 [], .shorten "https://b" other 0)], []⟩
      [.change 0, .change 0, .push 1, .push 0] ∧
    (((Writers.run ⟨(World.fresh (.at 0 []) 0).run promoCreated,
        [(.at 2 [], .remove "promo"), (.at 3 [], .shorten "https://b" other 0)], []⟩
      [.change 0, .change 0, .push 1, .push 0]).world.close (.at 4 [])).reopen
        (.at 5 [])).store.index.rows "promo" = none := by
  have inOrder : Along Writers.step Writers.InOrder
      ⟨(World.fresh (.at 0 []) 0).run promoCreated,
        [(.at 2 [], .remove "promo"), (.at 3 [], .shorten "https://b" other 0)], []⟩
      [.change 0, .change 0, .push 1, .push 0] := by
    decide +kernel
  refine ⟨inOrder, ?_⟩
  rw [writers_rows (.at 0 []) (.at 4 []) (.at 5 []) 0 promoCreated _ _ inOrder
    ⟨by decide +kernel, by decide +kernel⟩]
  decide +kernel

/-- An update whose line is pushed after the tombstone of a later remove. -/
theorem overtaken_update_revives_link :
    ¬ ∀ (env flushing opening : Env) (inst : Inst) (history : List (Env × Call))
      (calls : List (Env × Writer)) (schedule : List Slot),
      (Writers.run ⟨(World.fresh env inst).run history, calls, []⟩ schedule).Finished →
      (((Writers.run ⟨(World.fresh env inst).run history, calls, []⟩ schedule).world.close
        flushing).reopen opening).store.index.rows =
      (Writers.run ⟨(World.fresh env inst).run history, calls, []⟩
        schedule).world.store.index.rows := by
  intro agree
  have same := congrFun (agree (.at 0 []) (.at 4 []) (.at 5 []) 0 promoCreated
    [(.at 2 [], .update "promo" "https://b" 0 false), (.at 3 [], .remove "promo")]
    [.change 0, .change 0, .push 1, .push 0] ⟨by decide +kernel, by decide +kernel⟩) "promo"
  revert same
  decide +kernel

end Shrt.Store
