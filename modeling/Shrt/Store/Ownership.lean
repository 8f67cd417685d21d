import Mathlib.Data.List.Basic
import Shrt.Store.Pooled
import Shrt.Store.Restart

/-!
# What tailing does to the own links

Mutations check the owner of a link, the fold of a sibling's lines does not.  A
read leaves the links that an instance created as they are exactly when no line
it is about to fold sets or removes the row of one of them.
-/

namespace Shrt.Store

open Shrt.Codec Shrt.Lib Shrt.Lib.Framing Shrt.Lib.Runs

def Op.assigns (o : Op) : Option String :=
  if o.x ≠ "" then some o.x
  else if o.h ≠ "" then none
  else if o.c = "" then none
  else some o.c

/-- The links that the instance created are there as they were. -/
def KeepsOwn (s s' : Inner) : Prop :=
  ∀ c e, s.index.lookup c = some e → e.i = s.inst.i32 → s'.index.rows c = some e.row

/-- No line that these logs are about to yield sets or removes the row of an own
link. -/
def Undisturbed (env : Env) (dir : Dir) (s : Inner) (js : List Inst) : Prop :=
  ∀ j ∈ js, ∀ o ∈ s.ears.ops env dir j, ∀ c ∈ Op.assigns o, ∀ e ∈ s.index.lookup c,
    e.i ≠ s.inst.i32

instance (env : Env) (dir : Dir) (s : Inner) (js : List Inst) :
    Decidable (Undisturbed env dir s js) :=
  inferInstanceAs (Decidable (∀ j ∈ js, ∀ o ∈ s.ears.ops env dir j, ∀ c ∈ Op.assigns o,
    ∀ e ∈ s.index.lookup c, e.i ≠ s.inst.i32))

theorem assigns_op {r : Rec} (ok : r.Ok) (c : String) :
    Op.assigns r.op = some c ↔ (recEvent r).on c ≠ none := by
  have named : r.code ≠ "" := ok.nonempty
  cases r with
  | row c' u a e i n => simp_all [Op.assigns, Rec.op, recEvent, KeyedLog.Event.on, Rec.code]
  | hit c' d i => simp_all [Op.assigns, Rec.op, recEvent, KeyedLog.Event.on, Rec.code]
  | del c' => simp_all [Op.assigns, Rec.op, recEvent, KeyedLog.Event.on, Rec.code]

/-- Logs read one after another are folded one after another. -/
theorem view_foldl_hear (env : Env) (k : Inst) (dir : Dir) {js : List Inst} (once : js.Nodup)
    (e : Ears) :
    (js.foldl (Ears.hear env k dir) e).view =
      (js.flatMap (e.ops env dir)).foldl (apply env k) e.view := by
  induction js generalizing e with
  | nil => rfl
  | cons j js ih =>
      obtain ⟨absent, once⟩ := List.nodup_cons.mp once
      have others : js.flatMap ((e.hear env k dir j).ops env dir) =
          js.flatMap (e.ops env dir) :=
        List.flatMap_congr fun i member =>
          Ears.ops_hear_other env k dir e fun same => absent (same ▸ member)
      rw [List.foldl_cons, ih once, Ears.view_hear, others, List.flatMap_cons, List.foldl_append]

/-- The lines that a log is about to yield are records of its writer. -/
def Foreign (env : Env) (dir : Dir) (s : Inner) (js : List Inst) : Prop :=
  ∀ j ∈ js, j ≠ s.inst ∧ ∃ new : List Rec, s.ears.ops env dir j = new.map Rec.op ∧ AllOk new ∧
    ∀ r ∈ new, r.Own j

theorem Foreign.records {env : Env} {dir : Dir} {s : Inner} {js : List Inst}
    (foreign : Foreign env dir s js) :
    ∃ rs : List Rec, js.flatMap (s.ears.ops env dir) = rs.map Rec.op ∧ AllOk rs ∧
      ∀ r ∈ rs, ∃ j, j ≠ s.inst ∧ r.Own j := by
  induction js with
  | nil => exact ⟨[], rfl, allOk_nil, fun r member => by cases member⟩
  | cons j js ih =>
      obtain ⟨other, new, ops, ok, own⟩ := foreign j List.mem_cons_self
      obtain ⟨rs, later, okLater, ownLater⟩ := ih fun i member =>
        foreign i (List.mem_cons_of_mem _ member)
      refine ⟨new ++ rs, ?_, ok.append okLater, fun r member => ?_⟩
      · rw [List.flatMap_cons, ops, later, List.map_append]
      · rcases List.mem_append.mp member with here | there
        · exact ⟨j, other, own r here⟩
        · exact ownLater r there

/-- A record of another instance leaves a code without a row of this one. -/
theorem not_own_of_event {r : Rec} {j k : Inst} (own : r.Own j) (other : j ≠ k) {c : String}
    {v : Option Row} (assigned : recEvent r = .set c v) {row : Row} (kept : v = some row) :
    row.i ≠ k.i32 := by
  subst kept
  rw [owner_of_event own assigned]
  exact fun same => other (Inst.i32_injective same)

/-- A read of siblings' logs keeps the own links exactly when no line is about
to set or remove the row of one. -/
theorem keepsOwn_iff {env : Env} {dir : Dir} {s s' : Inner} {js : List Inst}
    (reads : Reads env dir js s s') (foreign : Foreign env dir s js) :
    KeepsOwn s s' ↔ Undisturbed env dir s js := by
  obtain ⟨rs, ops, ok, others⟩ := foreign.records
  have view : s'.view = replay env s.inst s.view rs := by
    have ears := congrArg Ears.view reads.ears
    rw [view_foldl_hear env s.inst dir reads.once, ops] at ears
    exact ears
  have rows : s'.index.rows = KeyedLog.run s.index.rows (rs.map recEvent) := by
    rw [show s'.index = s'.view.index from rfl, view]
    exact rows_replay env s.inst ok s.view
  have undisturbed : Undisturbed env dir s js ↔ ∀ r ∈ rs, ∀ c e, s.index.lookup c = some e →
      e.i = s.inst.i32 → (recEvent r).on c = none := by
    constructor
    · intro undisturbed r member c e found mine
      have listed : r.op ∈ js.flatMap (s.ears.ops env dir) := by
        rw [ops]
        exact List.mem_map_of_mem member
      obtain ⟨j, here, there⟩ := List.mem_flatMap.mp listed
      by_contra assigned
      exact undisturbed j here r.op there c ((assigns_op (ok r member) c).mpr assigned) e found mine
    · intro silent j here o there c assigned e found mine
      have listed : o ∈ rs.map Rec.op := by
        rw [← ops]
        exact List.mem_flatMap.mpr ⟨j, here, there⟩
      obtain ⟨r, member, rfl⟩ := List.mem_map.mp listed
      exact (assigns_op (ok r member) c).mp assigned (silent r member c e found mine)
  rw [undisturbed]
  constructor
  · intro kept r member c e found mine
    have after := kept c e found mine
    rw [rows, KeyedLog.run_apply] at after
    cases final : KeyedLog.last c (rs.map recEvent) with
    | none =>
        exact KeyedLog.silent_of_last final _ (List.mem_map_of_mem member)
    | some v =>
        rw [final, Option.getD_some] at after
        obtain ⟨r', member', assigned⟩ := List.mem_map.mp (KeyedLog.mem_of_last final)
        obtain ⟨j, other, own⟩ := others r' member'
        exact absurd mine (not_own_of_event own other assigned after)
  · intro silent c e found mine
    have quiet : ∀ event ∈ rs.map recEvent, event.on c = none := by
      intro event member
      obtain ⟨r, here, rfl⟩ := List.mem_map.mp member
      exact silent r here c e found mine
    rw [rows, KeyedLog.run_silent quiet, Index.rows, found]
    rfl

/-! ## Reachable states -/

/-- Only the instance `a` reads logs and compacts.  The others create, change,
remove and flush, and resolve codes they know. -/
def Cluster.OneReader (a : Inst) (c : Cluster) : ClusterStep → Prop
  | .call k _ (.resolve code) => k = a ∨ ∀ s ∈ c.nodes k, (s.index.lookup code).isSome = true
  | .call k _ .poll | .call k _ .compact | .call k _ .restart => k = a
  | _ => True

instance (a : Inst) (c : Cluster) : ∀ step, Decidable (c.OneReader a step)
  | .boot _ _ => isTrue trivial
  | .stop _ _ => isTrue trivial
  | .call k _ request =>
      match request with
      | .resolve code => inferInstanceAs
          (Decidable (k = a ∨ ∀ s ∈ c.nodes k, (s.index.lookup code).isSome = true))
      | .poll => inferInstanceAs (Decidable (k = a))
      | .compact => inferInstanceAs (Decidable (k = a))
      | .restart => inferInstanceAs (Decidable (k = a))
      | .shorten _ _ _ => isTrue trivial
      | .shortenMany _ _ => isTrue trivial
      | .update _ _ _ _ => isTrue trivial
      | .remove _ => isTrue trivial
      | .flush => isTrue trivial

def Pool.Rules.free : Pool.Rules where
  acts _ _ := True
  saves _ _ := True
  opens _ _ _ := True

/-- The cluster stands for a pool in which only the instance `a` truncates. -/
def Cluster.Pooled (a : Inst) (c : Cluster) : Prop :=
  ∃ p log buf, p.Sound ∧ Pools (· = a) c p log buf

/-- Only polls and read misses read logs. -/
theorem reads_of_mem_callOrder {env : Env} {s : Inner} {dir : Dir} {call : Call} {j : Inst}
    (member : j ∈ s.callOrder env dir call) :
    call = .poll ∨ ∃ code, call = .resolve code ∧ (s.index.lookup code).isSome = false := by
  cases call with
  | poll => exact Or.inl rfl
  | resolve code =>
      refine Or.inr ⟨code, rfl, ?_⟩
      by_contra known
      rw [Bool.not_eq_false] at known
      simp only [Inner.callOrder, known, if_true] at member
      cases member
  | shorten url aliasCode ttl => cases member
  | shortenMany urls ttl => cases member
  | update code url ttl hasTtl => cases member
  | remove code => cases member
  | flush => cases member
  | compact => cases member
  | restart => cases member

theorem ne_of_mem_callOrder {env : Env} {s : Inner} {dir : Dir} {call : Call} {j : Inst}
    (noSelf : s.readers.lookup s.inst = none) (member : j ∈ s.callOrder env dir call) :
    j ≠ s.inst := by
  rcases reads_of_mem_callOrder member with rfl | ⟨code, rfl, missed⟩
  · simp only [Inner.callOrder] at member
    split at member
    · exact (reads_pollLocked env dir noSelf).others j member
    · cases member
  · simp only [Inner.callOrder, missed, Bool.false_eq_true, if_false] at member
    exact (reads_tailMissed env dir code noSelf).others j member

section OneReader

variable {a : Inst} {c : Cluster} {p : Pool} {log buf : Inst → List Rec}

/-- The logs that the one reader reads are never truncated. -/
theorem Pools.valid (pools : Pools (· = a) c p log buf) {s : Inner} (running : c.nodes a = some s)
    {j : Inst} (other : j ≠ a) : (s.heard j).Valid (c.dir.read (.log j)) := by
  obtain ⟨m, -, seat⟩ := pools.up a s running
  rw [pools.logFile]
  exact Or.inr (seat.standing j other other)

theorem Pools.readable (pools : Pools (· = a) c p log buf) {step : ClusterStep}
    (reader : c.OneReader a step) : c.Readable step := by
  cases step with
  | boot k env => trivial
  | stop k env => trivial
  | call k env request =>
      intro s running j member
      obtain ⟨m, -, seat⟩ := pools.up k s running
      have other := ne_of_mem_callOrder (by rw [seat.inst]; exact seat.noSelf) member
      rw [seat.inst] at other
      have same : k = a := by
        rcases reads_of_mem_callOrder member with rfl | ⟨code, rfl, missed⟩
        · exact reader
        · refine reader.resolve_right fun known => ?_
          rw [known s running] at missed
          cases missed
      subst same
      exact pools.valid running other

/-- All that the one reader's schedules do is permitted. -/
theorem Pool.Rules.free_permit {step : ClusterStep} (reader : c.OneReader a step) :
    Pool.Rules.free.Permit (· = a) c p step := by
  cases step with
  | boot k env => exact fun _ _ _ => trivial
  | stop k env => trivial
  | call k env request =>
      cases request with
      | compact => exact ⟨reader, trivial, fun _ _ _ _ => trivial⟩
      | restart => exact ⟨trivial, fun _ _ => trivial⟩
      | poll => exact fun _ _ => trivial
      | resolve code => exact fun _ _ => trivial
      | shorten url aliasCode ttl => exact fun _ _ => trivial
      | shortenMany urls ttl => exact fun _ _ => trivial
      | update code url ttl hasTtl => exact fun _ _ => trivial
      | remove code => exact fun _ _ => trivial
      | flush => exact fun _ _ => trivial

theorem Cluster.Pooled.step (pooled : c.Pooled a) {step : ClusterStep}
    (reader : c.OneReader a step) : (c.step step).Pooled a := by
  obtain ⟨p, log, buf, sound, pools⟩ := pooled
  obtain ⟨p', log', buf', steps, pools'⟩ :=
    pools.step sound (Pool.Rules.free_permit reader) (pools.honest sound (pools.readable reader))
  exact ⟨p', log', buf', sound.steps steps, pools'⟩

theorem pooled_run {schedule : List ClusterStep}
    (reader : Along Cluster.step (Cluster.OneReader a) .start schedule) :
    (Cluster.start.run schedule).Pooled a :=
  Along.invariant (fun _ _ pooled reader => pooled.step reader)
    ⟨_, _, _, Pool.sound_start, pools_start _⟩ reader

/-- What the one reader is about to read are records of their writers. -/
theorem Pools.foreign (pools : Pools (· = a) c p log buf) (sound : p.Sound) {s : Inner}
    (running : c.nodes a = some s) (env : Env) {js : List Inst} (others : ∀ j ∈ js, j ≠ s.inst) :
    Foreign env c.dir s js := by
  obtain ⟨m, -, seat⟩ := pools.up a s running
  intro j member
  have other : j ≠ a := seat.inst ▸ others j member
  have valid := pools.valid running other
  rw [pools.logFile] at valid
  obtain ⟨r', new, got, listed, -⟩ :=
    valid.readNew (pools.okLog sound j) (pools.logFile j) (env.short j)
  have ok : AllOk new := fun r here => pools.okLog sound j r (listed r here)
  refine ⟨others j member, new, ?_, ok, fun r here => ?_⟩
  · rw [Ears.ops, show s.ears.heard j = s.heard j from rfl, got]
    exact filterMap_parseOp_lines ok
  · exact sound.own j r ((pools.log_prefix j).subset (listed r here))

end OneReader

/-- In every state that an instance reaches while its siblings only create,
change, remove and flush, a poll and a read miss keep the links it created
exactly when no line they are about to fold sets or removes one of them. -/
theorem tailing_keeps_own_iff {a : Inst} {schedule : List ClusterStep}
    (reader : Along Cluster.step (Cluster.OneReader a) .start schedule) {s : Inner}
    (running : (Cluster.start.run schedule).nodes a = some s) (env : Env) :
    (KeepsOwn s (s.pollTails env (Cluster.start.run schedule).dir) ↔
      Undisturbed env (Cluster.start.run schedule).dir s
        (s.pollOrder env (Cluster.start.run schedule).dir)) ∧
    ∀ code, KeepsOwn s (s.tailMissed env (Cluster.start.run schedule).dir code) ↔
      Undisturbed env (Cluster.start.run schedule).dir s
        (s.tailOrder env (Cluster.start.run schedule).dir code) := by
  obtain ⟨p, log, buf, sound, pools⟩ := pooled_run reader
  obtain ⟨m, -, seat⟩ := pools.up a s running
  have noSelf : s.readers.lookup s.inst = none := by
    rw [seat.inst]
    exact seat.noSelf
  have queue : s.aof = some ⟨logBytes (buf a)⟩ := seat.holds.queue
  constructor
  · have reads := reads_pollLocked env (Cluster.start.run schedule).dir noSelf
    rw [Inner.pollTails, queue]
    exact keepsOwn_iff reads (pools.foreign sound running env reads.others)
  · intro code
    have reads := reads_tailMissed env (Cluster.start.run schedule).dir code noSelf
    exact keepsOwn_iff reads (pools.foreign sound running env reads.others)

def apartSchedule : List ClusterStep :=
  [.boot 0 (.at 0 []), .boot 1 (.at 1 []),
   .call 0 (.at 2 []) (.shorten "https://a" (some promo) 0),
   .call 1 (.at 3 []) (.shorten "https://b" (some ⟨"sale", by decide⟩) 0),
   .call 1 (.at 4 []) (.resolve "sale"), .call 1 (.at 5 []) .flush]

theorem tailing_keeps_own_apart :
    ∃ s, (Cluster.start.run apartSchedule).nodes 0 = some s ∧
      s.index.rows "promo" = some ⟨"https://a", 2, 0, 0⟩ ∧
      KeepsOwn s (s.pollTails (.at 6 []) (Cluster.start.run apartSchedule).dir) := by
  have facts : ∃ s ∈ (Cluster.start.run apartSchedule).nodes 0,
      s.index.rows "promo" = some ⟨"https://a", 2, 0, 0⟩ ∧
      Undisturbed (.at 6 []) (Cluster.start.run apartSchedule).dir s
        (s.pollOrder (.at 6 []) (Cluster.start.run apartSchedule).dir) := by
    decide +kernel
  obtain ⟨s, running, row, undisturbed⟩ := facts
  refine ⟨s, running, row, ?_⟩
  exact (tailing_keeps_own_iff (by decide +kernel) running (.at 6 [])).1.mpr undisturbed

/-- Two instances that accept the same alias. -/
def clashSchedule : List ClusterStep :=
  [.boot 0 (.at 0 []), .boot 1 (.at 1 []),
   .call 0 (.at 2 []) (.shorten "https://a" (some promo) 0),
   .call 1 (.at 3 []) (.shorten "https://b" (some promo) 0), .call 1 (.at 4 []) .flush]

/-- A poll hands an instance's own link over to the sibling that took the same
alias. -/
theorem poll_gives_link_away :
    Along Cluster.step (Cluster.OneReader 0) .start clashSchedule ∧
    ∃ s, (Cluster.start.run clashSchedule).nodes 0 = some s ∧
      s.index.rows "promo" = some ⟨"https://a", 2, 0, 0⟩ ∧
      (s.pollTails (.at 5 []) (Cluster.start.run clashSchedule).dir).index.rows "promo" =
        some ⟨"https://b", 3, 0, 1⟩ ∧
      ¬ KeepsOwn s (s.pollTails (.at 5 []) (Cluster.start.run clashSchedule).dir) := by
  have facts : ∃ s ∈ (Cluster.start.run clashSchedule).nodes 0,
      s.index.lookup "promo" = some ⟨"https://a", 2, 0, 0, 0, 0⟩ ∧ s.inst.i32 = 0 ∧
      (s.pollTails (.at 5 []) (Cluster.start.run clashSchedule).dir).index.rows "promo" =
        some ⟨"https://b", 3, 0, 1⟩ := by
    decide +kernel
  obtain ⟨s, running, found, inst, after⟩ := facts
  refine ⟨by decide +kernel, s, running, ?_, after, fun kept => ?_⟩
  · rw [Index.rows, found]
    rfl
  · have same := kept "promo" _ found inst.symm
    rw [after] at same
    exact absurd same (by decide)

end Shrt.Store
