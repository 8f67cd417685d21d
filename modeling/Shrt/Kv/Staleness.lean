import Mathlib.Data.List.Basic
import Mathlib.Data.List.Induction
import Shrt.Kv.Janitor

/-!
# How stale a node may be

Any number of nodes share a server, each with a cache and a clock of its own, and
run all their calls in any order of their steps.  A node learns nothing of what
another one writes, but an entry of its cache is used only for the time that it may
be kept.  Every url that is answered was in the server not longer ago than that,
and the time that a call took to cache what it had read.
-/

namespace Shrt.Kv

open Shrt.Codec Shrt.Lib Shrt.Lib.Utf8 Shrt.Lib.Runs

/-- A call, the node that makes it, and the time of its last step on the clock of the
node. -/
structure Job where
  node : Nat
  task : Task
  since : Int64
  deriving DecidableEq

/-- Nodes that share a server, and their calls. -/
structure Grid where
  kv : Redis
  layout : Layout
  buckets : Buckets
  nodes : List KvNode
  jobs : List Job

/-- A call starts or makes a step, or the server drops keys that are due. -/
inductive GridEvent where
  | start (node : Nat) (task : Task) (now : Int64)
  | step (job : Nat) (outside : Outside)
  | evict (now : Int64) (chosen : Bytes → Bool)

namespace Grid

def store (g : Grid) (n : KvNode) : KvStore :=
  ⟨g.kv, n.cache, n.dirty, n.inst, g.layout, g.buckets⟩

def row (g : Grid) (code : String) : Option Row :=
  (g.store KvNode.idle).row code

def step (g : Grid) : GridEvent → Grid
  | .start node task now =>
      if task.begins then { g with jobs := g.jobs ++ [⟨node, task, now⟩] } else g
  | .evict now chosen => { g with kv := g.kv.evict now chosen }
  | .step i o =>
      match g.jobs[i]? with
      | none => g
      | some job =>
          match g.nodes[job.node]? with
          | none => g
          | some n =>
              let out := (g.store n).perform o job.task
              { g with
                kv := out.1.kv
                nodes := g.nodes.set job.node out.1.node
                jobs := g.jobs.set i ⟨job.node, out.2, o.now⟩ }

def run (g : Grid) (events : List GridEvent) : Grid :=
  events.foldl step g

def ttl (g : Grid) (node : Nat) : Int64 :=
  ((g.nodes[node]?).map fun n => n.cache.ttlMs).getD 0

/-- Clocks are past their zero, and what a call read it caches within `d` milliseconds. -/
def Prompt (d : Nat) (g : Grid) : GridEvent → Prop
  | .step i o =>
      0 ≤ o.now ∧ ∀ job code row, g.jobs[i]? = some job → job.task = .serving (.fetched code row) →
        o.now.toInt - job.since.toInt ≤ d
  | _ => True

/-- A row with the url and the expiry was in the server when some call of the node made a
step, at a time not before `least` on the clock of the node. -/
def Held (g : Grid) (events : List GridEvent) (node : Nat) (code u : String) (e : Int64)
    (least : Int) : Prop :=
  ∃ before i o after job row, events = before ++ .step i o :: after ∧
    (g.run before).jobs[i]? = some job ∧ job.node = node ∧
    (g.run before).row code = some row ∧ row.u = u ∧ row.e = e ∧ least ≤ o.now.toInt

end Grid

/-! ## What a step of a call brings -/

theorem Lru.get_fresh {cache : Lru} {now : Int64} {code u : String} {e : Int64}
    (hit : (cache.get now now code).1 = some (u, e)) :
    ∃ cachedAt, cache.find code = some ⟨u, e, cachedAt⟩ ∧ past e now = false ∧
      (0 < cache.ttlMs → now - cachedAt ≤ cache.ttlMs) := by
  obtain ⟨cachedAt, found, current⟩ := get_some hit
  refine ⟨cachedAt, found, current, fun bounded => ?_⟩
  rw [get, found] at hit
  simp only at hit
  split at hit
  · cases hit
  · rename_i kept
    have limited : decide (cache.ttlMs > 0) = true := decide_eq_true bounded
    rw [limited, Bool.true_and, decide_eq_true_eq] at kept
    exact Int64.not_lt.mp kept

def Stage.holdsUrl : Stage → Bool
  | .fetched _ _ | .answering _ _ => true
  | _ => false

namespace KvStore

theorem ttlMs_get (cache : Lru) (stale expired : Int64) (code : String) :
    (cache.get stale expired code).2.ttlMs = cache.ttlMs := by
  rw [Lru.get]
  split
  · rfl
  · split
    · rfl
    · split
      · rfl
      · rfl

/-- What a step of a call does to the cache of its node, and how it comes to a row or to
an answer: it leaves both alone, or it is one of the first three steps of a resolve, or
the last one of a change. -/
inductive Glance (o : Outside) (s s' : KvStore) : Task → Task → Prop where
  | other {task task' : Task} (cache : s'.cache = s.cache)
      (resolves : ∀ stage, task' = .serving stage → stage.holdsUrl = false) :
      Glance o s s' task task'
  | looked (c : String) (cache : s'.cache = (s.cache.get o.now o.now c).2) :
      Glance o s s' (.serving (.resolving c))
        (.serving ((s.cache.get o.now o.now c).1.elim (.missed c) fun hit => .answering c hit.1))
  | read {c : String} {row : Row} (cache : s'.cache = s.cache) (there : s.row c = some row)
      (current : past row.e o.now = false) :
      Glance o s s' (.serving (.missed c)) (.serving (.fetched c row))
  | kept (c : String) (row : Row) (cache : s'.cache = s.cache.put o.now c row.u row.e) :
      Glance o s s' (.serving (.fetched c row)) (.serving (.answering c row.u))
  | dropped (c : String) (task' : Task) (cache : s'.cache = s.cache.remove c)
      (done : ∀ stage, task' ≠ .serving stage) : Glance o s s' (.dropping c) task'

theorem glance_next (o : Outside) (s : KvStore) (stage : Stage) :
    Glance o s (s.next (fun _ => 0) o.env stage).store (.serving stage)
      (.serving (s.next (fun _ => 0) o.env stage).stage) := by
  cases stage with
  | resolving c => exact .looked c rfl
  | missed c =>
      simp only [next]
      cases read : s.readRow o.env 2 3 c with
      | none => exact .other rfl fun _ same => by cases same; rfl
      | some row =>
          rw [readRow] at read
          obtain ⟨v, stored, read⟩ := Option.bind_eq_some_iff.mp read
          obtain ⟨row', decoded, live⟩ := Option.bind_eq_some_iff.mp read
          split at live
          · cases live
          · rename_i current
            cases live
            have shown : (s.atStep o.env 2).row c = some row := by
              rw [KvStore.row, stored]
              exact decoded
            exact .read rfl (row_of_atStep shown) (Bool.eq_false_iff.mpr current)
  | fetched c row => exact .kept c row rfl
  | answering c url =>
      refine .other ?_ fun _ same => by cases same; rfl
      simp only [next, bump]
      split
      · rfl
      · rfl
  | draining shard deltas =>
      simp only [next]
      split
      · exact .other rfl fun _ same => by cases same; rfl
      · exact .other rfl fun _ same => by cases same; rfl
  | sending deltas =>
      cases deltas with
      | nil => exact .other rfl fun _ same => by cases same; rfl
      | cons cn deltas => exact .other rfl fun _ same => by cases same; rfl
  | counting c value =>
      simp only [next]
      cases value.bind decVal with
      | none => exact .other rfl fun _ same => by cases same; rfl
      | some row => exact .other rfl fun _ same => by cases same; rfl
  | _ => exact .other rfl fun _ same => by cases same; rfl

theorem glance_perform (o : Outside) (s : KvStore) (task : Task) :
    Glance o s (s.perform o task).1 task (s.perform o task).2 := by
  cases task with
  | serving stage => exact glance_next o s stage
  | dropping c => exact .dropped c _ rfl fun _ same => by cases same
  | drawing inst aliasCode ttl row =>
      simp only [perform]
      split
      · exact .other rfl fun _ same => by cases same
      · split
        · exact .other rfl fun _ same => by cases same
        · exact .other rfl fun _ same => by cases same
  | updating c change =>
      simp only [perform]
      cases s.row c with
      | none => exact .other rfl fun _ same => by cases same
      | some row => exact .other rfl fun _ same => by cases same
  | removing c =>
      simp only [perform]
      split
      · exact .other rfl fun _ same => by cases same
      · exact .other rfl fun _ same => by cases same
  | scanning keys =>
      simp only [perform]
      split
      · exact .other rfl fun _ same => by cases same
      · exact .other rfl fun _ same => by cases same
  | collecting time keys dels =>
      cases keys with
      | nil => exact .other rfl fun _ same => by cases same
      | cons b keys => exact .other rfl fun _ same => by cases same
  | deleting dels =>
      cases dels with
      | nil => exact .other rfl fun _ same => by cases same
      | cons bf dels => exact .other rfl fun _ same => by cases same
  | _ => exact .other rfl fun _ same => by cases same

namespace Glance

variable {o : Outside} {s s' : KvStore} {task task' : Task}

theorem ttlMs (glance : Glance o s s' task task') : s'.cache.ttlMs = s.cache.ttlMs := by
  cases glance with
  | other cache => rw [cache]
  | looked c cache => rw [cache, ttlMs_get]
  | read cache => rw [cache]
  | kept c row cache => rw [cache]; rfl
  | dropped c _ cache => rw [cache]; rfl

/-- An entry was there, or it is for the row that the call had read. -/
theorem find (glance : Glance o s s' task task') {c : String} {ent : CacheEntry}
    (found : s'.cache.find c = some ent) :
    s.cache.find c = some ent ∨
      ∃ row, task = .serving (.fetched c row) ∧ ent = ⟨row.u, row.e, o.now⟩ := by
  cases glance with
  | other cache => exact Or.inl (cache ▸ found)
  | looked c' cache =>
      rw [cache] at found
      exact Or.inl (Lru.find_get found)
  | read cache => exact Or.inl (cache ▸ found)
  | kept c' row cache =>
      rw [cache] at found
      rcases Lru.find_put _ _ _ _ _ found with ⟨rfl, rfl⟩ | ⟨-, kept⟩
      · exact Or.inr ⟨row, rfl, rfl⟩
      · exact Or.inl kept
  | dropped c' _ cache =>
      rw [cache, Lru.find_remove] at found
      split at found
      · cases found
      · exact Or.inl found

theorem fetched {c : String} {row : Row}
    (glance : Glance o s s' task (.serving (.fetched c row))) :
    task = .serving (.missed c) ∧ s.row c = some row ∧ past row.e o.now = false := by
  generalize reached : Task.serving (.fetched c row) = task' at glance
  cases glance with
  | other cache resolves => cases resolves _ reached.symm
  | looked c' cache =>
      cases hit : (s.cache.get o.now o.now c').1 with
      | none =>
          rw [hit] at reached
          cases reached
      | some hit' =>
          rw [hit] at reached
          cases reached
  | read cache there current =>
      cases reached
      exact ⟨rfl, there, current⟩
  | kept c' row' cache => cases reached
  | dropped c' _ cache done => exact absurd reached.symm (done _)

theorem answering {c u : String} (glance : Glance o s s' task (.serving (.answering c u))) :
    (task = .serving (.resolving c) ∧ ∃ e, (s.cache.get o.now o.now c).1 = some (u, e)) ∨
      ∃ row, task = .serving (.fetched c row) ∧ row.u = u := by
  generalize reached : Task.serving (.answering c u) = task' at glance
  cases glance with
  | other cache resolves => cases resolves _ reached.symm
  | looked c' cache =>
      cases hit : (s.cache.get o.now o.now c').1 with
      | none =>
          rw [hit] at reached
          cases reached
      | some hit' =>
          rw [hit] at reached
          cases reached
          exact Or.inl ⟨rfl, hit'.2, hit⟩
  | read cache there current => cases reached
  | kept c' row' cache =>
      cases reached
      exact Or.inr ⟨row', rfl, rfl⟩
  | dropped c' _ cache done => exact absurd reached.symm (done _)

end Glance

end KvStore

/-! ## What the nodes know -/

namespace Grid

theorem run_concat (g : Grid) (events : List GridEvent) (event : GridEvent) :
    g.run (events ++ [event]) = (g.run events).step event := by
  rw [run, List.foldl_concat]
  rfl

theorem Held.concat {g : Grid} {events : List GridEvent} {node : Nat} {code u : String} {e : Int64}
    {least : Int} (held : g.Held events node code u e least) (event : GridEvent) :
    g.Held (events ++ [event]) node code u e least := by
  obtain ⟨before, i, o, after, job, row, rfl, rest⟩ := held
  exact ⟨before, i, o, after ++ [event], job, row, by simp, rest⟩

theorem Held.mono {g : Grid} {events : List GridEvent} {node : Nat} {code u : String} {e : Int64}
    {least least' : Int} (held : g.Held events node code u e least) (le : least' ≤ least) :
    g.Held events node code u e least' := by
  obtain ⟨before, i, o, after, job, row, split, there, mine, shown, url, expiry, at_least⟩ := held
  exact ⟨before, i, o, after, job, row, split, there, mine, shown, url, expiry, le.trans at_least⟩

theorem step_none {g : Grid} {i : Nat} {o : Outside}
    (idle : g.jobs[i]? = none ∨ ∃ job, g.jobs[i]? = some job ∧ g.nodes[job.node]? = none) :
    g.step (.step i o) = g := by
  rw [step]
  rcases idle with none | ⟨job, there, none⟩
  · rw [none]
  · rw [there]
    simp only [none]

theorem step_some {g : Grid} {i : Nat} {o : Outside} {job : Job} {n : KvNode}
    (there : g.jobs[i]? = some job) (node : g.nodes[job.node]? = some n) :
    g.step (.step i o) =
      { g with
        kv := ((g.store n).perform o job.task).1.kv
        nodes := g.nodes.set job.node ((g.store n).perform o job.task).1.node
        jobs := g.jobs.set i ⟨job.node, ((g.store n).perform o job.task).2, o.now⟩ } := by
  rw [step, there]
  simp only [node]

theorem ttl_step (g : Grid) (event : GridEvent) (node : Nat) :
    (g.step event).ttl node = g.ttl node := by
  cases event with
  | start node' task now =>
      rw [step]
      split
      · rfl
      · rfl
  | evict now chosen => rfl
  | step i o =>
      cases there : g.jobs[i]? with
      | none => rw [step_none (Or.inl there)]
      | some job =>
          cases mine : g.nodes[job.node]? with
          | none => rw [step_none (Or.inr ⟨job, there, mine⟩)]
          | some n =>
              rw [step_some there mine, ttl, ttl]
              dsimp only
              have kept := (KvStore.glance_perform o (g.store n) job.task).ttlMs
              rw [List.getElem?_set]
              split
              · rename_i same
                subst same
                rw [mine]
                split
                · exact kept
                · rename_i beyond
                  rw [List.getElem?_eq_none (Nat.not_lt.mp beyond)] at mine
                  cases mine
              · rfl

theorem ttl_run (g : Grid) (events : List GridEvent) (node : Nat) :
    (g.run events).ttl node = g.ttl node := by
  have keep : ∀ (g' : Grid) (event : GridEvent), g'.ttl node = g.ttl node →
      (g'.step event).ttl node = g.ttl node :=
    fun g' event same => (ttl_step g' event node).trans same
  exact Runs.invariant keep rfl events

/-- What the nodes hold was in the server not too long ago. -/
structure Recent (d : Nat) (g : Grid) (events : List GridEvent) : Prop where
  cached : ∀ node n, (g.run events).nodes[node]? = some n → ∀ c ent, n.cache.find c = some ent →
    0 ≤ ent.cachedAt ∧ g.Held events node c ent.u ent.e (ent.cachedAt.toInt - d)
  fetched : ∀ job ∈ (g.run events).jobs, ∀ c row, job.task = .serving (.fetched c row) →
    past row.e job.since = false ∧ g.Held events job.node c row.u row.e job.since.toInt
  answering : ∀ job ∈ (g.run events).jobs, ∀ c u, job.task = .serving (.answering c u) →
    0 < g.ttl job.node → ∃ e, (e = 0 ∨ job.since.toInt - d < e.toInt) ∧
      g.Held events job.node c u e (job.since.toInt - (g.ttl job.node).toInt - d)

theorem toInt_sub_clocks {now at_ : Int64} (now_pos : 0 ≤ now) (at_pos : 0 ≤ at_) :
    (now - at_).toInt = now.toInt - at_.toInt := by
  rw [Int64.le_iff_toInt_le] at now_pos at_pos
  have now_lt := now.toInt_lt
  have at_lt := at_.toInt_lt
  simp only [Int64.toInt_zero] at now_pos at_pos
  rw [Int64.toInt_sub, Int.bmod_eq_of_le (by omega) (by omega)]

theorem of_not_past {e now : Int64} (current : past e now = false) :
    e = 0 ∨ now.toInt < e.toInt := by
  rw [past, Bool.and_eq_false_iff] at current
  rcases current with never | later
  · exact Or.inl (by simpa using never)
  · exact Or.inr (Int64.lt_iff_toInt_lt.mp (Int64.not_le.mp (of_decide_eq_false later)))

theorem Recent.start {d : Nat} {g : Grid} {events : List GridEvent} (recent : Recent d g events)
    (node : Nat) (task : Task) (now : Int64) : Recent d g (events ++ [.start node task now]) := by
  have same : (g.run (events ++ [.start node task now])).nodes = (g.run events).nodes := by
    rw [run_concat, step]
    split
    · rfl
    · rfl
  have listed : ∀ job ∈ (g.run (events ++ [.start node task now])).jobs,
      job ∈ (g.run events).jobs ∨ job.task.begins = true := by
    intro job among
    rw [run_concat, step] at among
    split at among
    · rename_i begins
      rcases List.mem_append.mp among with old | new
      · exact Or.inl old
      · cases List.mem_singleton.mp new
        exact Or.inr begins
    · exact Or.inl among
  refine ⟨fun node' n there c ent found => ?_, fun job among c row fetched => ?_,
    fun job among c u answering bounded => ?_⟩
  · rw [same] at there
    obtain ⟨positive, held⟩ := recent.cached node' n there c ent found
    exact ⟨positive, held.concat _⟩
  · rcases listed job among with old | begins
    · obtain ⟨current, held⟩ := recent.fetched job old c row fetched
      exact ⟨current, held.concat _⟩
    · rw [fetched] at begins
      cases begins
  · rcases listed job among with old | begins
    · obtain ⟨e, current, held⟩ := recent.answering job old c u answering bounded
      exact ⟨e, current, held.concat _⟩
    · rw [answering] at begins
      cases begins

theorem Recent.same {d : Nat} {g : Grid} {events : List GridEvent} (recent : Recent d g events)
    {event : GridEvent} (nodes : ((g.run events).step event).nodes = (g.run events).nodes)
    (jobs : ((g.run events).step event).jobs = (g.run events).jobs) :
    Recent d g (events ++ [event]) := by
  refine ⟨fun node' n there c ent found => ?_, fun job among c row fetched => ?_,
    fun job among c u answering bounded => ?_⟩
  · rw [run_concat, nodes] at there
    obtain ⟨positive, held⟩ := recent.cached node' n there c ent found
    exact ⟨positive, held.concat _⟩
  · rw [run_concat, jobs] at among
    obtain ⟨current, held⟩ := recent.fetched job among c row fetched
    exact ⟨current, held.concat _⟩
  · rw [run_concat, jobs] at among
    obtain ⟨e, current, held⟩ := recent.answering job among c u answering bounded
    exact ⟨e, current, held.concat _⟩

/-- A step of a call that is there, on a node that is there. -/
theorem Recent.performed {d : Nat} {g : Grid} {events : List GridEvent} (recent : Recent d g events)
    {i : Nat} {o : Outside} (prompt : Prompt d (g.run events) (.step i o)) {job : Job} {n : KvNode}
    (there : (g.run events).jobs[i]? = some job)
    (mine : (g.run events).nodes[job.node]? = some n) :
    Recent d g (events ++ [.step i o]) := by
  obtain ⟨positive, caught⟩ := prompt
  have among := List.mem_of_getElem? there
  have glance := KvStore.glance_perform o ((g.run events).store n) job.task
  have node_ttl : n.cache.ttlMs = g.ttl job.node := by
    rw [← ttl_run g events, ttl, mine]
    rfl
  have stepped := step_some (o := o) there mine
  have in_hand : ∀ c row, job.task = .serving (.fetched c row) →
      g.Held (events ++ [.step i o]) job.node c row.u row.e (o.now.toInt - d) := by
    intro c row fetched
    have waited := caught job c row there fetched
    exact ((recent.fetched job among c row fetched).2.mono (by omega)).concat _
  refine ⟨fun node' n' there' c ent found => ?_, fun job' among' c row fetched => ?_,
    fun job' among' c u answering bounded => ?_⟩
  · rw [run_concat, stepped] at there'
    rw [List.getElem?_set] at there'
    split at there'
    · rename_i same
      subst same
      split at there'
      · cases there'
        rcases glance.find found with old | ⟨row, fetched, rfl⟩
        · obtain ⟨positive', held⟩ := recent.cached job.node n mine c ent old
          exact ⟨positive', held.concat _⟩
        · exact ⟨positive, in_hand c row fetched⟩
      · cases there'
    · obtain ⟨positive', held⟩ := recent.cached node' n' there' c ent found
      exact ⟨positive', held.concat _⟩
  · rw [run_concat, stepped] at among'
    rcases List.mem_or_eq_of_mem_set among' with old | rfl
    · obtain ⟨current, held⟩ := recent.fetched job' old c row fetched
      exact ⟨current, held.concat _⟩
    · have reached : ((g.run events).store n |>.perform o job.task).2 = .serving (.fetched c row) :=
        fetched
      rw [reached] at glance
      obtain ⟨-, shown, current⟩ := glance.fetched
      exact ⟨current, events, i, o, [], job, row, rfl, there, rfl, shown, rfl, rfl, le_rfl⟩
  · rw [run_concat, stepped] at among'
    rcases List.mem_or_eq_of_mem_set among' with old | rfl
    · obtain ⟨e, current, held⟩ := recent.answering job' old c u answering bounded
      exact ⟨e, current, held.concat _⟩
    · have reached : ((g.run events).store n |>.perform o job.task).2 = .serving (.answering c u) :=
        answering
      rw [reached] at glance
      dsimp only at bounded ⊢
      rcases glance.answering with ⟨-, e, hit⟩ | ⟨row, fetched, rfl⟩
      · obtain ⟨cachedAt, found, current, fresh⟩ := Lru.get_fresh hit
        have young := Int64.le_iff_toInt_le.mp (fresh (node_ttl ▸ bounded))
        obtain ⟨cached_pos, held⟩ := recent.cached job.node n mine c ⟨u, e, cachedAt⟩ found
        rw [toInt_sub_clocks positive cached_pos] at young
        change o.now.toInt - cachedAt.toInt ≤ n.cache.ttlMs.toInt at young
        rw [node_ttl] at young
        refine ⟨e, (of_not_past current).imp_right fun later => by omega, ?_⟩
        exact (held.mono (by dsimp only; omega)).concat _
      · have waited := caught job c row there fetched
        obtain ⟨current, -⟩ := recent.fetched job among c row fetched
        have ttl_pos : (0 : Int) < (g.ttl job.node).toInt := by
          simpa using Int64.lt_iff_toInt_lt.mp bounded
        refine ⟨row.e, (of_not_past current).imp_right fun later => by omega, ?_⟩
        exact (in_hand c row fetched).mono (by omega)

theorem Recent.concat {d : Nat} {g : Grid} {events : List GridEvent} (recent : Recent d g events)
    {event : GridEvent} (prompt : Prompt d (g.run events) event) :
    Recent d g (events ++ [event]) := by
  cases event with
  | start node task now => exact recent.start node task now
  | evict now chosen => exact recent.same rfl rfl
  | step i o =>
      cases there : (g.run events).jobs[i]? with
      | none =>
          have idle := step_none (o := o) (Or.inl there)
          exact recent.same (by rw [idle]) (by rw [idle])
      | some job =>
          cases mine : (g.run events).nodes[job.node]? with
          | none =>
              have idle := step_none (o := o) (Or.inr ⟨job, there, mine⟩)
              exact recent.same (by rw [idle]) (by rw [idle])
          | some n => exact recent.performed prompt there mine

/-- Two nodes with a cache each, whose entries are kept for 50 milliseconds. -/
def twins : Grid :=
  let s := (KvStore.fresh 0 .hash eightBuckets 100 50).step
    (.at 1000 [], .shorten "https://a.example" (some promo) 0)
  { kv := s.kv, layout := s.layout, buckets := s.buckets, nodes := [s.node, s.node], jobs := [] }

/-- A step within `d` milliseconds of the last one of its call. -/
def Brisk (d : Nat) (g : Grid) : GridEvent → Prop
  | .step i o => 0 ≤ o.now ∧
      ((g.jobs[i]?).all fun job => decide (o.now.toInt - job.since.toInt ≤ d)) = true
  | _ => True

instance Brisk.decidable (d : Nat) (g : Grid) : ∀ event, Decidable (g.Brisk d event)
  | .step i o => inferInstanceAs (Decidable (0 ≤ o.now ∧
      ((g.jobs[i]?).all fun job => decide (o.now.toInt - job.since.toInt ≤ d)) = true))
  | .start _ _ _ => isTrue trivial
  | .evict _ _ => isTrue trivial

theorem Brisk.prompt {d : Nat} {g : Grid} {event : GridEvent} (brisk : g.Brisk d event) :
    g.Prompt d event := by
  cases event with
  | start node task now => trivial
  | evict now chosen => trivial
  | step i o =>
      obtain ⟨positive, close⟩ := brisk
      refine ⟨positive, fun job code row there _ => ?_⟩
      rw [there] at close
      exact of_decide_eq_true close

end Grid

end Shrt.Kv
