import Mathlib.Data.List.Basic
import Shrt.Store.Restart

/-!
# Redirects during a compaction

`resolve` does not take the gate that keeps the mutations out of a running
`compact`.  It counts a hit in two steps, first in the entry and then in the
dirty map of the shard, while `compact` drains the dirty maps shard by shard,
then reads the entries shard by shard into the snapshot, and then truncates
the log.  Every order of these steps is a race.
-/

namespace Shrt.Store

open Shrt.Codec Shrt.Lib Shrt.Lib.Runs

/-- How far the running `compact` is: the next shard, and the lines or rows
gathered so far. -/
inductive Phase where
  | idle
  | draining (next : Nat) (lines : List Rec)
  | reading (next : Nat) (rows : List Rec)
  deriving DecidableEq

/-- The store, the resolves between their two steps, and the codes of all
successful resolves so far. -/
structure Race where
  world : World
  counting : List String
  served : List String
  phase : Phase

inductive RaceStep where
  /-- A resolve finds the link and counts in its entry. -/
  | hit (env : Env) (code : String)
  /-- The `k`-th resolve under way counts in the dirty map. -/
  | count (k : Nat)
  /-- A `compact` takes the gate. -/
  | begin
  /-- It drains the next shard; after the last one it writes the log. -/
  | drain (env : Env)
  /-- It reads the entries of the next shard. -/
  | read (env : Env)
  /-- It renames the snapshot and truncates the log. -/
  | finish

def shardCounts (env : Env) (n : Nat) (dirty : Dirty) : List (String × Int64) :=
  (env.dirtyOrder.iter dirty).filter fun kd => shardOf kd.1 == n

def clearShard (n : Nat) (dirty : Dirty) : Dirty :=
  dirty.eraseAll (dirty.keys.filter fun c => shardOf c == n)

def shardEntries (env : Env) (n : Nat) (s : Inner) : List (String × Entry) :=
  (env.indexOrder.iter s.index).filter fun ce => ce.2.i == s.inst.i32 && shardOf ce.1 == n

namespace Race

def step (r : Race) : RaceStep → Race
  | .hit env code =>
      match r.world.store.index.lookup code with
      | none => r
      | some e =>
          if Inner.live e (env.clock 0) && env.trackHits then
            { r with
              world := ⟨{ r.world.store with
                index := r.world.store.index.insert code
                  { e with h := e.h + 1, oh := e.oh + 1 } }, r.world.dir⟩
              counting := r.counting ++ [code]
              served := r.served ++ [code] }
          else r
  | .count k =>
      match r.counting[k]? with
      | none => r
      | some code =>
          { r with
            world := ⟨{ r.world.store with
              dirty := r.world.store.dirty.insert code
                ((r.world.store.dirty.lookup code).getD 0 + 1) }, r.world.dir⟩
            counting := r.counting.eraseIdx k }
  | .begin =>
      match r.phase with
      | .idle => { r with phase := .draining 0 [] }
      | _ => r
  | .drain env =>
      match r.phase, r.world.store.aof with
      | .draining n lines, some a =>
          if n < NUM_SHARDS then
            { r with
              world := ⟨{ r.world.store with
                dirty := clearShard n r.world.store.dirty }, r.world.dir⟩
              phase := .draining (n + 1)
                (lines ++ hitRecs r.world.store.inst (shardCounts env n r.world.store.dirty)) }
          else
            let flushed := (a.pushRaw (logBytes lines)).flush r.world.dir r.world.store.inst
            { r with
              world := ⟨{ r.world.store with aof := some flushed.1 }, flushed.2⟩
              phase := .reading 0 [] }
      | _, _ => r
  | .read env =>
      match r.phase with
      | .reading n rows =>
          if n < NUM_SHARDS then
            { r with
              phase := .reading (n + 1)
                (rows ++ (shardEntries env n r.world.store).map Inner.snapshotRow) }
          else r
      | _ => r
  | .finish =>
      match r.phase, r.world.store.aof with
      | .reading n rows, some a =>
          if n < NUM_SHARDS then r
          else
            let inst := r.world.store.inst
            let dir := (r.world.dir.write (.snapTmp inst) (logBytes rows)).rename
              (.snapTmp inst) (.snap inst)
            let truncated := a.truncate dir inst
            { r with
              world := ⟨{ r.world.store with aof := some truncated.1 }, truncated.2⟩
              phase := .idle }
      | _, _ => r

def run (r : Race) (schedule : List RaceStep) : Race :=
  schedule.foldl step r

/-- A shard is read only while none of its codes has a hit in the dirty map or
a resolve between its two steps. -/
def Quiet (r : Race) : RaceStep → Prop
  | .read _ =>
      match r.phase with
      | .reading n _ => (∀ c ∈ r.world.store.dirty.keys, shardOf c ≠ n) ∧
          ∀ c ∈ r.counting, shardOf c ≠ n
      | _ => True
  | _ => True

instance (r : Race) : ∀ step, Decidable (r.Quiet step)
  | .read _ =>
      match r with
      | ⟨w, counting, _, .reading n _⟩ =>
          inferInstanceAs (Decidable ((∀ c ∈ w.store.dirty.keys, shardOf c ≠ n) ∧
            ∀ c ∈ counting, shardOf c ≠ n))
      | ⟨_, _, _, .idle⟩ => isTrue trivial
      | ⟨_, _, _, .draining _ _⟩ => isTrue trivial
  | .hit _ _ | .count _ | .begin | .drain _ | .finish => isTrue trivial

def Finished (r : Race) : Prop :=
  r.counting = [] ∧ r.phase = .idle

instance (r : Race) : Decidable r.Finished :=
  inferInstanceAs (Decidable (r.counting = [] ∧ r.phase = .idle))

/-- Both steps of a resolve in a row are the call. -/
theorem hit_then_count (r : Race) {env : Env} {code : String} {e : Entry}
    (found : r.world.store.index.lookup code = some e)
    (live : Inner.live e (env.clock 0) = true) (counted : env.trackHits = true) :
    ((r.step (.hit env code)).step (.count r.counting.length)).world =
        ⟨(r.world.store.resolve env r.world.dir code).2, r.world.dir⟩ ∧
      ((r.step (.hit env code)).step (.count r.counting.length)).counting = r.counting := by
  simp [step, found, live, counted, Inner.resolve, Inner.bump, List.eraseIdx_append_of_length_le]

/-! ## What is already accounted for -/

/-- Hits of a code that are in its entry but in no record yet. -/
def pending (r : Race) (c : String) : Int64 :=
  (r.world.store.dirty.lookup c).getD 0 + Int64.ofNat (r.counting.count c)

/-- The row of a live code, and the hits that the records must account for. -/
def recorded (r : Race) (c : String) : Option (Row × Int64) :=
  (r.world.store.index.lookup c).map fun e => (e.row, e.h - r.pending c)

theorem recorded_hit (r : Race) (env : Env) (code c : String) :
    (r.step (.hit env code)).recorded c = r.recorded c := by
  simp only [step]
  cases found : r.world.store.index.lookup code with
  | none => rfl
  | some e =>
      simp only []
      split
      · simp only [recorded, pending, Map.lookup_insert_eq]
        by_cases same : c = code
        · subst same
          rw [if_pos rfl, found, List.count_append, List.count_singleton_self]
          simp only [Option.map_some, Option.some.injEq, Int64.ofNat_add, Prod.mk.injEq]
          refine ⟨rfl, ?_⟩
          grind
        · rw [if_neg same, List.count_append, List.count_singleton]
          simp [Ne.symm same]
      · rfl

theorem count_eraseIdx {l : List String} {k : Nat} {code : String}
    (due : l[k]? = some code) (c : String) :
    l.count c = (l.eraseIdx k).count c + if code = c then 1 else 0 := by
  obtain ⟨inside, here⟩ := List.getElem?_eq_some_iff.mp due
  conv_lhs => rw [← List.take_append_drop k l, ← List.getElem_cons_drop inside]
  rw [List.eraseIdx_eq_take_drop_succ, List.count_append, List.count_append,
    List.count_cons, here]
  simp [Nat.add_assoc]

theorem recorded_count (r : Race) (k : Nat) (c : String) :
    (r.step (.count k)).recorded c = r.recorded c := by
  simp only [step]
  cases due : r.counting[k]? with
  | none => rfl
  | some code =>
      simp only [recorded, pending, Map.lookup_insert_eq, count_eraseIdx due]
      by_cases same : c = code
      · subst same
        simp only [if_true, Option.getD_some, Int64.ofNat_add]
        cases r.world.store.index.lookup c with
        | none => rfl
        | some e =>
            simp only [Option.map_some, Option.some.injEq, Prod.mk.injEq, true_and]
            grind
      · rw [if_neg same, if_neg (Ne.symm same)]
        rfl

/-! ## The invariant of a race -/

/-- The records account for the recorded hits of every live code. -/
def Accounted (r : Race) (recs : List Rec) : Prop :=
  ∀ c row h, r.recorded c = some (row, h) → Track.run c .gone recs = .live h

/-- What a running `compact` has gathered so far: while it drains, hits that
complete the records; while it reads, the recorded rows of the shards done. -/
def Gathered (r : Race) (recs : List Rec) : Phase → Prop
  | .idle => r.Accounted recs
  | .draining _ lines =>
      ∃ counts, lines = hitRecs r.world.store.inst counts ∧ (∀ kd ∈ counts, Plain kd.1) ∧
        r.Accounted (recs ++ lines)
  | .reading n rows =>
      ∃ l : List (String × Entry), rows = l.map Inner.snapshotRow ∧
        (l.map Prod.fst).Nodup ∧
        (∀ ce ∈ l, Plain ce.1 ∧ ce.2.i = r.world.store.inst.i32 ∧ shardOf ce.1 < n) ∧
        ∀ c, shardOf c < n →
          (l.find? fun ce => ce.1 = c).map (fun ce => (ce.2.row, ce.2.oh)) = r.recorded c

/-- The records of the store, and what the race did with them. -/
structure Consistent (r : Race) (snap log buf : List Rec) : Prop where
  sole : Sole r.world [] snap log buf
  sound : (r.world.journal (snap ++ log ++ buf)).Sound r.world.store.inst
  plain : ∀ c ∈ r.counting, Plain c
  gathered : r.Gathered (snap ++ log ++ buf) r.phase

/-- Steps that leave the recorded hits alone keep what is gathered. -/
theorem Gathered.same {r r' : Race} {recs : List Rec} {phase : Phase}
    (gathered : r.Gathered recs phase) (inst : r'.world.store.inst = r.world.store.inst)
    (recorded : ∀ c, r'.recorded c = r.recorded c) : r'.Gathered recs phase := by
  cases phase with
  | idle =>
      intro c row h known
      exact gathered c row h ((recorded c).symm.trans known)
  | draining n lines =>
      obtain ⟨counts, drained, plain, accounted⟩ := gathered
      refine ⟨counts, ?_, plain, ?_⟩
      · rw [inst, drained]
      · intro c row h known
        exact accounted c row h ((recorded c).symm.trans known)
  | reading n rows =>
      obtain ⟨l, written, distinct, mine, read⟩ := gathered
      refine ⟨l, written, distinct, ?_, ?_⟩
      · rw [inst]
        exact mine
      · intro c done
        rw [recorded c]
        exact read c done

/-! ## One lemma for each step -/

theorem Consistent.hit {r : Race} {snap log buf : List Rec}
    (consistent : r.Consistent snap log buf) (env : Env) (code : String) :
    (r.step (.hit env code)).Consistent snap log buf := by
  obtain ⟨sole, sound, plain, gathered⟩ := consistent
  have recorded := r.recorded_hit env code
  cases found : r.world.store.index.lookup code with
  | none =>
      simp only [step, found]
      exact ⟨sole, sound, plain, gathered⟩
  | some e =>
      simp only [step, found] at recorded ⊢
      split
      · rename_i counted
        rw [if_pos counted] at recorded
        refine ⟨⟨⟨sole.opened, sole.snapBytes, sole.logFile, sole.queue⟩,
          sole.alone, sole.unread⟩, sound.counted found, ?_, gathered.same rfl recorded⟩
        intro c member
        rcases List.mem_append.mp member with old | new
        · exact plain c old
        · cases List.mem_singleton.mp new
          exact (sound.mine code e found).1
      · exact ⟨sole, sound, plain, gathered⟩

theorem Consistent.count {r : Race} {snap log buf : List Rec}
    (consistent : r.Consistent snap log buf) (k : Nat) :
    (r.step (.count k)).Consistent snap log buf := by
  obtain ⟨sole, sound, plain, gathered⟩ := consistent
  have recorded := r.recorded_count k
  cases due : r.counting[k]? with
  | none =>
      simp only [step, due]
      exact ⟨sole, sound, plain, gathered⟩
  | some code =>
      simp only [step, due] at recorded ⊢
      exact ⟨⟨⟨sole.opened, sole.snapBytes, sole.logFile, sole.queue⟩,
          sole.alone, sole.unread⟩, sound.noted (plain code (List.mem_of_getElem? due)) _,
        fun c member => plain c (List.mem_of_mem_eraseIdx member),
        gathered.same rfl recorded⟩

theorem Consistent.begin {r : Race} {snap log buf : List Rec}
    (consistent : r.Consistent snap log buf) : (r.step .begin).Consistent snap log buf := by
  obtain ⟨world, counting, served, phase⟩ := r
  obtain ⟨sole, sound, plain, gathered⟩ := consistent
  cases phase with
  | idle =>
      refine ⟨sole, sound, plain, [], rfl, by simp, ?_⟩
      rw [List.append_nil]
      exact gathered
  | draining n lines => exact ⟨sole, sound, plain, gathered⟩
  | reading n rows => exact ⟨sole, sound, plain, gathered⟩

theorem lookup_clearShard (n : Nat) (dirty : Dirty) (c : String) :
    (clearShard n dirty).lookup c = if shardOf c = n then none else dirty.lookup c := by
  rw [clearShard, Map.lookup_eraseAll]
  by_cases here : shardOf c = n
  · rw [if_pos here]
    split
    · rfl
    · rename_i absent
      rw [AList.lookup_eq_none, AList.mem_keys]
      exact fun stored => absent (List.mem_filter.mpr ⟨stored, by simpa using here⟩)
  · simp [here]

/-- Draining a shard logs the counts of its codes. -/
theorem hitSum_shardCounts (env : Env) (inst : Inst) (n : Nat) (dirty : Dirty) (c : String) :
    hitSum c (hitRecs inst (shardCounts env n dirty)) =
      if shardOf c = n then (dirty.lookup c).getD 0 else 0 := by
  have found := env.dirtyOrder.find?_filter_iter dirty (fun k => shardOf k == n) c
  rw [shardCounts, hitSum_hitRecs inst (env.dirtyOrder.nodup_keys_filter dirty _), found]
  by_cases here : shardOf c = n
  · cases AList.lookup c dirty <;> simp [here]
  · simp [here]

theorem Consistent.drain {r : Race} {snap log buf : List Rec}
    (consistent : r.Consistent snap log buf) (env : Env) :
    ∃ log' buf', (r.step (.drain env)).Consistent snap log' buf' := by
  obtain ⟨⟨store, dir⟩, counting, served, phase⟩ := r
  obtain ⟨sole, sound, plain, gathered⟩ := consistent
  have queue : store.aof = some ⟨logBytes buf⟩ := sole.queue
  cases phase with
  | idle => exact ⟨log, buf, sole, sound, plain, gathered⟩
  | reading n rows => exact ⟨log, buf, sole, sound, plain, gathered⟩
  | draining n lines =>
      obtain ⟨counts, drained, plainCounts, accounted⟩ := gathered
      change lines = hitRecs store.inst counts at drained
      simp only [step, queue]
      split
      · refine ⟨log, buf, ⟨⟨sole.opened, sole.snapBytes, sole.logFile, rfl⟩, sole.alone,
          sole.unread⟩, ?_, plain, counts ++ shardCounts env n store.dirty, ?_, ?_, ?_⟩
        · have dirtyPlain : ∀ c d, (clearShard n store.dirty).lookup c = some d → Plain c := by
            intro c d kept
            rw [lookup_clearShard] at kept
            split at kept
            · cases kept
            · exact sound.dirtyPlain c d kept
          have cleared : Journal.Sound store.inst ⟨store.index, clearShard n store.dirty,
              snap ++ log ++ buf ++ hitRecs store.inst []⟩ :=
            sound.logged (by simp) dirtyPlain
          simpa [hitRecs, World.journal] using cleared
        · rw [drained, hitRecs, hitRecs, hitRecs, List.map_append]
        · intro kd member
          rcases List.mem_append.mp member with old | new
          · exact plainCounts kd old
          · exact sound.dirtyPlain kd.1 kd.2
              (env.dirtyOrder.mem_iter_iff.mp (List.mem_of_mem_filter new))
        · intro c row h known
          obtain ⟨e, found, same⟩ := Option.map_eq_some_iff.mp known
          have before := accounted c e.row _ (by rw [recorded, found]; rfl)
          rw [← List.append_assoc, Track.run_append, before,
            Track.run_hits (onlyHits_hitRecs store.inst _ c), hitSum_shardCounts]
          cases same
          congr 1
          simp only [pending, lookup_clearShard]
          split
          · simp only [Option.getD_none]
            grind
          · rw [Int64.add_zero]
      · have pushed : Aof.pushRaw ⟨logBytes buf⟩ (logBytes lines) =
            ⟨logBytes (buf ++ lines)⟩ := by
          rw [Aof.pushRaw, logBytes_append]
        rw [pushed]
        have written := (sole.toHolds.pushed lines).flushed.sole sole
          (frame_flush store dir _ _ rfl rfl)
        refine ⟨log ++ (buf ++ lines), [], written, ?_, plain, [], rfl, by simp, by simp, by simp⟩
        have logged := sound.logged plainCounts sound.dirtyPlain
        rw [← drained] at logged
        simpa [World.journal] using logged

/-- A quiet shard has nothing pending: its entries carry the recorded hits. -/
theorem recorded_quiet {r : Race} {inst : Inst}
    (mine : ∀ c ent, r.world.store.index.lookup c = some ent → Plain c ∧ ent.Mine inst)
    {c : String} (clean : c ∉ r.world.store.dirty.keys) (still : c ∉ r.counting) :
    (r.world.store.index.lookup c).map (fun e => (e.row, e.oh)) = r.recorded c := by
  have unlogged : r.world.store.dirty.lookup c = none :=
    AList.lookup_eq_none.mpr fun stored => clean (AList.mem_keys.mp stored)
  cases found : r.world.store.index.lookup c with
  | none => simp [recorded, found]
  | some e =>
      simp [recorded, found, pending, unlogged, List.count_eq_zero.mpr still,
        (mine c e found).2.hits]

theorem Consistent.read {r : Race} {snap log buf : List Rec}
    (consistent : r.Consistent snap log buf) (env : Env) (quiet : r.Quiet (.read env)) :
    (r.step (.read env)).Consistent snap log buf := by
  obtain ⟨⟨store, dir⟩, counting, served, phase⟩ := r
  obtain ⟨sole, sound, plain, gathered⟩ := consistent
  cases phase with
  | idle => exact ⟨sole, sound, plain, gathered⟩
  | draining n lines => exact ⟨sole, sound, plain, gathered⟩
  | reading n rows =>
      obtain ⟨clean, still⟩ := quiet
      obtain ⟨l, written, distinct, mine, read⟩ := gathered
      have entries : shardEntries env n store =
          (env.indexOrder.iter store.index).filter fun ce => shardOf ce.1 == n := by
        refine List.filter_congr ?_
        rintro ⟨c, e⟩ stored
        simp [(sound.mine c e (env.indexOrder.mem_iter_iff.mp stored)).2.owner]
      simp only [step]
      split
      · refine ⟨sole, sound, plain, l ++ shardEntries env n store, ?_, ?_, ?_, ?_⟩
        · rw [written, List.map_append]
        · rw [List.map_append, entries]
          refine distinct.append (env.indexOrder.nodup_keys_filter _ _) ?_
          intro c old new
          obtain ⟨ce, listed, rfl⟩ := List.mem_map.mp old
          obtain ⟨ce', visited, same⟩ := List.mem_map.mp new
          have here : shardOf ce'.1 = n := by
            simpa using (List.mem_filter.mp visited).2
          have below := (mine ce listed).2.2
          rw [← same, here] at below
          exact lt_irrefl n below
        · intro ce member
          rcases List.mem_append.mp member with old | new
          · obtain ⟨plainCode, owner, below⟩ := mine ce old
            exact ⟨plainCode, owner, Nat.lt_succ_of_lt below⟩
          · rw [entries] at new
            obtain ⟨visited, here⟩ := List.mem_filter.mp new
            obtain ⟨plainCode, owned⟩ :=
              sound.mine ce.1 ce.2 (env.indexOrder.mem_iter_iff.mp visited)
            have here : shardOf ce.1 = n := by simpa using here
            exact ⟨plainCode, owned.owner, here ▸ Nat.lt_succ_self _⟩
        · intro c done
          have found := env.indexOrder.find?_filter_iter store.index
            (fun k => shardOf k == n) c
          rw [← entries] at found
          rw [List.find?_append, found]
          rcases Nat.lt_succ_iff_lt_or_eq.mp done with below | here
          · refine Eq.trans ?_ (read c below)
            simp [Nat.ne_of_lt below]
          · have missing : (l.find? fun ce => ce.1 = c) = none := by
              apply find?_key_eq_none
              intro member
              obtain ⟨ce, listed, rfl⟩ := List.mem_map.mp member
              have below := (mine ce listed).2.2
              rw [here] at below
              exact lt_irrefl n below
            rw [missing, Option.none_or]
            refine Eq.trans ?_ (recorded_quiet sound.mine
              (fun stored => clean c stored here) (fun member => still c member here))
            simp [here, Function.comp_def]
      · exact ⟨sole, sound, plain, l, written, distinct, mine, read⟩

theorem Consistent.finish {r : Race} {snap log buf : List Rec}
    (consistent : r.Consistent snap log buf) :
    ∃ snap' log' buf', (r.step .finish).Consistent snap' log' buf' := by
  obtain ⟨⟨store, dir⟩, counting, served, phase⟩ := r
  obtain ⟨sole, sound, plain, gathered⟩ := consistent
  have queue : store.aof = some ⟨logBytes buf⟩ := sole.queue
  cases phase with
  | idle => exact ⟨snap, log, buf, sole, sound, plain, gathered⟩
  | draining n lines => exact ⟨snap, log, buf, sole, sound, plain, gathered⟩
  | reading n rows =>
      simp only [step, queue]
      split
      · exact ⟨snap, log, buf, ⟨⟨sole.opened, sole.snapBytes, sole.logFile, queue⟩, sole.alone,
          sole.unread⟩, sound, plain, gathered⟩
      · rename_i complete
        obtain ⟨l, rfl, distinct, mine, read⟩ := gathered
        have read : ∀ c, (l.find? fun ce => ce.1 = c).map (fun ce => (ce.2.row, ce.2.oh)) =
            Race.recorded ⟨⟨store, dir⟩, counting, served, .idle⟩ c :=
          fun c => read c (lt_of_lt_of_le (shardOf_lt c) (not_lt.mp complete))
        have emptied : Sole ⟨{ store with aof := some ⟨[]⟩ }, dir⟩ [] snap log [] :=
          ⟨⟨sole.opened, sole.snapBytes, sole.logFile, rfl⟩, sole.alone, sole.unread⟩
        rw [Aof.truncate_eq]
        refine ⟨_, _, _, emptied.snapshot (l.map Inner.snapshotRow), ?_, plain, ?_⟩
        · rw [List.append_nil, List.append_nil]
          refine sound.saved (fun ce listed => ⟨(mine ce listed).1, (mine ce listed).2.1⟩)
            distinct fun c => ?_
          have rows := congrArg (Option.map Prod.fst) (read c)
          rw [Option.map_map] at rows
          refine rows.trans ?_
          rw [recorded, Option.map_map]
          rfl
        · intro c row h known
          rw [List.append_nil, List.append_nil, Track.run_snapshot distinct]
          have saved := (read c).trans known
          obtain ⟨ce, listed, same⟩ := Option.map_eq_some_iff.mp saved
          rw [listed]
          cases same
          rfl

/-! ## Whole schedules -/

def Accountable (r : Race) : Prop :=
  ∃ snap log buf, r.Consistent snap log buf

theorem Accountable.step {r : Race} (accountable : r.Accountable) {step : RaceStep}
    (quiet : r.Quiet step) : (r.step step).Accountable := by
  obtain ⟨snap, log, buf, consistent⟩ := accountable
  cases step with
  | hit env code => exact ⟨_, _, _, consistent.hit env code⟩
  | count k => exact ⟨_, _, _, consistent.count k⟩
  | begin => exact ⟨_, _, _, consistent.begin⟩
  | drain env => exact ⟨_, consistent.drain env⟩
  | read env => exact ⟨_, _, _, consistent.read env quiet⟩
  | finish => exact consistent.finish

/-- The store before any of the resolves began. -/
def start (w : World) : Race := ⟨w, [], [], .idle⟩

theorem accountable_start {w : World} (settled : HitsSettled w) : (start w).Accountable := by
  obtain ⟨snap, log, buf, sole, sound, agree⟩ := settled
  refine ⟨snap, log, buf, sole, sound, by simp [start], ?_⟩
  intro c row h known
  obtain ⟨e, found, same⟩ := Option.map_eq_some_iff.mp known
  cases same
  have tracked := agree c e found
  simpa [World.journal, start, pending] using tracked

/-- Between compactions and with no resolve under way, the records account for
all hits. -/
theorem Consistent.settled {r : Race} {snap log buf : List Rec}
    (consistent : r.Consistent snap log buf) (finished : r.Finished) :
    HitsSettled r.world := by
  obtain ⟨sole, sound, -, gathered⟩ := consistent
  obtain ⟨returned, idle⟩ := finished
  rw [idle] at gathered
  refine ⟨snap, log, buf, sole, sound, ?_⟩
  intro c e found
  have known : r.recorded c = some (e.row, e.h - (r.world.store.dirty.lookup c).getD 0) := by
    have index : r.world.store.index.lookup c = some e := found
    simp [recorded, index, pending, returned]
  exact gathered c _ _ known

/-- Only the first step of a resolve changes entries. -/
theorem index_step (r : Race) (step : RaceStep) :
    ((r.step step).world.store.index = r.world.store.index ∧
      (r.step step).served = r.served) ∨
    ∃ code e, r.world.store.index.lookup code = some e ∧
      (r.step step).world.store.index =
        r.world.store.index.insert code { e with h := e.h + 1, oh := e.oh + 1 } ∧
      (r.step step).served = r.served ++ [code] := by
  cases step with
  | hit env code =>
      simp only [Race.step]
      cases found : r.world.store.index.lookup code with
      | none => exact Or.inl ⟨rfl, rfl⟩
      | some e =>
          simp only []
          split
          · exact Or.inr ⟨code, e, found, rfl, rfl⟩
          · exact Or.inl ⟨rfl, rfl⟩
  | count k =>
      simp only [Race.step]
      split
      · exact Or.inl ⟨rfl, rfl⟩
      · exact Or.inl ⟨rfl, rfl⟩
  | begin =>
      simp only [Race.step]
      split
      · exact Or.inl ⟨rfl, rfl⟩
      · exact Or.inl ⟨rfl, rfl⟩
  | drain env =>
      simp only [Race.step]
      split
      · split
        · exact Or.inl ⟨rfl, rfl⟩
        · exact Or.inl ⟨rfl, rfl⟩
      · exact Or.inl ⟨rfl, rfl⟩
  | read env =>
      simp only [Race.step]
      split
      · split
        · exact Or.inl ⟨rfl, rfl⟩
        · exact Or.inl ⟨rfl, rfl⟩
      · exact Or.inl ⟨rfl, rfl⟩
  | finish =>
      simp only [Race.step]
      split
      · split
        · exact Or.inl ⟨rfl, rfl⟩
        · exact Or.inl ⟨rfl, rfl⟩
      · exact Or.inl ⟨rfl, rfl⟩

/-- In memory every successful resolve since the start is counted once. -/
def Counted (before : Option Int64) (c : String) (r : Race) : Prop :=
  r.world.store.hits c = before.map (· + Int64.ofNat (r.served.count c))

/-- Whatever `compact` does. -/
theorem Counted.step {before : Option Int64} {c : String} {r : Race}
    (counted : Counted before c r) (step : RaceStep) : Counted before c (r.step step) := by
  unfold Counted at counted ⊢
  rw [Inner.hits_eq] at counted ⊢
  rcases r.index_step step with ⟨index, served⟩ | ⟨code, e, found, index, served⟩
  · rw [index, served]
    exact counted
  · rw [index, served, Map.lookup_insert_eq, List.count_append]
    split
    · rename_i same
      subst same
      rw [found] at counted
      cases before with
      | none => cases counted
      | some h =>
          simp only [Option.map_some, Option.some.injEq] at counted ⊢
          rw [counted, List.count_singleton_self, Int64.ofNat_add, ← Int64.add_assoc]
          rfl
    · rename_i other
      rw [counted]
      simp [Ne.symm other]

theorem counted_run (w : World) (schedule : List RaceStep) (c : String) :
    Counted (w.store.hits c) c ((start w).run schedule) :=
  Runs.invariant (fun _ step counted => counted.step step) (by simp [Counted, start]) schedule

theorem settled_of_quiet {w : World} (settled : HitsSettled w) {schedule : List RaceStep}
    (quiet : Along step Quiet (start w) schedule)
    (finished : ((start w).run schedule).Finished) :
    HitsSettled ((start w).run schedule).world := by
  have accountable : ((start w).run schedule).Accountable :=
    quiet.invariant (fun _ _ accountable quiet => accountable.step quiet)
      (accountable_start settled)
  obtain ⟨snap, log, buf, consistent⟩ := accountable
  exact consistent.settled finished

end Race

/-- Resolves racing with `compact` are all counted once as long as no shard is
read with a hit of its own still to be logged. -/
theorem race_counts_each_hit (env closing opening : Env) (inst : Inst)
    (history : List (Env × Call))
    (careful : Along World.step World.KeepsHits (World.fresh env inst) history)
    (schedule : List RaceStep)
    (quiet : Along Race.step Race.Quiet
      (Race.start ((World.fresh env inst).run history)) schedule)
    (finished : ((Race.start ((World.fresh env inst).run history)).run schedule).Finished)
    (c : String) :
    ((((Race.start ((World.fresh env inst).run history)).run schedule).world.close
        closing).reopen opening).store.hits c =
      (((World.fresh env inst).run history).store.hits c).map
        (· + Int64.ofNat
          (((Race.start ((World.fresh env inst).run history)).run schedule).served.count c)) := by
  have settled := Race.settled_of_quiet (hitsSettled_run careful) quiet finished
  rw [Inner.hits_eq, settled.lookup_reopen closing opening c, ← Inner.hits_eq]
  exact Race.counted_run _ schedule c

/-- A `compact` in full, with other steps after the drains and after the first
reads. -/
def compactAround (drained : List RaceStep) (firstReads : Nat) (read : List RaceStep) :
    List RaceStep :=
  .begin :: List.replicate (NUM_SHARDS + 1) (.drain (.at 2 [])) ++ drained ++
    List.replicate firstReads (.read (.at 3 [])) ++ read ++
    List.replicate (NUM_SHARDS - firstReads) (.read (.at 3 [])) ++ [.finish]

def linkedBefore : List (Env × Call) :=
  [(.at 1 [], .shorten "https://a" (some promo) 0)]

/-- One resolve before the compaction and one while it reads later shards. -/
def quietSchedule : List RaceStep :=
  [.hit (.at 2 []) "promo", .count 0] ++
    compactAround [] (shardOf "promo" + 1) [.hit (.at 3 []) "promo"] ++ [.count 0]

theorem race_counts_quiet_schedule :
    Along Race.step Race.Quiet
      (Race.start ((World.fresh (.at 0 []) 0).run linkedBefore)) quietSchedule ∧
    ((((Race.start ((World.fresh (.at 0 []) 0).run linkedBefore)).run quietSchedule).world.close
      (.at 4 [])).reopen (.at 5 [])).store.hits "promo" = some 2 := by
  have careful : Along World.step World.KeepsHits (World.fresh (.at 0 []) 0) linkedBefore := by
    decide +kernel
  have quiet : Along Race.step Race.Quiet
      (Race.start ((World.fresh (.at 0 []) 0).run linkedBefore)) quietSchedule := by
    decide +kernel
  have finished :
      ((Race.start ((World.fresh (.at 0 []) 0).run linkedBefore)).run quietSchedule).Finished := by
    decide +kernel
  refine ⟨quiet, ?_⟩
  rw [race_counts_each_hit (.at 0 []) (.at 4 []) (.at 5 []) 0 linkedBefore careful quietSchedule
    quiet finished "promo"]
  decide +kernel

/-- One resolve between the drains and the reads. -/
def loudSchedule : List RaceStep :=
  compactAround [.hit (.at 3 []) "promo", .count 0] 0 []

/-- A hit counted after its shard was drained and before it is read is in the
snapshot and in the next flush. -/
theorem race_doubles_hit :
    ¬ ∀ (env closing opening : Env) (inst : Inst) (history : List (Env × Call)),
      Along World.step World.KeepsHits (World.fresh env inst) history →
      ∀ schedule : List RaceStep,
      ((Race.start ((World.fresh env inst).run history)).run schedule).Finished →
      ∀ c : String,
      ((((Race.start ((World.fresh env inst).run history)).run schedule).world.close
          closing).reopen opening).store.hits c =
        (((World.fresh env inst).run history).store.hits c).map
          (· + Int64.ofNat
            (((Race.start ((World.fresh env inst).run history)).run
              schedule).served.count c)) := by
  intro once
  have same := once (.at 0 []) (.at 4 []) (.at 5 []) 0 linkedBefore (by decide +kernel)
    loudSchedule (by decide +kernel) "promo"
  revert same
  decide +kernel

end Shrt.Store
