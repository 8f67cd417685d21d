import Mathlib.Data.List.Basic
import Shrt.Lib.Sharded
import Shrt.Store.History

/-!
# The shards of the index

The source keeps the links and the dirty counts of a store in 256 shards, and a code
belongs to the shard of its hash.  The engine has one map of each kind instead, and
leaves it open in which order they are visited.  Here the calls are those of the
source, shard by shard, and a run of them is a run of the engine.
-/

namespace Shrt.Store

open Shrt.Codec Shrt.Lib Shrt.Lib.Utf8

structure Shard where
  data : Index
  dirty : Dirty

abbrev Shards := Nat → Shard

/-- The orders in which the maps of the shards are visited. -/
structure ShardOrders where
  data : Nat → IterOrder String Entry
  dirty : Nat → IterOrder String Int64

namespace Shards

def empty : Shards := fun _ => ⟨∅, ∅⟩

def get (shards : Shards) (code : String) : Option Entry :=
  (shards (shardOf code)).data.lookup code

def containsKey (shards : Shards) (code : String) : Bool :=
  code ∈ (shards (shardOf code)).data

def insert (shards : Shards) (code : String) (e : Entry) : Shards :=
  Function.update shards (shardOf code)
    { shards (shardOf code) with data := (shards (shardOf code)).data.insert code e }

def remove (shards : Shards) (code : String) : Shards :=
  Function.update shards (shardOf code)
    { shards (shardOf code) with data := (shards (shardOf code)).data.erase code }

def count (shards : Shards) (code : String) : Shards :=
  let sh := shards (shardOf code)
  Function.update shards (shardOf code)
    { sh with dirty := sh.dirty.insert code ((sh.dirty.lookup code).getD 0 + 1) }

def clear (shards : Shards) : Shards := fun n => ⟨(shards n).data, ∅⟩

end Shards

structure Sharded where
  inst : Inst
  shards : Shards
  readers : Map Inst TailReader
  stray : StrayMap
  lastPoll : Int64
  aof : Option Aof
  lockPath : Bool
  stop : Bool
  closed : Bool
  threads : List Worker

structure ShardView where
  shards : Shards
  stray : StrayMap

namespace ShardView

def empty : ShardView := ⟨.empty, ∅⟩

def apply (env : Env) (inst : Inst) (v : ShardView) (o : Op) : ShardView :=
  if o.x ≠ "" then ⟨v.shards.remove o.x, v.stray.erase o.x⟩
  else if o.h ≠ "" then
    let own := inst.i64 == o.i
    match v.shards.get o.h with
    | some e =>
        ⟨v.shards.insert o.h
          { e with h := e.h + o.d, oh := if own then e.oh + o.d else e.oh }, v.stray⟩
    | none =>
        let stray := evict env v.stray
        let st := (stray.lookup o.h).getD ⟨0, 0⟩
        ⟨v.shards, stray.insert o.h ⟨st.t + o.d, if own then st.o + o.d else st.o⟩⟩
  else if o.c = "" then v
  else
    let st := (v.stray.lookup o.c).getD ⟨0, 0⟩
    ⟨v.shards.insert o.c
      { u := o.u, a := o.a, e := if o.hasE then o.e else 0, i := o.i.toInt32,
        h := o.n + st.t, oh := o.n + st.o }, v.stray.erase o.c⟩

def applyLine (env : Env) (inst : Inst) (v : ShardView) (line : Bytes) : ShardView :=
  match parseOp line with
  | some o => v.apply env inst o
  | none => v

def replayInto (env : Env) (inst : Inst) (dir : Dir) (f : FileName) (v : ShardView) : ShardView :=
  (replayFile dir f).foldl (applyLine env inst) v

def loadAll (env : Env) (inst : Inst) (dir : Dir) : ShardView × Map Inst TailReader :=
  let v := replayInto env inst dir (.snap inst) .empty
  let v := replayInto env inst dir (.log inst) v
  (shardFiles dir inst).foldl
    (fun acc f =>
      (replayInto env inst dir (.snap f) acc.1, acc.2.insert f TailReader.fromStart))
    (v, ∅)

def readSibling (env : Env) (inst : Inst) (dir : Dir) (f : Inst) (v : ShardView)
    (r : TailReader) : ShardView × TailReader :=
  let got := r.readNew dir (.log f) (env.short f)
  (got.2.foldl (applyLine env inst) v, got.1)

/-- Read one of the siblings that a poll goes through. -/
def pull (env : Env) (inst : Inst) (dir : Dir) (acc : ShardView × Map Inst TailReader)
    (fr : Inst × TailReader) : ShardView × Map Inst TailReader :=
  let got := acc.1.readSibling env inst dir fr.1 fr.2
  (got.1, acc.2.insert fr.1 got.2)

end ShardView

namespace Sharded

/-- `LocalStore::new` on a directory with a given instance id. -/
def new (env : Env) (dir : Dir) (inst : Inst) (locked : Bool) : Sharded × Dir :=
  let dir := dir.write (.log inst) (dir.read (.log inst))
  let loaded := ShardView.loadAll env inst dir
  ({ inst := inst
     shards := loaded.1.shards
     readers := loaded.2
     stray := loaded.1.stray
     lastPoll := 0
     aof := some ⟨[]⟩
     lockPath := locked
     stop := false
     closed := false
     threads := [.flush, .fsync] }, dir)

def view (z : Sharded) : ShardView :=
  ⟨z.shards, z.stray⟩

def pollLocked (env : Env) (z : Sharded) (dir : Dir) : Sharded :=
  let readers := (shardFiles dir z.inst).foldl
    (fun m f => if f ∈ m then m else m.insert f TailReader.fromStart) z.readers
  let pulled := (env.readerOrder.iter readers).foldl (ShardView.pull env z.inst dir)
    (z.view, readers)
  { z with
    shards := pulled.1.shards
    stray := pulled.1.stray
    readers := pulled.2
    lastPoll := env.clock 2 }

def pollTails (env : Env) (z : Sharded) (dir : Dir) : Sharded :=
  match z.aof with
  | none => z
  | some _ => z.pollLocked env dir

def tailMissed (env : Env) (z : Sharded) (dir : Dir) (code : String) : Sharded :=
  match encode code, z.aof with
  | first :: _, some _ =>
      match (alphaIdx first).filter (· ≠ z.inst) with
      | some owner =>
          let r := (z.readers.lookup owner).getD TailReader.fromStart
          let got := z.view.readSibling env z.inst dir owner r
          { z with
            shards := got.1.shards
            stray := got.1.stray
            readers := z.readers.insert owner got.2
            lastPoll := env.clock 2 }
      | none =>
          if env.clock 1 - z.lastPoll ≥ TAIL_MIN_INTERVAL then z.pollLocked env dir else z
  | _, _ => z

/-- The draws until a code is in no shard. -/
def freshCode (inst : Inst) (shards : Shards) : List Suffix → Option (String × List Suffix)
  | [] => none
  | buf :: rng =>
      let c := genCode inst buf
      if shards.containsKey c then freshCode inst shards rng else some (c, rng)

def newEntry (z : Sharded) (url : String) (now exp : Int64) : Entry :=
  { u := url, a := now, e := exp, i := z.inst.i32, h := 0, oh := 0 }

def logRaw (z : Sharded) (dir : Dir) (bytes : Bytes) : Sharded × Dir :=
  match z.aof with
  | none => (z, dir)
  | some a =>
      let a := a.pushRaw bytes
      if a.pendingBytes > FLUSH_BYTES then
        let flushed := a.flush dir z.inst
        ({ z with aof := some flushed.1 }, flushed.2)
      else ({ z with aof := some a }, dir)

def logPush (z : Sharded) (line : Bytes) : Sharded :=
  { z with aof := z.aof.map fun a => a.push line }

def create (z : Sharded) (dir : Dir) (code url : String) (now exp : Int64) : Sharded × Dir :=
  let z := { z with shards := z.shards.insert code (z.newEntry url now exp) }
  z.logRaw dir (rowLine code url now exp z.inst.i64 0 ++ [NL])

def shorten (env : Env) (z : Sharded) (dir : Dir) (url : String) (aliasCode : Option String)
    (ttl : Int64) : Option (Option String × Sharded × Dir) :=
  let now := env.clock 0
  let exp := Inner.expiry now ttl
  match aliasCode with
  | some code =>
      if z.shards.containsKey code then some (none, z, dir)
      else some (some code, z.create dir code url now exp)
  | none =>
      (freshCode z.inst z.shards env.rng).map fun fresh =>
        (some fresh.1, z.create dir fresh.1 url now exp)

def bulk (inst : Inst) (now exp : Int64) (entry : String → Entry) :
    List (String × Suffix) → List Suffix → Shards → Bytes → List String →
      Option (Shards × Bytes × List String)
  | [], _, shards, rows, codes => some (shards, rows, codes)
  | (url, buf) :: rest, retries, shards, rows, codes =>
      (freshCode inst shards (buf :: retries)).bind fun fresh =>
        bulk inst now exp entry rest fresh.2 (shards.insert fresh.1 (entry url))
          (rowLineInto rows fresh.1 url now exp inst.i64 0 ++ [NL]) (codes ++ [fresh.1])

def shortenMany (env : Env) (z : Sharded) (dir : Dir) (urls : List String) (ttl : Int64) :
    Option (List String × Sharded × Dir) :=
  let now := env.clock 0
  let exp := Inner.expiry now ttl
  if env.rng.length < urls.length then none
  else
    (bulk z.inst now exp (fun url => z.newEntry url now exp)
      (urls.zip env.rng) (env.rng.drop urls.length) z.shards [] []).map fun done =>
        (done.2.2, { z with shards := done.1 }.logRaw dir done.2.1)

def bump (env : Env) (z : Sharded) (code : String) (e : Entry) : Sharded :=
  if env.trackHits then
    { z with shards := (z.shards.insert code { e with h := e.h + 1, oh := e.oh + 1 }).count code }
  else z

def resolve (env : Env) (z : Sharded) (dir : Dir) (code : String) : Option String × Sharded :=
  match z.shards.get code with
  | some e => if Inner.live e (env.clock 0) then (some e.u, z.bump env code e) else (none, z)
  | none =>
      match z.aof with
      | none => (none, z)
      | some _ =>
          let z := z.tailMissed env dir code
          match z.shards.get code with
          | some e =>
              if Inner.live e (env.clock 3) then (some e.u, z.bump env code e) else (none, z)
          | none => (none, z)

def update (env : Env) (z : Sharded) (code url : String) (ttl : Int64) (hasTtl : Bool) :
    MutResult × Sharded :=
  match z.shards.get code with
  | none => (.missing, z)
  | some e =>
      if e.i ≠ z.inst.i32 then (.remote, z)
      else
        let exp := if hasTtl then Inner.expiry (env.clock 0) ttl else e.e
        let z := { z with shards := z.shards.insert code { e with u := url, e := exp } }
        (.ok, z.logPush (rowLine code url e.a exp z.inst.i64 0))

def remove (z : Sharded) (code : String) : MutResult × Sharded :=
  match z.shards.get code with
  | none => (.missing, z)
  | some e =>
      if e.i ≠ z.inst.i32 then (.remote, z)
      else (.ok, { z with shards := z.shards.remove code }.logPush (delLine code))

def stats (z : Sharded) (code : String) : Option Link :=
  (z.shards.get code).map fun (e : Entry) =>
    { code := code, url := e.u, hits := e.h, createdAt := e.a,
      expiresAt := if e.e = 0 then none else some e.e }

def list (ord : ShardOrders) (z : Sharded) (limit offset : Nat) (byHits : Bool) (q : String) :
    List Link × Nat :=
  let items := (List.range NUM_SHARDS).flatMap fun n =>
    ((ord.data n).iter (z.shards n).data).filterMap fun ce =>
      if q ≠ "" && !contains ce.1 q && !contains ce.2.u q then none else some (ce.2.link ce.1)
  let sorted := items.mergeSort fun a b =>
    if byHits then b.hits ≤ a.hits else b.createdAt ≤ a.createdAt
  ((sorted.drop (min offset items.length)).take limit, items.length)

def isEmpty (z : Sharded) : Bool :=
  (List.range NUM_SHARDS).all fun n => (z.shards n).data.pairs.isEmpty

/-- The lines that drain the dirty maps, shard by shard. -/
def hitLines (ord : ShardOrders) (z : Sharded) : Bytes :=
  (List.range NUM_SHARDS).foldl
    (fun lines n =>
      ((ord.dirty n).iter (z.shards n).dirty).foldl
        (fun lines kd => hitLineInto lines kd.1 kd.2 z.inst.i64 ++ [NL]) lines) []

def flushLocked (ord : ShardOrders) (z : Sharded) (dir : Dir) : Sharded × Dir :=
  match z.aof with
  | none => (z, dir)
  | some a =>
      let flushed := (a.pushRaw (z.hitLines ord)).flush dir z.inst
      ({ z with shards := z.shards.clear, aof := some flushed.1 }, flushed.2)

def snapshotRows (ord : ShardOrders) (z : Sharded) : List Rec :=
  (List.range NUM_SHARDS).flatMap fun n =>
    (((ord.data n).iter (z.shards n).data).filter fun ce => ce.2.i == z.inst.i32).map
      Inner.snapshotRow

def compact (ord : ShardOrders) (z : Sharded) (dir : Dir) : Sharded × Dir :=
  match z.aof with
  | none => (z, dir)
  | some _ =>
      let flushed := z.flushLocked ord dir
      let z := flushed.1
      let dir := flushed.2.write (.snapTmp z.inst) (logBytes (z.snapshotRows ord))
      let dir := dir.rename (.snapTmp z.inst) (.snap z.inst)
      match z.aof with
      | none => (z, dir)
      | some a =>
          let truncated := a.truncate dir z.inst
          ({ z with aof := some truncated.1 }, truncated.2)

def close (ord : ShardOrders) (z : Sharded) (dir : Dir) : Sharded × Dir :=
  if z.closed then (z, dir)
  else
    let z := { z with closed := true, stop := true, threads := [] }
    let flushed := z.flushLocked ord dir
    let dir := if z.lockPath then flushed.2.remove (.lock z.inst) else flushed.2
    (flushed.1, dir)

end Sharded

/-! ## One map of each kind -/

def Env.reordered (env : Env) (index : IterOrder String Entry) (dirty : IterOrder String Int64) :
    Env :=
  { env with indexOrder := index, dirtyOrder := dirty }

/-- One map of each kind holds what the shards hold. -/
structure Flat (shards : Shards) (index : Index) (dirty : Dirty) : Prop where
  data : Spread shardOf (fun n => (shards n).data) index
  dirty : Spread shardOf (fun n => (shards n).dirty) dirty

namespace Flat

variable {shards : Shards} {index : Index} {dirty : Dirty}

theorem data_update (shards : Shards) (n : Nat) (sh : Shard) :
    (fun i => (Function.update shards n sh i).data) =
      Function.update (fun i => (shards i).data) n sh.data :=
  funext fun i => Function.apply_update (fun _ => Shard.data) shards n sh i

theorem dirty_update (shards : Shards) (n : Nat) (sh : Shard) :
    (fun i => (Function.update shards n sh i).dirty) =
      Function.update (fun i => (shards i).dirty) n sh.dirty :=
  funext fun i => Function.apply_update (fun _ => Shard.dirty) shards n sh i

theorem empty : Flat .empty ∅ ∅ :=
  ⟨Spread.empty, Spread.empty⟩

theorem get (flat : Flat shards index dirty) (code : String) :
    index.lookup code = shards.get code :=
  flat.data.same code

theorem containsKey_iff (flat : Flat shards index dirty) (code : String) :
    shards.containsKey code = true ↔ code ∈ index := by
  rw [Shards.containsKey, decide_eq_true_eq]
  exact (flat.data.mem_iff code).symm

theorem insert (flat : Flat shards index dirty) (code : String) (e : Entry) :
    Flat (shards.insert code e) (index.insert code e) dirty := by
  constructor
  · rw [Shards.insert, data_update]
    exact flat.data.insert code e
  · rw [Shards.insert, dirty_update, Function.update_eq_self]
    exact flat.dirty

theorem remove (flat : Flat shards index dirty) (code : String) :
    Flat (shards.remove code) (index.erase code) dirty := by
  constructor
  · rw [Shards.remove, data_update]
    exact flat.data.erase code
  · rw [Shards.remove, dirty_update, Function.update_eq_self]
    exact flat.dirty

theorem count (flat : Flat shards index dirty) (code : String) :
    Flat (shards.count code) index (dirty.insert code ((dirty.lookup code).getD 0 + 1)) := by
  constructor
  · rw [Shards.count, data_update, Function.update_eq_self]
    exact flat.data
  · rw [Shards.count, dirty_update, flat.dirty.same code]
    exact flat.dirty.insert code _

theorem clear (flat : Flat shards index dirty) : Flat shards.clear index ∅ :=
  ⟨flat.data, Spread.empty⟩

/-- Orders in which the flat maps are visited shard by shard. -/
theorem exists_orders (flat : Flat shards index dirty) (ord : ShardOrders) :
    ∃ (i : IterOrder String Entry) (d : IterOrder String Int64),
      i.iter index = visit ord.data NUM_SHARDS (fun n => (shards n).data) ∧
        d.iter dirty = visit ord.dirty NUM_SHARDS fun n => (shards n).dirty := by
  obtain ⟨i, rows⟩ := flat.data.exists_order ord.data shardOf_lt
  obtain ⟨d, counts⟩ := flat.dirty.exists_order ord.dirty shardOf_lt
  exact ⟨i, d, rows, counts⟩

end Flat

/-- The part of the engine that a log line changes. -/
structure ShardView.Sees (v : ShardView) (dirty : Dirty) (f : View) : Prop where
  stray : f.stray = v.stray
  flat : Flat v.shards f.index dirty

namespace ShardView

variable {v : ShardView} {dirty : Dirty} {f : View} {env : Env} {inst : Inst}
  {i : IterOrder String Entry} {d : IterOrder String Int64}

theorem Sees.apply (sees : v.Sees dirty f) (o : Op) :
    (v.apply env inst o).Sees dirty (Store.apply (env.reordered i d) inst f o) := by
  obtain ⟨index, stray⟩ := f
  obtain ⟨same, flat⟩ := sees
  dsimp only at same flat
  subst same
  rw [ShardView.apply, Store.apply]
  by_cases removes : o.x ≠ ""
  · rw [if_pos removes, if_pos removes]
    exact ⟨rfl, flat.remove o.x⟩
  · rw [if_neg removes, if_neg removes]
    by_cases counts : o.h ≠ ""
    · rw [if_pos counts, if_pos counts]
      dsimp only
      rw [flat.get]
      cases v.shards.get o.h with
      | some e => exact ⟨rfl, flat.insert o.h _⟩
      | none => exact ⟨rfl, flat⟩
    · rw [if_neg counts, if_neg counts]
      by_cases nothing : o.c = ""
      · rw [if_pos nothing, if_pos nothing]
        exact ⟨rfl, flat⟩
      · rw [if_neg nothing, if_neg nothing]
        exact ⟨rfl, flat.insert o.c _⟩

theorem Sees.applyLine (sees : v.Sees dirty f) (line : Bytes) :
    (v.applyLine env inst line).Sees dirty
      (Store.applyLine (env.reordered i d) inst f line) := by
  rw [ShardView.applyLine, Store.applyLine]
  cases parseOp line with
  | none => exact sees
  | some o => exact sees.apply o

theorem Sees.applyLines (sees : v.Sees dirty f) (lines : List Bytes) :
    (lines.foldl (ShardView.applyLine env inst) v).Sees dirty
      (lines.foldl (Store.applyLine (env.reordered i d) inst) f) :=
  List.foldl_rel (r := fun v f => Sees v dirty f) sees fun line _ _ _ sees => sees.applyLine line

theorem Sees.replayInto (sees : v.Sees dirty f) (dir : Dir) (file : FileName) :
    (v.replayInto env inst dir file).Sees dirty
      (Store.replayInto (env.reordered i d) inst dir file f) :=
  sees.applyLines _

theorem Sees.readSibling (sees : v.Sees dirty f) (dir : Dir) (file : Inst) (r : TailReader) :
    (v.readSibling env inst dir file r).1.Sees dirty
        (Store.readSibling (env.reordered i d) inst dir file f r).1 ∧
      (v.readSibling env inst dir file r).2 =
        (Store.readSibling (env.reordered i d) inst dir file f r).2 :=
  ⟨sees.applyLines _, rfl⟩

/-- The same with the readers. -/
def SeesAll (dirty : Dirty) (acc : ShardView × Map Inst TailReader)
    (acc' : View × Map Inst TailReader) : Prop :=
  acc.1.Sees dirty acc'.1 ∧ acc.2 = acc'.2

theorem SeesAll.pull {acc : ShardView × Map Inst TailReader} {acc' : View × Map Inst TailReader}
    (sees : SeesAll dirty acc acc') (env : Env) (inst : Inst) (i : IterOrder String Entry)
    (d : IterOrder String Int64) (dir : Dir) (fr : Inst × TailReader) :
    SeesAll dirty (ShardView.pull env inst dir acc fr)
      ((Store.readSibling (env.reordered i d) inst dir fr.1 acc'.1 fr.2).1,
        acc'.2.insert fr.1
          (Store.readSibling (env.reordered i d) inst dir fr.1 acc'.1 fr.2).2) := by
  obtain ⟨view, readers⟩ := sees
  refine ⟨(view.readSibling dir fr.1 fr.2).1, ?_⟩
  rw [← (view.readSibling dir fr.1 fr.2).2, ← readers]
  rfl

theorem sees_loadAll (env : Env) (inst : Inst) (i : IterOrder String Entry)
    (d : IterOrder String Int64) (dir : Dir) :
    SeesAll ∅ (loadAll env inst dir) (Store.loadAll (env.reordered i d) inst dir) := by
  have start : ShardView.empty.Sees ∅ View.empty := ⟨rfl, Flat.empty⟩
  have own : ((ShardView.empty.replayInto env inst dir (.snap inst)).replayInto env inst dir
      (.log inst)).Sees ∅ (Store.replayInto (env.reordered i d) inst dir (.log inst)
        (Store.replayInto (env.reordered i d) inst dir (.snap inst) .empty)) :=
    (start.replayInto dir _).replayInto dir _
  refine List.foldl_rel (r := SeesAll ∅) ⟨own, rfl⟩ fun file _ acc acc' sees => ?_
  exact ⟨sees.1.replayInto dir (.snap file), by rw [sees.2]⟩

end ShardView

namespace Sharded

/-- The engine with the maps in place of the shards. -/
def flat (z : Sharded) (index : Index) (dirty : Dirty) : Inner where
  inst := z.inst
  index := index
  dirty := dirty
  readers := z.readers
  stray := z.stray
  lastPoll := z.lastPoll
  aof := z.aof
  lockPath := z.lockPath
  stop := z.stop
  closed := z.closed
  threads := z.threads

/-- The states of the engine that the store is in. -/
inductive Models (z : Sharded) : Inner → Prop where
  | flat {index : Index} {dirty : Dirty} (rows : Flat z.shards index dirty) :
      Models z (z.flat index dirty)

variable {z : Sharded} {s : Inner} {env : Env} {i : IterOrder String Entry}
  {d : IterOrder String Int64}

theorem Models.of_fields (rows : Flat z.shards s.index s.dirty) (readers : s.readers = z.readers)
    (stray : s.stray = z.stray)
    (rest : s = { z.flat s.index s.dirty with readers := s.readers, stray := s.stray }) :
    z.Models s := by
  rw [readers, stray] at rest
  rw [rest]
  exact .flat rows

theorem models_new (env : Env) (i : IterOrder String Entry) (d : IterOrder String Int64)
    (dir : Dir) (inst : Inst) (locked : Bool) :
    (new env dir inst locked).1.Models (Inner.new (env.reordered i d) dir inst locked).1 ∧
      (new env dir inst locked).2 = (Inner.new (env.reordered i d) dir inst locked).2 := by
  obtain ⟨sees, readers⟩ := ShardView.sees_loadAll env inst i d
    (dir.write (.log inst) (dir.read (.log inst)))
  exact ⟨.of_fields sees.flat readers.symm sees.stray rfl, rfl⟩

theorem Models.pollLocked (models : z.Models s) (dir : Dir) :
    (z.pollLocked env dir).Models (s.pollLocked (env.reordered i d) dir) := by
  cases models with
  | @flat index dirty rows =>
      have start : ∀ readers, ShardView.SeesAll dirty (z.view, readers)
          ((z.flat index dirty).view, readers) := fun _ => ⟨⟨rfl, rows⟩, rfl⟩
      obtain ⟨sees, readers⟩ := List.foldl_rel (r := ShardView.SeesAll dirty) (start _)
        fun fr _ _ _ sees => sees.pull env z.inst i d dir fr
      exact .of_fields sees.flat readers.symm sees.stray rfl

theorem Models.tailMissed (models : z.Models s) (dir : Dir) (code : String) :
    (z.tailMissed env dir code).Models (s.tailMissed (env.reordered i d) dir code) := by
  cases models with
  | @flat index dirty rows =>
      rw [Sharded.tailMissed, Inner.tailMissed]
      cases encode code with
      | nil => exact .flat rows
      | cons first _ =>
          cases kept : z.aof with
          | none =>
              rw [show (z.flat index dirty).aof = none from kept]
              exact .flat rows
          | some a =>
              rw [show (z.flat index dirty).aof = some a from kept]
              dsimp only
              change Models _ (match (alphaIdx first).filter (· ≠ z.inst) with
                | some owner => _
                | none => _)
              cases (alphaIdx first).filter (· ≠ z.inst) with
              | some owner =>
                  have view : z.view.Sees dirty (z.flat index dirty).view := ⟨rfl, rows⟩
                  exact .of_fields (view.readSibling dir owner _).1.flat
                    (congrArg (z.readers.insert owner) (view.readSibling dir owner _).2.symm)
                    (view.readSibling dir owner _).1.stray rfl
              | none =>
                  change Models (if env.clock 1 - z.lastPoll ≥ TAIL_MIN_INTERVAL then _ else _)
                    (if env.clock 1 - z.lastPoll ≥ TAIL_MIN_INTERVAL then _ else _)
                  by_cases due : env.clock 1 - z.lastPoll ≥ TAIL_MIN_INTERVAL
                  · rw [if_pos due, if_pos due]
                    exact (Models.flat rows).pollLocked dir
                  · rw [if_neg due, if_neg due]
                    exact .flat rows

theorem Models.logRaw (models : z.Models s) (dir : Dir) (bytes : Bytes) :
    (z.logRaw dir bytes).1.Models (s.logRaw dir bytes).1 ∧
      (z.logRaw dir bytes).2 = (s.logRaw dir bytes).2 := by
  cases models with
  | @flat index dirty rows =>
      rw [Sharded.logRaw, Inner.logRaw]
      cases kept : z.aof with
      | none =>
          rw [show (z.flat index dirty).aof = none from kept]
          exact ⟨.flat rows, rfl⟩
      | some a =>
          rw [show (z.flat index dirty).aof = some a from kept]
          dsimp only
          split
          · exact ⟨.flat rows, rfl⟩
          · exact ⟨.flat rows, rfl⟩

theorem Models.logPush (models : z.Models s) (line : Bytes) :
    (z.logPush line).Models (s.logPush line) := by
  cases models with
  | flat rows => exact .flat rows

theorem Models.create (models : z.Models s) (dir : Dir) (code url : String) (now exp : Int64) :
    (z.create dir code url now exp).1.Models (s.create dir code url now exp).1 ∧
      (z.create dir code url now exp).2 = (s.create dir code url now exp).2 := by
  cases models with
  | flat rows =>
      have stored := rows.insert code (z.newEntry url now exp)
      have models : Models { z with shards := z.shards.insert code (z.newEntry url now exp) } _ :=
        .flat stored
      exact models.logRaw dir _

theorem freshCode_eq {shards : Shards} {index : Index} {dirty : Dirty}
    (rows : Flat shards index dirty) (inst : Inst) (rng : List Suffix) :
    freshCode inst shards rng = Inner.freshCode inst index rng := by
  induction rng with
  | nil => rfl
  | cons buf rng ih =>
      rw [freshCode, Inner.freshCode]
      by_cases taken : genCode inst buf ∈ index
      · rw [if_pos taken, if_pos ((rows.containsKey_iff _).mpr taken), ih]
      · rw [if_neg taken, if_neg fun there => taken ((rows.containsKey_iff _).mp there)]

/-- Both calls are still drawing codes, or they return the same and leave the same. -/
inductive Agrees {ρ : Type} : Option (ρ × Sharded × Dir) → Option (ρ × Inner × Dir) → Prop where
  | drawing : Agrees none none
  | done (r : ρ) {z : Sharded} {s : Inner} (models : z.Models s) (dir : Dir) :
      Agrees (some (r, z, dir)) (some (r, s, dir))

theorem Agrees.of_left {ρ : Type} (r : ρ) {left : Sharded × Dir} {right : Inner × Dir}
    (both : left.1.Models right.1 ∧ left.2 = right.2) :
    Agrees (some (r, left)) (some (r, right)) := by
  obtain ⟨z, dir⟩ := left
  obtain ⟨models, rfl⟩ := both
  exact .done r models _

theorem Models.shorten (models : z.Models s) (dir : Dir) (url : String)
    (aliasCode : Option String) (ttl : Int64) :
    Agrees (z.shorten env dir url aliasCode ttl)
      (s.shorten (env.reordered i d) dir url aliasCode ttl) := by
  have created := fun code => models.create dir code url (env.clock 0)
    (Inner.expiry (env.clock 0) ttl)
  cases models with
  | @flat index dirty rows =>
      cases aliasCode with
      | some code =>
          rw [Sharded.shorten, Inner.shorten]
          by_cases taken : code ∈ index
          · rw [if_pos ((rows.containsKey_iff _).mpr taken)]
            change Agrees _ (if code ∈ index then _ else _)
            rw [if_pos taken]
            exact .done none (.flat rows) dir
          · rw [if_neg fun there => taken ((rows.containsKey_iff _).mp there)]
            change Agrees _ (if code ∈ index then _ else _)
            rw [if_neg taken]
            exact .of_left (some code) (created code)
      | none =>
          rw [Sharded.shorten, Inner.shorten, freshCode_eq rows]
          change Agrees _ (Option.map _ (Inner.freshCode z.inst index env.rng))
          cases Inner.freshCode z.inst index env.rng with
          | none => exact .drawing
          | some fresh => exact .of_left (some fresh.1) (created fresh.1)

theorem bulk_agrees (inst : Inst) (now exp : Int64) (entry : String → Entry)
    (drawn : List (String × Suffix)) (retries : List Suffix) {shards : Shards} {index : Index}
    {dirty : Dirty} (rows : Flat shards index dirty) (lines : Bytes) (codes : List String) :
    (bulk inst now exp entry drawn retries shards lines codes = none ∧
        Inner.bulk inst now exp entry drawn retries index lines codes = none) ∨
      ∃ shards' index' rest, Flat shards' index' dirty ∧
        bulk inst now exp entry drawn retries shards lines codes = some (shards', rest) ∧
        Inner.bulk inst now exp entry drawn retries index lines codes = some (index', rest) := by
  induction drawn generalizing retries shards index lines codes with
  | nil => exact Or.inr ⟨shards, index, _, rows, rfl, rfl⟩
  | cons draw drawn ih =>
      obtain ⟨url, buf⟩ := draw
      rw [bulk, Inner.bulk, freshCode_eq rows]
      cases Inner.freshCode inst index (buf :: retries) with
      | none => exact Or.inl ⟨rfl, rfl⟩
      | some fresh => exact ih fresh.2 (rows.insert fresh.1 (entry url)) _ _

theorem Models.shortenMany (models : z.Models s) (dir : Dir) (urls : List String) (ttl : Int64) :
    Agrees (z.shortenMany env dir urls ttl) (s.shortenMany (env.reordered i d) dir urls ttl) := by
  cases models with
  | @flat index dirty rows =>
      rw [Sharded.shortenMany, Inner.shortenMany]
      by_cases short : env.rng.length < urls.length
      · rw [if_pos short]
        change Agrees none (if env.rng.length < urls.length then _ else _)
        rw [if_pos short]
        exact .drawing
      · rw [if_neg short]
        change Agrees _ (if env.rng.length < urls.length then _ else _)
        rw [if_neg short]
        change Agrees (Option.map _ (bulk z.inst (env.clock 0) (Inner.expiry (env.clock 0) ttl)
            (fun url => z.newEntry url (env.clock 0) (Inner.expiry (env.clock 0) ttl))
            (urls.zip env.rng) (env.rng.drop urls.length) z.shards [] []))
          (Option.map _ (Inner.bulk z.inst (env.clock 0) (Inner.expiry (env.clock 0) ttl)
            (fun url => z.newEntry url (env.clock 0) (Inner.expiry (env.clock 0) ttl))
            (urls.zip env.rng) (env.rng.drop urls.length) index [] []))
        rcases bulk_agrees z.inst (env.clock 0) (Inner.expiry (env.clock 0) ttl)
            (fun url => z.newEntry url (env.clock 0) (Inner.expiry (env.clock 0) ttl))
            (urls.zip env.rng) (env.rng.drop urls.length) rows [] [] with
          ⟨drawing, drawing'⟩ | ⟨shards, index', rest, rows', made, made'⟩
        · rw [drawing, drawing']
          exact .drawing
        · rw [made, made']
          have models : Models { z with shards := shards } _ := .flat rows'
          exact .of_left _ (models.logRaw dir _)

theorem Models.bump (models : z.Models s) (code : String) (e : Entry) :
    (z.bump env code e).Models (s.bump (env.reordered i d) code e) := by
  cases models with
  | flat rows =>
      rw [Sharded.bump, Inner.bump]
      cases counts : env.trackHits with
      | false =>
          rw [show (env.reordered i d).trackHits = false from counts]
          exact .flat rows
      | true =>
          rw [show (env.reordered i d).trackHits = true from counts]
          exact .flat ((rows.insert code _).count code)

theorem Models.get (models : z.Models s) (code : String) :
    s.index.lookup code = z.shards.get code := by
  cases models with
  | flat rows => exact rows.get code

theorem Models.inst (models : z.Models s) : s.inst = z.inst := by
  cases models with
  | flat rows => rfl

theorem Models.aof (models : z.Models s) : s.aof = z.aof := by
  cases models with
  | flat rows => rfl

/-- A resolve that has found a link. -/
theorem Models.found (models : z.Models s) (now : Int64) (code : String) (e : Entry) :
    let found := if Inner.live e now then (some e.u, z.bump env code e) else (none, z)
    let found' := if Inner.live e now then (some e.u, s.bump (env.reordered i d) code e)
      else (none, s)
    found.1 = found'.1 ∧ found.2.Models found'.2 := by
  cases Inner.live e now with
  | false => exact ⟨rfl, models⟩
  | true => exact ⟨rfl, models.bump code e⟩

theorem Models.resolve (models : z.Models s) (dir : Dir) (code : String) :
    (z.resolve env dir code).1 = (s.resolve (env.reordered i d) dir code).1 ∧
      (z.resolve env dir code).2.Models (s.resolve (env.reordered i d) dir code).2 := by
  rw [Sharded.resolve, Inner.resolve, models.get, models.aof]
  cases z.shards.get code with
  | some e => exact models.found (env.clock 0) code e
  | none =>
      cases z.aof with
      | none => exact ⟨rfl, models⟩
      | some a =>
          have tailed : (z.tailMissed env dir code).Models
              (s.tailMissed (env.reordered i d) dir code) := models.tailMissed dir code
          dsimp only
          rw [tailed.get]
          cases (z.tailMissed env dir code).shards.get code with
          | none => exact ⟨rfl, tailed⟩
          | some e => exact tailed.found (env.clock 3) code e

theorem Models.update (models : z.Models s) (code url : String) (ttl : Int64) (hasTtl : Bool) :
    (z.update env code url ttl hasTtl).1 = (s.update (env.reordered i d) code url ttl hasTtl).1 ∧
      (z.update env code url ttl hasTtl).2.Models
        (s.update (env.reordered i d) code url ttl hasTtl).2 := by
  rw [Sharded.update, Inner.update, models.get, models.inst]
  cases z.shards.get code with
  | none => exact ⟨rfl, models⟩
  | some e =>
      dsimp only
      by_cases foreign : e.i ≠ z.inst.i32
      · rw [if_pos foreign, if_pos foreign]
        exact ⟨rfl, models⟩
      · rw [if_neg foreign, if_neg foreign]
        cases models with
        | flat rows =>
            have models : Models { z with shards := z.shards.insert code _ } _ :=
              .flat (rows.insert code { e with
                u := url, e := if hasTtl then Inner.expiry (env.clock 0) ttl else e.e })
            exact ⟨rfl, models.logPush _⟩

theorem Models.remove (models : z.Models s) (code : String) :
    (z.remove code).1 = (s.remove code).1 ∧ (z.remove code).2.Models (s.remove code).2 := by
  rw [Sharded.remove, Inner.remove, models.get, models.inst]
  cases z.shards.get code with
  | none => exact ⟨rfl, models⟩
  | some e =>
      dsimp only
      by_cases foreign : e.i ≠ z.inst.i32
      · rw [if_pos foreign, if_pos foreign]
        exact ⟨rfl, models⟩
      · rw [if_neg foreign, if_neg foreign]
        cases models with
        | flat rows =>
            have models : Models { z with shards := z.shards.remove code } _ :=
              .flat (rows.remove code)
            exact ⟨rfl, models.logPush _⟩

/-! ### Calls that visit the shards -/

/-- The orders visit the maps of the engine shard by shard. -/
structure Visits (ord : ShardOrders) (z : Sharded) (s : Inner) (i : IterOrder String Entry)
    (d : IterOrder String Int64) : Prop where
  data : i.iter s.index = visit ord.data NUM_SHARDS fun n => (z.shards n).data
  dirty : d.iter s.dirty = visit ord.dirty NUM_SHARDS fun n => (z.shards n).dirty

theorem Models.exists_visits (models : z.Models s) (ord : ShardOrders) :
    ∃ i d, Visits ord z s i d := by
  cases models with
  | flat rows =>
      obtain ⟨i, d, data, dirty⟩ := rows.exists_orders ord
      exact ⟨i, d, data, dirty⟩

variable {ord : ShardOrders}

theorem hitLines_eq (visits : Visits ord z s i d) (inst : s.inst = z.inst) :
    s.hitLines (env.reordered i d) = z.hitLines ord := by
  have dirty : (env.reordered i d).dirtyOrder.iter s.dirty = _ := visits.dirty
  rw [Inner.hitLines, hitLines, inst, dirty, visit, List.foldl_flatMap]

theorem snapshotRows_eq (inst : s.inst = z.inst)
    (data : i.iter s.index = visit ord.data NUM_SHARDS fun n => (z.shards n).data) :
    s.snapshotRows (env.reordered i d) = z.snapshotRows ord := by
  have data : (env.reordered i d).indexOrder.iter s.index = _ := data
  rw [Inner.snapshotRows, snapshotRows, inst, data, visit, List.filter_flatMap, List.map_flatMap]

theorem list_eq
    (data : env.indexOrder.iter s.index = visit ord.data NUM_SHARDS fun n => (z.shards n).data)
    (limit offset : Nat) (byHits : Bool) (q : String) :
    s.list env limit offset byHits q = z.list ord limit offset byHits q := by
  rw [Inner.list, list, data, visit, List.filterMap_flatMap]

theorem stats_eq (models : z.Models s) (code : String) : s.stats code = z.stats code := by
  rw [Inner.stats, stats, models.get]

theorem isEmpty_eq (models : z.Models s) : s.isEmpty = z.isEmpty := by
  obtain ⟨i, d, data, -⟩ := models.exists_visits ⟨fun _ => .stored _ _, fun _ => .stored _ _⟩
  have emptied : s.index.pairs.isEmpty = (i.iter s.index).isEmpty := by
    rw [Bool.eq_iff_iff, List.isEmpty_iff, List.isEmpty_iff]
    constructor
    · intro none
      exact (none ▸ i.perm s.index).eq_nil
    · intro none
      exact (none ▸ (i.perm s.index).symm).eq_nil
  rw [Inner.isEmpty, emptied, data, visit, isEmpty, Bool.eq_iff_iff, List.isEmpty_iff,
    List.flatMap_eq_nil_iff, List.all_eq_true]
  simp only [List.isEmpty_iff]
  rfl

theorem Models.flushLocked (models : z.Models s) (visits : Visits ord z s i d) (dir : Dir) :
    (z.flushLocked ord dir).1.Models (s.flushLocked (env.reordered i d) dir).1 ∧
      (z.flushLocked ord dir).2 = (s.flushLocked (env.reordered i d) dir).2 := by
  rw [Sharded.flushLocked, Inner.flushLocked, hitLines_eq visits models.inst]
  cases models with
  | @flat index dirty rows =>
      cases kept : z.aof with
      | none =>
          rw [show (z.flat index dirty).aof = none from kept]
          exact ⟨.flat rows, rfl⟩
      | some a =>
          rw [show (z.flat index dirty).aof = some a from kept]
          exact ⟨.flat rows.clear, rfl⟩

/-- A flush leaves the links. -/
theorem Visits.flushed (visits : Visits ord z s i d) (aof : s.aof = z.aof) (dir : Dir) :
    i.iter (s.flushLocked (env.reordered i d) dir).1.index =
      visit ord.data NUM_SHARDS fun n => ((z.flushLocked ord dir).1.shards n).data := by
  rw [Inner.flushLocked, Sharded.flushLocked, aof]
  cases z.aof with
  | none => exact visits.data
  | some a => exact visits.data

theorem Models.compact (models : z.Models s) (visits : Visits ord z s i d) (dir : Dir) :
    (z.compact ord dir).1.Models (s.compact (env.reordered i d) dir).1 ∧
      (z.compact ord dir).2 = (s.compact (env.reordered i d) dir).2 := by
  obtain ⟨flushed, dir'⟩ : _ ∧ _ = (s.flushLocked (env.reordered i d) dir).2 :=
    models.flushLocked visits dir
  have rows : (s.flushLocked (env.reordered i d) dir).1.snapshotRows (env.reordered i d) =
      (z.flushLocked ord dir).1.snapshotRows ord :=
    snapshotRows_eq flushed.inst (visits.flushed models.aof dir)
  rw [Sharded.compact, Inner.compact, models.aof]
  cases z.aof with
  | none => exact ⟨models, rfl⟩
  | some _ =>
      dsimp only
      rw [rows, ← dir', flushed.inst, flushed.aof]
      cases (z.flushLocked ord dir).1.aof with
      | none => exact ⟨flushed, rfl⟩
      | some a =>
          refine ⟨?_, rfl⟩
          generalize (s.flushLocked (env.reordered i d) dir).1 = s' at flushed
          cases flushed with
          | flat rows => exact .flat rows

theorem Models.close (models : z.Models s) (visits : Visits ord z s i d) (dir : Dir) :
    (z.close ord dir).1.Models (s.close (env.reordered i d) dir).1 ∧
      (z.close ord dir).2 = (s.close (env.reordered i d) dir).2 := by
  cases models with
  | @flat index dirty rows =>
      rw [Sharded.close, Inner.close]
      cases ended : z.closed with
      | true =>
          rw [show (z.flat index dirty).closed = true from ended]
          exact ⟨.flat rows, rfl⟩
      | false =>
          rw [show (z.flat index dirty).closed = false from ended]
          have stopped : Models { z with closed := true, stop := true, threads := [] }
              { z.flat index dirty with closed := true, stop := true, threads := [] } :=
            .flat rows
          have visits' : Visits ord { z with closed := true, stop := true, threads := [] }
              { z.flat index dirty with closed := true, stop := true, threads := [] } i d :=
            ⟨visits.data, visits.dirty⟩
          obtain ⟨flushed, dir'⟩ : _ ∧ _ = (Inner.flushLocked (env.reordered i d) _ dir).2 :=
            stopped.flushLocked visits' dir
          exact ⟨flushed,
            congrArg (fun dir : Dir => if z.lockPath then dir.remove (.lock z.inst) else dir) dir'⟩

end Sharded

/-! ## Runs -/

inductive Returned where
  | code (code : Option String)
  | codes (codes : List String)
  | changed (result : MutResult)
  | url (url : Option String)
  | nothing
  | drawing
  deriving DecidableEq, Repr

def World.returned (w : World) (call : Env × Call) : Returned :=
  let env := call.1
  match call.2 with
  | .shorten url aliasCode ttl =>
      (w.store.shorten env w.dir url (aliasCode.map Subtype.val) ttl).elim .drawing fun done =>
        .code done.1
  | .shortenMany urls ttl =>
      (w.store.shortenMany env w.dir urls ttl).elim .drawing fun done => .codes done.1
  | .update code url ttl hasTtl => .changed (w.store.update env code url ttl hasTtl).1
  | .remove code => .changed (w.store.remove code).1
  | .resolve code => .url (w.store.resolve env w.dir code).1
  | _ => .nothing

/-- The store with its shards, and the directory it works on. -/
structure ShardWorld where
  store : Sharded
  dir : Dir

namespace ShardWorld

def fresh (env : Env) (inst : Inst) : ShardWorld :=
  let opened := Sharded.new env .empty inst false
  ⟨opened.1, opened.2⟩

def reopen (env : Env) (w : ShardWorld) : ShardWorld :=
  let opened := Sharded.new env w.dir w.store.inst false
  ⟨opened.1, opened.2⟩

/-- One call: what it returns and what it leaves. -/
def serve (w : ShardWorld) (env : Env) (ord : ShardOrders) : Call → Returned × ShardWorld
  | .shorten url aliasCode ttl =>
      match w.store.shorten env w.dir url (aliasCode.map Subtype.val) ttl with
      | none => (.drawing, w)
      | some done => (.code done.1, ⟨done.2.1, done.2.2⟩)
  | .shortenMany urls ttl =>
      match w.store.shortenMany env w.dir urls ttl with
      | none => (.drawing, w)
      | some done => (.codes done.1, ⟨done.2.1, done.2.2⟩)
  | .update code url ttl hasTtl =>
      let done := w.store.update env code url ttl hasTtl
      (.changed done.1, ⟨done.2, w.dir⟩)
  | .remove code =>
      let done := w.store.remove code
      (.changed done.1, ⟨done.2, w.dir⟩)
  | .resolve code =>
      let done := w.store.resolve env w.dir code
      (.url done.1, ⟨done.2, w.dir⟩)
  | .flush =>
      let done := w.store.flushLocked ord w.dir
      (.nothing, ⟨done.1, done.2⟩)
  | .compact =>
      let done := w.store.compact ord w.dir
      (.nothing, ⟨done.1, done.2⟩)
  | .poll => (.nothing, ⟨w.store.pollTails env w.dir, w.dir⟩)
  | .restart =>
      let closed := w.store.close ord w.dir
      (.nothing, reopen env ⟨closed.1, closed.2⟩)

/-- The engine is in a state of the store, on the same directory. -/
structure Refines (w : ShardWorld) (v : World) : Prop where
  store : w.store.Models v.store
  dir : w.dir = v.dir

variable {w : ShardWorld} {v : World}

theorem Refines.reopen (models : w.store.Models v.store) (dir : w.dir = v.dir) (env : Env)
    (i : IterOrder String Entry) (d : IterOrder String Int64) :
    (w.reopen env).Refines (v.reopen (env.reordered i d)) := by
  have opened := Sharded.models_new env i d v.dir w.store.inst false
  rw [ShardWorld.reopen, World.reopen, dir, models.inst]
  exact ⟨opened.1, opened.2⟩

/-- One call of the store is one of the engine, with some orders for its maps. -/
theorem Refines.serve (refines : w.Refines v) (env : Env) (ord : ShardOrders) (call : Call) :
    ∃ i d, (w.serve env ord call).1 = v.returned (env.reordered i d, call) ∧
      (w.serve env ord call).2.Refines (v.step (env.reordered i d, call)) := by
  obtain ⟨store, dir⟩ := w
  obtain ⟨models, rfl⟩ := refines
  dsimp only at models
  obtain ⟨i, d, visits⟩ := models.exists_visits ord
  refine ⟨i, d, ?_⟩
  cases call with
  | shorten url aliasCode ttl =>
      have agrees : Sharded.Agrees
          (store.shorten env v.dir url (aliasCode.map Subtype.val) ttl)
          (v.store.shorten (env.reordered i d) v.dir url (aliasCode.map Subtype.val) ttl) :=
        models.shorten v.dir url (aliasCode.map Subtype.val) ttl
      rw [ShardWorld.serve, World.returned, World.step]
      dsimp only
      generalize store.shorten env v.dir url (aliasCode.map Subtype.val) ttl = left at agrees ⊢
      generalize v.store.shorten (env.reordered i d) v.dir url (aliasCode.map Subtype.val) ttl =
        right at agrees ⊢
      cases agrees with
      | drawing => exact ⟨rfl, models, rfl⟩
      | done r models' dir' => exact ⟨rfl, models', rfl⟩
  | shortenMany urls ttl =>
      have agrees : Sharded.Agrees (store.shortenMany env v.dir urls ttl)
          (v.store.shortenMany (env.reordered i d) v.dir urls ttl) :=
        models.shortenMany v.dir urls ttl
      rw [ShardWorld.serve, World.returned, World.step]
      dsimp only
      generalize store.shortenMany env v.dir urls ttl = left at agrees ⊢
      generalize v.store.shortenMany (env.reordered i d) v.dir urls ttl = right at agrees ⊢
      cases agrees with
      | drawing => exact ⟨rfl, models, rfl⟩
      | done r models' dir' => exact ⟨rfl, models', rfl⟩
  | update code url ttl hasTtl =>
      obtain ⟨same, models'⟩ : _ = (v.store.update (env.reordered i d) code url ttl hasTtl).1 ∧ _ :=
        models.update code url ttl hasTtl
      exact ⟨congrArg Returned.changed same, models', rfl⟩
  | remove code =>
      obtain ⟨same, models'⟩ := models.remove code
      exact ⟨congrArg Returned.changed same, models', rfl⟩
  | resolve code =>
      obtain ⟨same, models'⟩ : _ = (v.store.resolve (env.reordered i d) v.dir code).1 ∧ _ :=
        models.resolve v.dir code
      exact ⟨congrArg Returned.url same, models', rfl⟩
  | flush =>
      obtain ⟨models', dir'⟩ : _ ∧ _ = (v.store.flushLocked (env.reordered i d) v.dir).2 :=
        models.flushLocked visits v.dir
      exact ⟨rfl, models', dir'⟩
  | compact =>
      obtain ⟨models', dir'⟩ : _ ∧ _ = (v.store.compact (env.reordered i d) v.dir).2 :=
        models.compact visits v.dir
      exact ⟨rfl, models', dir'⟩
  | poll =>
      refine ⟨rfl, ?_, rfl⟩
      change (store.pollTails env v.dir).Models (v.store.pollTails (env.reordered i d) v.dir)
      rw [Sharded.pollTails, Inner.pollTails, models.aof]
      cases store.aof with
      | none => exact models
      | some a => exact models.pollLocked v.dir
  | restart =>
      obtain ⟨models', dir'⟩ : _ ∧ _ = (v.store.close (env.reordered i d) v.dir).2 :=
        models.close visits v.dir
      exact ⟨rfl, Refines.reopen models' dir' env i d⟩

end ShardWorld

/-- A call, what happened to the directory before it from outside, and what the call is
given. -/
structure Turn where
  outside : Dir → Dir
  env : Env
  call : Call

namespace World

/-- The engine when the turn of the call has come. -/
def before (w : World) (t : Turn) : World := ⟨w.store, t.outside w.dir⟩

def turn (w : World) (t : Turn) : World := (w.before t).step (t.env, t.call)

def answers : World → List Turn → List Returned
  | _, [] => []
  | w, t :: turns => (w.before t).returned (t.env, t.call) :: (w.turn t).answers turns

end World

namespace ShardWorld

def before (w : ShardWorld) (t : Turn) : ShardWorld := ⟨w.store, t.outside w.dir⟩

def turn (w : ShardWorld) (t : Turn × ShardOrders) : ShardWorld :=
  ((w.before t.1).serve t.1.env t.2 t.1.call).2

def answers : ShardWorld → List (Turn × ShardOrders) → List Returned
  | _, [] => []
  | w, t :: turns => ((w.before t.1).serve t.1.env t.2 t.1.call).1 :: (w.turn t).answers turns

end ShardWorld

/-- The same turn but for the orders of the maps. -/
def Turn.Reordered (t : Turn × ShardOrders) (t' : Turn) : Prop :=
  ∃ i d, t' = { t.1 with env := t.1.env.reordered i d }

theorem ShardWorld.Refines.run {w : ShardWorld} {v : World} (refines : w.Refines v)
    (history : List (Turn × ShardOrders)) :
    ∃ turns : List Turn, List.Forall₂ Turn.Reordered history turns ∧
      w.answers history = v.answers turns ∧
      (history.foldl turn w).Refines (turns.foldl World.turn v) := by
  induction history generalizing w v with
  | nil => exact ⟨[], .nil, rfl, refines⟩
  | cons t history ih =>
      have before : (w.before t.1).Refines (v.before t.1) :=
        ⟨refines.store, congrArg t.1.outside refines.dir⟩
      obtain ⟨i, d, same, after⟩ := before.serve t.1.env t.2 t.1.call
      obtain ⟨turns, reordered, answered, last⟩ := ih after
      refine ⟨{ t.1 with env := t.1.env.reordered i d } :: turns, .cons ⟨i, d, rfl⟩ reordered, ?_,
        last⟩
      rw [answers, World.answers]
      exact congrArg₂ List.cons same answered

/-- Whatever other processes do to the directory between the calls, a run of the store with
its 256 shards is a run of the engine: every call returns the same, the directory holds the
same bytes, and afterwards the two cannot be told apart. -/
theorem shards_refine_engine (env : Env) (inst : Inst) (history : List (Turn × ShardOrders)) :
    ∃ turns : List Turn, List.Forall₂ Turn.Reordered history turns ∧
      let w := history.foldl ShardWorld.turn (ShardWorld.fresh env inst)
      let v := turns.foldl World.turn (World.fresh env inst)
      (ShardWorld.fresh env inst).answers history = (World.fresh env inst).answers turns ∧
        w.dir = v.dir ∧ (∀ code, w.store.stats code = v.store.stats code) ∧
        w.store.isEmpty = v.store.isEmpty ∧
        ∀ ord, ∃ i : IterOrder String Entry, ∀ env : Env, env.indexOrder = i →
          ∀ limit offset byHits q,
            w.store.list ord limit offset byHits q = v.store.list env limit offset byHits q := by
  obtain ⟨models, dir⟩ := Sharded.models_new env env.indexOrder env.dirtyOrder .empty inst false
  have start : (ShardWorld.fresh env inst).Refines (World.fresh env inst) := ⟨models, dir⟩
  obtain ⟨turns, reordered, answered, last⟩ := start.run history
  refine ⟨turns, reordered, answered, last.dir, fun code => (Sharded.stats_eq last.store code).symm,
    (Sharded.isEmpty_eq last.store).symm, fun ord => ?_⟩
  obtain ⟨i, d, visits⟩ := last.store.exists_visits ord
  refine ⟨i, fun env same limit offset byHits q => ?_⟩
  subst same
  exact (Sharded.list_eq visits.data limit offset byHits q).symm

end Shrt.Store
