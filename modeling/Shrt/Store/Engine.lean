import Mathlib.Data.List.Basic
import Mathlib.Data.List.Infix
import Shrt.Store.Disk

/-!
# The in-process engine

An in-memory index of links, a map of hit counts not yet logged, and the
queue of the own log.  The 256 shards of the source are one map here: every
access goes to the shard of its code, and the order in which entries are
visited is left to the call's environment.  Signed 64-bit arithmetic wraps, as
it does in the release build.
-/

namespace Shrt.Store

open Shrt.Codec Shrt.Lib Shrt.Lib.Utf8 Shrt.Lib.Framing

def FLUSH_BYTES : Nat := 262144

/-- Milliseconds between lazy polls of all siblings. -/
def TAIL_MIN_INTERVAL : Int64 := 200

def MAX_STRAY_HITS : Nat := 10000

/-- A stored link: url, creation time, expiry (0 for none), owning instance,
all hits seen, and the hits this instance counted. -/
structure Entry where
  u : String
  a : Int64
  e : Int64
  i : Int32
  h : Int64
  oh : Int64
  deriving DecidableEq, Repr

/-- Deltas seen for a code whose row has not arrived: all, and the own ones. -/
structure StrayHit where
  t : Int64
  o : Int64
  deriving DecidableEq, Repr

abbrev Index := Map String Entry
abbrev StrayMap := Map String StrayHit
abbrev Dirty := Map String Int64

/-- What one call is given from outside: its clock readings in order, its
random bytes, the hit switch, the iteration orders of the hash maps and how
many available bytes a read of a sibling's log leaves unread. -/
structure Env where
  clock : Nat → Int64
  rng : List Suffix
  trackHits : Bool
  indexOrder : IterOrder String Entry
  dirtyOrder : IterOrder String Int64
  strayOrder : IterOrder String StrayHit
  readerOrder : IterOrder Inst TailReader
  short : Inst → Nat

/-- A call at one fixed time, with storage order everywhere and whole reads. -/
def Env.at (now : Int64) (rng : List Suffix) : Env where
  clock _ := now
  rng := rng
  trackHits := true
  indexOrder := .stored _ _
  dirtyOrder := .stored _ _
  strayOrder := .stored _ _
  readerOrder := .stored _ _
  short _ := 0

/-- A link as callers see it. -/
structure Link where
  code : String
  url : String
  hits : Int64
  createdAt : Int64
  expiresAt : Option Int64
  deriving DecidableEq, Repr

def contains (s q : String) : Bool :=
  q.toList <:+: s.toList

def Entry.link (code : String) (e : Entry) : Link :=
  { code := code, url := e.u, hits := e.h, createdAt := e.a,
    expiresAt := if e.e = 0 then none else some e.e }

/-- Outcome of `update` and `remove`. -/
inductive MutResult where
  | ok
  | missing
  | remote
  deriving DecidableEq, Repr

/-- The background threads of a store. -/
inductive Worker where
  | flush
  | fsync
  deriving DecidableEq, Repr

structure Inner where
  inst : Inst
  index : Index
  dirty : Dirty
  readers : Map Inst TailReader
  stray : StrayMap
  lastPoll : Int64
  aof : Option Aof
  lockPath : Bool
  stop : Bool
  closed : Bool
  threads : List Worker

/-! ## Folding log lines -/

/-- The part of a store that a log line changes. -/
structure View where
  index : Index
  stray : StrayMap

def View.empty : View := ⟨∅, ∅⟩

/-- Make room in a full stray map by dropping the key the iterator yields
first. -/
def evict (env : Env) (stray : StrayMap) : StrayMap :=
  if MAX_STRAY_HITS ≤ stray.entries.length then
    match (env.strayOrder.iter stray).head? with
    | some k => stray.erase k.1
    | none => stray
  else stray

/-- Fold one parsed log line into the index. -/
def apply (env : Env) (inst : Inst) (v : View) (o : Op) : View :=
  if o.x ≠ "" then ⟨v.index.erase o.x, v.stray.erase o.x⟩
  else if o.h ≠ "" then
    let own := inst.i64 == o.i
    match v.index.lookup o.h with
    | some e =>
        ⟨v.index.insert o.h
          { e with h := e.h + o.d, oh := if own then e.oh + o.d else e.oh }, v.stray⟩
    | none =>
        let stray := evict env v.stray
        let st := (stray.lookup o.h).getD ⟨0, 0⟩
        ⟨v.index, stray.insert o.h
          ⟨st.t + o.d, if own then st.o + o.d else st.o⟩⟩
  else if o.c = "" then v
  else
    let st := (v.stray.lookup o.c).getD ⟨0, 0⟩
    ⟨v.index.insert o.c
      { u := o.u, a := o.a, e := if o.hasE then o.e else 0, i := o.i.toInt32,
        h := o.n + st.t, oh := o.n + st.o }, v.stray.erase o.c⟩

def applyLine (env : Env) (inst : Inst) (v : View) (line : Bytes) : View :=
  match parseOp line with
  | some o => apply env inst v o
  | none => v

/-- `replay_file` with `apply_line` as its callback. -/
def replayInto (env : Env) (inst : Inst) (dir : Dir) (f : FileName) (v : View) : View :=
  (replayFile dir f).foldl (applyLine env inst) v

/-! ## Opening a store and reading siblings -/

/-- Own snapshot, own log, then the snapshots of the siblings present; their
logs are only registered for tailing. -/
def loadAll (env : Env) (inst : Inst) (dir : Dir) : View × Map Inst TailReader :=
  let v := replayInto env inst dir (.snap inst) .empty
  let v := replayInto env inst dir (.log inst) v
  (shardFiles dir inst).foldl
    (fun acc f =>
      (replayInto env inst dir (.snap f) acc.1, acc.2.insert f TailReader.fromStart))
    (v, ∅)

/-- `LocalStore::new` on a directory with a given instance id.  Opening the
log creates it; `locked` tells whether the id was claimed by a lock file. -/
def Inner.new (env : Env) (dir : Dir) (inst : Inst) (locked : Bool) : Inner × Dir :=
  let dir := dir.write (.log inst) (dir.read (.log inst))
  let loaded := loadAll env inst dir
  ({ inst := inst
     index := loaded.1.index
     dirty := ∅
     readers := loaded.2
     stray := loaded.1.stray
     lastPoll := 0
     aof := some ⟨[]⟩
     lockPath := locked
     stop := false
     closed := false
     threads := [.flush, .fsync] }, dir)

/-- Read one sibling's log and fold its new lines. -/
def readSibling (env : Env) (inst : Inst) (dir : Dir) (f : Inst)
    (v : View) (r : TailReader) : View × TailReader :=
  let got := r.readNew dir (.log f) (env.short f)
  (got.2.foldl (applyLine env inst) v, got.1)

namespace Inner

def view (s : Inner) : View :=
  ⟨s.index, s.stray⟩

/-- Discover new shards and pull the new lines of all of them. -/
def pollLocked (env : Env) (s : Inner) (dir : Dir) : Inner :=
  let readers := (shardFiles dir s.inst).foldl
    (fun m f => if f ∈ m then m else m.insert f TailReader.fromStart) s.readers
  let pulled := (env.readerOrder.iter readers).foldl
    (fun (acc : View × Map Inst TailReader) fr =>
      let got := readSibling env s.inst dir fr.1 acc.1 fr.2
      (got.1, acc.2.insert fr.1 got.2))
    (s.view, readers)
  { s with
    index := pulled.1.index
    stray := pulled.1.stray
    readers := pulled.2
    lastPoll := env.clock 2 }

def pollTails (env : Env) (s : Inner) (dir : Dir) : Inner :=
  match s.aof with
  | none => s
  | some _ => s.pollLocked env dir

/-- On a miss, tail the shard that owns the code's first byte; for the own
byte or no alphabet byte, poll all shards at a limited rate. -/
def tailMissed (env : Env) (s : Inner) (dir : Dir) (code : String) : Inner :=
  match encode code, s.aof with
  | first :: _, some _ =>
      let sibling := (alphaIdx first).filter (· ≠ s.inst)
      match sibling with
      | some owner =>
          let r := (s.readers.lookup owner).getD TailReader.fromStart
          let got := readSibling env s.inst dir owner s.view r
          { s with
            index := got.1.index
            stray := got.1.stray
            readers := s.readers.insert owner got.2
            lastPoll := env.clock 2 }
      | none =>
          if env.clock 1 - s.lastPoll ≥ TAIL_MIN_INTERVAL then s.pollLocked env dir else s
  | _, _ => s

/-! ## Operations -/

/-- The first candidate that is not taken, with the unused random bytes;
`none` while all are taken. -/
def freshCode (inst : Inst) (index : Index) : List Suffix → Option (String × List Suffix)
  | [] => none
  | buf :: rng =>
      let c := genCode inst buf
      if c ∈ index then freshCode inst index rng else some (c, rng)

def newEntry (s : Inner) (url : String) (now exp : Int64) : Entry :=
  { u := url, a := now, e := exp, i := s.inst.i32, h := 0, oh := 0 }

/-- The expiry that a time to live asks for. -/
def expiry (now ttl : Int64) : Int64 :=
  if ttl > 0 then now + ttl else 0

/-- Queue bytes on the log; a queue past `FLUSH_BYTES` is written out. -/
def logRaw (s : Inner) (dir : Dir) (bytes : Bytes) : Inner × Dir :=
  match s.aof with
  | none => (s, dir)
  | some a =>
      let a := a.pushRaw bytes
      if a.pendingBytes > FLUSH_BYTES then
        let flushed := a.flush dir s.inst
        ({ s with aof := some flushed.1 }, flushed.2)
      else ({ s with aof := some a }, dir)

/-- Queue one line without the size check, as the mutations do. -/
def logPush (s : Inner) (line : Bytes) : Inner :=
  { s with aof := s.aof.map fun a => a.push line }

/-- Store a new link and log its row. -/
def create (s : Inner) (dir : Dir) (code url : String) (now exp : Int64) : Inner × Dir :=
  let s := { s with index := s.index.insert code (s.newEntry url now exp) }
  s.logRaw dir (rowLine code url now exp s.inst.i64 0 ++ [NL])

/-- `shorten`: the code, or `none` for a taken alias.  The outer `none` is a
call still drawing random codes. -/
def shorten (env : Env) (s : Inner) (dir : Dir) (url : String) (aliasCode : Option String)
    (ttl : Int64) : Option (Option String × Inner × Dir) :=
  let now := env.clock 0
  let exp := expiry now ttl
  match aliasCode with
  | some code =>
      if code ∈ s.index then some (none, s, dir)
      else some (some code, s.create dir code url now exp)
  | none =>
      (freshCode s.inst s.index env.rng).map fun fresh =>
        (some fresh.1, s.create dir fresh.1 url now exp)

/-- The loop of `shorten_many`: one candidate drawn per url, a fresh draw on
every collision, all rows collected in one buffer. -/
def bulk (inst : Inst) (now exp : Int64) (entry : String → Entry) :
    List (String × Suffix) → List Suffix → Index → Bytes → List String →
      Option (Index × Bytes × List String)
  | [], _, index, rows, codes => some (index, rows, codes)
  | (url, buf) :: rest, retries, index, rows, codes =>
      (freshCode inst index (buf :: retries)).bind fun fresh =>
        bulk inst now exp entry rest fresh.2 (index.insert fresh.1 (entry url))
          (rowLineInto rows fresh.1 url now exp inst.i64 0 ++ [NL]) (codes ++ [fresh.1])

/-- `shorten_many`: the codes in input order.  The first random bytes of the
call are the candidates, the others serve the retries. -/
def shortenMany (env : Env) (s : Inner) (dir : Dir) (urls : List String) (ttl : Int64) :
    Option (List String × Inner × Dir) :=
  let now := env.clock 0
  let exp := expiry now ttl
  if env.rng.length < urls.length then none
  else
    (bulk s.inst now exp (fun url => s.newEntry url now exp)
      (urls.zip env.rng) (env.rng.drop urls.length) s.index [] []).map fun done =>
        (done.2.2, { s with index := done.1 }.logRaw dir done.2.1)

def live (e : Entry) (now : Int64) : Bool :=
  e.e == 0 || e.e > now

/-- Count one hit, in the entry and in the dirty map. -/
def bump (env : Env) (s : Inner) (code : String) (e : Entry) : Inner :=
  if env.trackHits then
    { s with
      index := s.index.insert code { e with h := e.h + 1, oh := e.oh + 1 }
      dirty := s.dirty.insert code ((s.dirty.lookup code).getD 0 + 1) }
  else s

/-- `resolve`: the target url, or `none` for a miss or an expired link. -/
def resolve (env : Env) (s : Inner) (dir : Dir) (code : String) : Option String × Inner :=
  match s.index.lookup code with
  | some e => if live e (env.clock 0) then (some e.u, s.bump env code e) else (none, s)
  | none =>
      match s.aof with
      | none => (none, s)
      | some _ =>
          let s := s.tailMissed env dir code
          match s.index.lookup code with
          | some e => if live e (env.clock 3) then (some e.u, s.bump env code e) else (none, s)
          | none => (none, s)

/-- `update`: url and expiry in place, by the owner only. -/
def update (env : Env) (s : Inner) (code url : String) (ttl : Int64) (hasTtl : Bool) :
    MutResult × Inner :=
  match s.index.lookup code with
  | none => (.missing, s)
  | some e =>
      if e.i ≠ s.inst.i32 then (.remote, s)
      else
        let exp := if hasTtl then expiry (env.clock 0) ttl else e.e
        let s := { s with index := s.index.insert code { e with u := url, e := exp } }
        (.ok, s.logPush (rowLine code url e.a exp s.inst.i64 0))

def remove (s : Inner) (code : String) : MutResult × Inner :=
  match s.index.lookup code with
  | none => (.missing, s)
  | some e =>
      if e.i ≠ s.inst.i32 then (.remote, s)
      else (.ok, { s with index := s.index.erase code }.logPush (delLine code))

def stats (s : Inner) (code : String) : Option Link :=
  (s.index.lookup code).map fun (e : Entry) =>
    { code := code, url := e.u, hits := e.h, createdAt := e.a,
      expiresAt := if e.e = 0 then none else some e.e }

/-- `list`: the links that match, by hits or newest first, one window of them,
and how many there are. -/
def list (env : Env) (s : Inner) (limit offset : Nat) (byHits : Bool) (q : String) :
    List Link × Nat :=
  let items := (env.indexOrder.iter s.index).filterMap fun ce =>
    if q ≠ "" && !contains ce.1 q && !contains ce.2.u q then none else some (ce.2.link ce.1)
  let sorted := items.mergeSort fun a b =>
    if byHits then b.hits ≤ a.hits else b.createdAt ≤ a.createdAt
  ((sorted.drop (min offset items.length)).take limit, items.length)

/-- `is_empty`: no link at all, not even an expired one. -/
def isEmpty (s : Inner) : Bool :=
  s.index.pairs.isEmpty

def hits (s : Inner) (code : String) : Option Int64 :=
  (s.stats code).map Link.hits

theorem hits_eq (s : Inner) (code : String) :
    s.hits code = (s.index.lookup code).map Entry.h := by
  rw [hits, stats, Option.map_map]
  rfl

def hitLines (env : Env) (s : Inner) : Bytes :=
  (env.dirtyOrder.iter s.dirty).foldl
    (fun lines kd => hitLineInto lines kd.1 kd.2 s.inst.i64 ++ [NL]) []

/-- Log the dirty counts, then write the queue. -/
def flushLocked (env : Env) (s : Inner) (dir : Dir) : Inner × Dir :=
  match s.aof with
  | none => (s, dir)
  | some a =>
      let flushed := (a.pushRaw (s.hitLines env)).flush dir s.inst
      ({ s with dirty := ∅, aof := some flushed.1 }, flushed.2)

def snapshotRow (ce : String × Entry) : Rec :=
  .row ce.1 ce.2.u ce.2.a ce.2.e ce.2.i.toInt64 ce.2.oh

def snapshotRows (env : Env) (s : Inner) : List Rec :=
  ((env.indexOrder.iter s.index).filter fun ce => ce.2.i == s.inst.i32).map snapshotRow

/-- `compact` with every file operation succeeding: flush, write the own rows
to the temporary file, rename it over the snapshot, truncate the log. -/
def compact (env : Env) (s : Inner) (dir : Dir) : Inner × Dir :=
  match s.aof with
  | none => (s, dir)
  | some _ =>
      let flushed := s.flushLocked env dir
      let s := flushed.1
      let dir := flushed.2.write (.snapTmp s.inst) (logBytes (s.snapshotRows env))
      let dir := dir.rename (.snapTmp s.inst) (.snap s.inst)
      match s.aof with
      | none => (s, dir)
      | some a =>
          let truncated := a.truncate dir s.inst
          ({ s with aof := some truncated.1 }, truncated.2)

/-- `close`: stop the threads, flush, release the lock; only once. -/
def close (env : Env) (s : Inner) (dir : Dir) : Inner × Dir :=
  if s.closed then (s, dir)
  else
    let s := { s with closed := true, stop := true, threads := [] }
    let flushed := s.flushLocked env dir
    let dir := if s.lockPath then flushed.2.remove (.lock s.inst) else flushed.2
    (flushed.1, dir)

end Inner

end Shrt.Store
