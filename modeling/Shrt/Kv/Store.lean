import Mathlib.Data.List.Basic
import Shrt.Kv.Lru
import Shrt.Kv.Redis
import Shrt.Store.Engine

/-!
# The store over a key-value server

Links live in the server, as top-level keys or as fields of bucket hashes; this
process keeps a cache of resolved links and the hits it has not sent yet.  Each
call is given the times at which its steps happen, in program order, one for
every reading of the clock and every command.  No command fails.
-/

namespace Shrt.Kv

open Shrt.Codec Shrt.Lib Shrt.Lib.Utf8
open Shrt.Store (MutResult)
open Shrt.Store.Inner (expiry)

/-- How links are laid out in the server. -/
inductive Layout where
  | key
  | hash
  deriving DecidableEq, Repr

/-- A bucket count; the source divides by it. -/
abbrev Buckets := { n : Nat // 0 < n }

/-- A number of buckets for the runs in later modules. -/
def eightBuckets : Buckets := ⟨8, by decide⟩

/-- What a call is given from outside: the time of each of its steps, the keys
that the server evicts just before a step if they are due, its random bytes
and the hit switch. -/
structure KvEnv where
  clock : Nat → Int64
  evicts : Nat → Bytes → Bool
  rng : List Suffix
  trackHits : Bool
  dirtyOrder : IterOrder String Int64

/-- A call at one fixed time, with nothing evicted. -/
def KvEnv.at (now : Int64) (rng : List Suffix) : KvEnv where
  clock _ := now
  evicts _ _ := false
  rng := rng
  trackHits := true
  dirtyOrder := .stored _ _

structure KvStore where
  kv : Redis
  cache : Lru
  dirty : Map String Int64
  inst : Inst
  layout : Layout
  buckets : Buckets

def lkey (code : String) : Bytes :=
  encode "l:" ++ encode code

def hkey (code : String) : Bytes :=
  encode "h:" ++ encode code

/-- The field of the hits inside a bucket, `h:{code}`. -/
def hfield (code : String) : Bytes :=
  encode "h:" ++ encode code

/-- The bucket of a code, `l:{shard(code) % buckets}`. -/
def bkey (code : String) (buckets : Buckets) : Bytes :=
  itoa (encode "l:") (Int64.ofNat (shardOf code % buckets.val))

namespace KvStore

/-- `open` on an empty server. -/
def fresh (inst : Inst) (layout : Layout) (buckets : Buckets) (cacheEntries : Nat)
    (cacheTtlMs : Int64) : KvStore where
  kv := .empty
  cache := .new (max cacheEntries 1) cacheTtlMs
  dirty := ∅
  inst := inst
  layout := layout
  buckets := buckets

/-- The store at the step `t`: keys that are due may be gone. -/
def atStep (s : KvStore) (env : KvEnv) (t : Nat) : KvStore :=
  { s with kv := s.kv.evict (env.clock t) (env.evicts t) }

def kvGet (s : KvStore) (code : String) : Option Bytes :=
  match s.layout with
  | .hash => s.kv.hget (bkey code s.buckets) (encode code)
  | .key => s.kv.get (lkey code)

/-- Create the row of a code that has none. -/
def setNx (s : KvStore) (now : Int64) (code : String) (value : Bytes) (ttl : Int64) :
    Bool × KvStore :=
  let done := match s.layout with
    | .hash => s.kv.hsetnx (bkey code s.buckets) (encode code) value
    | .key => s.kv.set now (lkey code) value ttl true
  (done.1, { s with kv := done.2 })

def setRow (s : KvStore) (now : Int64) (code : String) (value : Bytes) (px : Int64) : KvStore :=
  { s with kv := match s.layout with
    | .hash => s.kv.hset (bkey code s.buckets) (encode code) value
    | .key => (s.kv.set now (lkey code) value px false).2 }

def delRow (s : KvStore) (code : String) : Bool × KvStore :=
  let done := match s.layout with
    | .hash => s.kv.hdel (bkey code s.buckets) (encode code)
    | .key => s.kv.del (lkey code)
  (done.1, { s with kv := done.2 })

def delHits (s : KvStore) (code : String) : KvStore :=
  { s with kv := match s.layout with
    | .hash => (s.kv.hdel (bkey code s.buckets) (hfield code)).2
    | .key => (s.kv.del (hkey code)).2 }

def addHits (s : KvStore) (code : String) (d : Int64) : KvStore :=
  { s with kv := match s.layout with
    | .hash => s.kv.hincrby (bkey code s.buckets) (hfield code) d
    | .key => s.kv.incrby (hkey code) d }

/-- Draw codes until one is free; `none` while all are taken.  Returns the
next step too. -/
def freshCode (env : KvEnv) (value : Bytes) (ttl : Int64) :
    KvStore → Nat → List Suffix → Option (String × KvStore × Nat × List Suffix)
  | _, _, [] => none
  | s, t, buf :: rng =>
      let code := genCode s.inst buf
      let done := (s.atStep env t).setNx (env.clock t) code value ttl
      if done.1 then some (code, done.2, t + 1, rng)
      else freshCode env value ttl done.2 (t + 1) rng

/-- `shorten` from the step `t` on: the code, or `none` for a taken alias.  The
outer `none` is a call still drawing codes. -/
def shortenFrom (env : KvEnv) (s : KvStore) (t : Nat) (rng : List Suffix) (url : String)
    (aliasCode : Option String) (ttl : Int64) :
    Option (Option String × KvStore × Nat × List Suffix) :=
  let now := env.clock t
  let value := encVal (expiry now ttl) now url
  match aliasCode with
  | some a =>
      let done := (s.atStep env (t + 1)).setNx (env.clock (t + 1)) a value ttl
      some (if done.1 then some a else none, done.2, t + 2, rng)
  | none =>
      (freshCode env value ttl s (t + 1) rng).map fun done =>
        (some done.1, done.2.1, done.2.2)

def shorten (env : KvEnv) (s : KvStore) (url : String) (aliasCode : Option String) (ttl : Int64) :
    Option (Option String × KvStore) :=
  (s.shortenFrom env 0 env.rng url aliasCode ttl).map fun done => (done.1, done.2.1)

/-- The pipelined creates of `shorten_many`: each drawn code and whether it was
free. -/
def pipeNx (env : KvEnv) (now : Int64) (ttl : Int64) :
    KvStore → Nat → List (String × String) → List (String × String × Bool) × KvStore × Nat
  | s, t, [] => ([], s, t)
  | s, t, (url, code) :: rest =>
      let done := (s.atStep env t).setNx (env.clock t) code (encVal (expiry now ttl) now url) ttl
      let later := pipeNx env now ttl done.2 (t + 1) rest
      ((url, code, done.1) :: later.1, later.2)

/-- The serial retries of the codes that were taken. -/
def retryTaken (env : KvEnv) (ttl : Int64) :
    KvStore → Nat → List Suffix → List (String × String × Bool) → Option (List String × KvStore)
  | s, _, _, [] => some ([], s)
  | s, t, rng, (_, code, true) :: rest =>
      (retryTaken env ttl s t rng rest).map fun done => (code :: done.1, done.2)
  | s, t, rng, (url, code, false) :: rest =>
      (s.shortenFrom env t rng url none ttl).bind fun again =>
        (retryTaken env ttl again.2.1 again.2.2.1 again.2.2.2 rest).map fun done =>
          (again.1.getD code :: done.1, done.2)

/-- `shorten_many`: the first random bytes are the candidates, the others serve
the retries. -/
def shortenMany (env : KvEnv) (s : KvStore) (urls : List String) (ttl : Int64) :
    Option (List String × KvStore) :=
  if env.rng.length < urls.length then none
  else
    let codes := (env.rng.take urls.length).map (genCode s.inst)
    let piped := pipeNx env (env.clock 0) ttl s 1 (urls.zip codes)
    retryTaken env ttl piped.2.1 piped.2.2 (env.rng.drop urls.length) piped.1

/-- Count one hit. -/
def bump (env : KvEnv) (s : KvStore) (code : String) : KvStore :=
  if env.trackHits then
    { s with dirty := s.dirty.insert code ((s.dirty.lookup code).getD 0 + 1) }
  else s

/-- The row of a code at a step, decoded and checked for expiry at another. -/
def readRow (s : KvStore) (env : KvEnv) (read check : Nat) (code : String) : Option Row :=
  ((s.atStep env read).kvGet code).bind fun v =>
    (decVal v).bind fun row => if past row.e (env.clock check) then none else some row

/-- What a cached read looks up, at the steps 0 and 1. -/
def cached (s : KvStore) (env : KvEnv) (code : String) : Option (String × Int64) × Lru :=
  s.cache.get (env.clock 0) (env.clock 1) code

/-- `resolve`: from the cache, else from the server at step 2, checked at step
3 and cached at step 4. -/
def resolve (env : KvEnv) (s : KvStore) (code : String) : Option String × KvStore :=
  let looked := s.cached env code
  let s := { s with cache := looked.2 }
  match looked.1 with
  | some hit => (some hit.1, s.bump env code)
  | none =>
      match s.readRow env 2 3 code with
      | none => (none, s.atStep env 2)
      | some row =>
          let s := s.atStep env 2
          (some row.u, { s with cache := s.cache.put (env.clock 4) code row.u row.e }.bump env code)

/-- `update`: the row is read at step 0 and written at step 3; the clock is
read in between. -/
def update (env : KvEnv) (s : KvStore) (code url : String) (ttl : Int64) (hasTtl : Bool) :
    MutResult × KvStore :=
  let s := s.atStep env 0
  match (s.kvGet code).bind decVal with
  | none => (.missing, s)
  | some row =>
      let exp := if hasTtl then expiry (env.clock 1) ttl else row.e
      let px := if exp > 0 then exp - env.clock 2 else 0
      let s := (s.atStep env 3).setRow (env.clock 3) code (encVal exp row.c url) px
      (.ok, { s with cache := s.cache.remove code })

def remove (env : KvEnv) (s : KvStore) (code : String) : MutResult × KvStore :=
  let done := (s.atStep env 0).delRow code
  if done.1 then
    let s := (done.2.atStep env 1).delHits code
    (.ok, { s with cache := s.cache.remove code })
  else (.missing, done.2)

/-- `flush_hits`: send the deltas. -/
def flushHits (env : KvEnv) (s : KvStore) : KvStore :=
  (env.dirtyOrder.iter s.dirty).foldl (fun s cn => s.addHits cn.1 cn.2)
    { s.atStep env 0 with dirty := ∅ }

def deadFields (now : Int64) (fields : Map Bytes Bytes) : List Bytes :=
  (fields.pairs.filter fun fv =>
    !(encode "h:").isPrefixOf fv.1 && (decVal fv.2).any fun row => past row.e now).map Prod.fst

def sweepBucket (now : Int64) (kv : Redis) (b : Bytes) : Redis :=
  (deadFields now (kv.bucket b)).foldl (fun kv f => (kv.hdel b f).2) kv

/-- `sweep_expired`: in every bucket, delete the fields that are past their
expiry at step 1.  Keys that are no hashes are left alone. -/
def sweepExpired (env : KvEnv) (s : KvStore) : KvStore :=
  let s := s.atStep env 0
  let buckets := s.kv.hashes.keys.filter (encode "l:").isPrefixOf
  { s with kv := buckets.foldl (sweepBucket (env.clock 1)) s.kv }

end KvStore

inductive KvCall where
  | shorten (url : String) (aliasCode : Option { a : String // codeOk a = true }) (ttl : Int64)
  | shortenMany (urls : List String) (ttl : Int64)
  | update (code url : String) (ttl : Int64) (hasTtl : Bool)
  | remove (code : String)
  | resolve (code : String)
  | flushHits
  | sweepExpired

namespace KvStore

/-- One call.  A call that is still drawing codes has created nothing that
anyone was told of; it is not over and leaves the store as it is. -/
def step (s : KvStore) (call : KvEnv × KvCall) : KvStore :=
  match call.2 with
  | .shorten url aliasCode ttl =>
      ((s.shorten call.1 url (aliasCode.map Subtype.val) ttl).map Prod.snd).getD s
  | .shortenMany urls ttl => ((s.shortenMany call.1 urls ttl).map Prod.snd).getD s
  | .update code url ttl hasTtl => (s.update call.1 code url ttl hasTtl).2
  | .remove code => (s.remove call.1 code).2
  | .resolve code => (s.resolve call.1 code).2
  | .flushHits => s.flushHits call.1
  | .sweepExpired => s.sweepExpired call.1

def run (s : KvStore) (history : List (KvEnv × KvCall)) : KvStore :=
  history.foldl step s

end KvStore

end Shrt.Kv
