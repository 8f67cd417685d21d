import Mathlib.Data.List.Basic
import Shrt.Kv.Hits
import Shrt.Lib.LittleEndian

/-!
# The store over an embedded database

Links live in the default column family of the database, hits in another one.
A read that finds a row past its expiry deletes it.  As in the other stores each
call is given the times of its steps; no database call fails.
-/

namespace Shrt.Rocks

open Shrt.Codec Shrt.Lib Shrt.Lib.LittleEndian Shrt.Lib.Utf8 Shrt.Kv
open Shrt.Store (Link MutResult)
open Shrt.Store.Inner (expiry)

/-- The alphabet of this store, in the order of the bytes. -/
def ALPHABET : Bytes :=
  encode "0123456789ABCDEFGHIJKLMNOPQRSTUVWXYZabcdefghijklmnopqrstuvwxyz"

def genCode (i : Inst) (buf : Suffix) : String :=
  drawnCode ALPHABET i buf

theorem spells_alphabet : Spells ALPHABET where
  long := by decide +kernel
  bytes := by decide +kernel

theorem plain_genCode (i : Inst) (buf : Suffix) : Plain (genCode i buf) :=
  spells_alphabet.plain_drawnCode i buf

/-- What a call is given from outside. -/
structure RocksEnv where
  clock : Nat → Int64

structure RocksStore where
  db : Map Bytes Bytes
  hits : Map Bytes Bytes
  cache : Lru
  dirty : Map String Int64

namespace RocksStore

/-- `open` on an empty directory. -/
def fresh (cacheEntries : Nat) (cacheTtlMs : Int64) : RocksStore where
  db := ∅
  hits := ∅
  cache := .new (max cacheEntries 1) cacheTtlMs
  dirty := ∅

/-- The row that the database holds for a code, expired or not. -/
def stored (s : RocksStore) (code : String) : Option Row :=
  (s.db.lookup (encode code)).bind decVal

/-- Delete a row without looking. -/
def reap (s : RocksStore) (code : String) : RocksStore :=
  { s with db := s.db.erase (encode code) }

/-- `row`: the row of a code, deleted if it is past its expiry. -/
def row (now : Int64) (s : RocksStore) (code : String) : Option Row × RocksStore :=
  match s.stored code with
  | none => (none, s)
  | some row => if past row.e now then (none, s.reap code) else (some row, s)

def bump (s : RocksStore) (code : String) : RocksStore :=
  { s with dirty := s.dirty.insert code ((s.dirty.lookup code).getD 0 + 1) }

/-- What a cached read looks up, at the steps 0 and 1. -/
def cached (s : RocksStore) (env : RocksEnv) (code : String) : Option (String × Int64) × Lru :=
  s.cache.get (env.clock 0) (env.clock 1) code

/-- `resolve`: from the cache, else from the database, checked at step 2 and
cached at step 3. -/
def resolve (env : RocksEnv) (s : RocksStore) (code : String) : Option String × RocksStore :=
  let looked := s.cached env code
  let s := { s with cache := looked.2 }
  match looked.1 with
  | some hit => (some hit.1, s.bump code)
  | none =>
      match row (env.clock 2) s code with
      | (none, s) => (none, s)
      | (some row, s) =>
          (some row.u, { s with cache := s.cache.put (env.clock 3) code row.u row.e }.bump code)

/-- The new row of an update.  A time to live that is not positive counts as
none left. -/
def rewrite (now : Int64) (s : RocksStore) (code : String) (row : Row) (url : String) (ttl : Int64)
    (hasTtl : Bool) : RocksStore :=
  let exp := if hasTtl then now + max ttl 0 else row.e
  { s with db := s.db.insert (encode code) (encVal exp row.c url) }

def update (env : RocksEnv) (s : RocksStore) (code url : String) (ttl : Int64) (hasTtl : Bool) :
    MutResult × RocksStore :=
  match row (env.clock 0) s code with
  | (none, s) => (.missing, s)
  | (some row, s) =>
      let s := rewrite (env.clock 1) s code row url ttl hasTtl
      (.ok, { s with cache := s.cache.remove code })

/-- The batch of a remove: the row and its hits. -/
def delete (s : RocksStore) (code : String) : RocksStore :=
  { s with db := s.db.erase (encode code), hits := s.hits.erase (encode code) }

def remove (env : RocksEnv) (s : RocksStore) (code : String) : MutResult × RocksStore :=
  match row (env.clock 0) s code with
  | (none, s) => (.missing, s)
  | (some _, s) =>
      let s := s.delete code
      (.ok, { s with cache := s.cache.remove code })

/-- `put_nx`: a get and a put under the lock of the creates. -/
def putNx (s : RocksStore) (code : String) (value : Bytes) : Bool × RocksStore :=
  if encode code ∈ s.db then (false, s)
  else (true, { s with db := s.db.insert (encode code) value })

/-- Draw codes until one is free; `none` while all are taken. -/
def freshCode (inst : Inst) (value : Bytes) : RocksStore → List Suffix → Option (String × RocksStore)
  | _, [] => none
  | s, buf :: rng =>
      let done := s.putNx (genCode inst buf) value
      if done.1 then some (genCode inst buf, done.2) else freshCode inst value done.2 rng

/-- `shorten`: the code, or `none` for a taken alias.  The outer `none` is a call
still drawing codes. -/
def shorten (inst : Inst) (env : RocksEnv) (rng : List Suffix) (s : RocksStore) (url : String)
    (aliasCode : Option String) (ttl : Int64) : Option (Option String × RocksStore) :=
  let now := env.clock 0
  let value := encVal (expiry now ttl) now url
  match aliasCode with
  | some a =>
      let done := s.putNx a value
      some (if done.1 then some a else none, done.2)
  | none => (freshCode inst value s rng).map fun done => (some done.1, done.2)

/-- `shorten_many`: one batch that puts every row without looking. -/
def shortenMany (inst : Inst) (env : RocksEnv) (rng : List Suffix) (s : RocksStore)
    (urls : List String) (ttl : Int64) : Option (List String × RocksStore) :=
  let now := env.clock 0
  if rng.length < urls.length then none
  else
    let codes := (rng.take urls.length).map (genCode inst)
    let put := fun (db : Map Bytes Bytes) (cu : String × String) =>
      db.insert (encode cu.1) (encVal (expiry now ttl) now cu.2)
    some (codes, { s with db := (codes.zip urls).foldl put s.db })

/-! ## Hits -/

/-- A counter as a number; what is not eight bytes counts as none. -/
def counterValue (v : Option Bytes) : UInt64 :=
  (v.bind fromLeBytes?).getD 0

/-- `hits_merge`: add the operands to a counter; what is not eight bytes adds
nothing. -/
def hitsMerge (existing : Option Bytes) (operands : List Bytes) : Bytes :=
  toLeBytes (operands.foldl (fun n op => (fromLeBytes? op).elim n (n + ·)) (counterValue existing))

/-- `merge_cf` of one delta: a read of the counter gives the merged value. -/
def merge (hits : Map Bytes Bytes) (code : String) (d : Int64) : Map Bytes Bytes :=
  hits.insert (encode code) (hitsMerge (hits.lookup (encode code)) [toLeBytes d.toUInt64])

/-- `flush_hits`: send the deltas in one batch. -/
def flushHits (order : IterOrder String Int64) (s : RocksStore) : RocksStore :=
  { s with
    hits := (order.iter s.dirty).foldl (fun hits cn => merge hits cn.1 cn.2) s.hits
    dirty := ∅ }

/-- `hits_of`: the counter and the hits that were not sent. -/
def hitsOf (s : RocksStore) (code : String) : Int64 :=
  (counterValue (s.hits.lookup (encode code))).toInt64 + (s.dirty.lookup code).getD 0

def stats (env : RocksEnv) (s : RocksStore) (code : String) : Option Link × RocksStore :=
  match row (env.clock 0) s code with
  | (none, s) => (none, s)
  | (some row, s) => (some (row.link code (s.hitsOf code)), s)

end RocksStore

inductive RocksCall where
  | shorten (rng : List Suffix) (url : String) (aliasCode : Option { a : String // codeOk a = true })
      (ttl : Int64)
  | shortenMany (rng : List Suffix) (urls : List String) (ttl : Int64)
  | update (code url : String) (ttl : Int64) (hasTtl : Bool)
  | remove (code : String)
  | resolve (code : String)
  | flushHits (order : IterOrder String Int64)
  | stats (code : String)

namespace RocksStore

/-- One call of the instance.  A call that is still drawing codes leaves the
store as it is. -/
def step (inst : Inst) (s : RocksStore) (call : RocksEnv × RocksCall) : RocksStore :=
  match call.2 with
  | .shorten rng url aliasCode ttl =>
      ((s.shorten inst call.1 rng url (aliasCode.map Subtype.val) ttl).map Prod.snd).getD s
  | .shortenMany rng urls ttl => ((s.shortenMany inst call.1 rng urls ttl).map Prod.snd).getD s
  | .update code url ttl hasTtl => (s.update call.1 code url ttl hasTtl).2
  | .remove code => (s.remove call.1 code).2
  | .resolve code => (s.resolve call.1 code).2
  | .flushHits order => s.flushHits order
  | .stats code => (s.stats call.1 code).2

def run (inst : Inst) (s : RocksStore) (history : List (RocksEnv × RocksCall)) : RocksStore :=
  history.foldl (step inst) s

end RocksStore

end Shrt.Rocks
