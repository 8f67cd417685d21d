import Mathlib.Data.List.Basic
import Shrt.Backends.KvWords
import Shrt.Backends.LocalWords
import Shrt.Backends.RocksWords

/-!
# One handle on three stores

Every call goes to the store that is behind the handle.  Whichever it is, calls, threads
and restarts read and write the words that it reflects.
-/

namespace Shrt.Backends

open Shrt.Codec Shrt.Lib Shrt.Lib.Utf8 Shrt.Kv Shrt.Rocks
open Shrt.Http (Ops localOps)
open Shrt.Store (World Env MutResult Link Settled hitsSettled_fresh new_alone)
open Shrt.Store.Inner (expiry)

inductive Store where
  | localStore (w : World)
  | kvStore (s : KvStore)
  | rocksStore (inst : Inst) (s : RocksStore)

/-- What a call is given from outside, whichever store it goes to: besides what the
in-process store needs, the keys that the server evicts, the order of its scans, and the
rows that a compaction reaches. -/
structure StoreEnv where
  own : Env
  evicts : Nat → Bytes → Bool
  scan : Scan
  chosen : Bytes → Bool

namespace StoreEnv

def clock (env : StoreEnv) : Nat → Int64 :=
  env.own.clock

def kv (env : StoreEnv) : KvEnv where
  clock := env.clock
  evicts := env.evicts
  rng := env.own.rng
  trackHits := env.own.trackHits
  dirtyOrder := env.own.dirtyOrder

def rocks (env : StoreEnv) : RocksEnv where
  clock := env.clock

end StoreEnv

/-- A call at one fixed time, with nothing evicted and every row reached. -/
def StoreEnv.at (now : Int64) (rng : List Suffix) : StoreEnv where
  own := .at now rng
  evicts _ _ := false
  scan := ⟨id, fun _ fields => fields⟩
  chosen _ := true

/-- What the threads of a process do, and its restart. -/
inductive Work where
  | flush
  | compact
  | pollTails
  | sweepExpired
  | restart
  deriving DecidableEq, Repr

namespace Store

variable (env : StoreEnv) (s : Store)

def resolve (code : String) : Option String × Store :=
  match s with
  | .localStore w => ((localOps env.own).resolve w code).map id .localStore
  | .kvStore s => (s.resolve env.kv code).map id .kvStore
  | .rocksStore inst s => (s.resolve env.rocks code).map id (.rocksStore inst)

def shorten (url : String) (aliasCode : Option String) (ttl : Int64) :
    Option (Option String × Store) :=
  match s with
  | .localStore w => ((localOps env.own).shorten w url aliasCode ttl).map (.map id .localStore)
  | .kvStore s => (s.shorten env.kv url aliasCode ttl).map (.map id .kvStore)
  | .rocksStore inst s =>
      (s.shorten inst env.rocks env.own.rng url aliasCode ttl).map (.map id (.rocksStore inst))

def shortenMany (urls : List String) (ttl : Int64) : Option (List String × Store) :=
  match s with
  | .localStore w => ((localOps env.own).shortenMany w urls ttl).map (.map id .localStore)
  | .kvStore s => (s.shortenMany env.kv urls ttl).map (.map id .kvStore)
  | .rocksStore inst s =>
      (s.shortenMany inst env.rocks env.own.rng urls ttl).map (.map id (.rocksStore inst))

def update (code url : String) (ttl : Int64) (hasTtl : Bool) : MutResult × Store :=
  match s with
  | .localStore w => ((localOps env.own).update w code url ttl hasTtl).map id .localStore
  | .kvStore s => (s.update env.kv code url ttl hasTtl).map id .kvStore
  | .rocksStore inst s => (s.update env.rocks code url ttl hasTtl).map id (.rocksStore inst)

def remove (code : String) : MutResult × Store :=
  match s with
  | .localStore w => ((localOps env.own).remove w code).map id .localStore
  | .kvStore s => (s.remove env.kv code).map id .kvStore
  | .rocksStore inst s => (s.remove env.rocks code).map id (.rocksStore inst)

def list (limit offset : Nat) (byHits : Bool) (q : String) : (List Link × Nat) × Store :=
  let sort := if byHits then "hits" else "created"
  match s with
  | .localStore w => ((localOps env.own).list w limit offset byHits q, s)
  | .kvStore s => (s.list env.kv env.scan limit offset sort q).map id .kvStore
  | .rocksStore inst s =>
      (s.list env.own.dirtyOrder env.rocks limit offset sort q).map id (.rocksStore inst)

def stats (code : String) : Option Link × Store :=
  match s with
  | .localStore w => ((localOps env.own).stats w code, s)
  | .kvStore s => (s.stats env.kv code).map id .kvStore
  | .rocksStore inst s => (s.stats env.rocks code).map id (.rocksStore inst)

def ops : Ops Store where
  healthy _ := true
  resolve := resolve env
  stats s code := (s.stats env code).1
  list s limit offset byHits q := (s.list env limit offset byHits q).1
  shorten := shorten env
  shortenMany := shortenMany env
  update := update env
  remove := remove env

/-- `flush`, `compact` and `poll_tails`, the sweep of the janitor, and `close` with the next
`open`. -/
def work (job : Work) : Store :=
  match s, job with
  | .localStore w, .flush => .localStore (w.step (env.own, .flush))
  | .localStore w, .compact => .localStore (w.step (env.own, .compact))
  | .localStore w, .pollTails => .localStore (w.step (env.own, .poll))
  | .localStore w, .sweepExpired => .localStore w
  | .localStore w, .restart => .localStore (w.step (env.own, .restart))
  | .kvStore s, .flush => .kvStore (s.flushHits env.kv)
  | .kvStore s, .compact => .kvStore s
  | .kvStore s, .pollTails => .kvStore s
  | .kvStore s, .sweepExpired => .kvStore (s.sweepExpired env.kv)
  | .kvStore s, .restart => .kvStore (kvRestart env.kv s)
  | .rocksStore inst s, .flush => .rocksStore inst (s.flushHits env.own.dirtyOrder)
  | .rocksStore inst s, .compact => .rocksStore inst (compacted (env.clock 0) env.chosen s)
  | .rocksStore inst s, .pollTails => .rocksStore inst s
  | .rocksStore inst s, .sweepExpired => .rocksStore inst s
  | .rocksStore inst s, .restart => .rocksStore inst (rocksRestart env.own.dirtyOrder s)

/-- The expiry that an update with a time to live sets. -/
def renewed : Int64 → Int64 → Int64 :=
  match s with
  | .localStore _ => expiry
  | .kvStore _ => expiry
  | .rocksStore _ _ => Backends.renewed

/-- The embedded database is about to draw codes that are free. -/
def Unused (n : Nat) : Prop :=
  match s with
  | .localStore _ => True
  | .kvStore _ => True
  | .rocksStore inst s => Backends.Unused inst env.own.rng s n

end Store

/-! ## The words behind the handle -/

/-- The calls on what is embedded are the calls on the other side. -/
structure Embeds {σ τ : Type} (emb : σ → τ) (ops : Ops σ) (ops' : Ops τ) : Prop where
  resolve : ∀ s code, ops'.resolve (emb s) code = (ops.resolve s code).map id emb
  shorten : ∀ s url aliasCode ttl,
    ops'.shorten (emb s) url aliasCode ttl = (ops.shorten s url aliasCode ttl).map (.map id emb)
  shortenMany : ∀ s urls ttl,
    ops'.shortenMany (emb s) urls ttl = (ops.shortenMany s urls ttl).map (.map id emb)
  update : ∀ s code url ttl hasTtl,
    ops'.update (emb s) code url ttl hasTtl = (ops.update s code url ttl hasTtl).map id emb
  remove : ∀ s code, ops'.remove (emb s) code = (ops.remove s code).map id emb

theorem embeds_rocks (inst : Inst) (env : StoreEnv) :
    Embeds (.rocksStore inst) (rocksOps inst env.rocks env.own.rng env.own.dirtyOrder)
      (Store.ops env) where
  resolve _ _ := rfl
  shorten _ _ _ _ := rfl
  shortenMany _ _ _ := rfl
  update _ _ _ _ _ := rfl
  remove _ _ := rfl

end Shrt.Backends
