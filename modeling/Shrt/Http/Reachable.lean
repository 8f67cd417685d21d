import Mathlib.Data.List.Basic
import Shrt.Backends.Held
import Shrt.Http.Expiry
import Shrt.Http.Stores

/-!
# Redirects to accepted aliases

An alias passes one check when a link is created and many more when it is asked for: the
fixed routes come first, and one of them lies where an alias may lie.  Between the two
requests the store, whichever it is, may do anything that does not touch the link, and so
may all that share its directory or its server.
-/

namespace Shrt.Store

open Shrt.Codec Shrt.Lib Shrt.Lib.Utf8 Shrt.Lib.Framing Shrt.Lib.Runs

/-- The states of a store that was opened in any directory or is kept in memory,
after any calls and whatever is done to its directory meanwhile. -/
inductive World.Possible : World → Prop where
  | memory : Possible .memory
  | opened (env : Env) (dir : Dir) (inst : Inst) (locked : Bool) :
      Possible ⟨(Inner.new env dir inst locked).1, (Inner.new env dir inst locked).2⟩
  | step {w : World} (possible : Possible w) (call : Env × Call) : Possible (w.step call)
  | elsewhere {w : World} (possible : Possible w) (dir : Dir) : Possible ⟨w.store, dir⟩

theorem World.Possible.outward {w : World} (possible : w.Possible) : w.Outward := by
  induction possible with
  | memory => rfl
  | opened env dir inst locked => exact lookup_readers_new env dir inst locked
  | step possible call ih => exact ih.step call
  | elsewhere possible dir ih => exact ih

end Shrt.Store

namespace Shrt.Backends

open Shrt.Codec Shrt.Lib Shrt.Lib.Utf8 Shrt.Kv Shrt.Rocks
open Shrt.Http (StoreCall Ops localOps step_of_shorten step_of_shortenMany)
open Shrt.Store (World Settled Dir)
open Shrt.Store.Inner (expiry)

namespace Store

/-- Any state of a store; an in-process one was opened before. -/
def Possible : Store → Prop
  | .localStore w => w.Possible
  | .kvStore _ => True
  | .rocksStore _ _ => True

/-- Others write in the directory of the store. -/
def inDirectory (dir : Dir) : Store → Store
  | .localStore w => .localStore ⟨w.store, dir⟩
  | s => s

/-- Others write on the server of the store. -/
def onServer (kv : Redis) : Store → Store
  | .kvStore s => .kvStore { s with kv := kv }
  | s => s

/-- The cache that reads are served from. -/
def cache? : Store → Option Lru
  | .localStore _ => none
  | .kvStore s => some s.cache
  | .rocksStore _ s => some s.cache

/-- A server that evicts rows gets them at a time past the zero of the clock, which has not gone
back since the call read it. -/
def Steady (env : StoreEnv) : Store → Prop
  | .localStore _ => True
  | .kvStore s => s.layout = .key → 0 ≤ env.clock 0 ∧ env.clock 0 ≤ env.clock 1
  | .rocksStore _ _ => True

/-! ## What leaves a link alone -/

/-- A call revises no link of the code, and neither reads a line of a sibling that claims
the code nor draws the code for a row that it writes without looking. -/
def Leaves (code : String) (env : StoreEnv) (call : StoreCall) (s : Store) : Prop :=
  call.revises ≠ some code ∧
    match s with
    | .localStore w => ∀ c, call = .resolve c → w.Unclaimed env.own (.resolve c) code
    | .kvStore _ => True
    | .rocksStore inst _ => ∀ urls ttl, call = .shortenMany urls ttl →
        code ∉ (env.own.rng.take urls.length).map (Rocks.genCode inst)

/-- A thread reads no line of a sibling that claims the code; the store is alone in its
directory when it restarts. -/
def Quiet (code : String) (env : StoreEnv) (job : Work) : Store → Prop
  | .localStore w => (job = .pollTails → w.Unclaimed env.own .poll code) ∧
      (job = .restart → Settled w)
  | .kvStore _ => True
  | .rocksStore _ _ => True

/-- A server or a database is not used at a time past the expiry. -/
def Within (e : Int64) (env : StoreEnv) : Store → Prop
  | .localStore _ => True
  | .kvStore _ => ∀ t, past e (env.clock t) = false
  | .rocksStore _ _ => ∀ t, past e (env.clock t) = false

theorem Within.of_clock {e : Int64} {env : StoreEnv} {s : Store}
    (current : ∀ t, past e (env.clock t) = false) : s.Within e env := by
  cases s with
  | localStore w => trivial
  | kvStore s => exact current
  | rocksStore inst s => exact current

/-- What others leave on the server has the row of the code as it was. -/
def Untouched (code : String) (kv : Redis) : Store → Prop
  | .localStore _ => True
  | .kvStore s =>
      (s.layout = .hash → kv.hget (bkey code s.buckets) (encode code) =
        s.kv.hget (bkey code s.buckets) (encode code)) ∧
      (s.layout = .key → kv.strings.lookup (lkey code) = s.kv.strings.lookup (lkey code))
  | .rocksStore _ _ => True

instance (code : String) (kv : Redis) : ∀ s : Store, Decidable (s.Untouched code kv)
  | .localStore _ => inferInstanceAs (Decidable True)
  | .kvStore _ => inferInstanceAs (Decidable (_ ∧ _))
  | .rocksStore _ _ => inferInstanceAs (Decidable True)

/-! ## The link -/

def Holds (code : String) (link : Word) (before : Option CacheEntry) (ttl : Int64) : Store → Prop
  | .localStore w => w.Outward ∧ w.Links code link.u link.e
  | .kvStore s => KvHolds code link before ttl s
  | .rocksStore _ s => RocksHolds code link before ttl s

end Store

/-- What is embedded does what the call says. -/
theorem run_embeds {σ τ : Type} {emb : σ → τ} {ops : Ops σ} {ops' : Ops τ}
    (embeds : Embeds emb ops ops') (call : StoreCall) (s : σ) :
    call.run ops' (emb s) = emb (call.run ops s) := by
  cases call with
  | resolve code => exact congrArg Prod.snd (embeds.resolve s code)
  | shorten url aliasCode ttl =>
      simp only [StoreCall.run, embeds.shorten]
      cases ops.shorten s url aliasCode ttl with
      | none => rfl
      | some result => rfl
  | shortenMany urls ttl =>
      simp only [StoreCall.run, embeds.shortenMany]
      cases ops.shortenMany s urls ttl with
      | none => rfl
      | some result => rfl
  | update code url ttl hasTtl => exact congrArg Prod.snd (embeds.update s code url ttl hasTtl)
  | remove code => exact congrArg Prod.snd (embeds.remove s code)

theorem embeds_local (env : StoreEnv) : Embeds .localStore (localOps env.own) (Store.ops env) :=
  ⟨fun _ _ => rfl, fun _ _ _ _ => rfl, fun _ _ _ => rfl, fun _ _ _ _ _ => rfl, fun _ _ => rfl⟩

theorem embeds_kv (env : StoreEnv) : Embeds .kvStore (kvOps env.kv env.scan) (Store.ops env) :=
  ⟨fun _ _ => rfl, fun _ _ _ _ => rfl, fun _ _ _ => rfl, fun _ _ _ _ _ => rfl, fun _ _ => rfl⟩

/-- A call on the in-process store is one of its own, or creates nothing. -/
theorem holds_run_local {code url : String} {e : Int64} {w : World}
    (outward : w.Outward) (linked : w.Links code url e) {env : StoreEnv} {call : StoreCall}
    (wellFormed : call.Plain) (spared : call.revises ≠ some code)
    (unclaimed : ∀ c, call = .resolve c → w.Unclaimed env.own (.resolve c) code) :
    (call.run (localOps env.own) w).Outward ∧ (call.run (localOps env.own) w).Links code url e := by
  have moved : ∀ call : Shrt.Store.Call, call ≠ .restart → call.revises ≠ some code →
      w.Unclaimed env.own call code →
      (w.step (env.own, call)).Outward ∧ (w.step (env.own, call)).Links code url e :=
    fun call stays kept silent =>
      ⟨outward.step _, linked.step outward kept silent fun again => absurd again stays⟩
  cases call with
  | resolve c =>
      exact moved (.resolve c) (by simp) (by simp [Shrt.Store.Call.revises]) (unclaimed c rfl)
  | shorten u aliasCode ttl =>
      simp only [StoreCall.run]
      cases done : (localOps env.own).shorten w u aliasCode ttl with
      | none => exact ⟨outward, linked⟩
      | some result =>
          obtain ⟨checked, same⟩ := step_of_shorten wellFormed done
          rw [Option.map_some, Option.getD_some, same]
          exact moved (.shorten u checked ttl) (by simp) (by simp [Shrt.Store.Call.revises])
            (.of_deaf rfl code)
  | shortenMany urls ttl =>
      simp only [StoreCall.run]
      cases done : (localOps env.own).shortenMany w urls ttl with
      | none => exact ⟨outward, linked⟩
      | some result =>
          rw [Option.map_some, Option.getD_some, step_of_shortenMany done]
          exact moved (.shortenMany urls ttl) (by simp) (by simp [Shrt.Store.Call.revises])
            (.of_deaf rfl code)
  | update c u ttl hasTtl => exact moved (.update c u ttl hasTtl) (by simp) spared (.of_deaf rfl code)
  | remove c => exact moved (.remove c) (by simp) spared (.of_deaf rfl code)

namespace Store.Holds

variable {code : String} {link : Word} {before : Option CacheEntry} {ttl : Int64} {s : Store}
variable {env : StoreEnv}

/-- The call of a request. -/
theorem run (plain : Plain code) (holds : s.Holds code link before ttl)
    (within : s.Within link.e env) {call : StoreCall} (wellFormed : call.Plain)
    (leaves : s.Leaves code env call) : (call.run (Store.ops env) s).Holds code link before ttl := by
  obtain ⟨spared, rest⟩ := leaves
  cases s with
  | localStore w =>
      rw [run_embeds (embeds_local env)]
      exact holds_run_local holds.1 holds.2 wellFormed spared rest
  | kvStore s =>
      rw [run_embeds (embeds_kv env)]
      have held : KvHolds code link before ttl s := holds
      have current : ∀ t, past link.e (env.kv.clock t) = false := within
      exact held.run plain current env.scan wellFormed spared
  | rocksStore inst s =>
      rw [run_embeds (embeds_rocks inst env)]
      have held : RocksHolds code link before ttl s := holds
      have current : ∀ t, past link.e (env.rocks.clock t) = false := within
      exact held.run current inst env.own.rng env.own.dirtyOrder spared rest

theorem list (holds : s.Holds code link before ttl) (within : s.Within link.e env)
    (limit offset : Nat) (byHits : Bool) (q : String) :
    (s.list env limit offset byHits q).2.Holds code link before ttl := by
  cases s with
  | localStore w => exact holds
  | kvStore s =>
      have held : KvHolds code link before ttl s := holds
      have current : ∀ t, past link.e (env.kv.clock t) = false := within
      exact held.list current env.scan limit offset (if byHits then "hits" else "created") q
  | rocksStore inst s =>
      have held : RocksHolds code link before ttl s := holds
      exact held.flushHits env.own.dirtyOrder

theorem stats (holds : s.Holds code link before ttl) (within : s.Within link.e env) (c : String) :
    (s.stats env c).2.Holds code link before ttl := by
  cases s with
  | localStore w => exact holds
  | kvStore s =>
      have held : KvHolds code link before ttl s := holds
      have current : ∀ t, past link.e (env.kv.clock t) = false := within
      exact (held.atStep (current 0)).atStep (current 1)
  | rocksStore inst s =>
      have held : RocksHolds code link before ttl s := holds
      have current : past link.e (env.rocks.clock 0) = false := within 0
      exact held.stats current c

theorem work (plain : Plain code) (holds : s.Holds code link before ttl)
    (within : s.Within link.e env) {job : Work} (quiet : s.Quiet code env job) :
    (s.work env job).Holds code link before ttl := by
  cases s with
  | localStore w =>
      have step : ∀ call : Shrt.Store.Call, call.revises ≠ some code →
          w.Unclaimed env.own call code → (call = .restart → Settled w) →
          (Store.localStore (w.step (env.own, call))).Holds code link before ttl :=
        fun call kept silent alone => ⟨holds.1.step _, holds.2.step holds.1 kept silent alone⟩
      cases job with
      | flush => exact step .flush (by simp [Shrt.Store.Call.revises]) (.of_deaf rfl code) nofun
      | compact => exact step .compact (by simp [Shrt.Store.Call.revises]) (.of_deaf rfl code) nofun
      | pollTails => exact step .poll (by simp [Shrt.Store.Call.revises]) (quiet.1 rfl) nofun
      | sweepExpired => exact holds
      | restart =>
          exact step .restart (by simp [Shrt.Store.Call.revises]) (.of_deaf rfl code)
            fun _ => quiet.2 rfl
  | kvStore s =>
      have held : KvHolds code link before ttl s := holds
      have current : ∀ t, past link.e (env.kv.clock t) = false := within
      cases job with
      | flush => exact held.flushHits plain (current 0)
      | compact => exact holds
      | pollTails => exact holds
      | sweepExpired => exact held.sweepExpired current
      | restart => exact held.restart plain (current 0)
  | rocksStore inst s =>
      have held : RocksHolds code link before ttl s := holds
      cases job with
      | flush => exact held.flushHits env.own.dirtyOrder
      | compact => exact held.compact (within 0) env.chosen
      | pollTails => exact holds
      | sweepExpired => exact holds
      | restart => exact held.restart env.own.dirtyOrder

theorem inDirectory (holds : s.Holds code link before ttl) (dir : Dir) :
    (s.inDirectory dir).Holds code link before ttl := by
  cases s with
  | localStore w => exact holds
  | kvStore s => exact holds
  | rocksStore inst s => exact holds

theorem onServer (holds : s.Holds code link before ttl) {kv : Redis}
    (untouched : s.Untouched code kv) : (s.onServer kv).Holds code link before ttl := by
  cases s with
  | localStore w => exact holds
  | kvStore s =>
      have held : KvHolds code link before ttl s := holds
      refine ⟨?_, fun layout => ?_, held.cache⟩
      · rw [kvWords_congr, held.row]
        cases layout : s.layout with
        | hash =>
            have same := untouched.1 layout
            simp only [KvStore.kvGet, layout, same]
        | key =>
            have same := untouched.2 layout
            simp only [KvStore.kvGet, layout, Redis.get, same]
      · intro c st found
        exact held.lasts layout c st (untouched.2 layout ▸ found)
  | rocksStore inst s => exact holds

/-- An alias that was just accepted. -/
theorem created {s' : Store} {url code' : String} {px : Int64} (ok : codeOk code = true)
    (possible : s.Possible)
    (done : (Store.ops env).shorten s url (some code) px = some (some code', s'))
    (steady : s.Steady env) :
    code' = code ∧ s'.Holds code ⟨url, expiry (env.clock 0) px⟩
      (s'.cache?.bind fun cache => cache.find code) (s'.cache?.elim 0 Lru.ttlMs) := by
  cases s with
  | localStore w =>
      obtain ⟨⟨made, w'⟩, called, same⟩ := Option.map_eq_some_iff.mp done
      cases same
      obtain ⟨stored, isAlias⟩ := Shrt.Http.lookup_shorten called
      have plain : ∀ a, some code = some a → codeOk a = true := by
        rintro a ⟨⟩
        exact ok
      obtain ⟨checked, moved⟩ := step_of_shorten plain called
      refine ⟨isAlias code rfl, ?_, _, isAlias code rfl ▸ stored, rfl, rfl⟩
      rw [moved]
      exact possible.outward.step _
  | kvStore s =>
      rw [(embeds_kv env).shorten] at done
      obtain ⟨⟨made, s'⟩, called, same⟩ := Option.map_eq_some_iff.mp done
      cases same
      exact KvHolds.created called steady
  | rocksStore inst s =>
      rw [(embeds_rocks inst env).shorten] at done
      obtain ⟨⟨made, s'⟩, called, same⟩ := Option.map_eq_some_iff.mp done
      cases same
      have made_so : s.shorten inst env.rocks env.own.rng url (some code) px =
          some (some code', s') := called
      exact RocksHolds.created made_so

/-- A resolve of the code answers the url of the link. -/
theorem shown (holds : s.Holds code link before ttl)
    (current : ∀ t, past link.e (env.clock t) = false)
    (other : ∀ ent, before = some ent → ent.u = link.u ∨
      Unserved ttl (env.clock 0) (env.clock 1) ent) :
    ((Store.ops env).resolve s code).1 = some link.u := by
  cases s with
  | localStore w =>
      obtain ⟨-, e, found, url, expires⟩ := holds
      have live : Shrt.Store.Inner.live e (env.own.clock 0) = true := by
        have early : past e.e (env.own.clock 0) = false := expires ▸ current 0
        rw [past, Bool.and_eq_false_iff] at early
        rw [Shrt.Store.Inner.live, Bool.or_eq_true]
        rcases early with never | later
        · exact Or.inl (by simpa using never)
        · exact Or.inr (decide_eq_true (Int64.not_le.mp (of_decide_eq_false later)))
      change (w.store.resolve env.own w.dir code).1 = some link.u
      rw [Shrt.Store.Inner.resolve, found]
      simp only [live, if_true, url]
  | kvStore s =>
      have held : KvHolds code link before ttl s := holds
      have within : ∀ t, past link.e (env.kv.clock t) = false := current
      exact held.shown within other
  | rocksStore inst s =>
      have held : RocksHolds code link before ttl s := holds
      have within : past link.e (env.rocks.clock 2) = false := current 2
      exact held.shown within other

end Store.Holds

end Shrt.Backends

namespace Shrt.Http

open Shrt.Codec Shrt.Lib Shrt.Lib.Utf8 Shrt.Lib.Runs Shrt.Kv
open Shrt.Backends
open Shrt.Store (Dir World)
open Shrt.Store.Inner (expiry)

/-! ## Runs -/

/-- What happens to a store: a request, the work of a thread or a clean restart, or something
that others do in its directory or on its server. -/
inductive Happening where
  | turn (t : Turn)
  | directory (dir : Dir)
  | server (kv : Redis)

section Happenings

variable (ext : Ext) (cfg : Config)

def Ask.storeCall (a : Ask) : Option StoreCall :=
  Http.storeCall ext cfg a.out a.method a.path a.body a.token a.client

def Happening.step (s : Store) : Happening → Store
  | .turn t => turned ext cfg s t
  | .directory dir => s.inDirectory dir
  | .server kv => s.onServer kv

/-- Nothing that happens revises or replaces the link of the code. -/
def Spares (code : String) (e : Int64) (s : Store) : Happening → Prop
  | .turn (.ask a) =>
      s.Within e a.env ∧ ∀ call, a.storeCall ext cfg = some call → s.Leaves code a.env call
  | .turn (.work env job) => s.Within e env ∧ s.Quiet code env job
  | .directory _ => True
  | .server kv => s.Untouched code kv

variable {ext cfg}

theorem within_run {e : Int64} {env : StoreEnv} {s : Store} (call : StoreCall)
    (within : s.Within e env) : (call.run (Store.ops env) s).Within e env := by
  cases s with
  | localStore w =>
      rw [run_embeds (embeds_local env)]
      trivial
  | kvStore s =>
      rw [run_embeds (embeds_kv env)]
      exact within
  | rocksStore inst s =>
      rw [run_embeds (embeds_rocks inst env)]
      exact within

/-- What a listing or a look at the counts leaves. -/
theorem holds_looked {code : String} {link : Word} {before : Option CacheEntry} {ttl : Int64}
    {s : Store} {a : Ask} (holds : s.Holds code link before ttl) (within : s.Within link.e a.env) :
    (a.looked ext s).Holds code link before ttl := by
  rw [Ask.looked]
  split
  · exact holds
  split
  · exact holds.list within _ _ _ _
  split
  · exact holds.stats within _
  · exact holds

/-- The step lemma. -/
theorem holds_step {code : String} {link : Word} {before : Option CacheEntry} {ttl : Int64}
    {s : Store} {happening : Happening} (plain : Plain code) (holds : s.Holds code link before ttl)
    (spares : Spares ext cfg code link.e s happening) :
    (happening.step ext cfg s).Holds code link before ttl := by
  cases happening with
  | turn t =>
      cases t with
      | ask a =>
          obtain ⟨within, leaves⟩ := spares
          have obeyed : (a.handled ext cfg s).store s =
              (a.storeCall ext cfg).elim s fun call => call.run (Store.ops a.env) s :=
            store_route _ _ _ _ _ _ _
          rw [Happening.step, turned, obeyed]
          cases told : a.storeCall ext cfg with
          | none => exact holds_looked holds within
          | some call =>
              have after := holds.run plain within (storeCall_plain told) (leaves call told)
              exact holds_looked after (within_run call within)
      | work env job => exact holds.work plain spares.1 spares.2
  | directory dir => exact holds.inDirectory dir
  | server kv => exact holds.onServer spares

/-- A link that was created under an alias is what a request for the alias is sent to, as long
as it lives, exactly when the alias is not the name of a fixed route.  In between the store may
do anything that spares the link.  What its cache had under the alias may be served no more. -/
theorem alias_reachable_iff {s s' : Store} (possible : s.Possible) {a : Ask} {code url : String}
    {p : ShortenReq} {reply : Reply} (posts : a.method = "POST")
    (shorten : (splitQuery a.path).1 = "/api/shorten") (decoded : ext.shortenReq a.body = some p)
    (named : p.aliasCode = some code) (asked : p.url = some url)
    (answered : a.handled ext cfg s = .replied reply s') (accepted : reply.status = 201)
    (steady : s.Steady a.env) {history : List Happening}
    (spares : Along (Happening.step ext cfg)
      (Spares ext cfg code (expiry (a.env.clock 0) (cappedTtl cfg p))) s' history)
    {final : Ask} (fetches : final.method = "GET") (fetched : (splitQuery final.path).1 = "/" ++ code)
    (alive : ∀ t, past (expiry (a.env.clock 0) (cappedTtl cfg p)) (final.env.clock t) = false)
    (unserved : ∀ cache ent, s'.cache? = some cache → cache.find code = some ent →
      ent.u = url ∨ Unserved cache.ttlMs (final.env.clock 0) (final.env.clock 1) ent) :
    (∃ s'', final.handled ext cfg (history.foldl (Happening.step ext cfg) s') =
        .replied ⟨302, some url, [], none⟩ s'') ↔ code ≠ "metrics" := by
  rw [Ask.handled, posts] at answered
  obtain ⟨p', url', code', decoded', made, -⟩ := made_of_route shorten answered accepted
  cases decoded.symm.trans decoded'
  cases asked.symm.trans made.asked
  have ok : codeOk code = true := made.plain code named
  have shortened := made.shortened
  rw [named] at shortened
  obtain ⟨-, start⟩ := Store.Holds.created ok possible shortened steady
  have holds := spares.invariant (fun _ _ => holds_step (.of_codeOk ok)) start
  have other : ∀ ent, (s'.cache?.bind fun cache => cache.find code) = some ent →
      ent.u = url ∨ Unserved (s'.cache?.elim 0 Lru.ttlMs) (final.env.clock 0)
        (final.env.clock 1) ent := by
    intro ent found
    obtain ⟨cache, here, there⟩ := Option.bind_eq_some_iff.mp found
    rw [here]
    exact unserved cache ent here there
  have resolved := holds.shown alive other
  generalize history.foldl (Happening.step ext cfg) s' = now at resolved ⊢
  rw [Ask.handled, route, fetches, if_neg (by decide), if_pos rfl, fetched,
    routeGet_alias ext cfg final.out _ now ok, resolved, Option.elim_some]
  constructor
  · rintro ⟨s'', same⟩ isRoute
    rw [if_pos isRoute] at same
    cases same
  · intro free
    exact ⟨_, if_neg free⟩

end Happenings

theorem replied_of_reply? {σ : Type} {handled : Handled σ} {reply : Reply}
    (answered : handled.reply? = some reply) (s : σ) :
    handled = .replied reply (handled.store s) := by
  cases handled with
  | replied reply' s' =>
      cases answered
      rfl
  | panicked => cases answered
  | drawing => cases answered

/-- A node that resolved an older link of the alias, which another node removed. -/
def forgetful : Store :=
  .kvStore { KvStore.fresh 0 .key eightBuckets 100 5000 with
    cache := (Lru.new 100 5000).put 900 "promo" "https://old.example" 0 }

/-- The server with the alias of this node and one of another. -/
def sharedServer : Redis :=
  let promo := (Redis.empty.set 1000 (lkey "promo")
    (encVal 86401000 1000 "https://a.example") 86400000 true).2
  (promo.set 1005 (lkey "sale") (encVal 0 1005 "https://b.example") 0 true).2

/-- Another node makes a link, which this one looks up and removes. -/
def shared : List Happening :=
  [.server sharedServer, .turn (.ask (askAt 1010 "GET" "/sale" "" "")),
   .turn (.ask (askAt 1020 "DELETE" "/api/links/sale" "" "secret")),
   .turn (.work (.at 1025 []) .flush)]

theorem alias_reachable_promo :
    let creation := (askAt 1000 "POST" "/api/shorten" "https://a.example" "").handled anyUrl
      openConfig forgetful
    creation.reply? = some (created "promo") ∧
      ∃ s, (askAt 7000 "GET" "/promo" "" "").handled anyUrl openConfig
        (shared.foldl (Happening.step anyUrl openConfig) (creation.store forgetful)) =
          .replied ⟨302, some "https://a.example", [], none⟩ s := by
  intro creation
  have accepted : creation.reply? = some (created "promo") := by
    decide +kernel
  have found : (askAt 1010 "GET" "/sale" "" "").storeCall anyUrl openConfig =
      some (.resolve "sale") := by
    decide +kernel
  have removed : (askAt 1020 "DELETE" "/api/links/sale" "" "secret").storeCall anyUrl openConfig =
      some (.remove "sale") := by
    decide +kernel
  have untouched : (creation.store forgetful).Untouched "promo" sharedServer := by
    decide +kernel
  have spares : Along (Happening.step anyUrl openConfig)
      (Spares anyUrl openConfig "promo" 86401000) (creation.store forgetful) shared := by
    refine ⟨untouched, ⟨.of_clock fun _ => (by decide : past 86401000 1010 = false), ?_⟩,
      ⟨.of_clock fun _ => (by decide : past 86401000 1020 = false), ?_⟩,
      ⟨.of_clock fun _ => (by decide : past 86401000 1025 = false), trivial⟩, trivial⟩
    · rintro call told
      cases found.symm.trans told
      refine ⟨?_, trivial⟩
      decide
    · rintro call told
      cases removed.symm.trans told
      refine ⟨?_, trivial⟩
      decide
  have old : (creation.store forgetful).cache?.map (fun cache => (cache.find "promo", cache.ttlMs)) =
      some (some ⟨"https://old.example", 0, 900⟩, 5000) := by
    decide +kernel
  have possible : forgetful.Possible := trivial
  have alive : past 86401000 7000 = false := by decide
  have unserved : ∀ cache ent, (creation.store forgetful).cache? = some cache →
      cache.find "promo" = some ent →
      ent.u = "https://a.example" ∨ Unserved cache.ttlMs 7000 7000 ent := by
    intro cache ent isCache kept
    rw [isCache, Option.map_some, kept, Option.some.injEq, Prod.mk.injEq, Option.some.injEq] at old
    rw [old.1, old.2]
    exact Or.inr (by decide)
  have reached : (∃ s, (askAt 7000 "GET" "/promo" "" "").handled anyUrl openConfig
      (shared.foldl (Happening.step anyUrl openConfig) (creation.store forgetful)) =
        .replied ⟨302, some "https://a.example", [], none⟩ s) ↔ "promo" ≠ "metrics" :=
    alias_reachable_iff possible (p := ⟨some "https://a.example", some "promo", none⟩)
      rfl (by decide +kernel) (by simp [anyUrl, askAt]) rfl rfl
      (replied_of_reply? accepted forgetful) rfl (fun _ => by decide) spares rfl (by decide +kernel)
      (fun _ => alive) unserved
  exact ⟨accepted, reached.mpr (by decide)⟩

/-- The name of a fixed route is accepted as an alias, and the link is out of reach. -/
theorem metrics_unreachable :
    let ext := { anyUrl with
      shortenReq := fun body => (decode? body).map fun url => ⟨some url, some "metrics", none⟩ }
    let s := Store.localStore (World.fresh (.at 0 []) 0)
    let creation := (askAt 1000 "POST" "/api/shorten" "https://a.example" "").handled ext
      openConfig s
    codeOk "metrics" = true ∧ creation.reply?.map Reply.status = some 201 ∧
      ((creation.store s).stats (.at 1500 []) "metrics").1.map
          (fun link => (link.url, link.expiresAt)) =
        some ("https://a.example", some 86401000) ∧
      ((askAt 2000 "GET" "/metrics" "" "").handled ext openConfig (creation.store s)).reply?.map
        (fun reply => (reply.status, reply.location)) = some (200, none) := by
  decide +kernel

end Shrt.Http
