import Mathlib.Data.List.Basic
import Shrt.Http.Local
import Shrt.Limiter.Throughput
import Shrt.Prometheus

/-!
# The process around the store

The handler of one process: the store behind the calls that keep the gauge of links,
the rate limiter, and the counters of the requests.  What its page of metrics says of a
run of requests is so, and no client makes more links than the limiter has tokens for.
-/

namespace Shrt.Http

open Shrt.Codec Shrt.Lib Shrt.Lib.Utf8 Shrt.Lib.Runs
open Shrt.Store
open Shrt.Limiter (RateLimiter)

/-- The calls of `Store`, which keep the gauge of links. -/
def counted {σ : Type} (ops : Ops σ) : Ops (σ × Int64) where
  healthy s := ops.healthy s.1
  resolve s code :=
    let done := ops.resolve s.1 code
    (done.1, done.2, s.2)
  stats s := ops.stats s.1
  list s := ops.list s.1
  shorten s url aliasCode ttl :=
    (ops.shorten s.1 url aliasCode ttl).map fun done =>
      (done.1, done.2, if done.1.isSome then s.2 + 1 else s.2)
  shortenMany s urls ttl :=
    (ops.shortenMany s.1 urls ttl).map fun done =>
      (done.1, done.2, s.2 + Int64.ofNat done.1.length)
  update s code url ttl hasTtl :=
    let done := ops.update s.1 code url ttl hasTtl
    (done.1, done.2, s.2)
  remove s code :=
    let done := ops.remove s.1 code
    (done.1, done.2, if done.1 = .ok then s.2 + -1 else s.2)

/-- The tokens that a request asks the limiter for, if it asks. -/
def limiterCost (ext : Ext) (method pathname : String) (body : Bytes) : Option Nat :=
  if method = "POST" then
    if pathname = "/api/shorten" then (ext.shortenReq body).map fun _ => 1
    else if pathname = "/api/shorten/bulk" then
      (ext.bulkReq body).map fun p => max (p.urls.getD []).length 1
    else none
  else none

def refused (ext : Ext) (allow : String → Nat → Bool) (method pathname : String) (body : Bytes)
    (client : String) : Bool :=
  (limiterCost ext method pathname body).any fun cost => !allow client cost

/-- The number of the operation that a request is counted as. -/
def countedOp (ext : Ext) (cfg : Config) (limited : Bool) (method pathname : String)
    (body : Bytes) (token : String) : Option Nat :=
  if method = "GET" then
    if pathname = "/api/health" then some 7
    else if pathname = "/api/metrics" then some 8
    else if pathname = "/metrics" then some 8
    else if pathname = "/" then some 9
    else if pathname = "/api/links" then some 5
    else if (stripPrefix? "/api/stats/" pathname).isSome then some 6
    else if (tail? pathname).any codeOk then some 0
    else none
  else if method = "POST" then
    if pathname ≠ "/api/shorten" ∧ pathname ≠ "/api/shorten/bulk" then some 10
    else if limited then some 10
    else if pathname = "/api/shorten" then (ext.shortenReq body).map fun _ => 1
    else (ext.bulkReq body).map fun _ => 2
  else if method = "PATCH" ∨ method = "DELETE" then
    match stripPrefix? "/api/links/" pathname with
    | none => none
    | some code =>
        if !adminOk cfg token || !codeOk code then none
        else if method = "DELETE" then some 4
        else
          (ext.patchReq body).bind fun p =>
            if p.url.any (isValidUrl ext) then some 3 else none
  else none

/-- A request with everything around it: what the store is given, the readings of the clock
of the limiter, of the tick and of the page, and the text of the other metrics. -/
structure Arrival where
  env : Env
  limiterNow : UInt64
  tickNow : Int64
  pageNow : Int64
  json : Bytes
  method : String
  path : String
  body : Bytes
  token : String
  client : String

structure Process where
  world : World
  limiter : RateLimiter ℚ
  window : Metrics
  counters : Counters

namespace Process

/-- What the limiter says. -/
def allow (p : Process) (a : Arrival) (client : String) (cost : Nat) : Bool :=
  (p.limiter.allow a.limiterNow client cost).1

def limiterAfter (ext : Ext) (p : Process) (a : Arrival) : RateLimiter ℚ :=
  match limiterCost ext a.method (splitQuery a.path).1 a.body with
  | none => p.limiter
  | some cost => (p.limiter.allow a.limiterNow a.client cost).2

/-- The counters before the store is called. -/
def countersAt (ext : Ext) (cfg : Config) (p : Process) (a : Arrival) : Counters :=
  let pathname := (splitQuery a.path).1
  let limited := refused ext (p.allow a) a.method pathname a.body a.client
  let c := (countedOp ext cfg limited a.method pathname a.body a.token).elim p.counters
    p.counters.countOp
  if limited then c.countLimited else c

def outside (ext : Ext) (cfg : Config) (p : Process) (a : Arrival) : Outside where
  allow := p.allow a
  metrics := a.json
  prometheus := prometheus (p.countersAt ext cfg a) ((a.pageNow - p.window.started) / 1000)

def routed (ext : Ext) (cfg : Config) (p : Process) (a : Arrival) : Handled (World × Int64) :=
  route ext cfg (p.outside ext cfg a) (counted (localOps a.env)) (p.world, p.counters.linksTotal)
    a.method a.path a.body a.token a.client

/-- `handle`: the reply, if there is one, and the process after it. -/
def handle (ext : Ext) (cfg : Config) (p : Process) (a : Arrival) : Option Reply × Process :=
  let h := p.routed ext cfg a
  let after := h.store (p.world, p.counters.linksTotal)
  let c := { p.countersAt ext cfg a with linksTotal := after.2 }
  (h.reply?,
    { world := after.1
      limiter := p.limiterAfter ext a
      window := p.window.tick a.tickNow
      counters := h.reply?.elim c fun reply => c.countStatus reply.status })

def step (ext : Ext) (cfg : Config) (p : Process) (a : Arrival) : Process :=
  (p.handle ext cfg a).2

def run (ext : Ext) (cfg : Config) (p : Process) (arrivals : List Arrival) : Process :=
  arrivals.foldl (step ext cfg) p

def replies (ext : Ext) (cfg : Config) : Process → List Arrival → List Reply
  | _, [] => []
  | p, a :: arrivals =>
      (p.handle ext cfg a).1.toList ++ replies ext cfg (p.step ext cfg a) arrivals

end Process

/-! ## What a request does -/

section Passed

variable {σ : Type}

/-- What a request that the limiter let pass does to the store. -/
inductive Change (ops : Ops σ) (cost : Option Nat) (s : σ) : σ → Prop where
  | same : Change ops cost s s
  | resolve (code : String) : Change ops cost s (ops.resolve s code).2
  | shorten {s' : σ} (url : String) (aliasCode : Option String) (ttl : Int64)
      (made : Option String) (asked : cost = some 1)
      (plain : ∀ a, aliasCode = some a → codeOk a = true)
      (done : ops.shorten s url aliasCode ttl = some (made, s')) : Change ops cost s s'
  | shortenMany {s' : σ} (urls : List String) (ttl : Int64) (codes : List String)
      (asked : cost = some (max urls.length 1))
      (done : ops.shortenMany s urls ttl = some (codes, s')) : Change ops cost s s'
  | update (code url : String) (ttl : Int64) (hasTtl : Bool) :
      Change ops cost s (ops.update s code url ttl hasTtl).2
  | remove (code : String) : Change ops cost s (ops.remove s code).2

structure Passed (ops : Ops σ) (cost : Option Nat) (s : σ) (h : Handled σ) : Prop where
  reply : ∀ reply, h.reply? = some reply → reply.status ≠ 429
  change : Change ops cost s (h.store s)

namespace Passed

variable {ext : Ext} {cfg : Config} {out : Outside} {ops : Ops σ} {cost : Option Nat} {s s' : σ}

theorem replied {reply : Reply} (other : (reply.status == 429) = false)
    (change : Change ops cost s s') : Passed ops cost s (.replied reply s') := by
  refine ⟨fun reply' same => ?_, change⟩
  cases same
  exact ne_of_beq_false other

theorem unchanged {reply : Reply} (other : (reply.status == 429) = false) :
    Passed ops cost s (.replied reply s) :=
  replied other .same

theorem drawing : Passed ops cost s .drawing := by
  refine ⟨fun reply' same => ?_, .same⟩
  cases same

theorem panicked : Passed ops cost s .panicked := by
  refine ⟨fun reply' same => ?_, .same⟩
  cases same

theorem shortenOne (p : ShortenReq) : Passed ops (some 1) s (Http.shortenOne ext cfg ops s p) := by
  rw [Http.shortenOne]
  split
  · exact unchanged rfl
  split
  · exact unchanged rfl
  split
  · exact unchanged rfl
  split
  · exact unchanged rfl
  rename_i plain _
  have aliasOk : ∀ a, p.aliasCode = some a → codeOk a = true := by
    intro a given
    rw [given] at plain
    simpa using plain
  dsimp only
  split
  · exact drawing
  · rename_i done
    exact replied rfl (.shorten _ _ _ _ rfl aliasOk done)
  · rename_i done
    exact replied rfl (.shorten _ _ _ _ rfl aliasOk done)

theorem shortenBulk (p : BulkReq) :
    Passed ops (some (max (p.urls.getD []).length 1)) s (Http.shortenBulk cfg ops s p) := by
  rw [Http.shortenBulk]
  split
  · exact unchanged rfl
  rename_i urls given
  split
  · exact unchanged rfl
  split
  · exact drawing
  · rename_i done
    exact replied rfl (.shortenMany _ _ _ (by rw [given]; rfl) done)

theorem routeGet (pathname query : String) :
    Passed ops cost s (Http.routeGet ext cfg out ops s pathname query) := by
  rw [Http.routeGet]
  split
  · split
    · exact unchanged rfl
    · exact unchanged rfl
  split
  · exact unchanged rfl
  split
  · exact unchanged rfl
  split
  · cases cfg.ui with
    | none => exact unchanged rfl
    | some html => exact unchanged rfl
  split
  · exact unchanged rfl
  split
  · rename_i code _
    cases ops.stats s code with
    | none => exact unchanged rfl
    | some link => exact unchanged rfl
  split
  · exact panicked
  split
  · rename_i code _ _
    cases looked : ops.resolve s code with
    | mk target after =>
        have change : Change ops cost s (ops.resolve s code).2 := .resolve code
        rw [looked] at change
        cases target with
        | none => exact replied rfl change
        | some target => exact replied rfl change
  · exact unchanged rfl

theorem mutated {done : Reply} (other : (done.status == 429) = false) {result : MutResult × σ}
    (change : Change ops cost s result.2) : Passed ops cost s (Http.mutated done result) := by
  rw [Http.mutated]
  cases result.1 with
  | ok => exact replied other change
  | missing => exact replied rfl change
  | remote => exact replied rfl change

theorem routeAdmin (isDelete : Bool) (pathname : String) (body : Bytes) (token : String) :
    Passed ops cost s (Http.routeAdmin ext cfg ops s isDelete pathname body token) := by
  rw [Http.routeAdmin]
  split
  · exact unchanged rfl
  split
  · exact unchanged rfl
  split
  · exact unchanged rfl
  split
  · exact mutated rfl (.remove _)
  rw [routePatch]
  split
  · exact unchanged rfl
  split
  · exact unchanged rfl
  split
  · exact unchanged rfl
  · exact mutated rfl (.update _ _ _ _)

end Passed

/-- The limiter refuses a request, which is answered so and does nothing else, or it is not
asked or lets the request pass. -/
theorem route_course (ext : Ext) (cfg : Config) (out : Outside) (ops : Ops σ) (s : σ)
    (method path : String) (body : Bytes) (token client : String) :
    if refused ext out.allow method (splitQuery path).1 body client then
      route ext cfg out ops s method path body token client = .replied limited s
    else
      Passed ops (limiterCost ext method (splitQuery path).1 body) s
        (route ext cfg out ops s method path body token client) := by
  have quiet : method ≠ "POST" →
      refused ext out.allow method (splitQuery path).1 body client = false := by
    intro other
    rw [refused, limiterCost, if_neg other]
    rfl
  rw [route]
  by_cases options : method = "OPTIONS"
  · rw [if_pos options, quiet (by rw [options]; decide)]
    exact .unchanged rfl
  rw [if_neg options]
  by_cases get : method = "GET"
  · rw [if_pos get, quiet (by rw [get]; decide)]
    exact .routeGet _ _
  rw [if_neg get]
  by_cases post : method = "POST"
  · rw [if_pos post, routePost, refused, limiterCost, if_pos post]
    by_cases one : (splitQuery path).1 = "/api/shorten"
    · rw [if_pos one, if_pos one]
      cases ext.shortenReq body with
      | none => exact .unchanged rfl
      | some p =>
          simp only [Option.map_some, Option.any_some]
          cases out.allow client 1 with
          | false => rfl
          | true => exact .shortenOne p
    rw [if_neg one, if_neg one]
    by_cases bulk : (splitQuery path).1 = "/api/shorten/bulk"
    · rw [if_pos bulk, if_pos bulk]
      cases ext.bulkReq body with
      | none => exact .unchanged rfl
      | some p =>
          simp only [Option.map_some, Option.any_some]
          cases out.allow client (max (p.urls.getD []).length 1) with
          | false => rfl
          | true => exact .shortenBulk p
    · rw [if_neg bulk, if_neg bulk]
      exact .unchanged rfl
  rw [if_neg post, quiet post]
  by_cases patch : method = "PATCH"
  · rw [if_pos patch]
    exact .routeAdmin _ _ _ _
  rw [if_neg patch]
  by_cases delete : method = "DELETE"
  · rw [if_pos delete]
    exact .routeAdmin _ _ _ _
  · rw [if_neg delete]
    exact .unchanged rfl

end Passed

/-! ## The gauge -/

def linkCount (w : World) : Nat := w.store.index.entries.length

theorem length_logRaw (s : Inner) (dir : Dir) (bytes : Bytes) :
    (s.logRaw dir bytes).1.index.entries.length = s.index.entries.length := by
  rw [index_logRaw]

theorem linkCount_create (s : Inner) (dir : Dir) {code : String} (url : String) (now exp : Int64)
    (free : code ∉ s.index) :
    (s.create dir code url now exp).1.index.entries.length = s.index.entries.length + 1 := by
  rw [Inner.create, length_logRaw]
  dsimp only
  rw [Map.length_insert, if_neg free]

theorem linkCount_shorten {env : Env} {w w' : World} {url : String}
    {aliasCode made : Option String} {ttl : Int64}
    (done : (localOps env).shorten w url aliasCode ttl = some (made, w')) :
    linkCount w' = linkCount w + if made.isSome then 1 else 0 := by
  obtain ⟨result, shortened, same⟩ := Option.map_eq_some_iff.mp done
  cases same
  cases aliasCode with
  | none =>
      obtain ⟨fresh, drawn, rfl⟩ := Option.map_eq_some_iff.mp shortened
      exact linkCount_create _ _ _ _ _ (freshCode_spec drawn).1
  | some a =>
      rw [Inner.shorten] at shortened
      split at shortened
      · cases shortened
        rfl
      · rename_i free
        cases shortened
        exact linkCount_create _ _ _ _ _ free

theorem length_bulk {inst : Inst} {now exp : Int64} {entry : String → Entry}
    {items : List (String × Suffix)} {retries : List Suffix} {index index' : Index}
    {rows rows' : Bytes} {codes codes' : List String}
    (done : Inner.bulk inst now exp entry items retries index rows codes =
      some (index', rows', codes')) :
    codes'.length = codes.length + items.length ∧
      index'.entries.length = index.entries.length + items.length := by
  induction items generalizing retries index rows codes with
  | nil =>
      cases done
      exact ⟨rfl, rfl⟩
  | cons item items ih =>
      obtain ⟨url, buf⟩ := item
      rw [Inner.bulk, Option.bind_eq_some_iff] at done
      obtain ⟨fresh, drawn, done⟩ := done
      obtain ⟨listed, stored⟩ := ih done
      rw [Map.length_insert, if_neg (freshCode_spec drawn).1] at stored
      rw [List.length_append, List.length_singleton] at listed
      rw [List.length_cons]
      exact ⟨by omega, by omega⟩

theorem linkCount_shortenMany {env : Env} {w w' : World} {urls codes : List String} {ttl : Int64}
    (done : (localOps env).shortenMany w urls ttl = some (codes, w')) :
    codes.length = urls.length ∧ linkCount w' = linkCount w + urls.length := by
  obtain ⟨result, shortened, same⟩ := Option.map_eq_some_iff.mp done
  cases same
  rw [Inner.shortenMany] at shortened
  split at shortened
  · cases shortened
  · rename_i enough
    obtain ⟨bulked, drawn, rfl⟩ := Option.map_eq_some_iff.mp shortened
    obtain ⟨listed, stored⟩ := length_bulk drawn
    have zipped : (urls.zip env.rng).length = urls.length := by
      rw [List.length_zip]
      exact Nat.min_eq_left (Nat.not_lt.mp enough)
    rw [zipped] at listed stored
    rw [linkCount, length_logRaw]
    exact ⟨listed.trans (Nat.zero_add _), stored⟩

theorem linkCount_update (env : Env) (w : World) (code url : String) (ttl : Int64)
    (hasTtl : Bool) : linkCount ((localOps env).update w code url ttl hasTtl).2 = linkCount w := by
  change (w.store.update env code url ttl hasTtl).2.index.entries.length = linkCount w
  rw [Inner.update]
  cases found : w.store.index.lookup code with
  | none => rfl
  | some e =>
      have there : code ∈ w.store.index := Map.mem_iff_lookup.mpr (by rw [found]; simp)
      dsimp only
      split
      · rfl
      · rw [Inner.logPush]
        dsimp only
        rw [Map.length_insert, if_pos there]
        rfl

theorem linkCount_remove (env : Env) (w : World) (code : String) :
    linkCount w = linkCount ((localOps env).remove w code).2 +
      if ((localOps env).remove w code).1 = .ok then 1 else 0 := by
  change linkCount w = (w.store.remove code).2.index.entries.length +
    if (w.store.remove code).1 = .ok then 1 else 0
  rw [Inner.remove]
  cases found : w.store.index.lookup code with
  | none => rfl
  | some e =>
      have there : code ∈ w.store.index := Map.mem_iff_lookup.mpr (by rw [found]; simp)
      dsimp only
      split
      · rfl
      · rw [Inner.logPush]
        dsimp only
        rw [if_pos rfl, linkCount, Map.length_erase_of_mem there]

theorem linkCount_bump (env : Env) {s : Inner} {code : String} {e : Entry}
    (found : s.index.lookup code = some e) :
    (s.bump env code e).index.entries.length = s.index.entries.length := by
  have there : code ∈ s.index := Map.mem_iff_lookup.mpr (by rw [found]; simp)
  rw [Inner.bump]
  split
  · dsimp only
    rw [Map.length_insert, if_pos there]
  · rfl

theorem linkCount_resolve (env : Env) {w : World} (solitary : w.Solitary) (code : String) :
    linkCount ((localOps env).resolve w code).2 = linkCount w := by
  obtain ⟨s, dir⟩ := w
  change (s.resolve env dir code).2.index.entries.length = s.index.entries.length
  rw [Inner.resolve]
  cases found : s.index.lookup code with
  | some e =>
      dsimp only
      split
      · exact linkCount_bump env found
      · rfl
  | none =>
      rcases solitary with ⟨snap, log, buf, sole, -⟩ | memory
      · have queue : s.aof = some ⟨logBytes buf⟩ := sole.queue
        obtain ⟨readers', lastPoll', -, read⟩ := sole.tailMissed env code
        simp only [queue, read, found]
      · have noLog : s.aof = none := memory
        simp only [noLog]

theorem solitary_step {w : World} (solitary : w.Solitary) {env : Env} {call : Call}
    (stays : call ≠ .restart) : (w.step (env, call)).Solitary := by
  rcases solitary with settled | memory
  · exact Or.inl (settled.step _)
  · exact Or.inr (World.memory_step memory stays)

/-- The store is still alone, the gauge has moved with the links, and there are no more of
them than were asked for. -/
structure Weighed (cost : Option Nat) (s s' : World × Int64) : Prop where
  solitary : s'.1.Solitary
  gauge : s'.2 + Int64.ofNat (linkCount s.1) = s.2 + Int64.ofNat (linkCount s'.1)
  bounded : linkCount s'.1 ≤ linkCount s.1 + cost.getD 0

theorem Weighed.level {cost : Option Nat} {w w' : World} {links : Int64} (solitary : w'.Solitary)
    (same : linkCount w' = linkCount w) : Weighed cost (w, links) (w', links) where
  solitary := solitary
  gauge := by dsimp only; rw [same]
  bounded := by dsimp only; omega

theorem Weighed.grown {cost : Option Nat} {w w' : World} {links : Int64} {n : Nat}
    (solitary : w'.Solitary) (more : linkCount w' = linkCount w + n) (asked : n ≤ cost.getD 0) :
    Weighed cost (w, links) (w', links + Int64.ofNat n) where
  solitary := solitary
  gauge := by
    dsimp only
    rw [more, Int64.ofNat_add, Int64.add_assoc, Int64.add_comm (Int64.ofNat n)]
  bounded := by dsimp only; omega

theorem Change.weighed {env : Env} {cost : Option Nat} {s s' : World × Int64}
    (solitary : s.1.Solitary) (change : Change (counted (localOps env)) cost s s') :
    Weighed cost s s' := by
  obtain ⟨w, links⟩ := s
  cases change with
  | same => exact .level solitary rfl
  | resolve code =>
      have next : (w.step (env, .resolve code)).Solitary := solitary_step solitary (by simp)
      exact .level next (linkCount_resolve env solitary code)
  | shorten url aliasCode ttl made asked plain done =>
      obtain ⟨result, shortened, same⟩ := Option.map_eq_some_iff.mp done
      cases same
      obtain ⟨made, w'⟩ := result
      obtain ⟨checked, moved⟩ := step_of_shorten plain shortened
      have next : w'.Solitary := moved ▸ solitary_step solitary (by simp)
      have count := linkCount_shorten shortened
      cases made with
      | none => exact .level next count
      | some code => exact .grown next count (asked ▸ Nat.le_refl 1)
  | shortenMany urls ttl codes asked done =>
      obtain ⟨result, shortened, same⟩ := Option.map_eq_some_iff.mp done
      cases same
      obtain ⟨listed, count⟩ := linkCount_shortenMany shortened
      have next : result.2.Solitary :=
        step_of_shortenMany shortened ▸ solitary_step solitary (by simp)
      rw [← listed] at count
      refine .grown next count ?_
      rw [asked, listed]
      exact Nat.le_max_left _ _
  | update code url ttl hasTtl =>
      have next : (w.step (env, .update code url ttl hasTtl)).Solitary :=
        solitary_step solitary (by simp)
      exact .level next (linkCount_update env w code url ttl hasTtl)
  | remove code =>
      have next : (w.step (env, .remove code)).Solitary := solitary_step solitary (by simp)
      have count := linkCount_remove env w code
      refine ⟨next, ?_, ?_⟩
      · change (if ((localOps env).remove w code).1 = .ok then links + -1 else links) +
          Int64.ofNat (linkCount w) =
            links + Int64.ofNat (linkCount ((localOps env).remove w code).2)
        rw [count]
        split
        · have undone : Int64.ofNat 1 + -1 = 0 := by decide
          rw [Int64.ofNat_add, Int64.add_assoc, Int64.add_comm (-1), Int64.add_assoc, undone,
            Int64.add_zero]
        · rfl
      · change linkCount ((localOps env).remove w code).2 ≤ linkCount w + cost.getD 0
        omega

namespace Process

variable {ext : Ext} {cfg : Config} {p : Process}

def granted (ext : Ext) (p : Process) (a : Arrival) : Option Nat :=
  let pathname := (splitQuery a.path).1
  if refused ext (p.allow a) a.method pathname a.body a.client then none
  else limiterCost ext a.method pathname a.body

/-- One request: it is refused and answered so, or it passes. -/
theorem course (ext : Ext) (cfg : Config) (p : Process) (a : Arrival) :
    (refused ext (p.allow a) a.method (splitQuery a.path).1 a.body a.client = true ∧
        p.routed ext cfg a = .replied limited (p.world, p.counters.linksTotal)) ∨
      (refused ext (p.allow a) a.method (splitQuery a.path).1 a.body a.client = false ∧
        Passed (counted (localOps a.env)) (p.granted ext a) (p.world, p.counters.linksTotal)
          (p.routed ext cfg a)) := by
  have course := route_course ext cfg (p.outside ext cfg a) (counted (localOps a.env))
    (p.world, p.counters.linksTotal) a.method a.path a.body a.token a.client
  change if refused ext (p.allow a) a.method (splitQuery a.path).1 a.body a.client then _ else _
    at course
  rw [granted]
  cases refuses : refused ext (p.allow a) a.method (splitQuery a.path).1 a.body a.client with
  | true =>
      rw [if_pos refuses] at course
      exact Or.inl ⟨rfl, course⟩
  | false =>
      rw [if_neg (Bool.eq_false_iff.mp refuses)] at course
      rw [if_neg Bool.false_ne_true]
      exact Or.inr ⟨rfl, course⟩

/-- What the store and its gauge are after a request. -/
theorem step_store (ext : Ext) (cfg : Config) (p : Process) (a : Arrival) :
    ((p.step ext cfg a).world, (p.step ext cfg a).counters.linksTotal) =
      (p.routed ext cfg a).store (p.world, p.counters.linksTotal) := by
  rw [step, handle]
  dsimp only
  cases (p.routed ext cfg a).reply? with
  | none => rfl
  | some reply => rfl

theorem weighed_step (ext : Ext) (cfg : Config) (solitary : p.world.Solitary) (a : Arrival) :
    Weighed (p.granted ext a) (p.world, p.counters.linksTotal)
      ((p.step ext cfg a).world, (p.step ext cfg a).counters.linksTotal) := by
  rw [step_store]
  rcases course ext cfg p a with ⟨-, answered⟩ | ⟨-, passed⟩
  · rw [answered]
    exact .level solitary rfl
  · exact passed.change.weighed solitary

/-- The replies and the counted operations of a run. -/
structure Accounts (before after : Counters) (ops : List Nat) (replies : List Reply) : Prop where
  ops : ∀ i, after.opCounts i = before.opCounts i + Int64.ofNat (ops.count i)
  status : ∀ i, after.status i =
    before.status i + Int64.ofNat (replies.countP fun r => Counters.classOf r.status = i)
  limited : after.limited =
    before.limited + Int64.ofNat (replies.countP fun r => r.status = 429)

def operation (ext : Ext) (cfg : Config) (p : Process) (a : Arrival) : Option Nat :=
  countedOp ext cfg (refused ext (p.allow a) a.method (splitQuery a.path).1 a.body a.client)
    a.method (splitQuery a.path).1 a.body a.token

def operations (ext : Ext) (cfg : Config) : Process → List Arrival → List Nat
  | _, [] => []
  | p, a :: arrivals =>
      (p.operation ext cfg a).toList ++ operations ext cfg (p.step ext cfg a) arrivals

theorem Accounts.refl (c : Counters) : Accounts c c [] [] where
  ops _ := (Int64.add_zero _).symm
  status _ := (Int64.add_zero _).symm
  limited := (Int64.add_zero _).symm

theorem Accounts.append {c c' c'' : Counters} {ops ops' : List Nat} {replies replies' : List Reply}
    (first : Accounts c c' ops replies) (second : Accounts c' c'' ops' replies') :
    Accounts c c'' (ops ++ ops') (replies ++ replies') := by
  constructor
  · intro i
    rw [second.ops, first.ops, List.count_append, Int64.ofNat_add, Int64.add_assoc]
  · intro i
    rw [second.status, first.status, List.countP_append, Int64.ofNat_add, Int64.add_assoc]
  · rw [second.limited, first.limited, List.countP_append, Int64.ofNat_add, Int64.add_assoc]

theorem accounts_countOp (c : Counters) (j : Nat) : Accounts c (c.countOp j) [j] [] where
  ops i := by
    rw [Counters.countOp]
    dsimp only
    rcases eq_or_ne j i with rfl | other
    · rw [Function.update_self, List.count_singleton_self]
      rfl
    · rw [Function.update_of_ne other.symm, List.count_singleton, if_neg (by simpa using other)]
      exact (Int64.add_zero _).symm
  status _ := (Int64.add_zero _).symm
  limited := (Int64.add_zero _).symm

theorem status_countStatus (c : Counters) (reply : Reply) (i : Nat) :
    (c.countStatus reply.status).status i =
      c.status i + Int64.ofNat ([reply].countP fun r => Counters.classOf r.status = i) := by
  rw [Counters.countStatus]
  dsimp only
  rcases eq_or_ne (Counters.classOf reply.status) i with rfl | apart
  · rw [Function.update_self, List.countP_singleton, if_pos (decide_eq_true rfl)]
    rfl
  · rw [Function.update_of_ne apart.symm, List.countP_singleton, if_neg (by simpa using apart)]
    exact (Int64.add_zero _).symm

theorem accounts_reply (c : Counters) {reply : Reply} (other : reply.status ≠ 429) :
    Accounts c (c.countStatus reply.status) [] [reply] where
  ops _ := (Int64.add_zero _).symm
  status i := status_countStatus c reply i
  limited := by
    rw [List.countP_singleton, if_neg (by simpa using other)]
    exact (Int64.add_zero _).symm

theorem accounts_limited (c : Counters) :
    Accounts c (c.countLimited.countStatus limited.status) [] [limited] where
  ops _ := (Int64.add_zero _).symm
  status i := status_countStatus c limited i
  limited := rfl

/-- A request moves the counters by its operation and its reply. -/
theorem accounts_step (ext : Ext) (cfg : Config) (p : Process) (a : Arrival) :
    Accounts p.counters (p.step ext cfg a).counters (p.operation ext cfg a).toList
      (p.handle ext cfg a).1.toList := by
  have started : Accounts p.counters
      ((p.operation ext cfg a).elim p.counters p.counters.countOp)
      (p.operation ext cfg a).toList [] := by
    cases p.operation ext cfg a with
    | none => exact .refl _
    | some j => exact accounts_countOp _ j
  have at_store : p.countersAt ext cfg a =
      if refused ext (p.allow a) a.method (splitQuery a.path).1 a.body a.client then
        ((p.operation ext cfg a).elim p.counters p.counters.countOp).countLimited
      else (p.operation ext cfg a).elim p.counters p.counters.countOp := rfl
  rw [step, handle]
  dsimp only
  rcases course ext cfg p a with ⟨refuses, answered⟩ | ⟨passes, passed⟩
  · rw [refuses, if_pos rfl] at at_store
    have whole := started.append (accounts_limited _)
    rw [List.append_nil, List.nil_append] at whole
    rw [answered, at_store]
    exact ⟨whole.ops, whole.status, whole.limited⟩
  · rw [passes, if_neg Bool.false_ne_true] at at_store
    rw [at_store]
    cases replied : (p.routed ext cfg a).reply? with
    | none => exact ⟨started.ops, started.status, started.limited⟩
    | some reply =>
        have whole := started.append (accounts_reply _ (passed.reply reply replied))
        rw [List.append_nil, List.nil_append] at whole
        exact ⟨whole.ops, whole.status, whole.limited⟩

/-! ### Runs -/

theorem accounts_run (ext : Ext) (cfg : Config) (p : Process) (arrivals : List Arrival) :
    Accounts p.counters (p.run ext cfg arrivals).counters (p.operations ext cfg arrivals)
      (p.replies ext cfg arrivals) := by
  induction arrivals generalizing p with
  | nil => exact .refl _
  | cons a arrivals ih => exact (accounts_step ext cfg p a).append (ih (p.step ext cfg a))

/-- The store is alone, and the gauge has moved as the number of links has. -/
def Gauged (p q : Process) : Prop :=
  q.world.Solitary ∧
    q.counters.linksTotal + Int64.ofNat (linkCount p.world) =
      p.counters.linksTotal + Int64.ofNat (linkCount q.world)

theorem Gauged.step {q : Process} (gauged : Gauged p q) (a : Arrival) :
    Gauged p (q.step ext cfg a) := by
  obtain ⟨solitary, gauge⟩ := gauged
  have next : Weighed (q.granted ext a) (q.world, q.counters.linksTotal)
      ((q.step ext cfg a).world, (q.step ext cfg a).counters.linksTotal) :=
    weighed_step ext cfg solitary a
  refine ⟨next.solitary, ?_⟩
  have moved := next.gauge
  dsimp only at moved
  grind

theorem gauged_run (ext : Ext) (cfg : Config) (solitary : p.world.Solitary)
    (arrivals : List Arrival) :
    Gauged p (p.run ext cfg arrivals) := by
  have keep : ∀ (q : Process) (a : Arrival), Gauged p q → Gauged p (q.step ext cfg a) :=
    fun q a gauged => gauged.step a
  exact Runs.invariant keep ⟨solitary, rfl⟩ arrivals

/-! ## The page -/

theorem handle_metrics (ext : Ext) (cfg : Config) (p : Process) {a : Arrival}
    (get : a.method = "GET") (page : a.path = "/metrics") :
    ∃ reply, (p.handle ext cfg a).1 = some reply ∧ reply.status = 200 ∧
      reply.body = prometheus (p.counters.countOp 8) ((a.pageNow - p.window.started) / 1000) := by
  have parts : splitQuery a.path = ("/metrics", "") := by
    rw [page]
    decide +kernel
  have asked : p.countersAt ext cfg a = p.counters.countOp 8 := by
    have free : refused ext (p.allow a) a.method (splitQuery a.path).1 a.body a.client = false := by
      rw [refused, limiterCost, get, if_neg (by decide)]
      rfl
    have op : countedOp ext cfg false a.method (splitQuery a.path).1 a.body a.token = some 8 := by
      rw [countedOp, get, parts, if_pos rfl, if_neg (by decide), if_neg (by decide), if_pos rfl]
    rw [countersAt, free, op, if_neg Bool.false_ne_true]
    rfl
  refine ⟨⟨200, none, (p.outside ext cfg a).prometheus, some "text/plain; version=0.0.4"⟩, ?_, rfl,
    by rw [outside, asked]⟩
  rw [handle, routed, route, get, parts, if_neg (by decide), if_pos rfl, routeGet,
    if_neg (by decide), if_neg (by decide), if_pos rfl]
  rfl

/-- No metric has the same labels twice. -/
theorem names_nodup (c : Counters) (uptime : Int64) :
    ((samples c uptime).map fun s => (s.metric, s.labels)).Nodup := by
  have names : (samples c uptime).map (fun s => (s.metric, s.labels)) =
      (samples .zero 0).map fun s => (s.metric, s.labels) := rfl
  rw [names]
  decide +kernel

theorem opSample_mem (c : Counters) (uptime : Int64) {i : Nat} {op : String}
    (listed : OPS[i]? = some op) : opSample c i op ∈ samples c uptime := by
  obtain ⟨small, rfl⟩ := List.getElem?_eq_some_iff.mp listed
  exact List.mem_append_left _ (List.mem_append_left _ (List.mem_mapIdx.mpr ⟨i, small, rfl⟩))

theorem classSample_mem (c : Counters) (uptime : Int64) {i : Nat} {cls : String}
    (listed : CLASSES[i]? = some cls) : classSample c i cls ∈ samples c uptime := by
  obtain ⟨small, rfl⟩ := List.getElem?_eq_some_iff.mp listed
  exact List.mem_append_left _ (List.mem_append_right _ (List.mem_mapIdx.mpr ⟨i, small, rfl⟩))

/-- After any run of requests, a scraper of `/metrics` reads how many requests were counted
for each operation, how many replies there were of each class and how many of them were
refusals of the limiter; and by the number of links that it reads the store has grown since
the process started to count. -/
theorem metrics_page_true (ext : Ext) (cfg : Config) {p : Process} (fresh : p.counters = .zero)
    (solitary : p.world.Solitary) (arrivals : List Arrival) {a : Arrival}
    (get : a.method = "GET") (page : a.path = "/metrics") :
    let q := p.run ext cfg arrivals
    let replies := p.replies ext cfg arrivals
    ∃ reply links, (q.handle ext cfg a).1 = some reply ∧ reply.status = 200 ∧
      ((scrape reply.body).map fun s => (s.metric, s.labels)).Nodup ∧
      (∀ i op, OPS[i]? = some op →
        ⟨"shrt_requests_total", "op=\"" ++ op ++ "\"",
          Int64.ofNat ((p.operations ext cfg arrivals ++ [8]).count i)⟩ ∈ scrape reply.body) ∧
      (∀ i cls, CLASSES[i]? = some cls →
        ⟨"shrt_responses_total", "class=\"" ++ cls ++ "\"",
          Int64.ofNat (replies.countP fun r => Counters.classOf r.status = i)⟩ ∈
            scrape reply.body) ∧
      ⟨"shrt_rate_limited_total", "", Int64.ofNat (replies.countP fun r => r.status = 429)⟩ ∈
        scrape reply.body ∧
      ⟨"shrt_links_total", "", links⟩ ∈ scrape reply.body ∧
      links + Int64.ofNat (linkCount p.world) = Int64.ofNat (linkCount q.world) := by
  intro q replies
  obtain ⟨reply, answered, ok, body⟩ := handle_metrics ext cfg q get page
  have accounts : Accounts .zero (q.counters.countOp 8) (p.operations ext cfg arrivals ++ [8])
      (replies ++ []) := by
    rw [← fresh]
    exact (accounts_run ext cfg p arrivals).append (accounts_countOp q.counters 8)
  rw [List.append_nil] at accounts
  have gauge := (gauged_run ext cfg solitary arrivals).2
  rw [fresh, show Counters.zero.linksTotal = 0 from rfl, Int64.zero_add] at gauge
  refine ⟨reply, q.counters.linksTotal, answered, ok, ?_, fun i op listed => ?_,
    fun i cls listed => ?_, ?_, ?_, gauge⟩
  · rw [body, scrape_prometheus]
    exact names_nodup _ _
  · have shown := opSample_mem (q.counters.countOp 8) ((a.pageNow - q.window.started) / 1000) listed
    have counted := accounts.ops i
    rw [opSample, counted, show Counters.zero.opCounts i = 0 from rfl, Int64.zero_add] at shown
    rw [body, scrape_prometheus]
    exact shown
  · have shown := classSample_mem (q.counters.countOp 8) ((a.pageNow - q.window.started) / 1000)
      listed
    have counted := accounts.status i
    rw [classSample, counted, show Counters.zero.status i = 0 from rfl, Int64.zero_add] at shown
    rw [body, scrape_prometheus]
    exact shown
  · have counted := accounts.limited
    rw [show Counters.zero.limited = 0 from rfl, Int64.zero_add] at counted
    rw [body, scrape_prometheus, ← counted]
    exact List.mem_append_right _ (by simp)
  · rw [body, scrape_prometheus]
    exact List.mem_append_right _ (by simp [Counters.countOp])

/-! ## The limiter -/

def limiterCalls (ext : Ext) (arrivals : List Arrival) : List (Limiter.Call ℚ) :=
  arrivals.filterMap fun a =>
    (limiterCost ext a.method (splitQuery a.path).1 a.body).map fun cost : Nat =>
      ⟨a.limiterNow, a.client, (cost : ℚ)⟩

/-- The links by which the requests of a client from `t1` to `t2` have made the store grow. -/
def grownBy (ext : Ext) (cfg : Config) (ip : String) (t1 t2 : ℚ) : Process → List Arrival → Nat
  | _, [] => 0
  | p, a :: arrivals =>
      (if a.client = ip ∧ t1 ≤ a.limiterNow.toNat ∧ a.limiterNow.toNat ≤ t2 then
        linkCount (p.step ext cfg a).world - linkCount p.world else 0) +
        grownBy ext cfg ip t1 t2 (p.step ext cfg a) arrivals

theorem grown_le (ext : Ext) (cfg : Config) (solitary : p.world.Solitary) (a : Arrival) :
    linkCount (p.step ext cfg a).world - linkCount p.world ≤ (p.granted ext a).getD 0 := by
  have bounded := (weighed_step ext cfg solitary a).bounded
  dsimp only at bounded
  omega

theorem limiter_step (ext : Ext) (cfg : Config) (p : Process) (a : Arrival) :
    (p.step ext cfg a).limiter = p.limiterAfter ext a := rfl

/-- The growth is paid for. -/
theorem grownBy_le_spent (ext : Ext) (cfg : Config) (ip : String) (t1 t2 : ℚ)
    (solitary : p.world.Solitary) (arrivals : List Arrival) :
    (grownBy ext cfg ip t1 t2 p arrivals : ℚ) ≤
      p.limiter.spentBy ip t1 t2 (limiterCalls ext arrivals) := by
  induction arrivals generalizing p with
  | nil => exact le_refl _
  | cons a arrivals ih =>
      have grown := grown_le ext cfg solitary a
      have rest := ih (weighed_step ext cfg solitary a).solitary
      rw [limiter_step, limiterAfter] at rest
      rw [granted, refused] at grown
      rw [grownBy, limiterCalls, List.filterMap_cons]
      cases asked : limiterCost ext a.method (splitQuery a.path).1 a.body with
      | none =>
          rw [asked] at grown rest
          have none_grown : linkCount (p.step ext cfg a).world - linkCount p.world = 0 :=
            Nat.le_zero.mp grown
          rw [none_grown, ite_self, Nat.zero_add]
          exact rest
      | some cost =>
          rw [asked] at grown rest
          change _ ≤ p.limiter.spentBy ip t1 t2
            (⟨a.limiterNow, a.client, cost⟩ :: limiterCalls ext arrivals)
          rw [RateLimiter.spentBy, Nat.cast_add]
          refine add_le_add ?_ rest
          dsimp only
          change _ ≤ if a.client = ip ∧ t1 ≤ a.limiterNow.toNat ∧ a.limiterNow.toNat ≤ t2 ∧
            p.allow a a.client cost = true then (cost : ℚ) else 0
          rw [Option.any_some] at grown
          cases allowed : p.allow a a.client cost with
          | true =>
              rw [allowed] at grown
              simp only [and_true]
              split
              · exact Nat.cast_le.mpr grown
              · exact le_refl _
          | false =>
              rw [allowed] at grown
              have none_grown : linkCount (p.step ext cfg a).world - linkCount p.world = 0 :=
                Nat.le_zero.mp grown
              rw [none_grown, ite_self]
              simp

/-- What a client spends in a window of a run that starts without buckets. -/
theorem spentBy_le {rate burst : ℚ} (positive : 0 < rate) (bound : 1 ≤ burst)
    {calls : List (Limiter.Call ℚ)} (orderly : (RateLimiter.fresh rate burst).Orderly calls)
    (ip : String) {t1 t2 : ℚ} (window : t1 ≤ t2) :
    (RateLimiter.fresh rate burst).spentBy ip t1 t2 calls ≤ burst + rate * (t2 - t1) / 1000 := by
  have nonneg : 0 ≤ burst := le_trans zero_le_one bound
  have paid := RateLimiter.spentBy_le_spent positive nonneg (RateLimiter.sound_fresh rate burst)
    orderly (fun _ _ => UInt64.zero_le) ip t1 t2
  refine paid.trans (le_trans (TokenBucket.spent_le (div_nonneg positive.le (by norm_num)) nonneg
    window ?_ ?_) (le_of_eq ?_))
  · rw [List.pairwise_map]
    exact (orderly.clock.filter _).imp fun before =>
      Nat.cast_le.mpr (UInt64.le_iff_toNat_le.mp before)
  · intro r among
    obtain ⟨call, inside, rfl⟩ := List.mem_map.mp among
    exact orderly.costs call (List.mem_of_mem_filter inside)
  · change burst + (t2 - t1) * (rate / 1000) = _
    ring

theorem orderly_calls (ext : Ext) {rl : RateLimiter ℚ} {arrivals : List Arrival}
    (room : Along RateLimiter.step (fun rl _ => rl.Roomy) rl (limiterCalls ext arrivals))
    (clock : arrivals.Pairwise fun a a' => a.limiterNow ≤ a'.limiterNow) :
    rl.Orderly (limiterCalls ext arrivals) where
  room := room
  clock := by
    rw [limiterCalls, List.pairwise_filterMap]
    refine clock.imp fun {a a'} before call made call' made' => ?_
    obtain ⟨cost, -, rfl⟩ := Option.map_eq_some_iff.mp made
    obtain ⟨cost', -, rfl⟩ := Option.map_eq_some_iff.mp made'
    exact before
  costs call among := by
    obtain ⟨a, -, made⟩ := List.mem_filterMap.mp among
    obtain ⟨cost, -, rfl⟩ := Option.map_eq_some_iff.mp made
    exact Nat.cast_nonneg cost

/-- With a limiter that starts without buckets, on a clock that does not run backwards and as
long as no shard of it is full, the requests of one client make the store grow in any window by
no more links than the burst and what the rate allows in that time. -/
theorem client_growth_bounded (ext : Ext) (cfg : Config) {rate burst : ℚ} (positive : 0 < rate)
    (bound : 1 ≤ burst) {p : Process} (fresh : p.limiter = RateLimiter.fresh rate burst)
    (solitary : p.world.Solitary) {arrivals : List Arrival}
    (room : Along RateLimiter.step (fun rl _ => rl.Roomy) (RateLimiter.fresh rate burst)
      (limiterCalls ext arrivals))
    (clock : arrivals.Pairwise fun a a' => a.limiterNow ≤ a'.limiterNow) (ip : String)
    {t1 t2 : ℚ} (window : t1 ≤ t2) :
    (grownBy ext cfg ip t1 t2 p arrivals : ℚ) ≤ burst + rate * (t2 - t1) / 1000 := by
  have spent := grownBy_le_spent ext cfg ip t1 t2 solitary arrivals
  rw [fresh] at spent
  exact spent.trans (spentBy_le positive bound (orderly_calls ext room clock) ip window)

/-- A process that has just started. -/
def started : Process where
  world := World.fresh (.at 0 []) 0
  limiter := RateLimiter.fresh 1 1
  window := Metrics.zero.init 1000
  counters := .zero

/-- A request at a time of all clocks. -/
def arrival (now : Nat) (method path : String) (body : Bytes) : Arrival where
  env := .at (Int64.ofNat now) []
  limiterNow := UInt64.ofNat now
  tickNow := Int64.ofNat now
  pageNow := Int64.ofNat now
  json := []
  method := method
  path := path
  body := body
  token := ""
  client := "c"

/-- A link is created, a second one is too soon, and the first one is visited. -/
def twoCreations : List Arrival :=
  [arrival 1000 "POST" "/api/shorten" (encode "https://a.example"),
    arrival 1001 "POST" "/api/shorten" (encode "https://a.example"),
    arrival 1002 "GET" "/promo" []]

theorem started_solitary : started.world.Solitary :=
  Or.inl (settled_run (.at 0 []) 0 [])

theorem metrics_page_true_twoCreations :
    ∃ reply, ((started.run (oneUrl "https://a.example" (some "promo")) openConfig
        twoCreations).handle (oneUrl "https://a.example" (some "promo")) openConfig
          (arrival 1003 "GET" "/metrics" [])).1 = some reply ∧
      ⟨"shrt_rate_limited_total", "", 1⟩ ∈ scrape reply.body ∧
      ⟨"shrt_links_total", "", 1⟩ ∈ scrape reply.body := by
  obtain ⟨reply, links, answered, -, -, -, -, refusals, shown, grown⟩ :=
    metrics_page_true (oneUrl "https://a.example" (some "promo")) openConfig (p := started) rfl
      started_solitary twoCreations (a := arrival 1003 "GET" "/metrics" []) rfl rfl
  have counts : (started.replies (oneUrl "https://a.example" (some "promo")) openConfig
        twoCreations).countP (fun r => r.status = 429) = 1 ∧
      linkCount started.world = 0 ∧
      linkCount (started.run (oneUrl "https://a.example" (some "promo")) openConfig
        twoCreations).world = 1 := by
    decide +kernel
  obtain ⟨once, none_before, one_now⟩ := counts
  rw [once] at refusals
  rw [none_before, one_now, show Int64.ofNat 0 = 0 from rfl, Int64.add_zero] at grown
  rw [grown] at shown
  exact ⟨reply, answered, refusals, shown⟩

theorem client_growth_bounded_twoCreations :
    (grownBy (oneUrl "https://a.example" (some "promo")) openConfig "c" 1000 1500 started
      twoCreations : ℚ) ≤ 1 + 1 * (1500 - 1000) / 1000 := by
  have room : Along RateLimiter.step (fun rl _ => rl.Roomy) (RateLimiter.fresh 1 1)
      (limiterCalls (oneUrl "https://a.example" (some "promo")) twoCreations) := by
    apply RateLimiter.roomy_of_few
    intro i
    have few : (limiterCalls (oneUrl "https://a.example" (some "promo")) twoCreations).length ≤ 3 :=
      List.length_filterMap_le _ _
    change 0 + _ ≤ 4096
    omega
  exact client_growth_bounded _ openConfig (by norm_num) le_rfl rfl started_solitary room
    (by decide) "c" (by norm_num)

end Process

end Shrt.Http
