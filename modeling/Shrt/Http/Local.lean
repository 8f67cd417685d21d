import Mathlib.Data.List.Basic
import Mathlib.Data.List.Sort
import Shrt.Http.Effects
import Shrt.Store.Conservation
import Shrt.Store.Links
import Shrt.Store.Restart

/-!
# The handler on the in-process store

A run of requests on one store that is alone in its directory, or kept in
memory.  Without the admin token a request is at most one resolve or one
creation, and neither touches a link that is there but for its hit count.
-/

namespace Shrt.Store

open Shrt.Codec Shrt.Lib Shrt.Lib.Utf8

def World.memory : World where
  store :=
    { inst := 0, index := ∅, dirty := ∅, readers := ∅, stray := ∅, lastPoll := 0, aof := none,
      lockPath := false, stop := false, closed := false, threads := [.flush] }
  dir := .empty

/-- The states of a store that is the only one of its directory, or that is
kept in memory and then never reopened. -/
def World.Reachable (w : World) : Prop :=
  (∃ env inst history, w = (World.fresh env inst).run history) ∨
    ∃ history : List (Env × Call), (∀ call ∈ history, call.2 ≠ .restart) ∧
      w = World.memory.run history

/-- The store has no sibling to read. -/
def World.Solitary (w : World) : Prop :=
  Settled w ∨ w.store.aof = none

/-! ## Stores in memory -/

theorem Inner.aof_logRaw {s : Inner} (memory : s.aof = none) (dir : Dir) (bytes : Bytes) :
    (s.logRaw dir bytes).1.aof = none := by
  rw [Inner.logRaw, memory]
  exact memory

theorem Inner.aof_create {s : Inner} (memory : s.aof = none) (dir : Dir) (code url : String)
    (now exp : Int64) : (s.create dir code url now exp).1.aof = none :=
  Inner.aof_logRaw (s := { s with index := s.index.insert code (s.newEntry url now exp) }) memory _ _

theorem Inner.aof_resolve {env : Env} {s : Inner} {dir : Dir} {code : String}
    (memory : s.aof = none) : (s.resolve env dir code).2.aof = none := by
  rw [Inner.resolve, memory]
  split
  · split
    · rw [Inner.bump]
      split
      · exact memory
      · exact memory
    · exact memory
  · exact memory

/-- A store in memory stays there. -/
theorem World.memory_step {w : World} (memory : w.store.aof = none) {call : Env × Call}
    (stays : call.2 ≠ .restart) : (w.step call).store.aof = none := by
  obtain ⟨env, call⟩ := call
  cases call with
  | shorten url aliasCode ttl =>
      simp only [World.step]
      cases aliasCode with
      | some a =>
          simp only [Inner.shorten, Option.map_some]
          split
          · exact memory
          · rename_i done made
            split at made
            · cases made
              exact memory
            · cases made
              exact Inner.aof_create memory _ _ _ _ _
      | none =>
          simp only [Inner.shorten, Option.map_none]
          cases Inner.freshCode w.store.inst w.store.index env.rng with
          | none => exact memory
          | some fresh => exact Inner.aof_create memory _ _ _ _ _
  | shortenMany urls ttl =>
      simp only [World.step, Inner.shortenMany]
      split
      · exact memory
      · rename_i done made
        split at made
        · cases made
        · obtain ⟨result, -, rfl⟩ := Option.map_eq_some_iff.mp made
          exact Inner.aof_logRaw (s := { w.store with index := result.1 }) memory _ _
  | update code url ttl hasTtl =>
      simp only [World.step, Inner.update]
      split
      · exact memory
      · split
        · exact memory
        · simp [Inner.logPush, memory]
  | remove code =>
      simp only [World.step, Inner.remove]
      split
      · exact memory
      · split
        · exact memory
        · simp [Inner.logPush, memory]
  | resolve code => exact Inner.aof_resolve memory
  | flush =>
      simp only [World.step, Inner.flushLocked, memory]
  | compact =>
      simp only [World.step, Inner.compact, memory]
  | poll =>
      simp only [World.step, Inner.pollTails, memory]
  | restart => exact absurd rfl stays

theorem World.memory_run {w : World} (memory : w.store.aof = none) {history : List (Env × Call)}
    (stays : ∀ call ∈ history, call.2 ≠ .restart) : (w.run history).store.aof = none := by
  induction history generalizing w with
  | nil => exact memory
  | cons call history ih =>
      exact ih (memory_step memory (stays call List.mem_cons_self))
        fun later member => stays later (List.mem_cons_of_mem _ member)

theorem World.Reachable.solitary {w : World} (reachable : w.Reachable) : w.Solitary := by
  rcases reachable with ⟨env, inst, history, rfl⟩ | ⟨history, stays, rfl⟩
  · exact Or.inl (settled_run env inst history)
  · exact Or.inr (World.memory_run rfl stays)

end Shrt.Store

namespace Shrt.Http

open Shrt.Codec Shrt.Lib Shrt.Lib.Utf8 Shrt.Store

def localOps (env : Env) : Ops World where
  healthy _ := true
  resolve w code :=
    let done := w.store.resolve env w.dir code
    (done.1, ⟨done.2, w.dir⟩)
  stats w code := w.store.stats code
  list w limit offset byHits q := w.store.list env limit offset byHits q
  shorten w url aliasCode ttl :=
    (w.store.shorten env w.dir url aliasCode ttl).map fun done => (done.1, ⟨done.2.1, done.2.2⟩)
  shortenMany w urls ttl :=
    (w.store.shortenMany env w.dir urls ttl).map fun done => (done.1, ⟨done.2.1, done.2.2⟩)
  update w code url ttl hasTtl :=
    let done := w.store.update env code url ttl hasTtl
    (done.1, ⟨done.2, w.dir⟩)
  remove w code :=
    let done := w.store.remove code
    (done.1, ⟨done.2, w.dir⟩)

/-! ## Requests -/

/-- A request with everything around it. -/
structure Visit where
  env : Env
  out : Outside
  method : String
  path : String
  body : Bytes
  token : String
  client : String

def serve (ext : Ext) (cfg : Config) (w : World) (v : Visit) : Handled World :=
  route ext cfg v.out (localOps v.env) w v.method v.path v.body v.token v.client

def serveAll (ext : Ext) (cfg : Config) (w : World) (visits : List Visit) : World :=
  visits.foldl (fun w v => (serve ext cfg w v).store w) w

/-- Every link is as it was, but for up to `n` more hits. -/
def KeepsLinks (n : Nat) (w w' : World) : Prop :=
  ∀ c link, w.store.stats c = some link →
    ∃ k ≤ n, w'.store.stats c = some { link with hits := link.hits + Int64.ofNat k }

namespace KeepsLinks

variable {w w' w'' : World} {m n : Nat}

theorem refl (n : Nat) (w : World) : KeepsLinks n w w := by
  intro c link there
  refine ⟨0, Nat.zero_le n, there.trans ?_⟩
  simp

theorem trans (first : KeepsLinks m w w') (second : KeepsLinks n w' w'') :
    KeepsLinks (m + n) w w'' := by
  intro c link there
  obtain ⟨k, small, there'⟩ := first c link there
  obtain ⟨k', small', there''⟩ := second c _ there'
  refine ⟨k + k', Nat.add_le_add small small', there''.trans ?_⟩
  rw [Int64.ofNat_add, ← Int64.add_assoc]

/-- A call that writes and revises no link keeps them all. -/
theorem of_writes (n : Nat) (writes : Writes none w w') : KeepsLinks n w w' := by
  intro c link there
  refine ⟨0, Nat.zero_le n, ?_⟩
  rw [Inner.stats, Option.map_eq_some_iff] at there
  obtain ⟨e, found, rfl⟩ := there
  rw [Inner.stats, writes.kept c e (by simp) found]
  simp

/-- A hit changes the count of one code. -/
theorem bump (env : Env) {s : Inner} {dir : Dir} {code : String} {e : Entry}
    (found : s.index.lookup code = some e) : KeepsLinks 1 ⟨s, dir⟩ ⟨s.bump env code e, dir⟩ := by
  rw [Inner.bump]
  split
  · intro c link there
    rw [Inner.stats, Option.map_eq_some_iff] at there
    obtain ⟨e', found', rfl⟩ := there
    by_cases same : c = code
    · subst same
      have entry : e = e' := Option.some.inj (found.symm.trans found')
      subst entry
      refine ⟨1, Nat.le_refl 1, ?_⟩
      rw [Inner.stats]
      simp
    · refine ⟨0, Nat.zero_le 1, ?_⟩
      rw [Inner.stats, Map.lookup_insert_eq, if_neg same]
      simp [found']
  · exact refl 1 _

/-- Without a sibling a resolve is a hit or nothing. -/
theorem resolve (solitary : w.Solitary) (env : Env) (code : String) :
    KeepsLinks 1 w ⟨(w.store.resolve env w.dir code).2, w.dir⟩ := by
  obtain ⟨s, dir⟩ := w
  rw [Inner.resolve]
  cases found : s.index.lookup code with
  | some e =>
      simp only
      split
      · exact bump env found
      · exact refl 1 _
  | none =>
      rcases solitary with ⟨snap, log, buf, sole, -⟩ | memory
      · have queue : s.aof = some ⟨logBytes buf⟩ := sole.queue
        obtain ⟨readers', lastPoll', -, read⟩ := sole.tailMissed env code
        simp only [queue, read, found]
        exact refl 1 _
      · have noLog : s.aof = none := memory
        simp only [noLog]
        exact refl 1 _

end KeepsLinks

/-! ## One request -/

theorem step_of_shorten {env : Env} {w w' : World} {url : String} {aliasCode made : Option String}
    {ttl : Int64} (plain : ∀ a, aliasCode = some a → codeOk a = true)
    (done : (localOps env).shorten w url aliasCode ttl = some (made, w')) :
    ∃ checked, w' = w.step (env, .shorten url checked ttl) := by
  obtain ⟨result, shortened, same⟩ := Option.map_eq_some_iff.mp done
  cases same
  cases aliasCode with
  | none =>
      refine ⟨none, ?_⟩
      simp only [World.step, Option.map_none, shortened]
  | some a =>
      refine ⟨some ⟨a, plain a rfl⟩, ?_⟩
      simp only [World.step, Option.map_some, shortened]

theorem step_of_shortenMany {env : Env} {w w' : World} {urls codes : List String} {ttl : Int64}
    (done : (localOps env).shortenMany w urls ttl = some (codes, w')) :
    w' = w.step (env, .shortenMany urls ttl) := by
  obtain ⟨result, shortened, same⟩ := Option.map_eq_some_iff.mp done
  cases same
  simp only [World.step, shortened]

/-- The call that a request makes, as a step of the store.  Without the admin
token it changes no link that is there. -/
theorem Effect.step {ext : Ext} {cfg : Config} {env : Env} {token : String}
    {asked : Option String} {w w' : World}
    (effect : Effect ext cfg (localOps env) token asked w w') :
    w' = w ∨ ∃ call : Call, call ≠ .restart ∧
      (adminOk cfg token = false → call.revises = none) ∧ w' = w.step (env, call) := by
  cases effect with
  | same => exact Or.inl rfl
  | resolve code => exact Or.inr ⟨.resolve code, by simp, fun _ => rfl, rfl⟩
  | shorten url aliasCode ttl made given valid plain done =>
      obtain ⟨checked, moved⟩ := step_of_shorten plain done
      exact Or.inr ⟨.shorten url checked ttl, by simp, fun _ => rfl, moved⟩
  | shortenMany urls ttl codes valid done =>
      exact Or.inr ⟨.shortenMany urls ttl, by simp, fun _ => rfl, step_of_shortenMany done⟩
  | update code url ttl hasTtl admin given valid =>
      refine Or.inr ⟨.update code url ttl hasTtl, by simp, fun locked => ?_, rfl⟩
      rw [locked] at admin
      cases admin
  | remove code admin =>
      refine Or.inr ⟨.remove code, by simp, fun locked => ?_, rfl⟩
      rw [locked] at admin
      cases admin

theorem effect_serve (ext : Ext) (cfg : Config) (w : World) (v : Visit) :
    Effect ext cfg (localOps v.env) v.token (askedUrl ext v.method v.path v.body) w
      ((serve ext cfg w v).store w) :=
  Effect.route _ _ _ _

theorem solitary_serve (ext : Ext) (cfg : Config) {w : World} (solitary : w.Solitary)
    (v : Visit) : ((serve ext cfg w v).store w).Solitary := by
  have effect := effect_serve ext cfg w v
  rcases effect.step with same | ⟨call, stays, -, moved⟩
  · rwa [same]
  · rw [moved]
    rcases solitary with settled | memory
    · exact Or.inl (settled.step _)
    · exact Or.inr (World.memory_step memory stays)

/-- Without the admin token a request keeps every link, with one more hit at
most. -/
theorem keepsLinks_serve (ext : Ext) {cfg : Config} {w : World} (solitary : w.Solitary) {v : Visit}
    (locked : adminOk cfg v.token = false) : KeepsLinks 1 w ((serve ext cfg w v).store w) := by
  have effect := effect_serve ext cfg w v
  generalize (serve ext cfg w v).store w = w' at effect ⊢
  cases effect with
  | same => exact KeepsLinks.refl 1 w
  | resolve code => exact KeepsLinks.resolve solitary v.env code
  | shorten url aliasCode ttl made given valid plain done =>
      obtain ⟨checked, rfl⟩ := step_of_shorten plain done
      exact .of_writes 1 (.shorten w v.env url checked ttl)
  | shortenMany urls ttl codes valid done =>
      obtain rfl := step_of_shortenMany done
      exact .of_writes 1 (.shortenMany w v.env urls ttl)
  | update code url ttl hasTtl admin given valid =>
      rw [locked] at admin
      cases admin
  | remove code admin =>
      rw [locked] at admin
      cases admin

/-! ## Runs of requests -/

theorem keepsLinks_serveAll (ext : Ext) {cfg : Config} {w : World} (solitary : w.Solitary)
    {visits : List Visit} (locked : ∀ v ∈ visits, adminOk cfg v.token = false) :
    KeepsLinks visits.length w (serveAll ext cfg w visits) := by
  induction visits generalizing w with
  | nil => exact KeepsLinks.refl 0 w
  | cons v visits ih =>
      have first := keepsLinks_serve ext solitary (locked v List.mem_cons_self)
      have later := ih (solitary_serve ext cfg solitary v)
        fun v' member => locked v' (List.mem_cons_of_mem _ member)
      have both := first.trans later
      rw [Nat.add_comm] at both
      exact both

/-- In every reachable state and after any run of requests without the admin
token, every link is there with its url, creation time and expiry.  Its hit
count has been raised by at most one for each request, and is not smaller
unless it wrapped around. -/
theorem links_immutable (ext : Ext) (cfg : Config) {w : World} (reachable : w.Reachable)
    (visits : List Visit) (locked : ∀ v ∈ visits, adminOk cfg v.token = false) (c : String)
    (link : Link) (there : w.store.stats c = some link) :
    ∃ k ≤ visits.length,
      (serveAll ext cfg w visits).store.stats c =
        some { link with hits := link.hits + Int64.ofNat k } ∧
      (link.hits.toInt + k < 2 ^ 63 → link.hits ≤ link.hits + Int64.ofNat k) := by
  obtain ⟨k, small, kept⟩ := keepsLinks_serveAll ext reachable.solitary locked c link there
  refine ⟨k, small, kept, fun room => ?_⟩
  have lower := link.hits.le_toInt
  have size : Int64.size = 2 ^ 64 := rfl
  rw [Int64.le_iff_toInt_le, Int64.toInt_add, Int64.toInt_ofNat', Int.add_bmod_bmod, Int.bmod_def,
    size]
  omega

def get (now : Int64) (path : String) : Visit where
  env := .at now []
  out := ⟨fun _ _ => true, [], []⟩
  method := "GET"
  path := path
  body := []
  token := ""
  client := ""

/-- Libraries that know one url and one request body each. -/
def oneUrl (url : String) (aliasCode : Option String) : Ext where
  parseUrl raw := if raw = url then some ⟨"https", some "a.example"⟩ else none
  formPairs _ := []
  shortenReq body := if body = encode url then some ⟨some url, aliasCode, none⟩ else none
  bulkReq _ := none
  patchReq body := if body = encode url then some ⟨some url, none⟩ else none
  linksJson _ _ := []
  linkJson _ := []

def openConfig : Config where
  linkTtlMs := 86400000
  adminToken := some "secret"
  corsOrigin := "*"
  ui := none

def linked : World :=
  (World.fresh (.at 0 []) 0).run [(.at 1000 [], .shorten "https://a.example" (some promo) 0)]

/-- A redirect, a second creation under the same alias, and an update and a
removal with a wrong token. -/
def outsiders : List Visit :=
  [get 1001 "/promo",
   { get 1002 "/api/shorten" with method := "POST", body := encode "https://b.example" },
   { get 1003 "/api/links/promo" with
     method := "PATCH", body := encode "https://b.example", token := "guess" },
   { get 1004 "/api/links/promo" with method := "DELETE", token := "guess" }]

theorem links_immutable_outsiders :
    let w := serveAll (oneUrl "https://b.example" (some "promo")) openConfig linked outsiders
    linked.store.stats "promo" = some ⟨"promo", "https://a.example", 0, 1000, none⟩ ∧
      ∃ k ≤ 4, w.store.stats "promo" =
        some ⟨"promo", "https://a.example", 0 + Int64.ofNat k, 1000, none⟩ := by
  have start : linked.store.stats "promo" = some ⟨"promo", "https://a.example", 0, 1000, none⟩ := by
    decide +kernel
  have reachable : linked.Reachable := Or.inl ⟨.at 0 [], 0, _, rfl⟩
  obtain ⟨k, small, kept, -⟩ := links_immutable (oneUrl "https://b.example" (some "promo"))
    openConfig reachable outsiders (by decide +kernel) "promo" _ start
  exact ⟨start, k, small, kept⟩

/-- Every resolve of a link that does not expire adds one to its counts. -/
theorem lookup_resolves {env : Env} (tracked : env.trackHits = true) {code : String} (n : Nat)
    {w : World} {e : Entry} (found : w.store.index.lookup code = some e) (forever : e.e = 0) :
    (w.run (List.replicate n (env, .resolve code))).store.index.lookup code =
      some { e with h := e.h + Int64.ofNat n, oh := e.oh + Int64.ofNat n } := by
  induction n generalizing w e with
  | zero =>
      rw [List.replicate_zero, World.run_nil, found]
      simp
  | succ n ih =>
      have bumped : (w.step (env, .resolve code)).store.index.lookup code =
          some { e with h := e.h + 1, oh := e.oh + 1 } := by
        simp [World.step, Inner.resolve, found, Inner.live, forever, Inner.bump, tracked]
      rw [List.replicate_succ, World.run_cons, ih bumped forever]
      simp [Int64.ofNat_add, Int64.add_assoc, Int64.add_comm (Int64.ofNat n)]

/-- A request for a code is a resolve. -/
theorem serve_promo (ext : Ext) (cfg : Config) (w : World) (now : Int64) :
    (serve ext cfg w (get now "/promo")).store w = w.step (.at now [], .resolve "promo") := by
  have parts : splitQuery "/promo" = ("/promo", "") := by decide +kernel
  have noStats : stripPrefix? "/api/stats/" "/promo" = none := by decide +kernel
  have code : tail? "/promo" = some "promo" := by decide +kernel
  have valid : codeOk "promo" = true := by decide +kernel
  simp only [serve, route, get, parts, routeGet, noStats, code, valid, localOps]
  cases looked : w.store.resolve (.at now []) w.dir "promo" with
  | mk target s' =>
      cases target with
      | none => simp [World.step, looked, Handled.store]
      | some u => simp [World.step, looked, Handled.store]

/-- A link after `n` resolves, before and after one more request. -/
theorem hits_next (n : Nat) :
    let w := linked.run (List.replicate n (.at 1001 [], .resolve "promo"))
    let w' := serveAll (oneUrl "" none) openConfig w [get 1002 "/promo"]
    w.Reachable ∧
      w.store.stats "promo" = some ⟨"promo", "https://a.example", 0 + Int64.ofNat n, 1000, none⟩ ∧
      w'.store.stats "promo" =
        some ⟨"promo", "https://a.example", 0 + Int64.ofNat n + Int64.ofNat 1, 1000, none⟩ := by
  intro w w'
  have found : linked.store.index.lookup "promo" =
      some ⟨"https://a.example", 1000, 0, 0, 0, 0⟩ := by
    decide +kernel
  have before : w.store.index.lookup "promo" = _ := lookup_resolves rfl n found rfl
  have step : w' = w.run (List.replicate 1 (.at 1002 [], .resolve "promo")) :=
    serve_promo _ _ w 1002
  have after := @lookup_resolves (.at 1002 []) rfl _ 1 _ _ before rfl
  rw [← step] at after
  have reachable : w.Reachable :=
    Or.inl ⟨.at 0 [], 0, [_] ++ List.replicate n _, (List.foldl_append ..).symm⟩
  exact ⟨reachable, congrArg (Option.map _) before, congrArg (Option.map _) after⟩

/-- The hit count is a 64-bit number: one more redirect after the largest count
makes it negative. -/
theorem hits_wrap :
    let w := linked.run (List.replicate (2 ^ 63 - 1) (.at 1001 [], .resolve "promo"))
    let w' := serveAll (oneUrl "" none) openConfig w [get 1002 "/promo"]
    w.Reachable ∧ adminOk openConfig "" = false ∧
      ∃ link link', w.store.stats "promo" = some link ∧ w'.store.stats "promo" = some link' ∧
        link'.hits < link.hits := by
  have next := hits_next (2 ^ 63 - 1)
  generalize linked.run (List.replicate (2 ^ 63 - 1) (.at 1001 [], .resolve "promo")) = w at next ⊢
  obtain ⟨reachable, before, after⟩ := next
  exact ⟨reachable, by decide, _, _, before, after, by decide +kernel⟩

end Shrt.Http
