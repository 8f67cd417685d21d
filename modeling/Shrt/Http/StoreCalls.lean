import Mathlib.Data.List.Basic
import Shrt.Http.Effects

/-!
# The call that a request makes

A request makes one call on the store at most, which depends on the request alone: it is
what a store that only takes notes is told.  A request for the path of an alias asks for
the alias, unless that is the name of a fixed route.
-/

namespace Shrt.Http

open Shrt.Codec Shrt.Lib Shrt.Lib.Utf8 Shrt.Store

/-! ## Calls -/

/-- A call that may change a store. -/
inductive StoreCall where
  | resolve (code : String)
  | shorten (url : String) (aliasCode : Option String) (ttl : Int64)
  | shortenMany (urls : List String) (ttl : Int64)
  | update (code url : String) (ttl : Int64) (hasTtl : Bool)
  | remove (code : String)
  deriving DecidableEq, Repr

namespace StoreCall

/-- The store behind the call; one that is still drawing codes leaves it as it is. -/
def run {σ : Type} (ops : Ops σ) (s : σ) : StoreCall → σ
  | resolve code => (ops.resolve s code).2
  | shorten url aliasCode ttl => ((ops.shorten s url aliasCode ttl).map Prod.snd).getD s
  | shortenMany urls ttl => ((ops.shortenMany s urls ttl).map Prod.snd).getD s
  | update code url ttl hasTtl => (ops.update s code url ttl hasTtl).2
  | remove code => (ops.remove s code).2

/-- The code whose link is changed or removed. -/
def revises : StoreCall → Option String
  | update code _ _ _ => some code
  | remove code => some code
  | _ => none

/-- An alias that is asked for has the form of a code. -/
def Plain : StoreCall → Prop
  | shorten _ aliasCode _ => ∀ a, aliasCode = some a → codeOk a = true
  | _ => True

end StoreCall

/-- A store that takes notes. -/
def notes : Ops (Option StoreCall) where
  healthy _ := true
  resolve _ code := (none, some (.resolve code))
  stats _ _ := none
  list _ _ _ _ _ := ([], 0)
  shorten _ url aliasCode ttl := some (none, some (.shorten url aliasCode ttl))
  shortenMany _ urls ttl := some ([], some (.shortenMany urls ttl))
  update _ code url ttl hasTtl := (.missing, some (.update code url ttl hasTtl))
  remove _ code := (.missing, some (.remove code))

section StoreCall

variable {σ : Type} (ext : Ext) (cfg : Config) (out : Outside)

/-- What a request makes the store do. -/
def storeCall (method path : String) (body : Bytes) (token client : String) : Option StoreCall :=
  (route ext cfg out notes none method path body token client).store none

/-- The store behind a handled request is the one behind the call that was noted. -/
def Obeys (ops : Ops σ) (s : σ) (h : Handled σ) (noted : Handled (Option StoreCall)) : Prop :=
  h.store s = (noted.store none).elim s fun call => call.run ops s

variable {ext cfg out} (ops : Ops σ) (s : σ)

theorem obeys_shortenOne (p : ShortenReq) :
    Obeys ops s (shortenOne ext cfg ops s p) (shortenOne ext cfg notes none p) := by
  rw [shortenOne, shortenOne]
  cases p.url with
  | none => rfl
  | some url =>
      dsimp only
      split
      · rfl
      split
      · rfl
      split
      · rfl
      simp only [Obeys, notes, Handled.store, Option.elim_some, StoreCall.run]
      cases ops.shorten s url p.aliasCode _ with
      | none => rfl
      | some done =>
          obtain ⟨made, s'⟩ := done
          cases made with
          | none => rfl
          | some code => rfl

theorem obeys_shortenBulk (p : BulkReq) :
    Obeys ops s (shortenBulk cfg ops s p) (shortenBulk cfg notes none p) := by
  rw [shortenBulk, shortenBulk]
  cases p.urls with
  | none => rfl
  | some urls =>
      dsimp only
      split
      · rfl
      simp only [Obeys, notes, Handled.store, Option.elim_some, StoreCall.run]
      cases ops.shortenMany s urls cfg.linkTtlMs with
      | none => rfl
      | some done => rfl

theorem obeys_routeGet (pathname query : String) :
    Obeys ops s (routeGet ext cfg out ops s pathname query)
      (routeGet ext cfg out notes none pathname query) := by
  rw [routeGet, routeGet]
  split
  · rfl
  split
  · rfl
  split
  · rfl
  split
  · rfl
  split
  · rfl
  cases stripPrefix? "/api/stats/" pathname with
  | some code => rfl
  | none =>
      cases tail? pathname with
      | none => rfl
      | some code =>
          dsimp only
          split
          · simp only [Obeys, notes, Handled.store, Option.elim_some, StoreCall.run]
            cases ops.resolve s code with
            | mk target s' =>
                cases target with
                | none => rfl
                | some target => rfl
          · rfl

theorem obeys_routePost (pathname : String) (body : Bytes) (client : String) :
    Obeys ops s (routePost ext cfg out ops s pathname body client)
      (routePost ext cfg out notes none pathname body client) := by
  rw [routePost, routePost]
  split
  · cases ext.shortenReq body with
    | none => rfl
    | some p =>
        dsimp only
        split
        · rfl
        · exact obeys_shortenOne ops s p
  split
  · cases ext.bulkReq body with
    | none => rfl
    | some p =>
        dsimp only
        split
        · rfl
        · exact obeys_shortenBulk ops s p
  · rfl

theorem obeys_routeAdmin (isDelete : Bool) (pathname : String) (body : Bytes) (token : String) :
    Obeys ops s (routeAdmin ext cfg ops s isDelete pathname body token)
      (routeAdmin ext cfg notes none isDelete pathname body token) := by
  rw [routeAdmin, routeAdmin]
  cases stripPrefix? "/api/links/" pathname with
  | none => rfl
  | some code =>
      dsimp only
      split
      · rfl
      split
      · rfl
      split
      · rfl
      rw [routePatch, routePatch]
      cases ext.patchReq body with
      | none => rfl
      | some p =>
          obtain ⟨given, ttlMs⟩ := p
          cases given with
          | none => rfl
          | some url =>
              dsimp only
              split
              · rfl
              · rfl

/-- Every request does to a store what its call does. -/
theorem store_route (method path : String) (body : Bytes) (token client : String) :
    (route ext cfg out ops s method path body token client).store s =
      (storeCall ext cfg out method path body token client).elim s fun call => call.run ops s := by
  have obeys : Obeys ops s (route ext cfg out ops s method path body token client)
      (route ext cfg out notes none method path body token client) := by
    rw [route, route]
    split
    · rfl
    split
    · exact obeys_routeGet ops s _ _
    split
    · exact obeys_routePost ops s _ _ _
    split
    · exact obeys_routeAdmin ops s _ _ _ _
    split
    · exact obeys_routeAdmin ops s _ _ _ _
    · rfl
  exact obeys

/-- A request hands on no alias that does not have the form of a code. -/
theorem storeCall_plain {method path : String} {body : Bytes} {token client : String} {call : StoreCall}
    (told : storeCall ext cfg out method path body token client = some call) : call.Plain := by
  have effect : Effect ext cfg notes token (askedUrl ext method path body) none
      (storeCall ext cfg out method path body token client) := Effect.route _ _ _ _
  rw [told] at effect
  cases call with
  | shorten url aliasCode ttl =>
      cases effect with
      | shorten _ _ _ _ _ _ plain done =>
          cases done
          exact plain
      | shortenMany _ _ _ _ done => cases done
  | _ => trivial

end StoreCall

/-! ## Paths -/

theorem not_slash_mem {a : String} (ok : codeOk a = true) : '/' ∉ a.toList := by
  intro member
  have byte : (47 : UInt8) ∈ encode a := by
    rw [encode, List.mem_flatMap]
    exact ⟨'/', member, by decide⟩
  exact (Plain.of_codeOk ok).not_mem (by decide) byte

theorem slash_append_inj {a rest : String} (same : "/" ++ a = "/" ++ rest) : a = rest := by
  simpa using same

/-- The path of an alias is a fixed route only if the rest of that route is an
alias. -/
theorem slash_append_ne {a : String} (ok : codeOk a = true) (rest : String) (bad : codeOk rest = false) :
    "/" ++ a ≠ "/" ++ rest := by
  intro same
  rw [slash_append_inj same, bad] at ok
  cases ok

theorem stripPrefix?_alias {a : String} (ok : codeOk a = true) :
    stripPrefix? "/api/stats/" ("/" ++ a) = none := by
  have path : ("/" ++ a).toList = '/' :: a.toList := by simp
  have unlike : ¬ ("/api/stats/".toList.isPrefixOf ("/" ++ a).toList) = true := by
    intro start
    rw [path, List.isPrefixOf_iff_prefix] at start
    obtain ⟨rest, whole⟩ := start
    have behind : a.toList = "api/stats/".toList ++ rest := (List.cons.inj whole).2.symm
    refine not_slash_mem ok ?_
    rw [behind]
    simp
  rw [stripPrefix?, if_neg unlike]

theorem tail?_alias (a : String) : tail? ("/" ++ a) = some a := by
  have path : ("/" ++ a).toList = '/' :: a.toList := by simp
  have narrow : '/'.utf8Size = 1 := by decide
  simp only [tail?, path, narrow, if_true, String.ofList_toList]

/-- A request for the path of an alias, on any store: the alias is resolved,
unless it is the name of a fixed route. -/
theorem routeGet_alias {σ : Type} (ext : Ext) (cfg : Config) (out : Outside) (ops : Ops σ) (s : σ)
    {a : String} (ok : codeOk a = true) (query : String) :
    routeGet ext cfg out ops s ("/" ++ a) query =
      if a = "metrics" then
        .replied ⟨200, none, out.prometheus, some "text/plain; version=0.0.4"⟩ s
      else
        .replied ((ops.resolve s a).1.elim notFound fun target => ⟨302, some target, [], none⟩)
          (ops.resolve s a).2 := by
  have health : "/" ++ a ≠ "/api/health" := slash_append_ne ok "api/health" (by decide)
  have apiMetrics : "/" ++ a ≠ "/api/metrics" :=
    slash_append_ne ok "api/metrics" (by decide)
  have root : "/" ++ a ≠ "/" := slash_append_ne ok "" (by decide)
  have links : "/" ++ a ≠ "/api/links" := slash_append_ne ok "api/links" (by decide)
  have metrics : "/" ++ a = "/metrics" ↔ a = "metrics" := by
    constructor
    · exact fun same => slash_append_inj same
    · rintro rfl
      rfl
  simp only [routeGet, if_neg health, if_neg apiMetrics, if_neg root, if_neg links, metrics,
    stripPrefix?_alias ok, tail?_alias, if_pos ok]
  split
  · rfl
  · cases looked : ops.resolve s a with
    | mk target s' =>
        cases target with
        | none => rfl
        | some target => rfl

end Shrt.Http
