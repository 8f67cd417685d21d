import Mathlib.Data.List.Basic
import Shrt.Http.App

/-!
# What a request does to the store

Every request makes at most one call that changes the store, with arguments
that passed their checks.  Updates and removals need the admin token.
-/

namespace Shrt.Http

open Shrt.Codec Shrt.Store

variable {σ : Type}

def askedUrl (ext : Ext) (method path : String) (body : Bytes) : Option String :=
  if method = "POST" && (splitQuery path).1 = "/api/shorten" then
    (ext.shortenReq body).bind ShortenReq.url
  else if method = "PATCH" then (ext.patchReq body).bind PatchReq.url
  else none

/-- The stores that a request with a token, asking for a url, can leave behind. -/
inductive Effect (ext : Ext) (cfg : Config) (ops : Ops σ) (token : String) (asked : Option String)
    (s : σ) : σ → Prop where
  | same : Effect ext cfg ops token asked s s
  | resolve (code : String) : Effect ext cfg ops token asked s (ops.resolve s code).2
  | shorten {s' : σ} (url : String) (aliasCode : Option String) (ttl : Int64)
      (made : Option String) (given : asked = some url) (valid : isValidUrl ext url = true)
      (plain : ∀ a, aliasCode = some a → codeOk a = true)
      (done : ops.shorten s url aliasCode ttl = some (made, s')) :
      Effect ext cfg ops token asked s s'
  | shortenMany {s' : σ} (urls : List String) (ttl : Int64) (codes : List String)
      (valid : ∀ url ∈ urls, okBulkUrl url = true)
      (done : ops.shortenMany s urls ttl = some (codes, s')) : Effect ext cfg ops token asked s s'
  | update (code url : String) (ttl : Int64) (hasTtl : Bool) (admin : adminOk cfg token = true)
      (given : asked = some url) (valid : isValidUrl ext url = true) :
      Effect ext cfg ops token asked s (ops.update s code url ttl hasTtl).2
  | remove (code : String) (admin : adminOk cfg token = true) :
      Effect ext cfg ops token asked s (ops.remove s code).2

namespace Effect

variable {ext : Ext} {cfg : Config} {out : Outside} {ops : Ops σ} {token : String}
variable {asked : Option String} {s : σ}

theorem shortenOne (p : ShortenReq) :
    Effect ext cfg ops token p.url s ((Http.shortenOne ext cfg ops s p).store s) := by
  rw [Http.shortenOne]
  cases given : p.url with
  | none => exact .same
  | some u =>
      simp only
      split
      · exact .same
      · rename_i valid
        split
        · exact .same
        · rename_i plain
          split
          · exact .same
          · have aliasOk : ∀ a, p.aliasCode = some a → codeOk a = true := by
              intro a given
              rw [given] at plain
              simpa using plain
            have urlOk : isValidUrl ext u = true := by simpa using valid
            split
            · exact .same
            · rename_i done
              exact .shorten _ _ _ _ rfl urlOk aliasOk done
            · rename_i done
              exact .shorten _ _ _ _ rfl urlOk aliasOk done

theorem shortenBulk (p : BulkReq) :
    Effect ext cfg ops token asked s ((Http.shortenBulk cfg ops s p).store s) := by
  rw [Http.shortenBulk]
  cases p.urls with
  | none => exact .same
  | some urls =>
      simp only
      split
      · exact .same
      · rename_i valid
        split
        · exact .same
        · rename_i done
          refine .shortenMany urls _ _ (fun url member => ?_) done
          simp only [Bool.or_eq_true, not_or, Bool.not_eq_true, Bool.not_eq_eq_eq_not,
            Bool.not_true, Bool.not_eq_false] at valid
          exact List.all_eq_true.mp valid.2 url member

theorem routeGet (pathname query : String) :
    Effect ext cfg ops token asked s ((Http.routeGet ext cfg out ops s pathname query).store s) := by
  rw [Http.routeGet]
  split
  · exact .same
  split
  · exact .same
  split
  · exact .same
  split
  · exact .same
  split
  · exact .same
  split
  · exact .same
  split
  · exact .same
  · rename_i code _
    split
    · cases looked : ops.resolve s code with
      | mk target s' =>
          have effect : Effect ext cfg ops token asked s (ops.resolve s code).2 := .resolve code
          rw [looked] at effect
          cases target with
          | none => exact effect
          | some target => exact effect
    · exact .same

theorem routePost (path : String) (body : Bytes) (client : String) :
    Effect ext cfg ops token (askedUrl ext "POST" path body) s
      ((Http.routePost ext cfg out ops s (splitQuery path).1 body client).store s) := by
  rw [Http.routePost]
  split
  · rename_i one
    split
    · exact .same
    · rename_i p decoded
      split
      · exact .same
      · have asked_eq : askedUrl ext "POST" path body = p.url := by
          simp [askedUrl, one, decoded]
        rw [asked_eq]
        exact shortenOne p
  split
  · split
    · exact .same
    · split
      · exact .same
      · exact shortenBulk _
  · exact .same

theorem routePatch (admin : adminOk cfg token = true) (path code : String) (body : Bytes) :
    Effect ext cfg ops token (askedUrl ext "PATCH" path body) s
      ((Http.routePatch ext cfg ops s code body).store s) := by
  rw [Http.routePatch]
  split
  · exact .same
  · rename_i p decoded
    split
    · exact .same
    · rename_i u given
      split
      · exact .same
      · rename_i valid
        refine .update _ _ _ _ admin ?_ (by simpa using valid)
        simp [askedUrl, decoded, given]

theorem routeAdmin {method : String} {isDelete : Bool} (sort : isDelete = true ∨ method = "PATCH")
    (path pathname : String) (body : Bytes) :
    Effect ext cfg ops token (askedUrl ext method path body) s
      ((Http.routeAdmin ext cfg ops s isDelete pathname body token).store s) := by
  rw [Http.routeAdmin]
  split
  · exact .same
  · split
    · exact .same
    · rename_i admin
      have admin' : adminOk cfg token = true := by simpa using admin
      split
      · exact .same
      · split
        · exact .remove _ admin'
        · rename_i patch
          rcases sort with delete | rfl
          · exact absurd delete patch
          · exact routePatch admin' _ _ _

/-- Every request makes at most one call. -/
theorem route (method path : String) (body : Bytes) (client : String) :
    Effect ext cfg ops token (askedUrl ext method path body) s
      ((Http.route ext cfg out ops s method path body token client).store s) := by
  rw [Http.route]
  split
  · exact .same
  split
  · exact routeGet _ _
  split
  · rename_i post
    subst post
    exact routePost _ _ _
  split
  · rename_i patch
    exact routeAdmin (Or.inr patch) _ _ _
  split
  · exact routeAdmin (Or.inl rfl) _ _ _
  · exact .same

end Effect

end Shrt.Http
