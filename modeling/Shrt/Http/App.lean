import Mathlib.Data.List.Basic
import Mathlib.Data.Rat.Floor
import Shrt.Store.Engine

/-!
# The request handler

The handler that both frontends share: validation, the routes and the replies.
It works on any store through the calls of the `Store` enum.  The url parser,
the JSON and form codecs, the rate limiter's decision, the metrics texts and the
page of the user interface are given from outside.
-/

namespace Shrt.Http

open Shrt.Codec Shrt.Lib Shrt.Lib.Utf8 Shrt.Lib.Decimal
open Shrt.Store (Link MutResult)

def MAX_BODY : Nat := 4096

def MAX_BULK_BODY : Nat := 1 <<< 20

def MAX_BULK_URLS : Nat := 10000

def MAX_LIST_LIMIT : Int64 := 1000

/-- A number of a request body; every finite float is one. -/
abbrev Num := ℚ

/-- `t as i64`: truncated toward zero, saturating. -/
def asI64 (t : Num) : Int64 :=
  let whole : Int := if t < 0 then ⌈t⌉ else ⌊t⌋
  if whole < Int64.minValue.toInt then Int64.minValue
  else if Int64.maxValue.toInt < whole then Int64.maxValue
  else Int64.ofInt whole

structure ShortenReq where
  url : Option String
  aliasCode : Option String
  ttlMs : Option Num

structure BulkReq where
  urls : Option (List String)

structure PatchReq where
  url : Option String
  ttlMs : Option Num

/-- What a parsed url is asked for. -/
structure ParsedUrl where
  scheme : String
  host : Option String

/-- The libraries that the handler calls. -/
structure Ext where
  parseUrl : String → Option ParsedUrl
  formPairs : Bytes → List (String × String)
  shortenReq : Bytes → Option ShortenReq
  bulkReq : Bytes → Option BulkReq
  patchReq : Bytes → Option PatchReq
  linksJson : List Link → Nat → Bytes
  linkJson : Link → Bytes

structure Config where
  linkTtlMs : Int64
  adminToken : Option String
  corsOrigin : String
  ui : Option Bytes

/-- What one request finds outside the store: the limiter's decision for a
client and a cost, and the metrics texts. -/
structure Outside where
  allow : String → Nat → Bool
  metrics : Bytes
  prometheus : Bytes

/-- The calls of a store.  A creation that is still drawing codes has no
result. -/
structure Ops (σ : Type) where
  healthy : σ → Bool
  resolve : σ → String → Option String × σ
  stats : σ → String → Option Link
  list : σ → Nat → Nat → Bool → String → List Link × Nat
  shorten : σ → String → Option String → Int64 → Option (Option String × σ)
  shortenMany : σ → List String → Int64 → Option (List String × σ)
  update : σ → String → String → Int64 → Bool → MutResult × σ
  remove : σ → String → MutResult × σ

structure Reply where
  status : Nat
  location : Option String
  body : Bytes
  ctype : Option String
  deriving DecidableEq, Repr

def Reply.new (status : Nat) (body : Bytes) : Reply :=
  ⟨status, none, body, none⟩

def bad (err : String) : Reply :=
  .new 400 (encode "\x7b\"error\":\"" ++ encode err ++ encode "\"\x7d")

def notFound : Reply :=
  .new 404 (encode "\x7b\"error\":\"not found\"\x7d")

/-- How a request ends: with a reply, with a panic of the handler, or not yet
while codes are drawn. -/
inductive Handled (σ : Type) where
  | replied (reply : Reply) (store : σ)
  | panicked
  | drawing

/-- The store after a request that found `s`. -/
def Handled.store {σ : Type} (s : σ) : Handled σ → σ
  | .replied _ after => after
  | .panicked => s
  | .drawing => s

def Handled.reply? {σ : Type} : Handled σ → Option Reply
  | .replied reply _ => some reply
  | .panicked => none
  | .drawing => none

/-- `admin_ok`: a token is configured, not empty and the same. -/
def adminOk (cfg : Config) (token : String) : Bool :=
  cfg.adminToken.any fun t => t ≠ "" && t == token

def eqIgnoreCase (s t : String) : Bool :=
  s.toList.map Char.toLower == t.toList.map Char.toLower

def isValidUrl (ext : Ext) (raw : String) : Bool :=
  if raw = "" || (encode raw).length > 2048 then false
  else
    match ext.parseUrl raw with
    | some u =>
        (eqIgnoreCase u.scheme "http" || eqIgnoreCase u.scheme "https") && u.host.any (· ≠ "")
    | none => false

/-- The check of bulk urls: prefix, length and no byte that could break a log
line. -/
def okBulkUrl (u : String) : Bool :=
  (encode u).length > 7 && (encode u).length ≤ 2048 &&
    ((encode "http://").isPrefixOf (encode u) || (encode "https://").isPrefixOf (encode u)) &&
    !(encode u).any fun c => c == 34 || c == 92 || c == 10 || c == 13

section Routes

variable {σ : Type} (ext : Ext) (cfg : Config) (out : Outside) (ops : Ops σ) (s : σ)

def created (code : String) : Reply :=
  .new 201 (encode "\x7b\"code\":\"" ++ encode code ++ encode "\",\"short_url\":\"/" ++ encode code ++
    encode "\"\x7d")

def shortenOne (p : ShortenReq) : Handled σ :=
  match p.url with
  | none => .replied (bad "invalid url") s
  | some u =>
      if !isValidUrl ext u then .replied (bad "invalid url") s
      else if p.aliasCode.any fun a => !codeOk a then .replied (bad "invalid alias") s
      else if p.ttlMs.any fun t => t ≤ 0 then .replied (bad "invalid ttl_ms") s
      else
        let ttl := match p.ttlMs with
          | some t => min (asI64 t) cfg.linkTtlMs
          | none => cfg.linkTtlMs
        match ops.shorten s u p.aliasCode ttl with
        | none => .drawing
        | some (none, s) => .replied (.new 409 (encode "\x7b\"error\":\"alias taken\"\x7d")) s
        | some (some code, s) => .replied (created code) s

def bulkBad : Reply :=
  bad "urls must be 1-10000 valid http(s) urls"

def createdMany (codes : List String) : Reply :=
  .new 201 (encode "\x7b\"count\":" ++ encode (toString codes.length) ++ encode ",\"codes\":[" ++
    List.intercalate (encode ",") (codes.map fun c => encode "\"" ++ encode c ++ encode "\"") ++
    encode "]\x7d")

def shortenBulk (p : BulkReq) : Handled σ :=
  match p.urls with
  | none => .replied bulkBad s
  | some urls =>
      if urls.isEmpty || urls.length > MAX_BULK_URLS || !urls.all okBulkUrl then
        .replied bulkBad s
      else
        match ops.shortenMany s urls cfg.linkTtlMs with
        | none => .drawing
        | some (codes, s) => .replied (createdMany codes) s

/-- The last value of a key in a query, as collecting into a map keeps it. -/
def queryGet (pairs : List (String × String)) (key : String) : Option String :=
  (pairs.reverse.find? fun kv => kv.1 == key).map Prod.snd

def listLinks (query : String) : Handled σ :=
  let p := ext.formPairs (encode query)
  let limit := match (queryGet p "limit").bind parseI64? with
    | some n => if n ≠ 0 then n else 50
    | none => 50
  let limit := max 1 (min limit MAX_LIST_LIMIT)
  let offset := match (queryGet p "offset").bind parseI64? with
    | some n => if n > 0 then n else 0
    | none => 0
  let byHits := queryGet p "sort" == some "hits"
  let found := ops.list s limit.toInt.toNat offset.toInt.toNat byHits
    ((queryGet p "q").getD "")
  .replied (.new 200 (ext.linksJson found.1 found.2)) s

/-- `&s[1..]`: the string behind its first byte; a panic if there is none or if
a character would be cut. -/
def tail? (s : String) : Option String :=
  match s.toList with
  | [] => none
  | c :: cs => if c.utf8Size = 1 then some (String.ofList cs) else none

def stripPrefix? (lead s : String) : Option String :=
  if lead.toList.isPrefixOf s.toList then some (String.ofList (s.toList.drop lead.toList.length))
  else none

def routeGet (pathname query : String) : Handled σ :=
  if pathname = "/api/health" then
    .replied (if ops.healthy s then .new 200 (encode "\x7b\"ok\":true\x7d")
      else .new 503 (encode "\x7b\"ok\":false\x7d")) s
  else if pathname = "/api/metrics" then .replied (.new 200 out.metrics) s
  else if pathname = "/metrics" then
    .replied ⟨200, none, out.prometheus, some "text/plain; version=0.0.4"⟩ s
  else if pathname = "/" then
    .replied (cfg.ui.elim notFound fun html => ⟨200, none, html, some "text/html; charset=utf-8"⟩) s
  else if pathname = "/api/links" then listLinks ext ops s query
  else
    match stripPrefix? "/api/stats/" pathname with
    | some code =>
        .replied ((ops.stats s code).elim notFound fun link => .new 200 (ext.linkJson link)) s
    | none =>
        match tail? pathname with
        | none => .panicked
        | some code =>
            if codeOk code then
              match ops.resolve s code with
              | (some target, s) => .replied ⟨302, some target, [], none⟩ s
              | (none, s) => .replied notFound s
            else .replied notFound s

def limited : Reply :=
  .new 429 (encode "\x7b\"error\":\"rate limited\"\x7d")

def routePost (pathname : String) (body : Bytes) (client : String) : Handled σ :=
  if pathname = "/api/shorten" then
    match ext.shortenReq body with
    | none => .replied (bad "invalid json") s
    | some p => if !out.allow client 1 then .replied limited s else shortenOne ext cfg ops s p
  else if pathname = "/api/shorten/bulk" then
    match ext.bulkReq body with
    | none => .replied (bad "invalid json") s
    | some p =>
        if !out.allow client (max (p.urls.getD []).length 1) then .replied limited s
        else shortenBulk cfg ops s p
  else .replied notFound s

/-- The answer to a mutation; `done` on success. -/
def mutated (done : Reply) (result : MutResult × σ) : Handled σ :=
  .replied (match result.1 with
    | .ok => done
    | .missing => notFound
    | .remote => .new 409 (encode "\x7b\"error\":\"owned by another instance\"\x7d")) result.2

def routePatch (code : String) (body : Bytes) : Handled σ :=
  match ext.patchReq body with
  | none => .replied (bad "invalid json") s
  | some p =>
      match p.url with
      | none => .replied (bad "nothing to update") s
      | some u =>
          if !isValidUrl ext u then .replied (bad "invalid url") s
          else
            let asked := match p.ttlMs with
              | some t => (min (asI64 t) cfg.linkTtlMs, true)
              | none => (0, false)
            mutated (.new 200 (encode "\x7b\"ok\":true\x7d")) (ops.update s code u asked.1 asked.2)

/-- `PATCH` and `DELETE`, which need the admin token. -/
def routeAdmin (isDelete : Bool) (pathname : String) (body : Bytes) (token : String) : Handled σ :=
  match stripPrefix? "/api/links/" pathname with
  | none => .replied notFound s
  | some code =>
      if !adminOk cfg token then .replied notFound s
      else if !codeOk code then .replied (bad "invalid code") s
      else if isDelete then mutated ⟨204, none, [], none⟩ (ops.remove s code)
      else routePatch ext cfg ops s code body

/-- The path and the query, cut at the first question mark. -/
def splitQuery (path : String) : String × String :=
  let parts := path.toList.span (· ≠ '?')
  (String.ofList parts.1, String.ofList (parts.2.drop 1))

/-- `route`, which `handle` returns the reply of. -/
def route (method path : String) (body : Bytes) (token client : String) : Handled σ :=
  let parts := splitQuery path
  if method = "OPTIONS" then .replied ⟨204, none, [], none⟩ s
  else if method = "GET" then routeGet ext cfg out ops s parts.1 parts.2
  else if method = "POST" then routePost ext cfg out ops s parts.1 body client
  else if method = "PATCH" then routeAdmin ext cfg ops s false parts.1 body token
  else if method = "DELETE" then routeAdmin ext cfg ops s true parts.1 body token
  else .replied notFound s

end Routes

end Shrt.Http
