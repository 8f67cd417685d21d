import Mathlib.Data.List.Basic
import Shrt.Backends.Store
import Shrt.Http.Acknowledged
import Shrt.Http.StoreCalls
import Shrt.Lib.Runs

/-!
# Codes are registers

Requests and the threads of a process follow one another on a store of any kind.  What a
client is told by the replies determines what a request for a code is answered.
-/

namespace Shrt.Http

open Shrt.Codec Shrt.Lib Shrt.Lib.Utf8 Shrt.Kv
open Shrt.Backends

/-- A request, and what its calls are given from outside. -/
structure Ask where
  env : StoreEnv
  out : Outside
  method : String
  path : String
  body : Bytes
  token : String
  client : String

inductive Turn where
  | ask (a : Ask)
  | work (env : StoreEnv) (job : Work)

def Turn.env : Turn → StoreEnv
  | .ask a => a.env
  | .work env _ => env

section Turns

variable (ext : Ext) (cfg : Config)

def Ask.handled (a : Ask) (s : Store) : Handled Store :=
  route ext cfg a.out (Store.ops a.env) s a.method a.path a.body a.token a.client

/-- What a listing or a look at the counts leaves, which `route` does not hand on. -/
def Ask.looked (a : Ask) (s : Store) : Store :=
  let parts := splitQuery a.path
  if a.method ≠ "GET" then s
  else if parts.1 = "/api/links" then
    (s.list a.env 0 0 false ((queryGet (ext.formPairs (encode parts.2)) "q").getD "")).2
  else
    match stripPrefix? "/api/stats/" parts.1 with
    | some code => (s.stats a.env code).2
    | none => s

def turned (s : Store) : Turn → Store
  | .ask a => a.looked ext ((a.handled ext cfg s).store s)
  | .work env job => s.work env job

def replies : Store → List Turn → List (Ask × Option Reply)
  | _, [] => []
  | s, .ask a :: turns =>
      (a, (a.handled ext cfg s).reply?) :: replies (turned ext cfg s (.ask a)) turns
  | s, .work env job :: turns => replies (s.work env job) turns

variable {ext cfg} {renewed : Int64 → Int64 → Int64} {R : Int64 → Store → Words → Prop}

end Turns

/-- Libraries that accept every url, and read a body as one. -/
def anyUrl : Ext where
  parseUrl _ := some ⟨"https", some "a.example"⟩
  formPairs _ := []
  shortenReq body := (decode? body).map fun url => ⟨some url, some "promo", none⟩
  bulkReq _ := none
  patchReq body := (decode? body).map fun url => ⟨some url, none⟩
  linksJson _ _ := []
  linkJson _ := []

def askAt (now : Int64) (method path body token : String) : Ask where
  env := .at now []
  out := ⟨fun _ _ => true, [], []⟩
  method := method
  path := path
  body := encode body
  token := token
  client := ""

/-- A link is created, moved by the operator and looked up after a restart. -/
def moves : List Turn :=
  [.ask (askAt 1000 "POST" "/api/shorten" "https://a.example" ""),
   .work (.at 1005 []) .flush,
   .ask (askAt 1010 "PATCH" "/api/links/promo" "https://b.example" "secret"),
   .work (.at 1020 []) .restart]

end Shrt.Http
