import Mathlib.Data.List.Basic
import Shrt.Store.Engine

/-!
# Sequential histories of one store

A history is a list of calls, each with its own environment.  What the
background threads do is a `flush` or a `poll` call like any other, and a
store may be closed and reopened in the middle of a history.
-/

namespace Shrt.Store

open Shrt.Codec Shrt.Lib

inductive Call where
  | shorten (url : String) (aliasCode : Option Alias) (ttl : Int64)
  | shortenMany (urls : List String) (ttl : Int64)
  | update (code url : String) (ttl : Int64) (hasTtl : Bool)
  | remove (code : String)
  | resolve (code : String)
  | flush
  | compact
  | poll
  | restart

structure World where
  store : Inner
  dir : Dir

namespace World

/-- A store opened on an empty directory. -/
def fresh (env : Env) (inst : Inst) : World :=
  let opened := Inner.new env .empty inst false
  ⟨opened.1, opened.2⟩

def close (env : Env) (w : World) : World :=
  let closed := w.store.close env w.dir
  ⟨closed.1, closed.2⟩

/-- `LocalStore::new` on the directory and instance of the closed store. -/
def reopen (env : Env) (w : World) : World :=
  let opened := Inner.new env w.dir w.store.inst false
  ⟨opened.1, opened.2⟩

/-- One call.  A `shorten` still drawing random codes has changed nothing. -/
def step (w : World) (call : Env × Call) : World :=
  let env := call.1
  match call.2 with
  | .shorten url aliasCode ttl =>
      match w.store.shorten env w.dir url (aliasCode.map Subtype.val) ttl with
      | none => w
      | some done => ⟨done.2.1, done.2.2⟩
  | .shortenMany urls ttl =>
      match w.store.shortenMany env w.dir urls ttl with
      | none => w
      | some done => ⟨done.2.1, done.2.2⟩
  | .update code url ttl hasTtl => ⟨(w.store.update env code url ttl hasTtl).2, w.dir⟩
  | .remove code => ⟨(w.store.remove code).2, w.dir⟩
  | .resolve code => ⟨(w.store.resolve env w.dir code).2, w.dir⟩
  | .flush =>
      let done := w.store.flushLocked env w.dir
      ⟨done.1, done.2⟩
  | .compact =>
      let done := w.store.compact env w.dir
      ⟨done.1, done.2⟩
  | .poll => ⟨w.store.pollTails env w.dir, w.dir⟩
  | .restart => (w.close env).reopen env

def run (w : World) (history : List (Env × Call)) : World :=
  history.foldl step w

@[simp] theorem run_nil (w : World) : w.run [] = w := rfl

@[simp] theorem run_cons (w : World) (call : Env × Call) (history : List (Env × Call)) :
    w.run (call :: history) = (w.step call).run history := rfl

end World

end Shrt.Store
