import Mathlib.Data.List.Basic
import Shrt.Kv.Hits
import Shrt.Kv.Resp
import Shrt.Lib.Attempts

/-!
# A server that fails

Two calls of the store over a server whose commands may fail.  A create under a
drawn code takes an error for a taken code and draws again, so it returns only
if some attempt succeeds.  A flush of hits empties the map of deltas before it
sends them, so a flush that fails forgets them.
-/

namespace Shrt.Kv

open Shrt.Codec Shrt.Lib Shrt.Lib.Utf8
open Shrt.Store.Inner (expiry)

/-- `Kv::set`: whether the write was applied.  On both sides `none` is an error. -/
def setReply : Option Resp → Option Bool
  | none => none
  | some (.simple s) => some (s == "OK")
  | some (.bulk none) => some false
  | some (.err _) => none
  | some _ => some false

/-- `Kv::hsetnx`: whether the field was new.  A reply with an error is a no. -/
def hsetnxReply : Option Resp → Option Bool
  | none => none
  | some (.int n) => some (n == 1)
  | some _ => some false

def nxReply (layout : Layout) (reply : Option Resp) : Option Bool :=
  match layout with
  | .hash => hsetnxReply reply
  | .key => setReply reply

def nxResp (layout : Layout) (free : Bool) : Resp :=
  match layout with
  | .hash => .int (if free then 1 else 0)
  | .key => if free then .simple "OK" else .bulk none

@[simp] theorem nxReply_nxResp (layout : Layout) (free : Bool) :
    nxReply layout (some (nxResp layout free)) = some free := by
  cases layout with
  | hash =>
      cases free with
      | false => decide
      | true => decide
  | key =>
      cases free with
      | false => decide
      | true => decide

def given (code : String) (applied : Bool) : Option String :=
  if applied then some code else none

@[simp] theorem given_true (code : String) : given code true = some code := rfl

@[simp] theorem given_false (code : String) : given code false = none := rfl

/-- Attempts to give codes, where an error counts as a code that is taken, come
to an end exactly if one of them succeeds. -/
theorem exists_tryUntil_given_iff (code : Nat → String) (reply : Nat → Option Bool) :
    (∃ fuel, (tryUntil (fun k => given (code k) ((reply k).getD false)) 0 fuel).isSome) ↔
      ∃ k, reply k = some true := by
  rw [exists_tryUntil_iff]
  refine exists_congr fun k => ?_
  cases reply k with
  | none => simp
  | some ok =>
      cases ok with
      | true => simp
      | false => simp

/-! ## Hits that are kept -/

/-- Between two states of a store every delta stays pending and every count, with
what is pending, stays the same. -/
structure KeepsHits (dirty dirty' : Map String Int64) (hitsOf hitsOf' : String → Int64) : Prop where
  pending : ∀ c, (dirty'.lookup c).getD 0 = (dirty.lookup c).getD 0
  counted : ∀ c, hitsOf' c = hitsOf c

/-- No delta is pending but zeros. -/
def NonePending (dirty : Map String Int64) : Prop :=
  ∀ c d, dirty.lookup c = some d → d = 0

/-- To empty the map of deltas without sending them keeps the hits exactly if
there are none to keep. -/
theorem keepsHits_emptied_iff (dirty : Map String Int64) (sent : String → Int64) :
    KeepsHits dirty ∅ (fun c => sent c + (dirty.lookup c).getD 0) (fun c => sent c + 0) ↔
      NonePending dirty := by
  constructor
  · intro kept c d found
    have same : (0 : Int64) = (dirty.lookup c).getD 0 := kept.pending c
    rw [found] at same
    exact same.symm
  · intro idle
    have zero : ∀ c, (dirty.lookup c).getD 0 = 0 := by
      intro c
      cases found : dirty.lookup c with
      | none => rfl
      | some d => exact idle c d found
    exact ⟨fun c => (zero c).symm, fun c => by simp only [zero c]⟩

namespace KvStore

/-- `shorten` over a server, given by its reply to each numbered create of a
code: the result after at most `fuel` attempts, if it has returned by then. -/
def shortenOver (layout : Layout) (inst : Inst) (server : Nat → String → Option Resp)
    (rng : Nat → Suffix) (aliasCode : Option String) (fuel : Nat) : Option (Option String) :=
  match aliasCode with
  | some a =>
      -- `.ok()?`
      some ((nxReply layout (server 0 a)).bind (given a))
  | none =>
      (tryUntil (fun k =>
        let code := genCode inst (rng k)
        -- `.unwrap_or(false)`
        given code ((nxReply layout (server k code)).getD false)) 0 fuel).map some

/-- A create under a drawn code returns exactly if one of its attempts succeeds. -/
theorem shortenOver_returns_iff (layout : Layout) (inst : Inst)
    (server : Nat → String → Option Resp) (rng : Nat → Suffix) :
    (∃ fuel, (shortenOver layout inst server rng none fuel).isSome) ↔
      ∃ k, nxReply layout (server k (genCode inst (rng k))) = some true := by
  simp only [shortenOver, Option.isSome_map]
  exact exists_tryUntil_given_iff (fun k => genCode inst (rng k)) _

/-! ## The server that works -/

/-- The store before the attempt `k` of a call that begins at the step `t`. -/
def attempts (env : KvEnv) (s : KvStore) (t : Nat) : Nat → KvStore
  | 0 => s
  | k + 1 => (attempts env s t k).atStep env (t + k)

theorem attempts_succ (env : KvEnv) (s : KvStore) (t k : Nat) :
    attempts env s t (k + 1) = attempts env (s.atStep env t) (t + 1) k := by
  induction k with
  | zero => rfl
  | succ k ih =>
      rw [attempts, ih, attempts]
      congr 1
      omega

/-- The replies of a server that carries out every command. -/
def serving (env : KvEnv) (s : KvStore) (t k : Nat) (code : String) : Option Resp :=
  some (nxResp s.layout (((attempts env s t k).atStep env (t + k)).kvGet code).isNone)

def attemptAt (env : KvEnv) (s : KvStore) (t : Nat) (rng : List Suffix) (k : Nat) : Option String :=
  (rng[k]?).bind fun buf =>
    given (genCode s.inst buf)
      (((attempts env s t k).atStep env (t + k)).kvGet (genCode s.inst buf)).isNone

theorem attemptAt_succ (env : KvEnv) (s : KvStore) (t : Nat) (buf : Suffix) (rng : List Suffix)
    (k : Nat) :
    attemptAt env s t (buf :: rng) (k + 1) = attemptAt env (s.atStep env t) (t + 1) rng k := by
  have step : t + (k + 1) = t + 1 + k := by omega
  rw [attemptAt, attemptAt, attempts_succ, step]
  rfl

/-- The loop of the create is the one over a server that works. -/
theorem freshCode_eq_tryUntil (env : KvEnv) (value : Bytes) (ttl : Int64) (s : KvStore) (t : Nat)
    (rng : List Suffix) :
    (freshCode env value ttl s t rng).map Prod.fst =
      tryUntil (attemptAt env s t rng) 0 rng.length := by
  induction rng generalizing s t with
  | nil => rfl
  | cons buf rng ih =>
      have fate := fst_setNx (s.atStep env t) (env.clock t) (genCode s.inst buf) value ttl
      have first : attemptAt env s t (buf :: rng) 0 =
          given (genCode s.inst buf) ((s.atStep env t).kvGet (genCode s.inst buf)).isNone := rfl
      rw [freshCode, List.length_cons, tryUntil, tryUntil_succ, first]
      cases free : ((s.atStep env t).kvGet (genCode s.inst buf)).isNone with
      | true =>
          rw [free] at fate
          rw [if_pos fate]
          rfl
      | false =>
          rw [free] at fate
          rw [if_neg (by simp [fate]), setNx_taken fate, ih, given_false, Option.none_or]
          exact tryUntil_congr fun j _ _ => (attemptAt_succ env s t buf rng j).symm

/-- A create of the store is one over a server that works. -/
theorem shorten_eq_shortenOver (env : KvEnv) (s : KvStore) (url : String) (ttl : Int64) :
    (s.shorten env url none ttl).map Prod.fst =
      shortenOver s.layout s.inst (serving env s 1) (fun k => env.rng.getD k default) none
        env.rng.length := by
  have loop := freshCode_eq_tryUntil env (encVal (expiry (env.clock 0) ttl) (env.clock 0) url) ttl s
    1 env.rng
  rw [shorten, shortenFrom, Option.map_map, Option.map_map, shortenOver]
  rw [show tryUntil _ 0 env.rng.length = tryUntil (attemptAt env s 1 env.rng) 0 env.rng.length from
    tryUntil_congr fun k _ below => ?_, ← loop, Option.map_map]
  · rfl
  · rw [Nat.zero_add] at below
    simp only [attemptAt, List.getD_eq_getElem?_getD, List.getElem?_eq_getElem below,
      Option.getD_some, Option.bind_some, serving, nxReply_nxResp]

/-! ## Hits -/

/-- `flush_hits` with the outcome of its pipe: the deltas are drained first, and
without any nothing is sent. -/
def flushHitsOver (sent : Bool) (env : KvEnv) (s : KvStore) : KvStore :=
  let deltas := env.dirtyOrder.iter s.dirty
  let s := { s with dirty := ∅ }
  if deltas = [] then s
  else if sent then deltas.foldl (fun s cn => s.addHits cn.1 cn.2) (s.atStep env 0)
  else s

theorem flushHitsOver_sent {env : KvEnv} {s : KvStore} (pending : env.dirtyOrder.iter s.dirty ≠ []) :
    s.flushHitsOver true env = s.flushHits env := by
  rw [flushHitsOver, if_neg pending, if_pos rfl]
  rfl

/-- After a flush that fails nothing is pending and nothing was counted. -/
theorem flushHitsOver_failed (env : KvEnv) (s : KvStore) :
    s.flushHitsOver false env = { s with dirty := ∅ } := by
  rw [flushHitsOver]
  split
  · rfl
  · rfl

theorem keepsHits_failed_iff (env : KvEnv) (s : KvStore) :
    KeepsHits s.dirty (s.flushHitsOver false env).dirty s.hitsOf (s.flushHitsOver false env).hitsOf ↔
      NonePending s.dirty := by
  rw [flushHitsOver_failed]
  exact keepsHits_emptied_iff s.dirty fun c => hitCount (s.counter c)

end KvStore

end Shrt.Kv
