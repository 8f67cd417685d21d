import Mathlib.Data.List.Basic
import Shrt.Backends.Words
import Shrt.Http.Expiry

/-!
# What replies acknowledge

A client learns of a change by the reply: the codes of a creation stand in the body of the
answer, and updates and removals are acknowledged by their status.  From the requests and
the replies alone follows what stands under each code, but for the moment from which a
time to live counts.
-/

namespace Shrt.Http

open Shrt.Codec Shrt.Lib Shrt.Lib.Utf8
open Shrt.Store (MutResult)
open Shrt.Backends

/-! ## The codes in a body -/

def quote : UInt8 := 34

inductive Ack where
  | created (rows : List (String × String)) (ttl : Int64)
  | updated (code url : String) (ttl : Option Int64)
  | removed (code : String)

/-- What an acknowledged change leaves of the words, at a moment of its request. -/
inductive Ack.Sets (clock : Nat → Int64) (renewed : Int64 → Int64 → Int64) (ws : Words) :
    Ack → Words → Prop where
  | created {rows : List (String × String)} {ttl : Int64} {made : List (String × Word)}
      (makes : Makes clock ttl rows made) : Sets clock renewed ws (.created rows ttl) (ws.puts made)
  | updated {code url : String} {ttl : Option Int64} {w : Word} (t : Nat)
      (there : ws code = some w) :
      Sets clock renewed ws (.updated code url ttl)
        (ws.put code ⟨url, ttl.elim w.e (renewed (clock t))⟩)
  | removed {code : String} : Sets clock renewed ws (.removed code) (ws.drop code)

/-- The words behind a request follow from those before and from its reply. -/
inductive Follows (clock : Nat → Int64) (renewed : Int64 → Int64 → Int64) (ws : Words) :
    Option Ack → Words → Prop where
  | same : Follows clock renewed ws none ws
  | sets {ack : Ack} {ws' : Words} (sets : ack.Sets clock renewed ws ws') :
      Follows clock renewed ws (some ack) ws'

section Route

variable {σ : Type} {ext : Ext} {cfg : Config} {out : Outside} {ops : Ops σ}
variable {clock : Nat → Int64} {renewed : Int64 → Int64 → Int64} {fresh : σ → Nat → Prop}
variable {R : σ → Words → Prop} {s : σ} {ws : Words}

/-- A request leaves a store that reflects the words that follow from its reply. -/
def Tells (clock : Nat → Int64) (renewed : Int64 → Int64 → Int64) (R : σ → Words → Prop) (s : σ)
    (ws : Words) (ack : Reply → Option Ack) (h : Handled σ) : Prop :=
  ∃ ws', R (h.store s) ws' ∧
    Follows clock renewed ws (h.reply?.bind ack) ws'

variable {ack : Reply → Option Ack}

theorem Tells.silent {h : Handled σ} (kept : R (h.store s) ws) (none : h.reply?.bind ack = none) :
    Tells clock renewed R s ws ack h :=
  ⟨ws, kept, none ▸ .same⟩

/-- A reply that acknowledges nothing. -/
theorem Tells.replied {reply : Reply} {s' : σ} (kept : R s' ws) (none : ack reply = none) :
    Tells clock renewed R s ws ack (.replied reply s') :=
  .silent kept none

end Route

end Shrt.Http
