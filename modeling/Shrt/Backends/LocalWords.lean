import Mathlib.Data.List.Basic
import Shrt.Backends.Words
import Shrt.Http.Local

/-!
# The words of the in-process store

A store that is alone in its directory keeps every word until it is changed or removed,
expired or not, and has it again when it is reopened.
-/

namespace Shrt.Backends

open Shrt.Codec Shrt.Lib Shrt.Lib.Utf8 Shrt.Store Shrt.Kv
open Shrt.Http (localOps step_of_shorten step_of_shortenMany)
open Shrt.Store.Inner (expiry)

def indexWords (index : Index) : Words :=
  fun c => (index.lookup c).map fun e => ⟨e.u, e.e⟩

def localWords (w : World) : Words :=
  indexWords w.store.index

/-- The store is alone, and shows the words. -/
structure LocalReflects (now : Int64) (w : World) (ws : Words) : Prop where
  settled : Settled w
  lapsed : Lapsed now ws (localWords w)

variable {now : Int64} {w w' : World} {ws : Words} {env : Env}

/-- A call of the store that changes no word. -/
theorem LocalReflects.same (reflects : LocalReflects now w ws) (settled : Settled w')
    (same : localWords w' = localWords w) : LocalReflects now w' ws :=
  ⟨settled, same ▸ reflects.lapsed⟩

/-- A call of the store that sets what stands under one code. -/
theorem LocalReflects.set (reflects : LocalReflects now w ws) (settled : Settled w') {code : String}
    {v : Option Word} (set : localWords w' = Function.update (localWords w) code v) :
    LocalReflects now w' (Function.update ws code v) := by
  refine ⟨settled, reflects.lapsed.set ?_ fun c other => Or.inl ?_⟩
  · rw [set, Function.update_self]
  · rw [set, Function.update_of_ne other]

end Shrt.Backends
