import Mathlib.Data.List.Basic
import Shrt.Lib.Runs
import Shrt.Store.Refinement

/-!
# Closing and reopening a store

What a store that is alone in its directory holds after `close` and
`LocalStore::new`: always the rows, and the hit counts as long as no call
disturbed hits that were already logged.
-/

namespace Shrt.Store

open Shrt.Codec Shrt.Lib Shrt.Lib.Runs

theorem settled_run (env : Env) (inst : Inst) (history : List (Env × Call)) :
    Settled ((World.fresh env inst).run history) :=
  Runs.invariant (fun _ call settled => settled.step call)
    (hitsSettled_fresh env inst).settled history

theorem Settled.rows_reopen {w : World} (settled : Settled w) (closing opening : Env) :
    ((w.close closing).reopen opening).store.index.rows = w.store.index.rows := by
  obtain ⟨snap, log, buf, sole, sound⟩ := settled
  obtain ⟨s', dir', log', opened, -, -, -, index', drained⟩ :=
    sole.reopened sound closing opening
  have agree := (sound.path (drained True)).rows_replay opening
  rw [opened, index']
  exact agree

/-- Replaying snapshot and log gives back every code with its url, creation
time, expiry and owner, after any history. -/
theorem reopen_rows (env closing opening : Env) (inst : Inst)
    (history : List (Env × Call)) :
    ((((World.fresh env inst).run history).close closing).reopen opening).store.index.rows =
      ((World.fresh env inst).run history).store.index.rows :=
  (settled_run env inst history).rows_reopen closing opening

/-- Entry by entry, hits included, when the hits agree with the records. -/
theorem HitsSettled.lookup_reopen {w : World} (settled : HitsSettled w)
    (closing opening : Env) (c : String) :
    ((w.close closing).reopen opening).store.index.lookup c = w.store.index.lookup c := by
  obtain ⟨snap, log, buf, sole, sound, agree⟩ := settled
  obtain ⟨s', dir', log', opened, -, -, -, index', drained⟩ :=
    sole.reopened sound closing opening
  have soundDrained := sound.path (drained True)
  have agreeDrained := agree.path trivial sound (drained True)
  rw [opened]
  change s'.index.lookup c = _
  rw [index']
  exact agreeDrained.lookup_replay soundDrained rfl opening c

theorem hitsSettled_run {env : Env} {inst : Inst} {history : List (Env × Call)}
    (careful : Along World.step World.KeepsHits (World.fresh env inst) history) :
    HitsSettled ((World.fresh env inst).run history) :=
  careful.invariant (fun _ _ settled keeps => settled.step keeps) (hitsSettled_fresh env inst)

/-- Hit counts survive a restart after every history whose calls leave logged
hits alone. -/
theorem reopen_hits (env closing opening : Env) (inst : Inst) (history : List (Env × Call))
    (careful : Along World.step World.KeepsHits (World.fresh env inst) history) (c : String) :
    ((((World.fresh env inst).run history).close closing).reopen opening).store.hits c =
      ((World.fresh env inst).run history).store.hits c := by
  rw [Inner.hits_eq, Inner.hits_eq,
    (hitsSettled_run careful).lookup_reopen closing opening c]

/-- A link that is resolved and flushed, removed and created again. -/
def recreated : List (Env × Call) :=
  [(.at 1 [], .shorten "https://a" (some promo) 0), (.at 2 [], .resolve "promo"),
   (.at 3 [], .flush), (.at 4 [], .compact), (.at 5 [], .resolve "promo"),
   (.at 6 [], .flush), (.at 7 [], .remove "promo"),
   (.at 8 [], .shorten "https://b" (some promo) 0), (.at 9 [], .resolve "promo"),
   (.at 10 [], .update "promo" "https://c" 0 false)]

theorem reopen_hits_recreated :
    Along World.step World.KeepsHits (World.fresh (.at 0 []) 0) recreated ∧
    ((((World.fresh (.at 0 []) 0).run recreated).close (.at 11 [])).reopen
      (.at 12 [])).store.hits "promo" = some 1 := by
  have careful : Along World.step World.KeepsHits (World.fresh (.at 0 []) 0) recreated := by
    decide +kernel
  refine ⟨careful, ?_⟩
  rw [reopen_hits (.at 0 []) (.at 11 []) (.at 12 []) 0 recreated careful "promo"]
  decide +kernel

def updatedAfterFlush : List (Env × Call) :=
  [(.at 1 [], .shorten "https://a" (some promo) 0), (.at 2 [], .resolve "promo"),
   (.at 3 [], .flush), (.at 4 [], .update "promo" "https://b" 0 false)]

/-- The rewritten row carries no hits, so the flushed one is forgotten. -/
theorem update_forgets_flushed_hits :
    ¬ ∀ (env closing opening : Env) (inst : Inst) (history : List (Env × Call)) (c : String),
      ((World.fresh env inst).run history).store.index.lookup c ≠ none →
      ((((World.fresh env inst).run history).close closing).reopen opening).store.hits c =
        ((World.fresh env inst).run history).store.hits c := by
  intro survive
  have live : ((World.fresh (.at 0 []) 0).run updatedAfterFlush).store.index.lookup "promo" ≠
      none := by
    decide +kernel
  have same := survive (.at 0 []) (.at 5 []) (.at 6 []) 0 updatedAfterFlush "promo" live
  revert same
  decide +kernel

end Shrt.Store
