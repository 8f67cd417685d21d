import Mathlib.Data.List.Basic
import Shrt.Lib.Deferred
import Shrt.Rocks.Interleaved

/-!
# Lazy reaping under interleaving

Every call that looks at a row deletes it if it is past its expiry: it reads the
row, compares its expiry with the clock and deletes by key, outside the lock of
the creates.  The calls on one code are cut at every database call, every
reading of the clock and every access to the cache.
-/

namespace Shrt.Rocks

open Shrt.Codec Shrt.Lib Shrt.Lib.Utf8 Shrt.Kv
open Shrt.Store (Link MutResult)
open Shrt.Store.Inner (expiry)

/-- The calls that look at a row. -/
inductive Look where
  | resolve
  | stats
  | update (change : Change)
  | remove
  deriving DecidableEq, Repr

inductive Answer where
  | resolved (url : Option String)
  | shown (link : Option Link)
  | changed (result : MutResult)
  | created (made : Bool)
  deriving DecidableEq, Repr

def Look.missing : Look → Answer
  | .resolve => .resolved none
  | .stats => .shown none
  | .update _ => .changed .missing
  | .remove => .changed .missing

/-- How far a call has come. -/
inductive Phase where
  | caching
  | looking (look : Look)
  | checking (look : Look) (row : Row)
  | reaping (look : Look)
  | fetched (row : Row)
  | counting (row : Row)
  | loaded (change : Change) (row : Row)
  | writing (row : Row)
  | probed
  | dropping
  | creating (url : String) (ttl : Int64)
  | locking (row : Row)
  | holding (row : Row)
  | putting (row : Row)
  | done (answer : Answer)
  deriving DecidableEq, Repr

/-- The store, the lock of the creates, the calls on the code and the time of
the last step. -/
structure Reaped where
  store : RocksStore
  locked : Bool
  calls : List Phase
  now : Int64

inductive ReapEvent where
  | look (look : Look)
  | shorten (url : String) (ttl : Int64)
  | step (call : Nat) (now : Int64)

/-- Where a call goes with a row that is alive. -/
def Look.alive (row : Row) : Look → Phase
  | .resolve => .fetched row
  | .stats => .counting row
  | .update change => .loaded change row
  | .remove => .probed

namespace RocksStore

def putRow (s : RocksStore) (code : String) (row : Row) : RocksStore :=
  { s with db := s.db.insert (encode code) (encVal row.e row.c row.u) }

/-- The next step of a call on the code: the store, the lock and the phase. -/
def advance (code : String) (now : Int64) (s : RocksStore) (locked : Bool) :
    Phase → RocksStore × Bool × Phase
  | .caching =>
      let looked := s.cached ⟨fun _ => now⟩ code
      let s := { s with cache := looked.2 }
      match looked.1 with
      | some hit => (s.bump code, locked, .done (.resolved (some hit.1)))
      | none => (s, locked, .looking .resolve)
  | .looking look =>
      (s, locked, (s.stored code).elim (.done look.missing) (.checking look))
  | .checking look row =>
      (s, locked, if past row.e now then .reaping look else look.alive row)
  | .reaping look => (s.reap code, locked, .done look.missing)
  | .fetched row =>
      ({ s with cache := s.cache.put now code row.u row.e }.bump code, locked,
        .done (.resolved (some row.u)))
  | .counting row => (s, locked, .done (.shown (some (row.link code (s.hitsOf code)))))
  | .loaded change row =>
      let exp := if change.hasTtl then now + max change.ttl 0 else row.e
      (s, locked, .writing ⟨exp, row.c, change.url⟩)
  | .writing row => (s.putRow code row, locked, .dropping)
  | .probed => (s.delete code, locked, .dropping)
  | .dropping => ({ s with cache := s.cache.remove code }, locked, .done (.changed .ok))
  | .creating url ttl => (s, locked, .locking ⟨expiry now ttl, now, url⟩)
  | .locking row => if locked then (s, true, .locking row) else (s, true, .holding row)
  | .holding row =>
      if encode code ∈ s.db then (s, false, .done (.created false)) else (s, locked, .putting row)
  | .putting row => (s.putRow code row, false, .done (.created true))
  | .done answer => (s, locked, .done answer)

/-- A call that runs alone, for `n` steps at one time. -/
def alone (code : String) (now : Int64) :
    Nat → RocksStore × Bool × Phase → RocksStore × Bool × Phase
  | 0, out => out
  | n + 1, out => alone code now n (advance code now out.1 out.2.1 out.2.2)

theorem stats_alone (code : String) (now : Int64) (s : RocksStore) :
    let result := s.stats ⟨fun _ => now⟩ code
    alone code now 3 (s, false, .looking .stats) = (result.2, false, .done (.shown result.1)) := by
  cases stored : s.stored code with
  | none => simp [alone, advance, stats, row, stored, Look.missing]
  | some row =>
      cases gone : past row.e now with
      | true => simp [alone, advance, stats, RocksStore.row, stored, Look.missing, gone]
      | false => simp [alone, advance, stats, RocksStore.row, stored, Look.alive, gone]

theorem update_alone (code : String) (now : Int64) (s : RocksStore) (change : Change) :
    let result := s.update ⟨fun _ => now⟩ code change.url change.ttl change.hasTtl
    alone code now 5 (s, false, .looking (.update change)) =
      (result.2, false, .done (.changed result.1)) := by
  cases stored : s.stored code with
  | none => simp [alone, advance, update, row, stored, Look.missing]
  | some row =>
      cases gone : past row.e now with
      | true => simp [alone, advance, update, RocksStore.row, stored, Look.missing, gone]
      | false =>
          simp [alone, advance, update, RocksStore.row, stored, Look.alive, gone, rewrite, putRow]

theorem remove_alone (code : String) (now : Int64) (s : RocksStore) :
    let result := s.remove ⟨fun _ => now⟩ code
    alone code now 4 (s, false, .looking .remove) = (result.2, false, .done (.changed result.1)) := by
  cases stored : s.stored code with
  | none => simp [alone, advance, remove, row, stored, Look.missing]
  | some row =>
      cases gone : past row.e now with
      | true => simp [alone, advance, remove, RocksStore.row, stored, Look.missing, gone]
      | false => simp [alone, advance, remove, RocksStore.row, stored, Look.alive, gone]

theorem resolve_alone (code : String) (now : Int64) (s : RocksStore) :
    let result := s.resolve ⟨fun _ => now⟩ code
    alone code now 4 (s, false, .caching) = (result.2, false, .done (.resolved result.1)) := by
  cases looked : (s.cached ⟨fun _ => now⟩ code).1 with
  | some hit => simp [alone, advance, resolve, looked]
  | none =>
      have same : ∀ cache, RocksStore.stored { s with cache := cache } code = s.stored code :=
        fun _ => rfl
      cases stored : s.stored code with
      | none => simp [alone, advance, resolve, row, looked, same, stored, Look.missing]
      | some row =>
          cases gone : past row.e now with
          | true =>
              simp [alone, advance, resolve, RocksStore.row, looked, same, stored, Look.missing, gone]
          | false =>
              simp [alone, advance, resolve, RocksStore.row, looked, same, stored, Look.alive, gone]

theorem shorten_alone (inst : Inst) (code : String) (now : Int64) (s : RocksStore) (url : String)
    (ttl : Int64) :
    (s.shorten inst ⟨fun _ => now⟩ [] url (some code) ttl).map (fun done =>
        (done.2, false, Phase.done (.created done.1.isSome))) =
      some (alone code now 4 (s, false, .creating url ttl)) := by
  by_cases present : encode code ∈ s.db
  · simp [alone, advance, shorten, putNx, present]
  · simp [alone, advance, shorten, putNx, present, putRow]

end RocksStore

namespace Reaped

/-- One event: a call starts, or one of the calls makes its next step. -/
def step (code : String) (r : Reaped) : ReapEvent → Reaped
  | .look look =>
      { r with calls := r.calls ++ [if look = .resolve then .caching else .looking look] }
  | .shorten url ttl => { r with calls := r.calls ++ [.creating url ttl] }
  | .step i now =>
      match r.calls[i]? with
      | none => { r with now := now }
      | some phase =>
          let out := r.store.advance code now r.locked phase
          { store := out.1, locked := out.2.1, calls := r.calls.set i out.2.2, now := now }

/-- Some call has found the row dead and not deleted it yet. -/
def reaping (r : Reaped) : Bool :=
  r.calls.any fun
    | .reaping _ => true
    | _ => false

/-- The clock does not go back. -/
def forward (r : Reaped) : ReapEvent → Bool
  | .step _ now => r.now ≤ now
  | _ => true

/-- From the read of a row that turns out dead to its deletion no live row is
written: none is there when the call finds the row that it read dead, and none
is put while a deletion is pending. -/
def undisturbed (code : String) (r : Reaped) : ReapEvent → Bool
  | .step i now =>
      match r.calls[i]? with
      | some (.checking _ row) =>
          !past row.e now || (r.store.stored code).all fun row => past row.e now
      | some (.writing row) => !r.reaping || past row.e now
      | some (.putting row) => !r.reaping || past row.e now
      | _ => true
  | _ => true

/-- A deletion inside `row` meets no live row. -/
def ReapsDead (code : String) (r : Reaped) (event : ReapEvent) : Prop :=
  ∀ i now look row, event = .step i now → r.calls[i]? = some (.reaping look) →
    r.store.stored code = some row → past row.e now = true

/-- A row goes away only past its expiry or by a remove. -/
def EndsDead (code : String) (r : Reaped) (event : ReapEvent) : Prop :=
  ∀ i now row, event = .step i now → r.store.stored code = some row →
    (r.step code event).store.stored code = none →
    past row.e now = true ∨ r.calls[i]? = some .probed

/-- The row of the code, with the deletions that are pending. -/
def sight (code : String) : Deferred.Sight Reaped Unit Row Int64 where
  cell r _ := r.store.stored code
  pending r _ := r.reaping = true
  dead now row := past row.e now = true

end Reaped

/-! ## What a step does to the row -/

namespace RocksStore

theorem stored_putRow (s : RocksStore) (code : String) (row : Row) :
    (s.putRow code row).stored code = some row := by
  rw [stored, putRow, Map.lookup_insert_eq, if_pos rfl, Option.bind_some, decVal_encVal]

/-- The row after a step. -/
theorem stored_advance (code : String) (now : Int64) (s : RocksStore) (locked : Bool) (phase : Phase) :
    (advance code now s locked phase).1.stored code =
      match phase with
      | .reaping _ => none
      | .probed => none
      | .writing row => some row
      | .putting row => some row
      | _ => s.stored code := by
  cases phase with
  | caching =>
      simp only [advance]
      cases (s.cached ⟨fun _ => now⟩ code).1 with
      | some hit => rfl
      | none => rfl
  | reaping look => exact stored_reap s code
  | probed => exact stored_reap s code
  | writing row => exact stored_putRow s code row
  | putting row => exact stored_putRow s code row
  | locking row =>
      simp only [advance]
      split
      · rfl
      · rfl
  | holding row =>
      simp only [advance]
      split
      · rfl
      · rfl
  | _ => rfl

/-- A step is about to delete only after it has found its row dead. -/
theorem reaping_of_advance {code : String} {now : Int64} {s : RocksStore} {locked : Bool}
    {phase : Phase} {look : Look} (next : (advance code now s locked phase).2.2 = .reaping look) :
    ∃ row, phase = .checking look row ∧ past row.e now = true := by
  cases phase with
  | caching =>
      simp only [advance] at next
      cases hit : (s.cached ⟨fun _ => now⟩ code).1 with
      | some hit' =>
          rw [hit] at next
          cases next
      | none =>
          rw [hit] at next
          cases next
  | looking look' =>
      simp only [advance] at next
      cases stored : s.stored code with
      | none =>
          rw [stored] at next
          cases next
      | some row =>
          rw [stored] at next
          cases next
  | checking look' row =>
      simp only [advance] at next
      split at next
      · rename_i gone
        cases next
        exact ⟨row, rfl, gone⟩
      · cases look' <;> cases next
  | locking row =>
      simp only [advance] at next
      split at next
      · cases next
      · cases next
  | holding row =>
      simp only [advance] at next
      split at next
      · cases next
      · cases next
  | _ => cases next

end RocksStore

namespace Reaped

theorem reaping_iff {r : Reaped} : r.reaping = true ↔ ∃ look, .reaping look ∈ r.calls := by
  rw [reaping, List.any_eq_true]
  constructor
  · rintro ⟨phase, member, marked⟩
    split at marked
    · exact ⟨_, member⟩
    · cases marked
  · rintro ⟨look, member⟩
    exact ⟨_, member, rfl⟩

/-- A new call deletes nothing yet. -/
theorem careful_start (code : String) (r : Reaped) {phase : Phase} (fresh : ∀ look, phase ≠ .reaping look) :
    Deferred.Careful (sight code) r.now r { r with calls := r.calls ++ [phase] } where
  cells _ _ there := Or.inl there
  marks _ marked := by
    left
    obtain ⟨look, member⟩ := reaping_iff.mp marked
    rcases List.mem_append.mp member with earlier | new
    · exact reaping_iff.mpr ⟨look, earlier⟩
    · exact absurd (List.mem_singleton.mp new).symm (fresh look)

theorem careful_step {code : String} {r : Reaped} {i : Nat} {now : Int64} {phase : Phase}
    (there : r.calls[i]? = some phase) (fine : r.undisturbed code (.step i now) = true) :
    Deferred.Careful (sight code) now r (r.step code (.step i now)) := by
  have out : r.step code (.step i now) =
      { store := (r.store.advance code now r.locked phase).1
        locked := (r.store.advance code now r.locked phase).2.1
        calls := r.calls.set i (r.store.advance code now r.locked phase).2.2
        now := now } := by
    rw [step, there]
  have stored := r.store.stored_advance code now r.locked phase
  rw [undisturbed, there] at fine
  rw [out]
  refine ⟨fun _ v shown => ?_, fun _ marked => ?_⟩
  · have row : (r.store.advance code now r.locked phase).1.stored code = some v := shown
    rw [stored] at row
    cases phase with
    | reaping look => cases row
    | probed => cases row
    | writing new =>
        cases row
        simpa [sight] using Or.inr fine
    | putting new =>
        cases row
        simpa [sight] using Or.inr fine
    | _ => exact Or.inl row
  · obtain ⟨look, member⟩ := reaping_iff.mp marked
    rcases List.mem_or_eq_of_mem_set member with earlier | next
    · exact Or.inl (reaping_iff.mpr ⟨look, earlier⟩)
    · right
      obtain ⟨row, rfl, gone⟩ := RocksStore.reaping_of_advance next.symm
      intro v shown
      have row' : r.store.stored code = some v := stored.symm.trans shown
      have dead : past v.e now = true := by simpa [gone, row'] using fine
      exact dead

/-- Whatever is about to be deleted is dead. -/
def Unharmed (code : String) (r : Reaped) : Prop :=
  Deferred.Safe (sight code) r.now r

theorem Unharmed.step {code : String} {r : Reaped} {event : ReapEvent} (safe : r.Unharmed code)
    (later : r.forward event = true) (fine : r.undisturbed code event = true) :
    (r.step code event).Unharmed code := by
  have dies : ∀ {now later : Int64}, now ≤ later → ∀ row : Row,
      (sight code).dead now row → (sight code).dead later row :=
    fun le _ gone => past_mono le gone
  cases event with
  | look look =>
      refine Deferred.Safe.step dies safe (Int64.le_refl _) (careful_start code r fun look' same => ?_)
      split at same
      · cases same
      · cases same
  | shorten url ttl => exact Deferred.Safe.step dies safe (Int64.le_refl _) (careful_start code r nofun)
  | step i now =>
      have le : r.now ≤ now := by simpa [forward] using later
      cases there : r.calls[i]? with
      | none =>
          rw [Reaped.step, there]
          exact fun k marked v shown => past_mono le (safe k marked v shown)
      | some phase =>
          have moved : (r.step code (.step i now)).now = now := by
            rw [Reaped.step, there]
          rw [Unharmed, moved]
          exact Deferred.Safe.step dies safe le (careful_step there fine)

/-- At a deletion the row is dead. -/
theorem Unharmed.reapsDead {code : String} {r : Reaped} {event : ReapEvent} (safe : r.Unharmed code)
    (later : r.forward event = true) : r.ReapsDead code event := by
  rintro i now look row rfl there stored
  have marked : r.reaping = true := reaping_iff.mpr ⟨look, List.mem_of_getElem? there⟩
  have le : r.now ≤ now := by simpa [forward] using later
  exact past_mono le (safe () marked row stored)

/-- Only a deletion takes the row away. -/
theorem ReapsDead.endsDead {code : String} {r : Reaped} {event : ReapEvent}
    (dead : r.ReapsDead code event) : r.EndsDead code event := by
  rintro i now row rfl stored gone
  rw [step] at gone
  cases there : r.calls[i]? with
  | none =>
      rw [there] at gone
      rw [stored] at gone
      cases gone
  | some phase =>
      rw [there] at gone
      have after := r.store.stored_advance code now r.locked phase
      rw [gone] at after
      cases phase with
      | reaping look => exact Or.inl (dead i now look row rfl there stored)
      | probed => exact Or.inr rfl
      | writing new => cases after
      | putting new => cases after
      | _ =>
          rw [stored] at after
          cases after

/-- In every run in which no live row is written between the read of a row that
turns out dead and its deletion, a deletion inside `row` meets no live row, and
a row goes away only past its expiry or by a remove. -/
theorem reaps_only_dead_rows (code : String) (r : Reaped) (idle : r.calls = [])
    (events : List ReapEvent)
    (fine : Runs.Along (step code)
      (fun r event => r.forward event = true ∧ r.undisturbed code event = true) r events) :
    Runs.Along (step code) (fun r event => r.ReapsDead code event ∧ r.EndsDead code event) r
      events := by
  have start : r.Unharmed code := by
    intro _ marked
    obtain ⟨look, member⟩ := reaping_iff.mp marked
    rw [idle] at member
    exact absurd member List.not_mem_nil
  refine fine.establish (fun r event safe fine => ?_) start
  have dead := safe.reapsDead fine.1
  exact ⟨⟨dead, dead.endsDead⟩, safe.step fine.1 fine.2⟩

/-- The database with a link that expires at 1010. -/
def expiring : Reaped where
  store := (RocksStore.fresh 100 0).putRow "promo" ⟨1010, 1000, "https://old.example"⟩
  locked := false
  calls := []
  now := 1000

/-- Two calls find the row dead.  The first one deletes it, the alias is created
again, and the second one deletes too, before the create or after it. -/
def reapedTwice (late : Bool) : List ReapEvent :=
  [.look .stats, .look .remove, .step 0 1020, .step 1 1020, .step 0 1020, .step 1 1020,
    .step 0 1020, .shorten "https://new.example" 0, .step 2 1021, .step 2 1021, .step 2 1021] ++
    (if late then [.step 2 1021, .step 1 1022] else [.step 1 1022, .step 2 1022])

/-- Before it, nothing is lost. -/
theorem reaps_only_dead_rows_twice :
    (((reapedTwice false).foldl (step "promo") expiring).store.stored "promo").isSome = true ∧
      Runs.Along (step "promo") (fun r event => r.ReapsDead "promo" event ∧ r.EndsDead "promo" event)
        expiring (reapedTwice false) := by
  refine ⟨by decide +kernel, ?_⟩
  exact reaps_only_dead_rows "promo" expiring rfl (reapedTwice false) (by decide +kernel)

/-- After it, the new link is deleted although it was acknowledged and never
expires. -/
theorem live_row_reaped :
    Runs.Along (step "promo") (fun r event => r.forward event = true) expiring (reapedTwice true) ∧
    .done (.created true) ∈ ((reapedTwice true).foldl (step "promo") expiring).calls ∧
    ((reapedTwice true).foldl (step "promo") expiring).store.stored "promo" = none ∧
    ¬ Runs.Along (step "promo") (fun r event => r.ReapsDead "promo" event) expiring
      (reapedTwice true) := by
  refine ⟨by decide +kernel, by decide +kernel, by decide +kernel, fun along => ?_⟩
  have split : reapedTwice true = (reapedTwice true).take 12 ++ [.step 1 1022] := rfl
  rw [split, Runs.Along.append] at along
  have last := along.2.1 1 1022 .remove ⟨0, 1021, "https://new.example"⟩ rfl (by decide +kernel)
    (by decide +kernel)
  revert last
  decide

end Reaped

end Shrt.Rocks
