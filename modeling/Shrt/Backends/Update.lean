import Mathlib.Data.List.Basic
import Shrt.Kv.Deadlines
import Shrt.Rocks.Store

/-!
# What an update leaves behind

Three backends answer the same request: a new url, and a time to live that is
positive, or clears the expiry, or is not given.  Every backend computes the new
expiry by its own expression.  They agree as long as the sum of clock and time
to live is representable, except that one of them takes a time to live that
clears the expiry for one that is over.
-/

namespace Shrt.Backends

open Shrt.Codec Shrt.Lib Shrt.Lib.Utf8 Shrt.Kv
open Shrt.Store (Inner Env Dir MutResult)
open Shrt.Rocks (RocksStore RocksEnv)
open Shrt.Store.Inner (expiry)

/-- The time that a stored expiry stands for; zero stands for never. -/
def expiryTime (e : Int64) : Option Int :=
  if e = 0 then none else some e.toInt

/-- The documented meaning of an update's time to live: none given keeps the
expiry, a positive one counts from now, and any other clears the expiry. -/
def wantedTime (now ttl : Int64) (hasTtl : Bool) (e : Int64) : Option Int :=
  if hasTtl then (if 0 < ttl then some (now.toInt + ttl.toInt) else none) else expiryTime e

/-- A backend's row of the code after an update and what the next read of the
code answers. -/
structure Leaves (row : Option Row) (answer : Option String) (url : String) (c : Int64)
    (wanted : Option Int) : Prop where
  row : ∃ e, row = some ⟨e, c, url⟩ ∧ expiryTime e = wanted
  answer : answer = some url

/-! ## The two expressions -/

/-- The expiry as two of the backends compute it. -/
def clearedExpiry (now ttl : Int64) (hasTtl : Bool) (e : Int64) : Int64 :=
  if hasTtl then expiry now ttl else e

/-- The expiry as the third one computes it. -/
def clampedExpiry (now ttl : Int64) (hasTtl : Bool) (e : Int64) : Int64 :=
  if hasTtl then now + max ttl 0 else e

theorem past_eq_false_iff {e now : Int64} : past e now = false ↔ e = 0 ∨ now < e := by
  rw [past, Bool.and_eq_false_iff, bne_eq_false_iff_eq, decide_eq_false_iff_not, Int64.not_le]

theorem expiryTime_eq_some_iff {e : Int64} {t : Int} :
    expiryTime e = some t ↔ e ≠ 0 ∧ e.toInt = t := by
  rw [expiryTime]
  by_cases never : e = 0
  · simp [never]
  · simp [never]

theorem expiryTime_eq_none_iff {e : Int64} : expiryTime e = none ↔ e = 0 := by
  rw [expiryTime]
  by_cases never : e = 0
  · simp [never]
  · simp [never]

theorem expiryTime_injective : Function.Injective expiryTime := by
  intro e e' same
  cases time : expiryTime e' with
  | none =>
      rw [time] at same
      rw [expiryTime_eq_none_iff.mp same, expiryTime_eq_none_iff.mp time]
  | some t =>
      rw [time] at same
      exact Int64.toInt_inj.mp
        ((expiryTime_eq_some_iff.mp same).2.trans (expiryTime_eq_some_iff.mp time).2.symm)

/-- The sum of a clock reading and a time to live stands for itself exactly
when it can be represented. -/
theorem expiryTime_add_iff {now ttl : Int64} (nonneg : 0 ≤ now) (positive : 0 < ttl) :
    expiryTime (now + ttl) = some (now.toInt + ttl.toInt) ↔ now.toInt + ttl.toInt < 2 ^ 63 := by
  have lowNow : 0 ≤ now.toInt := Int64.le_iff_toInt_le.mp nonneg
  have lowTtl : 0 < ttl.toInt := Int64.lt_iff_toInt_lt.mp positive
  rw [expiryTime_eq_some_iff]
  constructor
  · rintro ⟨-, same⟩
    rw [← same]
    exact Int64.toInt_lt _
  · intro fits
    have sum : (now + ttl).toInt = now.toInt + ttl.toInt := by
      rw [Int64.toInt_add, Int.bmod_eq_of_le (by omega) (by omega)]
    refine ⟨fun zero => ?_, sum⟩
    rw [zero, Int64.toInt_zero] at sum
    omega

theorem cleared_iff {now ttl : Int64} (nonneg : 0 ≤ now) (hasTtl : Bool) (e : Int64) :
    expiryTime (clearedExpiry now ttl hasTtl e) = wantedTime now ttl hasTtl e ↔
      (hasTtl = true → 0 < ttl → now.toInt + ttl.toInt < 2 ^ 63) := by
  cases hasTtl with
  | false => simp [clearedExpiry, wantedTime]
  | true =>
      by_cases positive : 0 < ttl
      · have summed := expiryTime_add_iff nonneg positive
        simpa [clearedExpiry, wantedTime, expiry, positive] using summed
      · simp [clearedExpiry, wantedTime, expiry, positive, expiryTime]

theorem clamped_iff {now ttl : Int64} (nonneg : 0 ≤ now) (hasTtl : Bool) (e : Int64) :
    expiryTime (clampedExpiry now ttl hasTtl e) = wantedTime now ttl hasTtl e ↔
      (hasTtl = true → (0 < ttl ∧ now.toInt + ttl.toInt < 2 ^ 63) ∨ (ttl ≤ 0 ∧ now = 0)) := by
  cases hasTtl with
  | false => simp [clampedExpiry, wantedTime]
  | true =>
      by_cases positive : 0 < ttl
      · have larger : max ttl 0 = ttl := if_neg (Int64.not_le.mpr positive)
        have summed := expiryTime_add_iff nonneg positive
        simp only [clampedExpiry, wantedTime, if_true, larger, positive, true_and,
          forall_const, summed]
        simp [Int64.not_le.mpr positive]
      · have low : ttl ≤ 0 := Int64.not_lt.mp positive
        have smaller : max ttl 0 = 0 := if_pos low
        simp [clampedExpiry, wantedTime, smaller, positive, low, expiryTime_eq_none_iff]

/-- A link that is given the time it should have is live. -/
theorem live_of_wanted {now ttl e e' : Int64} {hasTtl : Bool} (live : past e now = false)
    (wanted : expiryTime e' = wantedTime now ttl hasTtl e) : past e' now = false := by
  cases hasTtl with
  | false => rwa [expiryTime_injective wanted]
  | true =>
      rw [past_eq_false_iff]
      rw [wantedTime, if_pos rfl] at wanted
      split at wanted
      · rename_i positive
        have lowTtl : 0 < ttl.toInt := Int64.lt_iff_toInt_lt.mp positive
        have sum := (expiryTime_eq_some_iff.mp wanted).2
        exact Or.inr (Int64.lt_iff_toInt_lt.mpr (by omega))
      · exact Or.inl (expiryTime_eq_none_iff.mp wanted)

/-- Of a row that was written with some expiry only this is left to compare. -/
theorem leaves_iff {row : Option Row} {answer : Option String} {url : String}
    {now ttl c e e' : Int64} {hasTtl : Bool} (live : past e now = false)
    (written : row = some ⟨e', c, url⟩) (read : past e' now = false → answer = some url) :
    Leaves row answer url c (wantedTime now ttl hasTtl e) ↔
      expiryTime e' = wantedTime now ttl hasTtl e := by
  constructor
  · rintro ⟨⟨e'', same, wanted⟩, -⟩
    rw [written] at same
    cases same
    exact wanted
  · intro wanted
    exact ⟨⟨e', written, wanted⟩, read (live_of_wanted live wanted)⟩

section Updates

variable {now : Int64} {code u : String} {c e : Int64}

/-! ## The log store -/

def localRow (s : Inner) (code : String) : Option Row :=
  (s.index.lookup code).map fun ent => ⟨ent.e, ent.a, ent.u⟩

theorem localRow_update {s : Inner} {env : Env} (clock : ∀ t, env.clock t = now)
    (own : ∀ ent ∈ s.index.lookup code, ent.i = s.inst.i32)
    (held : localRow s code = some ⟨e, c, u⟩) (url : String) (ttl : Int64) (hasTtl : Bool) :
    localRow (s.update env code url ttl hasTtl).2 code =
      some ⟨clearedExpiry now ttl hasTtl e, c, url⟩ := by
  obtain ⟨ent, found, same⟩ := Option.map_eq_some_iff.mp held
  cases same
  rw [Inner.update, found]
  dsimp only
  rw [if_neg (not_not.mpr (own ent found)), localRow, clock]
  dsimp only [Inner.logPush]
  rw [Map.lookup_insert_eq, if_pos rfl]
  rfl

theorem local_resolve {s : Inner} {env : Env} (clock : ∀ t, env.clock t = now) (dir : Dir)
    (held : localRow s code = some ⟨e, c, u⟩) (live : past e now = false) :
    (s.resolve env dir code).1 = some u := by
  obtain ⟨ent, found, same⟩ := Option.map_eq_some_iff.mp held
  cases same
  have alive : Inner.live ent now = true := by
    rw [past_eq_false_iff] at live
    simpa [Inner.live] using live
  rw [Inner.resolve, found]
  dsimp only
  rw [clock, if_pos alive]

/-! ## The server -/

/-- The key of the code is not due. -/
def Alive (now : Int64) (s : KvStore) (code : String) : Prop :=
  s.layout = .key → ∀ st, s.kv.strings.lookup (lkey code) = some st → Stored.due now st = false

theorem kvGet_atStep_of_alive {s : KvStore} {env : KvEnv} (clock : ∀ t, env.clock t = now)
    (alive : Alive now s code) (t : Nat) : (s.atStep env t).kvGet code = s.kvGet code := by
  cases layout : s.layout with
  | hash =>
      simp only [KvStore.kvGet, KvStore.atStep, layout]
      rfl
  | key =>
      simp only [KvStore.kvGet, KvStore.atStep, layout, Redis.get, clock]
      rcases Redis.lookup_evict s.kv now (env.evicts t) (lkey code) with same | ⟨-, st, found, due⟩
      · rw [same]
      · rw [alive layout st (Option.mem_def.mp found)] at due
        cases due

/-- What an update of a link writes. -/
theorem kv_update_eq {s : KvStore} {env : KvEnv} (clock : ∀ t, env.clock t = now)
    (alive : Alive now s code) (held : (s.kvGet code).bind decVal = some ⟨e, c, u⟩)
    (url : String) (ttl : Int64) (hasTtl : Bool) :
    (s.update env code url ttl hasTtl).2 =
      let exp := clearedExpiry now ttl hasTtl e
      let written := ((s.atStep env 0).atStep env 3).setRow now code (encVal exp c url)
        (if exp > 0 then exp - now else 0)
      { written with cache := written.cache.remove code } := by
  rw [KvStore.update]
  dsimp only
  rw [kvGet_atStep_of_alive clock alive, held]
  simp only [clock, clearedExpiry]
  rfl

theorem kvGet_update {s : KvStore} {env : KvEnv} (clock : ∀ t, env.clock t = now)
    (alive : Alive now s code) (held : (s.kvGet code).bind decVal = some ⟨e, c, u⟩)
    (url : String) (ttl : Int64) (hasTtl : Bool) :
    (s.update env code url ttl hasTtl).2.kvGet code =
      some (encVal (clearedExpiry now ttl hasTtl e) c url) := by
  rw [kv_update_eq clock alive held]
  have written := KvStore.kvGet_setRow ((s.atStep env 0).atStep env 3) now code
    (encVal (clearedExpiry now ttl hasTtl e) c url)
    (if clearedExpiry now ttl hasTtl e > 0 then clearedExpiry now ttl hasTtl e - now else 0) code
  rw [if_pos rfl] at written
  exact written

/-- What an update leaves under the key of a code. -/
theorem lookup_update {s : KvStore} {env : KvEnv} (clock : ∀ t, env.clock t = now)
    (alive : Alive now s code) (held : (s.kvGet code).bind decVal = some ⟨e, c, u⟩)
    (key : s.layout = .key) (url : String) (ttl : Int64) (hasTtl : Bool) :
    (s.update env code url ttl hasTtl).2.kv.strings.lookup (lkey code) =
      let exp := clearedExpiry now ttl hasTtl e
      let px := if exp > 0 then exp - now else 0
      some ⟨encVal exp c url, if px > 0 then some (now.toInt + px.toInt) else none⟩ := by
  rw [kv_update_eq clock alive held]
  simp only [KvStore.setRow, KvStore.atStep, key, Redis.set, Redis.setString, Bool.false_and,
    Bool.false_eq_true, if_false, Map.lookup_insert_eq, if_true]

theorem layout_update (s : KvStore) (env : KvEnv) (code url : String) (ttl : Int64)
    (hasTtl : Bool) : (s.update env code url ttl hasTtl).2.layout = s.layout := by
  rw [KvStore.update]
  split
  · rfl
  · rfl

/-- A key that was just set is not due. -/
theorem not_due_set (now px : Int64) (v : Bytes) :
    Stored.due now ⟨v, if px > 0 then some (now.toInt + px.toInt) else none⟩ = false := by
  by_cases positive : px > 0
  · have later : 0 < px.toInt := Int64.lt_iff_toInt_lt.mp positive
    rw [Stored.due, if_pos positive, Option.any_some, decide_eq_false_iff_not]
    omega
  · rw [Stored.due, if_neg positive, Option.any_none]

theorem alive_update {s : KvStore} {env : KvEnv} (clock : ∀ t, env.clock t = now)
    (alive : Alive now s code) (held : (s.kvGet code).bind decVal = some ⟨e, c, u⟩)
    (url : String) (ttl : Int64) (hasTtl : Bool) :
    Alive now (s.update env code url ttl hasTtl).2 code := by
  intro key st found
  rw [layout_update] at key
  rw [lookup_update clock alive held key] at found
  cases found
  exact not_due_set now _ _

/-- The deadline of the key is the expiry of the link. -/
theorem deadline_update {s : KvStore} {env : KvEnv} (clock : ∀ t, env.clock t = now)
    (nonneg : 0 ≤ now) (alive : Alive now s code)
    (held : (s.kvGet code).bind decVal = some ⟨e, c, u⟩) (key : s.layout = .key) (url : String)
    (ttl : Int64) (hasTtl : Bool) (live : past (clearedExpiry now ttl hasTtl e) now = false) :
    ((s.update env code url ttl hasTtl).2.kv.strings.lookup (lkey code)).map Stored.deadline =
      some (expiryTime (clearedExpiry now ttl hasTtl e)) := by
  rw [lookup_update clock alive held key, Option.map_some, Option.some_inj]
  dsimp only
  generalize clearedExpiry now ttl hasTtl e = exp at live
  rcases past_eq_false_iff.mp live with never | future
  · rw [never]
    rfl
  · obtain ⟨positive, left⟩ := remaining_pos nonneg future
    have lowNow : 0 ≤ now.toInt := Int64.le_iff_toInt_le.mp nonneg
    have after : now.toInt < exp.toInt := Int64.lt_iff_toInt_lt.mp future
    have bound := exp.toInt_lt
    have difference : (exp - now).toInt = exp.toInt - now.toInt := by
      rw [Int64.toInt_sub, Int.bmod_eq_of_le (by omega) (by omega)]
    have some_expiry : exp ≠ 0 := by
      rintro rfl
      exact absurd positive (by decide)
    rw [if_pos (show exp > 0 from positive), if_pos (show exp - now > 0 from left), difference,
      expiryTime, if_neg some_expiry]
    congr 1
    omega

theorem find_update {s : KvStore} {env : KvEnv} (clock : ∀ t, env.clock t = now)
    (alive : Alive now s code) (held : (s.kvGet code).bind decVal = some ⟨e, c, u⟩)
    (url : String) (ttl : Int64) (hasTtl : Bool) :
    (s.update env code url ttl hasTtl).2.cache.find code = none := by
  rw [kv_update_eq clock alive held]
  dsimp only
  rw [Lru.find_remove, if_pos rfl]

theorem kv_resolve {s : KvStore} {env : KvEnv} (clock : ∀ t, env.clock t = now)
    (alive : Alive now s code) (missed : s.cache.find code = none)
    (held : (s.kvGet code).bind decVal = some ⟨e, c, u⟩) (live : past e now = false) :
    (s.resolve env code).1 = some u := by
  have looked : s.cached env code = (none, s.cache) := by
    rw [KvStore.cached, Lru.get, missed]
  have read : KvStore.readRow { s with cache := s.cache } env 2 3 code = some ⟨e, c, u⟩ := by
    obtain ⟨v, found, decoded⟩ := Option.bind_eq_some_iff.mp held
    rw [KvStore.readRow, kvGet_atStep_of_alive clock alive, found, Option.bind_some, decoded,
      Option.bind_some, clock, live]
    rfl
  rw [KvStore.resolve, looked]
  dsimp only
  rw [read]

/-! ## The embedded database -/

theorem stored_update {s : RocksStore} {env : RocksEnv} (clock : ∀ t, env.clock t = now)
    (held : s.stored code = some ⟨e, c, u⟩) (live : past e now = false) (url : String)
    (ttl : Int64) (hasTtl : Bool) :
    (s.update env code url ttl hasTtl).2.stored code =
        some ⟨clampedExpiry now ttl hasTtl e, c, url⟩ ∧
      (s.update env code url ttl hasTtl).2.cache.find code = none := by
  have read : RocksStore.row now s code = (some ⟨e, c, u⟩, s) := by
    rw [RocksStore.row, held]
    dsimp only
    rw [live]
    rfl
  rw [RocksStore.update, clock, read]
  dsimp only
  constructor
  · rw [RocksStore.stored, RocksStore.rewrite, clock]
    dsimp only
    rw [Map.lookup_insert_eq, if_pos rfl, Option.bind_some, decVal_encVal]
    rfl
  · rw [Lru.find_remove, if_pos rfl]

theorem rocks_resolve {s : RocksStore} {env : RocksEnv} (clock : ∀ t, env.clock t = now)
    (missed : s.cache.find code = none) (held : s.stored code = some ⟨e, c, u⟩)
    (live : past e now = false) : (s.resolve env code).1 = some u := by
  have looked : s.cached env code = (none, s.cache) := by
    rw [RocksStore.cached, Lru.get, missed]
  have read : RocksStore.row now { s with cache := s.cache } code = (some ⟨e, c, u⟩, s) := by
    rw [RocksStore.row, held]
    dsimp only
    rw [live]
    rfl
  rw [RocksStore.resolve, looked]
  dsimp only
  rw [clock, read]

end Updates

/-! ## All of them -/

structure Stores where
  log : Inner
  dir : Dir
  key : KvStore
  hash : KvStore
  database : RocksStore

structure Inputs where
  log : Env
  key : KvEnv
  hash : KvEnv
  database : RocksEnv

/-- All clocks show the same time. -/
structure Inputs.Shows (inputs : Inputs) (now : Int64) : Prop where
  log : ∀ t, inputs.log.clock t = now
  key : ∀ t, inputs.key.clock t = now
  hash : ∀ t, inputs.hash.clock t = now
  database : ∀ t, inputs.database.clock t = now

namespace Stores

/-- All stores hold a link that is live; the log store's instance owns it. -/
structure Holds (b : Stores) (now : Int64) (code : String) (row : Row) : Prop where
  own : ∀ ent ∈ b.log.index.lookup code, ent.i = b.log.inst.i32
  log : localRow b.log code = some row
  keyed : b.key.layout = .key
  alive : Alive now b.key code
  key : (b.key.kvGet code).bind decVal = some row
  hashed : b.hash.layout = .hash
  hash : (b.hash.kvGet code).bind decVal = some row
  database : b.database.stored code = some row
  live : past row.e now = false

def update (b : Stores) (inputs : Inputs) (code url : String) (ttl : Int64) (hasTtl : Bool) :
    Stores where
  log := (b.log.update inputs.log code url ttl hasTtl).2
  dir := b.dir
  key := (b.key.update inputs.key code url ttl hasTtl).2
  hash := (b.hash.update inputs.hash code url ttl hasTtl).2
  database := (b.database.update inputs.database code url ttl hasTtl).2

/-- All stores have the new url, the old time of creation and the expiry that is
wanted, which is the deadline of the key too, and answer the new url. -/
structure Agree (b : Stores) (inputs : Inputs) (code url : String) (c : Int64)
    (wanted : Option Int) : Prop where
  log : Leaves (localRow b.log code) (b.log.resolve inputs.log b.dir code).1 url c wanted
  key : Leaves ((b.key.kvGet code).bind decVal) (b.key.resolve inputs.key code).1 url c wanted
  deadline : (b.key.kv.strings.lookup (lkey code)).map Stored.deadline = some wanted
  hash : Leaves ((b.hash.kvGet code).bind decVal) (b.hash.resolve inputs.hash code).1 url c wanted
  database : Leaves (b.database.stored code) (b.database.resolve inputs.database code).1 url c
    wanted

/-- After an update the server's store leaves the link that is wanted. -/
theorem kv_leaves {now : Int64} {code u : String} {c e : Int64} {s : KvStore} {env later : KvEnv}
    (clock : ∀ t, env.clock t = now) (after : ∀ t, later.clock t = now)
    (alive : Alive now s code) (held : (s.kvGet code).bind decVal = some ⟨e, c, u⟩)
    (live : past e now = false) (url : String) {ttl : Int64} {hasTtl : Bool}
    (wanted : expiryTime (clearedExpiry now ttl hasTtl e) = wantedTime now ttl hasTtl e) :
    Leaves (((s.update env code url ttl hasTtl).2.kvGet code).bind decVal)
      ((s.update env code url ttl hasTtl).2.resolve later code).1 url c
      (wantedTime now ttl hasTtl e) := by
  have written : ((s.update env code url ttl hasTtl).2.kvGet code).bind decVal =
      some ⟨clearedExpiry now ttl hasTtl e, c, url⟩ := by
    rw [kvGet_update clock alive held, Option.bind_some, decVal_encVal]
  exact (leaves_iff live written (kv_resolve after (alive_update clock alive held url ttl hasTtl)
    (find_update clock alive held url ttl hasTtl) written)).mpr wanted

/-- All stores treat an update alike exactly when the time to live is not given,
or is positive and leads to a time that can be represented.  One that clears the
expiry does so everywhere only at time zero. -/
theorem agree_update_iff {b : Stores} {inputs later : Inputs} {now : Int64} {code : String}
    {row : Row} (holds : b.Holds now code row) (shows : inputs.Shows now)
    (after : later.Shows now) (nonneg : 0 ≤ now) (url : String) (ttl : Int64) (hasTtl : Bool) :
    (b.update inputs code url ttl hasTtl).Agree later code url row.c
        (wantedTime now ttl hasTtl row.e) ↔
      (hasTtl = true →
        (0 < ttl ∧ now.toInt + ttl.toInt < 2 ^ 63) ∨ (ttl ≤ 0 ∧ now = 0)) := by
  obtain ⟨stored, unread⟩ := stored_update shows.database holds.database holds.live url ttl hasTtl
  have database := (leaves_iff holds.live stored
    (rocks_resolve after.database unread stored)).trans (clamped_iff nonneg hasTtl row.e)
  constructor
  · intro agree
    exact database.mp agree.database
  · intro fits
    have wanted : expiryTime (clearedExpiry now ttl hasTtl row.e) =
        wantedTime now ttl hasTtl row.e := by
      rw [cleared_iff nonneg]
      intro asked positive
      rcases fits asked with ⟨-, small⟩ | ⟨low, -⟩
      · exact small
      · exact absurd positive (Int64.not_lt.mpr low)
    have live := live_of_wanted holds.live wanted
    have entry := localRow_update shows.log holds.own holds.log url ttl hasTtl
    have unkeyed : Alive now b.hash code := by
      intro key
      rw [holds.hashed] at key
      cases key
    exact {
      log := (leaves_iff holds.live entry (local_resolve after.log b.dir entry)).mpr wanted
      key := kv_leaves shows.key after.key holds.alive holds.key holds.live url wanted
      deadline := (deadline_update shows.key nonneg holds.alive holds.key holds.keyed url ttl hasTtl
        live).trans (congrArg some wanted)
      hash := kv_leaves shows.hash after.hash unkeyed holds.hash holds.live url wanted
      database := database.mpr fits }

def oneEach : Stores where
  log := { (Inner.new (.at 5 []) .empty 0 false).1 with
    index := (∅ : Map String Store.Entry).insert promo ⟨"u", 3, 0, (0 : Inst).i32, 0, 0⟩ }
  dir := .empty
  key := (KvStore.fresh 0 .key eightBuckets 0 0).setRow 3 promo (encVal 0 3 "u") 0
  hash := (KvStore.fresh 0 .hash eightBuckets 0 0).setRow 3 promo (encVal 0 3 "u") 0
  database := { RocksStore.fresh 0 0 with 
    db := (∅ : Map Bytes Bytes).insert (encode promo) (encVal 0 3 "u") }

/-- Calls at one time, with nothing evicted. -/
def quiet (now : Int64) : Inputs where
  log := .at now []
  key := .at now []
  hash := .at now []
  database := ⟨fun _ => now⟩

theorem quiet_shows (now : Int64) : (quiet now).Shows now where
  log _ := rfl
  key _ := rfl
  hash _ := rfl
  database _ := rfl

theorem oneEach_holds : oneEach.Holds 5 promo ⟨0, 3, "u"⟩ where
  own := by decide +kernel
  log := by decide +kernel
  keyed := rfl
  alive _ st found := by
    cases found
    rfl
  key := by decide +kernel
  hashed := rfl
  hash := by decide +kernel
  database := by decide +kernel
  live := rfl

theorem agree_update_iff_positive :
    (oneEach.update (quiet 5) promo "w" 7 true).Agree (quiet 5) promo "w" 3
        (wantedTime 5 7 true 0) ↔
      (true = true → (0 < (7 : Int64) ∧ (5 : Int64).toInt + (7 : Int64).toInt < 2 ^ 63) ∨
        ((7 : Int64) ≤ 0 ∧ (5 : Int64) = 0)) :=
  agree_update_iff oneEach_holds (quiet_shows 5) (quiet_shows 5) (by decide) "w" 7 true

/-- At 5 an update that clears the expiry makes one store lose the link. -/
theorem cleared_link_lost :
    ¬ ∀ (b : Stores) (inputs later : Inputs) (now : Int64) (code : String) (row : Row),
      b.Holds now code row → inputs.Shows now → later.Shows now → 0 ≤ now →
        ∀ (url : String) (ttl : Int64) (hasTtl : Bool),
          (b.update inputs code url ttl hasTtl).Agree later code url row.c
            (wantedTime now ttl hasTtl row.e) := by
  intro every
  have agree := every oneEach (quiet 5) (quiet 5) 5 promo ⟨0, 3, "u"⟩ oneEach_holds (quiet_shows 5)
    (quiet_shows 5) (by decide) "w" 0 true
  have lost : ((oneEach.update (quiet 5) promo "w" 0 true).database.resolve
      (quiet 5).database promo).1 = none := by decide +kernel
  have answered := agree.database.answer
  rw [lost] at answered
  cases answered

end Stores

end Shrt.Backends
