import Mathlib.Data.List.Basic
import Mathlib.Data.Rat.Lemmas
import Mathlib.Logic.Function.Basic
import Shrt.Lib.HashMap
import Shrt.Lib.Runs
import Shrt.Lib.Utf8

/-!
# The rate limiter

One token bucket for every hash of a client, in shards by the low bits of the
hash.  Tokens are numbers of any kind, exact rationals or those with infinities.  A
full shard drops the buckets that were idle before it looks for the client's own.  The
clock is the wall clock: its readings are 64-bit numbers in any order, and differences
of them wrap.
-/

namespace Shrt.Limiter

open Shrt.Lib Shrt.Lib.Utf8

def SHARDS : Nat := 64

/-- The entries a shard may hold before it drops idle ones. -/
def MAX_KEYS : Nat := 1 <<< 12

def IDLE_MS : UInt64 := 60000

structure Bucket (F : Type) where
  tokens : F
  lastMs : UInt64
  deriving DecidableEq, Repr

abbrev Shard (F : Type) := Map UInt64 (Bucket F)

structure RateLimiter (F : Type) where
  shards : Nat → Shard F
  rate : F
  burst : F

/-- FNV-1a over the bytes of the client. -/
def ipKey (ip : String) : UInt64 :=
  (encode ip).foldl (fun h b => (h ^^^ b.toUInt64) * 0x100000001b3) 0xcbf29ce484222325

/-- `(k as usize) & (SHARDS - 1)`. -/
def shardIdx (k : UInt64) : Nat :=
  k.toNat % SHARDS

variable {F : Type}

def keeps (now : UInt64) (b : Bucket F) : Bool :=
  now - b.lastMs < IDLE_MS

/-- Drop the idle buckets of a full shard. -/
def retain (now : UInt64) (m : Shard F) : Shard F :=
  if MAX_KEYS ≤ m.entries.length then
    m.eraseAll ((m.pairs.filter fun kb => !keeps now kb.2).map Prod.fst)
  else m

namespace RateLimiter

def fresh (rate burst : F) : RateLimiter F :=
  ⟨fun _ => ∅, rate, burst⟩

/-- `new`, with the two variables as far as they are numbers. -/
def new [Zero F] [One F] [Max F] (rateLimit rateLimitBurst : Option F) : RateLimiter F :=
  let rate := max (rateLimit.getD 0) 0
  fresh rate (max (rateLimitBurst.getD rate) 1)

/-- The bucket of the client, opened full if it is not there. -/
def entry (rl : RateLimiter F) (now : UInt64) (ip : String) : Bucket F :=
  ((retain now (rl.shards (shardIdx (ipKey ip)))).lookup (ipKey ip)).getD ⟨rl.burst, now⟩

def store (rl : RateLimiter F) (now : UInt64) (ip : String) (tokens : F) : RateLimiter F :=
  { rl with
    shards := Function.update rl.shards (shardIdx (ipKey ip))
      ((retain now (rl.shards (shardIdx (ipKey ip)))).insert (ipKey ip) ⟨tokens, now⟩) }

def bucket (rl : RateLimiter F) (k : UInt64) : Option (Bucket F) :=
  (rl.shards (shardIdx k)).lookup k

end RateLimiter

/-- One call: the reading of the clock, the client and the cost. -/
structure Call (F : Type) where
  now : UInt64
  ip : String
  cost : F

section Calls

variable [Zero F] [Add F] [Sub F] [Mul F] [Div F] [NatCast F] [OfNat F 1000] [Min F] [LE F]
  [DecidableLE F]

omit [Zero F] [Sub F] [LE F] [DecidableLE F] in
/-- The tokens of a bucket after the time since its last call. -/
def refill (rate burst : F) (now : UInt64) (b : Bucket F) : F :=
  min (b.tokens + ((now - b.lastMs).toNat : F) / 1000 * rate) burst

namespace RateLimiter

omit [Zero F] [Sub F] [LE F] [DecidableLE F] in
def offered (rl : RateLimiter F) (now : UInt64) (ip : String) : F :=
  refill rl.rate rl.burst now (rl.entry now ip)

/-- `allow`: whether the call may go on, at a reading of the clock. -/
def allow (now : UInt64) (rl : RateLimiter F) (ip : String) (cost : F) : Bool × RateLimiter F :=
  if rl.rate ≤ 0 then (true, rl)
  else if cost ≤ rl.offered now ip then
    (true, rl.store now ip (rl.offered now ip - cost))
  else (false, rl.store now ip (rl.offered now ip))

def step (rl : RateLimiter F) (call : Call F) : RateLimiter F :=
  (rl.allow call.now call.ip call.cost).2

def run (rl : RateLimiter F) (calls : List (Call F)) : RateLimiter F :=
  calls.foldl step rl

/-! ## One call -/

/-- What a call leaves: the limiter as it was, or a new bucket of the client. -/
theorem step_cases (rl : RateLimiter F) (call : Call F) :
    (rl.rate ≤ 0 ∧ rl.step call = rl) ∨
      ∃ tokens, rl.step call = rl.store call.now call.ip tokens ∧
        ¬ rl.rate ≤ 0 ∧
        ((call.cost ≤ rl.offered call.now call.ip ∧
            tokens = rl.offered call.now call.ip - call.cost ∧
            (rl.allow call.now call.ip call.cost).1 = true) ∨
          (¬ call.cost ≤ rl.offered call.now call.ip ∧ tokens = rl.offered call.now call.ip ∧
            (rl.allow call.now call.ip call.cost).1 = false)) := by
  unfold step allow
  split
  · rename_i off
    exact Or.inl ⟨off, rfl⟩
  · rename_i on
    split
    · rename_i enough
      exact Or.inr ⟨_, rfl, on, Or.inl ⟨enough, rfl, rfl⟩⟩
    · rename_i short
      exact Or.inr ⟨_, rfl, on, Or.inr ⟨short, rfl, rfl⟩⟩

@[simp] theorem step_rate (rl : RateLimiter F) (call : Call F) :
    (rl.step call).rate = rl.rate := by
  rcases step_cases rl call with ⟨-, same⟩ | ⟨tokens, same, -⟩
  · rw [same]
  · rw [same]
    rfl

@[simp] theorem step_burst (rl : RateLimiter F) (call : Call F) :
    (rl.step call).burst = rl.burst := by
  rcases step_cases rl call with ⟨-, same⟩ | ⟨tokens, same, -⟩
  · rw [same]
  · rw [same]
    rfl

@[simp] theorem run_rate (rl : RateLimiter F) (calls : List (Call F)) :
    (rl.run calls).rate = rl.rate := by
  induction calls generalizing rl with
  | nil => rfl
  | cons call calls ih => rw [run, List.foldl_cons, ← run, ih, step_rate]

@[simp] theorem run_burst (rl : RateLimiter F) (calls : List (Call F)) :
    (rl.run calls).burst = rl.burst := by
  induction calls generalizing rl with
  | nil => rfl
  | cons call calls ih => rw [run, List.foldl_cons, ← run, ih, step_burst]

theorem run_concat (rl : RateLimiter F) (calls : List (Call F)) (call : Call F) :
    rl.run (calls ++ [call]) = (rl.run calls).step call :=
  List.foldl_concat ..

end RateLimiter

end Calls

/-! ## Dropping idle buckets -/

theorem lookup_retain (now : UInt64) (m : Shard F) (k : UInt64) :
    (retain now m).lookup k =
      (m.lookup k).filter fun b => decide (m.entries.length < MAX_KEYS) || keeps now b := by
  unfold retain
  split
  · rename_i full
    rw [Map.lookup_eraseAll]
    cases found : m.lookup k with
    | none => simp
    | some b =>
        have listed : k ∈ (m.pairs.filter fun kb => !keeps now kb.2).map Prod.fst ↔
            keeps now b = false := by
          rw [List.mem_map]
          constructor
          · rintro ⟨⟨k', b'⟩, member, rfl⟩
            rw [List.mem_filter, Map.mem_pairs_iff] at member
            obtain ⟨there, idle⟩ := member
            cases found.symm.trans there
            simpa using idle
          · intro idle
            exact ⟨(k, b), List.mem_filter.mpr ⟨Map.mem_pairs_iff.mpr found, by simp [idle]⟩, rfl⟩
        rw [Option.filter_some, decide_eq_false (not_lt.mpr full), Bool.false_or]
        cases kept : keeps now b with
        | true => simp [listed, kept]
        | false => simp [listed, kept]
  · rename_i roomy
    rw [decide_eq_true (not_le.mp roomy)]
    cases m.lookup k with
    | none => rfl
    | some b => rfl

/-- A shard that is not full is left alone. -/
theorem retain_of_lt {m : Shard F} (roomy : m.entries.length < MAX_KEYS) (now : UInt64) :
    retain now m = m := by
  rw [retain, if_neg (not_le.mpr roomy)]

namespace RateLimiter

/-- Every bucket after a call has stored the client's: the others of its shard go
through the sweep. -/
theorem bucket_store (rl : RateLimiter F) (now : UInt64) (ip : String) (tokens : F) (k : UInt64) :
    (rl.store now ip tokens).bucket k =
      if k = ipKey ip then some ⟨tokens, now⟩
      else if shardIdx k = shardIdx (ipKey ip) then
        (retain now (rl.shards (shardIdx k))).lookup k
      else rl.bucket k := by
  rw [bucket, store]
  by_cases shard : shardIdx k = shardIdx (ipKey ip)
  · simp only [shard, Function.update_self, Map.lookup_insert_eq, if_true]
  · have other : k ≠ ipKey ip := fun same => shard (same ▸ rfl)
    simp only [Function.update_of_ne shard, if_neg shard, if_neg other, bucket]

/-- Without a bucket a client is offered the burst. -/
theorem offered_of_none {rl : RateLimiter ℚ} {now : UInt64} {ip : String}
    (absent : (retain now (rl.shards (shardIdx (ipKey ip)))).lookup (ipKey ip) = none) :
    rl.offered now ip = rl.burst := by
  rw [offered, entry, absent, Option.getD_none, refill, UInt64.sub_self]
  change min (rl.burst + ((0 : ℕ) : ℚ) / 1000 * rl.rate) rl.burst = rl.burst
  rw [Nat.cast_zero, zero_div, zero_mul, add_zero, min_self]

theorem offered_of_bucket_none {rl : RateLimiter ℚ} {now : UInt64} {ip : String}
    (absent : rl.bucket (ipKey ip) = none) : rl.offered now ip = rl.burst := by
  rw [bucket] at absent
  apply offered_of_none
  rw [lookup_retain, absent]
  rfl

/-- A new client that spends the burst at once is left with an empty bucket. -/
theorem bucket_step_spent {rl : RateLimiter ℚ} {call : Call ℚ} (on : 0 < rl.rate)
    (absent : rl.bucket (ipKey call.ip) = none) (all : call.cost = rl.burst) :
    (rl.step call).bucket (ipKey call.ip) = some ⟨0, call.now⟩ := by
  have offered : rl.offered call.now call.ip = rl.burst := offered_of_bucket_none absent
  rcases step_cases rl call with ⟨off, -⟩ | ⟨tokens, same, -, ⟨-, spent, -⟩ | ⟨short, -⟩⟩
  · exact absurd on (not_lt.mpr off)
  · rw [same, bucket_store, if_pos rfl, spent, offered, all, sub_self]
  · rw [offered, all] at short
    exact absurd le_rfl short

end RateLimiter

end Shrt.Limiter
