import Mathlib.Data.List.Basic
import Mathlib.Tactic.Linarith
import Mathlib.Tactic.NormNum
import Shrt.Limiter.Memory

/-!
# Evicted clients

A client whose bucket was dropped gets a full one when it comes back.  That
grants nothing if the old bucket would have been full by then, which is sure for
every bucket only if a minute is enough to fill it.
-/

namespace Shrt.Limiter

open Shrt.Lib Shrt.Lib.Utf8

namespace RateLimiter

/-- A call at `now` to the client's shard drops its bucket. -/
structure Drops (rl : RateLimiter ℚ) (now : UInt64) (ip : String) (b : Bucket ℚ) : Prop where
  there : rl.bucket (ipKey ip) = some b
  full : MAX_KEYS ≤ (rl.shards (shardIdx (ipKey ip))).entries.length
  earlier : b.lastMs ≤ now
  idle : keeps now b = false

/-- What a client whose bucket is dropped at `now` is offered is no more than its
bucket would have held: in its own call at `now`, and in its next call after
another client of the shard had one at `now`. -/
structure Harmless (rl : RateLimiter ℚ) (now : UInt64) (ip : String) (b : Bucket ℚ) : Prop where
  own : rl.offered now ip ≤
    min rl.burst (b.tokens + rl.rate * (now.toNat - b.lastMs.toNat) / 1000)
  others : ∀ call calls t, call.now = now → shardIdx (ipKey call.ip) = shardIdx (ipKey ip) →
    (∀ c ∈ call :: calls, ipKey c.ip ≠ ipKey ip) → now ≤ t →
      ((rl.step call).run calls).offered t ip ≤
        min rl.burst (b.tokens + rl.rate * (t.toNat - b.lastMs.toNat) / 1000)

/-! ## A dropped bucket -/

theorem lookup_retain_of_drops {rl : RateLimiter ℚ} {now : UInt64} {ip : String} {b : Bucket ℚ}
    (drops : rl.Drops now ip b) :
    (retain now (rl.shards (shardIdx (ipKey ip)))).lookup (ipKey ip) = none := by
  have there := drops.there
  rw [bucket] at there
  rw [lookup_retain, there, Option.filter_some, decide_eq_false (not_lt.mpr drops.full),
    Bool.false_or, drops.idle]
  rfl

/-- A client without a bucket gets none from the calls of others. -/
theorem bucket_step_none {rl : RateLimiter ℚ} {call : Call ℚ} {k : UInt64}
    (absent : rl.bucket k = none) (other : ipKey call.ip ≠ k) : (rl.step call).bucket k = none := by
  rcases step_cases rl call with ⟨-, same⟩ | ⟨tokens, same, -⟩
  · rw [same, absent]
  · rw [same, bucket_store, if_neg (Ne.symm other)]
    split
    · rw [bucket] at absent
      rw [lookup_retain, absent]
      rfl
    · exact absent

theorem bucket_run_none {rl : RateLimiter ℚ} {calls : List (Call ℚ)} {k : UInt64}
    (absent : rl.bucket k = none) (others : ∀ c ∈ calls, ipKey c.ip ≠ k) :
    (rl.run calls).bucket k = none := by
  induction calls generalizing rl with
  | nil => exact absent
  | cons call calls ih =>
      exact ih (bucket_step_none absent (others call List.mem_cons_self))
        fun c among => others c (List.mem_cons_of_mem _ among)

/-- The call that drops the bucket leaves none, unless it is the client's own. -/
theorem bucket_step_of_drops {rl : RateLimiter ℚ} {call : Call ℚ} {ip : String} {b : Bucket ℚ}
    (on : 0 < rl.rate) (drops : rl.Drops call.now ip b)
    (shared : shardIdx (ipKey call.ip) = shardIdx (ipKey ip)) (other : ipKey call.ip ≠ ipKey ip) :
    (rl.step call).bucket (ipKey ip) = none := by
  rcases step_cases rl call with ⟨off, -⟩ | ⟨tokens, same, -⟩
  · exact absurd on (not_lt.mpr off)
  · rw [same, bucket_store, if_neg (Ne.symm other), if_pos shared.symm,
      lookup_retain_of_drops drops]

/-- For one bucket: the sweep grants nothing exactly when the bucket would be
full by then. -/
theorem harmless_iff {rl : RateLimiter ℚ} {now : UInt64} {ip : String} {b : Bucket ℚ}
    (on : 0 < rl.rate) (drops : rl.Drops now ip b) :
    rl.Harmless now ip b ↔
      rl.burst ≤ b.tokens + rl.rate * (now.toNat - b.lastMs.toNat) / 1000 := by
  constructor
  · intro harmless
    have own := harmless.own
    rw [offered_of_none (lookup_retain_of_drops drops)] at own
    exact (le_min_iff.mp own).2
  · intro enough
    constructor
    · rw [offered_of_none (lookup_retain_of_drops drops)]
      exact le_min le_rfl enough
    · rintro call calls t rfl shared others later
      have absent := bucket_step_of_drops on drops shared (others call List.mem_cons_self)
      rw [offered_of_bucket_none
        (bucket_run_none absent fun c among => others c (List.mem_cons_of_mem _ among)),
        run_burst, step_burst]
      have waited : (call.now.toNat : ℚ) ≤ t.toNat :=
        Nat.cast_le.mpr (UInt64.le_iff_toNat_le.mp later)
      have more := mul_le_mul_of_nonneg_left
        (sub_le_sub_right waited (b.lastMs.toNat : ℚ)) on.le
      exact le_min le_rfl (by linarith)

/-- A dropped bucket was idle for a minute. -/
theorem Drops.idle_le {rl : RateLimiter ℚ} {now : UInt64} {ip : String} {b : Bucket ℚ}
    (drops : rl.Drops now ip b) : (60000 : ℚ) ≤ now.toNat - b.lastMs.toNat := by
  have idle := drops.idle
  rw [keeps, decide_eq_false_iff_not, UInt64.lt_iff_toNat_lt, not_lt,
    UInt64.toNat_sub_of_le _ _ drops.earlier] at idle
  have ordered := UInt64.le_iff_toNat_le.mp drops.earlier
  have exact_minute : IDLE_MS.toNat = 60000 := rfl
  rw [le_sub_iff_add_le]
  exact_mod_cast (show 60000 + b.lastMs.toNat ≤ now.toNat by omega)

/-! ## A shard of spent buckets -/

/-- All but one of the clients that a shard may hold, each with the cost of a full
bucket. -/
def spenders (burst : ℚ) : List (Call ℚ) :=
  (List.range' 1 (MAX_KEYS - 1)).map fun n => ⟨0, client n, burst⟩

/-- The first client comes last. -/
def lastSpender (burst : ℚ) : Call ℚ :=
  ⟨0, client 0, burst⟩

def drained (rate burst : ℚ) : RateLimiter ℚ :=
  (fresh rate burst).run (spenders burst ++ [lastSpender burst])

theorem spenders_other {burst : ℚ} {call : Call ℚ} (among : call ∈ spenders burst) :
    ipKey call.ip ≠ ipKey (client 0) := by
  obtain ⟨n, listed, rfl⟩ := List.mem_map.mp among
  rw [List.mem_range'_1, MAX_KEYS] at listed
  intro same
  have zero : n = 0 := ipKey_client_inj (by omega) (by omega) same
  omega

theorem drained_full {rate : ℚ} (on : 0 < rate) (burst : ℚ) :
    ((drained rate burst).shards 0).entries.length = MAX_KEYS := by
  have listed : spenders burst ++ [lastSpender burst] =
      (List.range' 1 (MAX_KEYS - 1) ++ [0]).map fun n => ⟨0, client n, burst⟩ := by
    rw [List.map_append]
    rfl
  have enabled : ¬ rate ≤ 0 := not_le.mpr on
  rw [drained, listed, length_run_clients enabled burst burst, List.length_append,
    List.length_range']
  · rfl
  · rw [List.nodup_append]
    refine ⟨List.nodup_range', List.nodup_singleton 0, ?_⟩
    intro n among m last same
    rw [List.mem_range'_1] at among
    rw [List.mem_singleton] at last
    omega
  · intro n among
    rw [List.mem_append, List.mem_range'_1, List.mem_singleton, MAX_KEYS] at among
    omega

/-- A minute later all of them are idle, the first one with an empty bucket. -/
theorem drops_drained {rate : ℚ} (on : 0 < rate) (burst : ℚ) :
    (drained rate burst).Drops 60000 (client 0) ⟨0, 0⟩ where
  there := by
    have absent : ((fresh rate burst).run (spenders burst)).bucket (ipKey (client 0)) = none :=
      bucket_run_none rfl fun call among => spenders_other among
    rw [drained, run_concat]
    apply bucket_step_spent
    · rw [run_rate]
      exact on
    · exact absent
    · rw [run_burst]
      rfl
  full := by
    rw [shardIdx_client, drained_full on]
  earlier := by decide
  idle := by decide

/-- The client is offered the burst again, and would have the tokens of a minute. -/
theorem le_of_harmless_drained {rate burst : ℚ} (on : 0 < rate)
    (harmless : (drained rate burst).Harmless 60000 (client 0) ⟨0, 0⟩) : burst ≤ 60 * rate := by
  have own := (le_min_iff.mp harmless.own).2
  rw [offered_of_none (lookup_retain_of_drops (drops_drained on burst)), drained, run_rate,
    run_burst] at own
  change burst ≤ 0 + rate * ((60000 : ℕ) - (0 : ℕ)) / 1000 at own
  push_cast at own
  linarith

/-- One bucket is dropped without harm exactly when it would be full by then, and
all buckets of a limiter are exactly when a minute fills one. -/
theorem eviction_harmless_iff {rate burst : ℚ} (on : 0 < rate) (bound : 1 ≤ burst) :
    (∀ (rl : RateLimiter ℚ) now ip b, rl.rate = rate → rl.burst = burst → rl.Drops now ip b →
        (rl.Harmless now ip b ↔
          burst ≤ b.tokens + rate * (now.toNat - b.lastMs.toNat) / 1000)) ∧
      ((∀ (rl : RateLimiter ℚ) now ip b, rl.rate = rate → rl.burst = burst →
          0 ≤ b.tokens → b.tokens ≤ burst → rl.Drops now ip b → rl.Harmless now ip b) ↔
        burst ≤ 60 * rate) := by
  constructor
  · rintro rl now ip b rfl rfl drops
    exact harmless_iff on drops
  · constructor
    · intro harmless
      exact le_of_harmless_drained on (harmless (drained rate burst) 60000 (client 0) ⟨0, 0⟩
        (by rw [drained, run_rate, fresh]) (by rw [drained, run_burst, fresh]) le_rfl
        (le_trans zero_le_one bound) (drops_drained on burst))
    · rintro enough rl now ip b rfl rfl nonneg - drops
      rw [harmless_iff on drops]
      have waited := mul_le_mul_of_nonneg_left drops.idle_le on.le
      linarith

/-- A minute at 20 tokens a second fills a bucket of 1000, and the client that spent
its own gains nothing by being forgotten. -/
theorem eviction_harmless_at_twenty :
    (drained 20 1000).Harmless 60000 (client 0) ⟨0, 0⟩ := by
  have on : (0 : ℚ) < 20 := by norm_num
  have bound : (1 : ℚ) ≤ 1000 := by norm_num
  apply (eviction_harmless_iff on bound).2.mpr (by norm_num)
  · rw [drained, run_rate, fresh]
  · rw [drained, run_burst, fresh]
  · exact le_rfl
  · exact le_trans zero_le_one bound
  · exact drops_drained on 1000

/-- At one token a second the client that spent its 1000 has them back after a
minute. -/
theorem spent_bucket_refilled :
    ¬ ∀ (rate burst : ℚ), 0 < rate → 1 ≤ burst → ∀ calls now ip b,
      0 ≤ b.tokens → b.tokens ≤ burst → ((fresh rate burst).run calls).Drops now ip b →
        ((fresh rate burst).run calls).Harmless now ip b := by
  intro claim
  have harmless : (drained 1 1000).Harmless 60000 (client 0) ⟨0, 0⟩ :=
    claim 1 1000 one_pos (by norm_num) (spenders 1000 ++ [lastSpender 1000]) 60000 (client 0)
      ⟨0, 0⟩ le_rfl (by norm_num) (drops_drained one_pos 1000)
  have enough := le_of_harmless_drained one_pos harmless
  norm_num at enough

end RateLimiter

end Shrt.Limiter
