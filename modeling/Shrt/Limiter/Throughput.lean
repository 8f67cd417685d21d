import Mathlib.Data.List.Basic
import Mathlib.Tactic.FieldSimp
import Mathlib.Tactic.Ring
import Shrt.Lib.TokenBucket
import Shrt.Limiter.Memory

/-!
# Throughput of a client

As long as no shard is full and the clock does not run backwards, the calls on
one hash are the requests to one token bucket, whoever makes them.  So a client
spends at most what one bucket pays.
-/

namespace Shrt.Limiter

open Shrt.Lib

/-- The time in milliseconds. -/
def Call.request (call : Call ℚ) : TokenBucket.Request ℚ :=
  ⟨call.now.toNat, call.cost⟩

def Bucket.plain (b : Bucket ℚ) : TokenBucket.Bucket ℚ :=
  ⟨b.tokens, b.lastMs.toNat⟩

namespace RateLimiter

/-- The limit of a bucket, by the millisecond. -/
def limit (rl : RateLimiter ℚ) : TokenBucket.Limit ℚ :=
  ⟨rl.rate / 1000, rl.burst⟩

/-- No shard is full. -/
def Roomy (rl : RateLimiter ℚ) : Prop :=
  ∀ i, (rl.shards i).entries.length < MAX_KEYS

/-- Every bucket is within its bounds, and none was used after `t`. -/
structure Sound (t : UInt64) (rl : RateLimiter ℚ) : Prop where
  bounds : ∀ i k b, (rl.shards i).lookup k = some b → 0 ≤ b.tokens ∧ b.tokens ≤ rl.burst
  timely : ∀ i k b, (rl.shards i).lookup k = some b → b.lastMs ≤ t

/-- What the calls of a client from `t1` to `t2` cost, as far as they were
allowed. -/
def spentBy (ip : String) (t1 t2 : ℚ) : RateLimiter ℚ → List (Call ℚ) → ℚ
  | _, [] => 0
  | rl, call :: calls =>
      (if call.ip = ip ∧ t1 ≤ call.now.toNat ∧ call.now.toNat ≤ t2 ∧
          (rl.allow call.now call.ip call.cost).1 then call.cost else 0) +
        spentBy ip t1 t2 (rl.step call) calls

/-! ## One call is one request -/

theorem refill_eq (rl : RateLimiter ℚ) {now : UInt64} {b : Bucket ℚ} (timely : b.lastMs ≤ now) :
    refill rl.rate rl.burst now b = TokenBucket.level rl.limit b.plain now.toNat := by
  have elapsed : ((now - b.lastMs).toNat : ℚ) = now.toNat - b.lastMs.toNat := by
    rw [UInt64.toNat_sub_of_le _ _ timely, Nat.cast_sub (UInt64.le_iff_toNat_le.mp timely)]
  rw [refill, TokenBucket.level, elapsed]
  simp only [limit, Bucket.plain]
  congr 1
  ring

section Step

variable {rl : RateLimiter ℚ} {call : Call ℚ} {t : UInt64}

theorem offered_eq (sound : rl.Sound t) (roomy : rl.Roomy) (later : t ≤ call.now) :
    rl.offered call.now call.ip =
      TokenBucket.offered rl.limit ((rl.bucket (ipKey call.ip)).map Bucket.plain)
        call.now.toNat := by
  rw [offered, entry, retain_of_lt (roomy _)]
  show refill rl.rate rl.burst call.now ((rl.bucket (ipKey call.ip)).getD ⟨rl.burst, call.now⟩) = _
  cases found : rl.bucket (ipKey call.ip) with
  | none => exact rl.refill_eq (UInt64.le_refl call.now)
  | some b => exact rl.refill_eq (UInt64.le_trans (sound.timely _ _ b found) later)

/-- Where no shard is full, a call changes the client's bucket only. -/
theorem bucket_store_of_roomy (roomy : rl.Roomy) (now : UInt64) (ip : String) (tokens : ℚ)
    (k : UInt64) :
    (rl.store now ip tokens).bucket k =
      if k = ipKey ip then some ⟨tokens, now⟩ else rl.bucket k := by
  rw [bucket_store, retain_of_lt (roomy _), ← bucket, ite_self]

/-- A call is decided as a request to the client's bucket, and leaves it so. -/
theorem allow_eq (positive : 0 < rl.rate) (sound : rl.Sound t) (roomy : rl.Roomy)
    (later : t ≤ call.now) :
    (rl.allow call.now call.ip call.cost).1 =
        (TokenBucket.serve rl.limit ((rl.bucket (ipKey call.ip)).map Bucket.plain)
          call.request).1 ∧
      ((rl.step call).bucket (ipKey call.ip)).map Bucket.plain =
        some (TokenBucket.serve rl.limit ((rl.bucket (ipKey call.ip)).map Bucket.plain)
          call.request).2 := by
  have same := offered_eq sound roomy later
  by_cases enough : call.cost ≤ TokenBucket.offered rl.limit
      ((rl.bucket (ipKey call.ip)).map Bucket.plain) call.now.toNat
  · have served : TokenBucket.serve rl.limit ((rl.bucket (ipKey call.ip)).map Bucket.plain)
        call.request = (true, ⟨_, _⟩) := if_pos enough
    rw [step, allow, if_neg (not_le.mpr positive), same, if_pos enough, served,
      bucket_store_of_roomy roomy, if_pos rfl]
    exact ⟨rfl, rfl⟩
  · have served : TokenBucket.serve rl.limit ((rl.bucket (ipKey call.ip)).map Bucket.plain)
        call.request = (false, ⟨_, _⟩) := if_neg enough
    rw [step, allow, if_neg (not_le.mpr positive), same, if_neg enough, served,
      bucket_store_of_roomy roomy, if_pos rfl]
    exact ⟨rfl, rfl⟩

/-- A call leaves the buckets of other hashes alone. -/
theorem bucket_step_other (roomy : rl.Roomy) {k : UInt64} (other : k ≠ ipKey call.ip) :
    (rl.step call).bucket k = rl.bucket k := by
  rcases step_cases rl call with ⟨-, same⟩ | ⟨tokens, same, -⟩
  · rw [same]
  · rw [same, bucket_store_of_roomy roomy, if_neg other]

/-- The step lemma. -/
theorem Sound.step (positive : 0 < rl.rate) (bound : 0 ≤ rl.burst) (sound : rl.Sound t)
    (roomy : rl.Roomy) (later : t ≤ call.now) (cost : 0 ≤ call.cost) :
    (rl.step call).Sound call.now := by
  have offered := offered_eq sound roomy later
  have rate : 0 ≤ rl.limit.rate := div_nonneg positive.le (by norm_num)
  have within : ∀ a ∈ (rl.bucket (ipKey call.ip)).map Bucket.plain,
      TokenBucket.Within rl.limit a := by
    intro a there
    obtain ⟨b, found, rfl⟩ := Option.map_eq_some_iff.mp there
    obtain ⟨nonneg, full⟩ := sound.bounds _ _ b found
    exact ⟨nonneg, full⟩
  have earlier : ∀ a ∈ (rl.bucket (ipKey call.ip)).map Bucket.plain, a.last ≤ call.now.toNat := by
    intro a there
    obtain ⟨b, found, rfl⟩ := Option.map_eq_some_iff.mp there
    exact Nat.cast_le.mpr
      (UInt64.le_iff_toNat_le.mp (UInt64.le_trans (sound.timely _ _ b found) later))
  have nonneg : 0 ≤ rl.offered call.now call.ip :=
    offered ▸ TokenBucket.offered_nonneg bound rate within earlier
  have full : rl.offered call.now call.ip ≤ rl.burst :=
    offered ▸ TokenBucket.offered_le_burst (p := rl.limit) _ _
  -- what is stored is what was offered, less the cost of a call that is allowed
  obtain ⟨tokens, same, low, high⟩ : ∃ tokens, rl.step call = rl.store call.now call.ip tokens ∧
      0 ≤ tokens ∧ tokens ≤ rl.burst := by
    rcases step_cases rl call with ⟨off, -⟩ | ⟨tokens, same, -, ⟨enough, rfl, -⟩ | ⟨-, rfl, -⟩⟩
    · exact absurd positive (not_lt.mpr off)
    · exact ⟨_, same, sub_nonneg.mpr enough, (sub_le_self _ cost).trans full⟩
    · exact ⟨_, same, nonneg, full⟩
  have stored : ∀ i k b, ((rl.step call).shards i).lookup k = some b →
      b = ⟨tokens, call.now⟩ ∨ (rl.shards i).lookup k = some b := by
    intro i k b found
    rw [same, store, retain_of_lt (roomy _)] at found
    by_cases shard : i = shardIdx (ipKey call.ip)
    · subst shard
      simp only [Function.update_self, Map.lookup_insert_eq] at found
      split at found
      · cases found
        exact Or.inl rfl
      · exact Or.inr found
    · simp only [Function.update_of_ne shard] at found
      exact Or.inr found
  constructor
  · intro i k b found
    rw [step_burst]
    rcases stored i k b found with rfl | there
    · exact ⟨low, high⟩
    · exact sound.bounds i k b there
  · intro i k b found
    rcases stored i k b found with rfl | there
    · exact UInt64.le_refl _
    · exact UInt64.le_trans (sound.timely i k b there) later

end Step

/-! ## Runs -/

@[simp] theorem limit_step (rl : RateLimiter ℚ) (call : Call ℚ) : (rl.step call).limit = rl.limit := by
  rw [limit, limit, step_rate, step_burst]

/-- What is asked of the calls of a run: enough room, a clock that does not run
backwards, and no negative cost. -/
structure Orderly (rl : RateLimiter ℚ) (calls : List (Call ℚ)) : Prop where
  room : Runs.Along step (fun rl _ => rl.Roomy) rl calls
  clock : calls.Pairwise fun call call' => call.now ≤ call'.now
  costs : ∀ call ∈ calls, 0 ≤ call.cost

theorem Orderly.tail {rl : RateLimiter ℚ} {call : Call ℚ} {calls : List (Call ℚ)}
    (orderly : rl.Orderly (call :: calls)) : (rl.step call).Orderly calls where
  room := orderly.room.2
  clock := (List.pairwise_cons.mp orderly.clock).2
  costs c among := orderly.costs c (List.mem_cons_of_mem _ among)

/-- The run lemma. -/
theorem Sound.run {rl : RateLimiter ℚ} {t : UInt64} {calls : List (Call ℚ)} (positive : 0 < rl.rate)
    (bound : 0 ≤ rl.burst) (sound : rl.Sound t) (orderly : rl.Orderly calls)
    (later : ∀ call ∈ calls, t ≤ call.now) : ∃ t, (rl.run calls).Sound t := by
  induction calls generalizing rl t with
  | nil => exact ⟨t, sound⟩
  | cons call calls ih =>
      have next := sound.step positive bound orderly.room.1 (later call List.mem_cons_self)
        (orderly.costs call List.mem_cons_self)
      exact ih (by rwa [step_rate]) (by rwa [step_burst]) next orderly.tail
        (List.pairwise_cons.mp orderly.clock).1

/-- As long as there are fewer calls than entries in a shard, none is full. -/
theorem roomy_of_few {rl : RateLimiter ℚ} {calls : List (Call ℚ)}
    (few : ∀ i, (rl.shards i).entries.length + calls.length ≤ MAX_KEYS) :
    Runs.Along step (fun rl _ => rl.Roomy) rl calls := by
  induction calls generalizing rl with
  | nil => trivial
  | cons call calls ih =>
      simp only [List.length_cons] at few
      constructor
      · intro i
        have room := few i
        omega
      · apply ih
        intro i
        have room := few i
        have grown := length_step_le rl call i
        omega

/-- The calls of a client are among the requests to its bucket. -/
theorem spentBy_le_spent {rl : RateLimiter ℚ} {t : UInt64} {calls : List (Call ℚ)}
    (positive : 0 < rl.rate) (bound : 0 ≤ rl.burst) (sound : rl.Sound t)
    (orderly : rl.Orderly calls) (later : ∀ call ∈ calls, t ≤ call.now) (ip : String) (t1 t2 : ℚ) :
    spentBy ip t1 t2 rl calls ≤
      TokenBucket.spent rl.limit t1 t2 ((rl.bucket (ipKey ip)).map Bucket.plain)
        ((calls.filter fun call => ipKey call.ip = ipKey ip).map Call.request) := by
  induction calls generalizing rl t with
  | nil => exact le_rfl
  | cons call calls ih =>
      have here := later call List.mem_cons_self
      have cost := orderly.costs call List.mem_cons_self
      have next := sound.step positive bound orderly.room.1 here cost
      have rest := ih (by rwa [step_rate]) (by rwa [step_burst]) next orderly.tail
        (List.pairwise_cons.mp orderly.clock).1
      rw [limit_step] at rest
      rw [spentBy]
      by_cases shared : ipKey call.ip = ipKey ip
      · obtain ⟨decided, left⟩ := allow_eq positive sound orderly.room.1 here
        rw [shared] at decided left
        rw [left] at rest
        rw [List.filter_cons_of_pos (by simpa using shared), List.map_cons, TokenBucket.spent]
        refine add_le_add ?_ rest
        rw [decided]
        by_cases counted : t1 ≤ call.request.time ∧ call.request.time ≤ t2 ∧
            (TokenBucket.serve rl.limit ((rl.bucket (ipKey ip)).map Bucket.plain)
              call.request).1 = true
        · rw [if_pos counted]
          split
          · exact le_rfl
          · exact cost
        · rw [if_neg counted, if_neg (fun all => counted all.2)]
      · have other : call.ip ≠ ip := fun same => shared (same ▸ rfl)
        rw [bucket_step_other orderly.room.1 (Ne.symm shared)] at rest
        rw [List.filter_cons_of_neg (by simpa using shared), if_neg (fun all => other all.1),
          zero_add]
        exact rest

theorem sound_fresh (rate burst : ℚ) : (fresh rate burst).Sound 0 where
  bounds _ _ _ found := nomatch found
  timely _ _ _ found := nomatch found

/-- In every run of a limiter that starts without buckets, the buckets stay
within their bounds, and no client spends more in a window than the burst and
what the rate allows in that time. -/
theorem throughput_bounded {rate burst : ℚ} (positive : 0 < rate) (bound : 1 ≤ burst)
    {calls : List (Call ℚ)} (orderly : (fresh rate burst).Orderly calls) :
    (∀ i k b, (((fresh rate burst).run calls).shards i).lookup k = some b →
        0 ≤ b.tokens ∧ b.tokens ≤ burst) ∧
      ∀ ip (t1 t2 : ℚ), t1 ≤ t2 →
        spentBy ip t1 t2 (fresh rate burst) calls ≤ burst + rate * (t2 - t1) / 1000 := by
  have nonneg : 0 ≤ burst := le_trans zero_le_one bound
  have start := sound_fresh rate burst
  have later : ∀ call ∈ calls, 0 ≤ call.now := fun call _ => UInt64.zero_le
  constructor
  · obtain ⟨t, sound⟩ := start.run positive nonneg orderly later
    intro i k b found
    have bounds := sound.bounds i k b found
    rwa [run_burst] at bounds
  · intro ip t1 t2 window
    have sorted : ((calls.filter fun call => ipKey call.ip = ipKey ip).map Call.request).Pairwise
        fun r r' => r.time ≤ r'.time := by
      rw [List.pairwise_map]
      exact (orderly.clock.filter _).imp fun before =>
        Nat.cast_le.mpr (UInt64.le_iff_toNat_le.mp before)
    have costs : ∀ r ∈ (calls.filter fun call => ipKey call.ip = ipKey ip).map Call.request,
        0 ≤ r.cost := by
      intro r among
      obtain ⟨call, inside, rfl⟩ := List.mem_map.mp among
      exact orderly.costs call (List.mem_of_mem_filter inside)
    calc spentBy ip t1 t2 (fresh rate burst) calls
        ≤ _ := spentBy_le_spent positive nonneg start orderly later ip t1 t2
      _ ≤ burst + (t2 - t1) * (rate / 1000) :=
          TokenBucket.spent_le (div_nonneg positive.le (by norm_num)) nonneg window sorted costs
      _ = burst + rate * (t2 - t1) / 1000 := by ring

/-- Two calls of one client within half a second, at two tokens a second. -/
theorem throughput_bounded_two_calls :
    spentBy "a" 0 500 (fresh 2 1) [⟨0, "a", 1⟩, ⟨500, "a", 1⟩] ≤ 1 + 2 * (500 - 0) / 1000 := by
  have orderly : (fresh 2 1).Orderly [⟨0, "a", 1⟩, ⟨500, "a", 1⟩] :=
    ⟨roomy_of_few fun _ => show 0 + 2 ≤ MAX_KEYS by decide, by simp, by simp⟩
  exact (throughput_bounded (by norm_num) le_rfl orderly).2 "a" 0 500 (by norm_num)

end RateLimiter

end Shrt.Limiter
