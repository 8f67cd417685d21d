import Mathlib.Data.List.Induction
import Shrt.Lib.Rounded
import Shrt.Limiter.Memory

/-!
# A clock that steps back

The wall clock may step back, and both differences of the limiter are unsigned.
They are exact, and a bucket is neither refilled nor dropped by a step back,
exactly as long as no call comes before the last call on a hash that it looks at:
its own, and all of its shard when that is full.  At an infinite rate a bucket is
refilled without any time passing.
-/

namespace Shrt.Limiter

open Shrt.Lib Shrt.Lib.Extended

section Last

variable {F : Type}

def lastCall (calls : List (Call F)) (k : UInt64) : Option (Call F) :=
  (calls.filter fun call => ipKey call.ip = k).getLast?

theorem lastCall_concat (calls : List (Call F)) (call : Call F) (k : UInt64) :
    lastCall (calls ++ [call]) k = if k = ipKey call.ip then some call else lastCall calls k := by
  rw [lastCall, List.filter_append]
  by_cases same : k = ipKey call.ip
  · rw [if_pos same, List.filter_cons_of_pos (by simp [same]), List.filter_nil,
      List.getLast?_concat]
  · rw [if_neg same, List.filter_cons_of_neg (by simp [Ne.symm same]), List.filter_nil,
      List.append_nil, lastCall]

theorem mem_of_lastCall {calls : List (Call F)} {k : UInt64} {last : Call F}
    (found : lastCall calls k = some last) : last ∈ calls :=
  List.mem_of_mem_filter (List.mem_of_getLast? found)

end Last

namespace RateLimiter

variable {rounding : Rounding}

/-- A call does as the clock says: no difference of it wraps, and a bucket whose
last call is not before it gets no tokens and stays. -/
structure Tolerates (rl : RateLimiter (Rounded rounding)) (call : Call (Rounded rounding)) :
    Prop where
  refill_exact : (rl.entry call.now call.ip).lastMs ≤ call.now
  retain_exact : MAX_KEYS ≤ (rl.shards (shardIdx (ipKey call.ip))).entries.length →
    ∀ k b, (rl.shards (shardIdx (ipKey call.ip))).lookup k = some b → b.lastMs ≤ call.now
  adds_nothing : ∀ b, rl.bucket (ipKey call.ip) = some b → call.now ≤ b.lastMs →
    rl.offered call.now call.ip ≤ b.tokens
  evicts_nothing : ∀ k b, (rl.shards (shardIdx (ipKey call.ip))).lookup k = some b →
    call.now ≤ b.lastMs →
      (retain call.now (rl.shards (shardIdx (ipKey call.ip)))).lookup k = some b

/-- A call is not before the last one on its own hash, nor in a full shard before
the last one on any hash of it, as far as there still is a bucket.  If the rate is
infinite, it is after the last one on its own hash that made a difference. -/
structure Timely (rl : RateLimiter (Rounded rounding)) (before : List (Call (Rounded rounding)))
    (call : Call (Rounded rounding)) : Prop where
  own : rl.bucket (ipKey call.ip) ≠ none →
    ∀ last, lastCall before (ipKey call.ip) = some last → last.now ≤ call.now
  shard : MAX_KEYS ≤ (rl.shards (shardIdx (ipKey call.ip))).entries.length →
    ∀ k ∈ rl.shards (shardIdx (ipKey call.ip)),
      ∀ last, lastCall before k = some last → last.now ≤ call.now
  still : rl.rate.value = top → rl.bucket (ipKey call.ip) ≠ none →
    ∀ last, lastCall before (ipKey call.ip) = some last → last.now = call.now →
      last.cost ≤ rl.burst → rl.burst ≤ rl.burst - last.cost

/-! ## What is offered -/

/-- What `new` makes of the variables. -/
structure Configured (rl : RateLimiter (Rounded rounding)) : Prop where
  rate : 0 ≤ rl.rate
  burst : 1 ≤ rl.burst

theorem configured_new (rateLimit rateLimitBurst : Option (Rounded rounding)) :
    (new rateLimit rateLimitBurst).Configured where
  rate := Rounded.le_max_right (by simp [Rounded.value_zero])
  burst := Rounded.le_max_right (by simp [Rounded.value_one])

namespace Configured

variable {rl : RateLimiter (Rounded rounding)} (configured : rl.Configured)
include configured

theorem rate_cases : (∃ q, rl.rate.value = real q) ∨ rl.rate.value = top := by
  have nonneg := configured.rate
  rw [Rounded.le_def, Rounded.value_zero] at nonneg
  cases value : rl.rate.value with
  | nan => simp [value, le] at nonneg
  | bot => simp [value, le] at nonneg
  | real q => exact Or.inl ⟨q, rfl⟩
  | top => exact Or.inr rfl

theorem burst_ne_nan : rl.burst.value ≠ nan :=
  Rounded.ne_nan_of_le configured.burst

theorem burst_ne_bot : rl.burst.value ≠ bot := by
  intro value
  have bound := configured.burst
  simp [Rounded.le_def, Rounded.value_one, value, le] at bound

end Configured

/-- What is offered is a number. -/
theorem offered_ne_nan {rl : RateLimiter (Rounded rounding)} (configured : rl.Configured)
    (now : UInt64) (ip : String) : (rl.offered now ip).value ≠ nan :=
  Rounded.min_ne_nan configured.burst_ne_nan

/-- Between two calls at one reading a finite rate adds nothing. -/
theorem refill_le_of_eq {rate burst : Rounded rounding} {now : UInt64}
    {b : Bucket (Rounded rounding)} {q : ℚ} (finite : rate.value = real q)
    (number : b.tokens.value ≠ nan) (same : b.lastMs = now) :
    refill rate burst now b ≤ b.tokens := by
  have nothing : ((now - b.lastMs).toNat : Rounded rounding) / 1000 * rate = 0 := by
    rw [same, UInt64.sub_self]
    change ((0 : ℕ) : Rounded rounding) / ((1000 : ℕ) : Rounded rounding) * rate = 0
    rw [show ((0 : ℕ) : Rounded rounding) = 0 from rfl,
      Rounded.zero_div_natCast (by norm_num) (by norm_num), Rounded.zero_mul_real finite]
  rw [refill, nothing, Rounded.add_zero_eq]
  exact Rounded.min_le_left_of_ne number

/-- An infinite rate fills a bucket at once. -/
theorem refill_infinite {rate burst : Rounded rounding} {now : UInt64}
    {b : Bucket (Rounded rounding)} (infinite : rate.value = top)
    (above : b.tokens.value ≠ bot) (number : burst.value ≠ nan) :
    refill rate burst now b = burst := by
  have nonneg : (0 : Rounded rounding) ≤ ((now - b.lastMs).toNat : Rounded rounding) / 1000 :=
    Rounded.div_natCast_nonneg (n := 1000) (by norm_num) (by norm_num)
      (Rounded.natCast_nonneg _)
  exact Rounded.min_add_eq (Rounded.mul_top nonneg infinite) above number

/-! ## The buckets of a run -/

/-- What the last call on a hash left of a burst at an infinite rate. -/
def left (burst cost : Rounded rounding) : Rounded rounding :=
  if cost ≤ burst then burst - cost else burst

/-- Every bucket is in the shard of its hash and holds the reading of the last call
on it, and tokens that are a number; at an infinite rate those that the call left. -/
structure Dated (rl : RateLimiter (Rounded rounding)) (before : List (Call (Rounded rounding))) :
    Prop where
  filed : ∀ i k b, (rl.shards i).lookup k = some b → shardIdx k = i
  last : ∀ i k b, (rl.shards i).lookup k = some b →
    ∃ last, lastCall before k = some last ∧ last.now = b.lastMs ∧
      (rl.rate.value = top → b.tokens = left rl.burst last.cost)
  number : ∀ i k b, (rl.shards i).lookup k = some b → b.tokens.value ≠ nan

theorem left_ne_bot {burst : Rounded rounding} (above : burst.value ≠ bot)
    (cost : Rounded rounding) : (left burst cost).value ≠ bot := by
  unfold left
  split
  · exact Rounded.sub_ne_bot ‹_›
  · exact above

/-- At an infinite rate every call finds the burst. -/
theorem offered_infinite {rl : RateLimiter (Rounded rounding)}
    {before : List (Call (Rounded rounding))} (dated : rl.Dated before)
    (configured : rl.Configured) (infinite : rl.rate.value = top) (now : UInt64) (ip : String) :
    rl.offered now ip = rl.burst := by
  refine refill_infinite infinite ?_ configured.burst_ne_nan
  rw [entry, lookup_retain]
  cases found : ((rl.shards (shardIdx (ipKey ip))).lookup (ipKey ip)).filter
      fun b => decide ((rl.shards (shardIdx (ipKey ip))).entries.length < MAX_KEYS) ||
        keeps now b with
  | none => exact configured.burst_ne_bot
  | some b =>
      rw [Option.filter_eq_some_iff] at found
      obtain ⟨last, -, -, tokens⟩ := dated.last _ _ b found.1
      rw [Option.getD_some, tokens infinite]
      exact left_ne_bot configured.burst_ne_bot last.cost

/-- What a call leaves of the tokens that it is offered. -/
theorem Dated.tokens_left {rl : RateLimiter (Rounded rounding)}
    {before : List (Call (Rounded rounding))} (dated : rl.Dated before)
    (configured : rl.Configured) {call : Call (Rounded rounding)} {cost : ℚ}
    (finite : call.cost.value = real cost) :
    (left (rl.offered call.now call.ip) call.cost).value ≠ nan ∧
      (rl.rate.value = top →
        left (rl.offered call.now call.ip) call.cost = left rl.burst call.cost) := by
  have offered := offered_ne_nan configured call.now call.ip
  constructor
  · unfold left
    split
    · exact Rounded.sub_ne_nan offered finite
    · exact offered
  · intro infinite
    rw [offered_infinite dated configured infinite]

/-- After a call a bucket is the new one of the client, or was there before. -/
theorem Dated.lookup_step {rl : RateLimiter (Rounded rounding)}
    {before : List (Call (Rounded rounding))} (dated : rl.Dated before)
    {call : Call (Rounded rounding)} (on : ¬ rl.rate ≤ 0) {i : Nat} {k : UInt64}
    {b : Bucket (Rounded rounding)} (found : ((rl.step call).shards i).lookup k = some b) :
    (k = ipKey call.ip ∧ i = shardIdx k ∧ b.lastMs = call.now ∧
        b.tokens = left (rl.offered call.now call.ip) call.cost) ∨
      (k ≠ ipKey call.ip ∧ (rl.shards i).lookup k = some b) := by
  rcases step_cases rl call with ⟨off, -⟩ | ⟨tokens, same, -, paid⟩
  · exact absurd off on
  have kept : tokens = left (rl.offered call.now call.ip) call.cost := by
    rcases paid with ⟨enough, rfl, -⟩ | ⟨short, rfl, -⟩
    · exact (if_pos enough).symm
    · exact (if_neg short).symm
  rw [same] at found
  by_cases shard : i = shardIdx (ipKey call.ip)
  · rw [shard, shards_store_same, Map.lookup_insert_eq] at found
    split at found
    · rename_i own
      cases found
      exact Or.inl ⟨own, own ▸ shard, rfl, kept⟩
    · rename_i other
      rw [lookup_retain, Option.filter_eq_some_iff] at found
      exact Or.inr ⟨other, shard ▸ found.1⟩
  · rw [shards_store_other _ _ _ _ shard] at found
    refine Or.inr ⟨?_, found⟩
    rintro rfl
    exact shard (dated.filed i _ b found).symm

/-- The step lemma. -/
theorem Dated.step {rl : RateLimiter (Rounded rounding)}
    {before : List (Call (Rounded rounding))} (dated : rl.Dated before)
    (configured : rl.Configured) {call : Call (Rounded rounding)} {cost : ℚ}
    (finite : call.cost.value = real cost) (on : ¬ rl.rate ≤ 0) :
    (rl.step call).Dated (before ++ [call]) := by
  obtain ⟨number, infinite⟩ := dated.tokens_left configured finite
  constructor
  · intro i k b found
    rcases dated.lookup_step on found with ⟨-, shard, -⟩ | ⟨-, there⟩
    · exact shard.symm
    · exact dated.filed i k b there
  · intro i k b found
    rw [lastCall_concat, step_rate, step_burst]
    rcases dated.lookup_step on found with ⟨own, -, new, tokens⟩ | ⟨other, there⟩
    · exact ⟨call, if_pos own, new.symm, fun rate => tokens.trans (infinite rate)⟩
    · rw [if_neg other]
      exact dated.last i k b there
  · intro i k b found
    rcases dated.lookup_step on found with ⟨-, -, -, tokens⟩ | ⟨-, there⟩
    · exact tokens ▸ number
    · exact dated.number i k b there

/-- A limiter that is switched off stays as it is. -/
theorem run_off {rl : RateLimiter (Rounded rounding)} (off : rl.rate ≤ 0)
    (calls : List (Call (Rounded rounding))) : rl.run calls = rl := by
  induction calls with
  | nil => rfl
  | cons call calls ih =>
      have same : rl.step call = rl := by
        rw [step, allow, if_pos off]
      rw [run, List.foldl_cons, same, ← run, ih]

theorem dated_new (rateLimit rateLimitBurst : Option (Rounded rounding))
    (before : List (Call (Rounded rounding))) :
    (new rateLimit rateLimitBurst).Dated before where
  filed _ _ _ found := nomatch found
  last _ _ _ found := nomatch found
  number _ _ _ found := nomatch found

theorem Configured.run {rl : RateLimiter (Rounded rounding)} (configured : rl.Configured)
    (calls : List (Call (Rounded rounding))) : (rl.run calls).Configured where
  rate := by
    rw [run_rate]
    exact configured.rate
  burst := by
    rw [run_burst]
    exact configured.burst

/-- The run lemma. -/
theorem dated_run (rateLimit rateLimitBurst : Option (Rounded rounding))
    {calls : List (Call (Rounded rounding))} (finite : ∀ call ∈ calls, call.cost.Finite) :
    ((new rateLimit rateLimitBurst).run calls).Dated calls := by
  by_cases off : (new rateLimit rateLimitBurst).rate ≤ 0
  · rw [run_off off]
    exact dated_new rateLimit rateLimitBurst calls
  · induction calls using List.reverseRecOn with
    | nil => exact dated_new rateLimit rateLimitBurst []
    | append_singleton calls call ih =>
        obtain ⟨cost, paid⟩ := finite call (by simp)
        rw [run_concat]
        refine (ih fun c among => finite c (by simp [among])).step
          ((configured_new rateLimit rateLimitBurst).run calls) paid ?_
        rw [run_rate]
        exact off

/-! ## One call -/

/-- A bucket used at this reading is kept. -/
theorem lookup_retain_of_eq {F : Type} {now : UInt64} {m : Shard F} {k : UInt64} {b : Bucket F}
    (there : m.lookup k = some b) (same : b.lastMs = now) :
    (retain now m).lookup k = some b := by
  have kept : keeps now b = true := by
    rw [keeps, same, UInt64.sub_self]
    rfl
  rw [lookup_retain, there, Option.filter_some, kept, Bool.or_true]
  rfl

section Call

variable {rl : RateLimiter (Rounded rounding)} {before : List (Call (Rounded rounding))}
  (dated : rl.Dated before) (configured : rl.Configured) (call : Call (Rounded rounding))
include dated configured

theorem timely_of_tolerates (tolerates : rl.Tolerates call) : rl.Timely before call := by
  constructor
  · intro there last found
    obtain ⟨b, bucket⟩ := Option.ne_none_iff_exists'.mp there
    obtain ⟨last', same, date, -⟩ := dated.last _ _ b bucket
    cases found.symm.trans same
    rw [date]
    by_cases full : MAX_KEYS ≤ (rl.shards (shardIdx (ipKey call.ip))).entries.length
    · exact tolerates.retain_exact full _ b bucket
    · have unwrapped := tolerates.refill_exact
      rw [RateLimiter.bucket] at bucket
      rwa [entry, retain_of_lt (not_le.mp full), bucket] at unwrapped
  · intro full k there last found
    obtain ⟨b, bucket⟩ := Option.ne_none_iff_exists'.mp (Map.mem_iff_lookup.mp there)
    obtain ⟨last', same, date, -⟩ := dated.last _ _ b bucket
    cases found.symm.trans same
    rw [date]
    exact tolerates.retain_exact full k b bucket
  · intro infinite there last found now enough
    obtain ⟨b, bucket⟩ := Option.ne_none_iff_exists'.mp there
    obtain ⟨last', same, date, tokens⟩ := dated.last _ _ b bucket
    cases found.symm.trans same
    have added := tolerates.adds_nothing b bucket
      (by rw [← date, now]; exact UInt64.le_refl _)
    rwa [offered_infinite dated configured infinite, tokens infinite, left, if_pos enough]
      at added

theorem tolerates_of_timely (timely : rl.Timely before call) : rl.Tolerates call := by
  have own : ∀ b, rl.bucket (ipKey call.ip) = some b → b.lastMs ≤ call.now := by
    intro b found
    obtain ⟨last, same, date, -⟩ := dated.last _ _ b found
    rw [← date]
    exact timely.own (by simp [found]) last same
  have shard : MAX_KEYS ≤ (rl.shards (shardIdx (ipKey call.ip))).entries.length →
      ∀ k b, (rl.shards (shardIdx (ipKey call.ip))).lookup k = some b →
        b.lastMs ≤ call.now := by
    intro full k b found
    obtain ⟨last, same, date, -⟩ := dated.last _ _ b found
    rw [← date]
    exact timely.shard full k (Map.mem_iff_lookup.mpr (by simp [found])) last same
  constructor
  · rw [entry, lookup_retain]
    cases found : (rl.shards (shardIdx (ipKey call.ip))).lookup (ipKey call.ip) with
    | none => exact UInt64.le_refl _
    | some b =>
        rw [Option.filter_some]
        split
        · exact own b found
        · exact UInt64.le_refl _
  · exact shard
  · intro b found back
    have same : b.lastMs = call.now := UInt64.le_antisymm (own b found) back
    obtain ⟨last, there, date, tokens⟩ := dated.last _ _ b found
    have number := dated.number _ _ b found
    rcases configured.rate_cases with ⟨q, finite⟩ | infinite
    · rw [bucket] at found
      rw [offered, entry, lookup_retain_of_eq found same]
      exact refill_le_of_eq finite number same
    · rw [offered_infinite dated configured infinite, tokens infinite, left]
      split
      · exact timely.still infinite (by simp [found]) last there (date.trans same) ‹_›
      · exact Rounded.le_refl_of_ne configured.burst_ne_nan
  · intro k b found back
    by_cases full : MAX_KEYS ≤ (rl.shards (shardIdx (ipKey call.ip))).entries.length
    · exact lookup_retain_of_eq found (UInt64.le_antisymm (shard full k b found) back)
    · rw [retain_of_lt (not_le.mp full), found]

end Call

/-- In every run each call does as the clock says exactly when each is timely. -/
theorem clock_tolerated_iff (rateLimit rateLimitBurst : Option (Rounded rounding))
    {calls : List (Call (Rounded rounding))} (finite : ∀ call ∈ calls, call.cost.Finite) :
    (∀ before call after, calls = before ++ call :: after →
        ((new rateLimit rateLimitBurst).run before).Tolerates call) ↔
      ∀ before call after, calls = before ++ call :: after →
        ((new rateLimit rateLimitBurst).run before).Timely before call := by
  have dated : ∀ before call after, calls = before ++ call :: after →
      ((new rateLimit rateLimitBurst).run before).Dated before := fun before call after split =>
    dated_run rateLimit rateLimitBurst fun c among => finite c (by simp [split, among])
  have configured := fun before => (configured_new rateLimit rateLimitBurst).run before
  constructor
  · intro tolerated before call after split
    exact timely_of_tolerates (dated before call after split) (configured before) call
      (tolerated before call after split)
  · intro timely before call after split
    exact tolerates_of_timely (dated before call after split) (configured before) call
      (timely before call after split)

/-- At a finite rate a clock that does not step back is tolerated. -/
theorem timely_of_sorted {rl : RateLimiter (Rounded rounding)} {q : ℚ}
    (finite : rl.rate.value = real q) {calls : List (Call (Rounded rounding))}
    (clock : calls.Pairwise fun call call' => call.now ≤ call'.now)
    {before after : List (Call (Rounded rounding))} {call : Call (Rounded rounding)}
    (split : calls = before ++ call :: after) : (rl.run before).Timely before call := by
  have later : ∀ k last, lastCall before k = some last → last.now ≤ call.now := by
    intro k last found
    rw [split, List.pairwise_append] at clock
    exact clock.2.2 last (mem_of_lastCall found) call List.mem_cons_self
  constructor
  · exact fun _ => later _
  · exact fun _ k _ => later k
  · intro infinite
    rw [run_rate, finite] at infinite
    cases infinite

/-- A client calls twice within a millisecond and once more a second later. -/
def calm : List (Call (Rounded .exact)) :=
  [⟨1000, "a", 1⟩, ⟨1000, "a", 1⟩, ⟨2000, "a", 1⟩]

theorem clock_tolerated_calm :
    ((new (some 1) none).run calm).bucket (ipKey "a") = some ⟨0, 2000⟩ ∧
      ∀ before call after, calm = before ++ call :: after →
        ((new (some 1) none).run before).Tolerates call := by
  have finite : ∀ call ∈ calm, call.cost.Finite := by
    intro call among
    simp only [calm, List.mem_cons, List.not_mem_nil, or_false] at among
    rcases among with rfl | rfl | rfl <;> exact ⟨1, rfl⟩
  have clock : calm.Pairwise fun call call' => call.now ≤ call'.now := by
    simp [calm]
  have rate : (new (some (1 : Rounded .exact)) none).rate.value = real 1 := by
    decide +kernel
  have spent : ((new (some 1) none).run calm).bucket (ipKey "a") = some ⟨0, 2000⟩ := by
    decide +kernel
  exact ⟨spent, (clock_tolerated_iff (some 1) none finite).mpr fun before call after split =>
    timely_of_sorted rate clock split⟩

/-- A client that has spent its only token gets it back when the clock steps back
by a millisecond. -/
theorem step_back_refills :
    ¬ ∀ (rounding : Rounding) (rateLimit rateLimitBurst : Option (Rounded rounding))
      (calls : List (Call (Rounded rounding))), (∀ call ∈ calls, call.cost.Finite) →
        ∀ before call after, calls = before ++ call :: after →
          ((new rateLimit rateLimitBurst).run before).Tolerates call := by
  intro claim
  have tolerates := claim .exact (some 1) (some 1) [⟨1000, "a", 1⟩, ⟨999, "a", 1⟩]
    (by simpa using ⟨1, rfl⟩) [⟨1000, "a", 1⟩] ⟨999, "a", 1⟩ [] rfl
  have spent : ((new (some 1) (some 1)).step (⟨1000, "a", 1⟩ : Call (Rounded .exact))).bucket
      (ipKey "a") = some ⟨0, 1000⟩ := by
    decide +kernel
  have added := tolerates.adds_nothing ⟨0, 1000⟩ spent (by decide)
  have refilled : ¬ ((new (some 1) (some 1)).step
      (⟨1000, "a", 1⟩ : Call (Rounded .exact))).offered 999 "a" ≤ 0 := by
    decide +kernel
  exact refilled added

end RateLimiter

end Shrt.Limiter
