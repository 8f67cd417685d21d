import Mathlib.Data.List.Basic
import Mathlib.Data.List.Nodup
import Shrt.Limiter.Hash

/-!
# The memory of the limiter

A shard that is full drops the buckets that were idle for a minute, and then
takes in the client's own, whether there was one to drop or not.  So a shard
outgrows its bound exactly when a new client comes to a full shard in which
everyone was active of late.
-/

namespace Shrt.Limiter

open Shrt.Lib Shrt.Lib.Utf8

variable {F : Type}

namespace RateLimiter

/-- No shard holds more entries than it may. -/
def Bounded (rl : RateLimiter F) : Prop :=
  ∀ i, (rl.shards i).entries.length ≤ MAX_KEYS

/-- A new client comes to a full shard without an idle bucket. -/
structure Crowded [Zero F] [LE F] (rl : RateLimiter F) (call : Call F) : Prop where
  enabled : ¬ rl.rate ≤ 0
  full : MAX_KEYS ≤ (rl.shards (shardIdx (ipKey call.ip))).entries.length
  new : rl.bucket (ipKey call.ip) = none
  active : ∀ k b, (rl.shards (shardIdx (ipKey call.ip))).lookup k = some b →
    keeps call.now b = true

end RateLimiter

/-! ## Sizes -/

theorem length_retain_le (now : UInt64) (m : Shard F) :
    (retain now m).entries.length ≤ m.entries.length := by
  unfold retain
  split
  · exact Map.length_eraseAll_le m _
  · exact Nat.le_refl _

/-- Without an idle bucket nothing is dropped. -/
theorem retain_of_active {now : UInt64} {m : Shard F}
    (active : ∀ k b, m.lookup k = some b → keeps now b = true) : retain now m = m := by
  unfold retain
  split
  · have none_idle : (m.pairs.filter fun kb => !keeps now kb.2) = [] := by
      rw [List.filter_eq_nil_iff]
      rintro ⟨k, b⟩ member
      simp [active k b (Map.mem_pairs_iff.mp member)]
    rw [none_idle]
    rfl
  · rfl

/-- An idle bucket makes room. -/
theorem length_retain_lt {now : UInt64} {m : Shard F} (full : MAX_KEYS ≤ m.entries.length)
    {k : UInt64} {b : Bucket F} (there : m.lookup k = some b) (idle : keeps now b = false) :
    (retain now m).entries.length < m.entries.length := by
  rw [retain, if_pos full]
  have listed : k ∈ (m.pairs.filter fun kb => !keeps now kb.2).map Prod.fst :=
    List.mem_map.mpr
      ⟨(k, b), List.mem_filter.mpr ⟨Map.mem_pairs_iff.mpr there, by simp [idle]⟩, rfl⟩
  exact Map.length_eraseAll_lt listed (Map.mem_iff_lookup.mpr (by simp [there]))

namespace RateLimiter

section Store

variable (rl : RateLimiter F) (now : UInt64) (ip : String) (tokens : F)

theorem shards_store_same :
    (rl.store now ip tokens).shards (shardIdx (ipKey ip)) =
      (retain now (rl.shards (shardIdx (ipKey ip)))).insert (ipKey ip) ⟨tokens, now⟩ := by
  rw [store]
  exact Function.update_self ..

theorem shards_store_other {i : Nat} (other : i ≠ shardIdx (ipKey ip)) :
    (rl.store now ip tokens).shards i = rl.shards i := by
  rw [store]
  exact Function.update_of_ne other ..

end Store

variable [Zero F] [Add F] [Sub F] [Mul F] [Div F] [NatCast F] [OfNat F 1000] [Min F] [LE F]
  [DecidableLE F]

/-- A call adds at most one entry. -/
theorem length_step_le (rl : RateLimiter F) (call : Call F) (i : Nat) :
    ((rl.step call).shards i).entries.length ≤ (rl.shards i).entries.length + 1 := by
  rcases step_cases rl call with ⟨-, same⟩ | ⟨tokens, same, -⟩
  · rw [same]
    exact Nat.le_succ _
  · by_cases shard : i = shardIdx (ipKey call.ip)
    · have shrunk := length_retain_le call.now (rl.shards i)
      rw [same, shard, shards_store_same, ← shard, Map.length_insert]
      split <;> omega
    · rw [same, shards_store_other _ _ _ _ shard]
      exact Nat.le_succ _

/-- The step lemma: a call keeps the bound unless it is one too many. -/
theorem bounded_step_iff {rl : RateLimiter F} {call : Call F} (bounded : rl.Bounded) :
    (rl.step call).Bounded ↔ ¬ rl.Crowded call := by
  have room := bounded (shardIdx (ipKey call.ip))
  rcases step_cases rl call with ⟨off, same⟩ | ⟨tokens, same, on, -⟩
  · rw [same]
    exact ⟨fun _ crowded => crowded.enabled off, fun _ => bounded⟩
  · have others : (rl.step call).Bounded ↔
        ((retain call.now (rl.shards (shardIdx (ipKey call.ip)))).insert (ipKey call.ip)
          ⟨tokens, call.now⟩).entries.length ≤ MAX_KEYS := by
      rw [same]
      constructor
      · intro all
        have here := all (shardIdx (ipKey call.ip))
        rwa [shards_store_same] at here
      · intro here i
        by_cases shard : i = shardIdx (ipKey call.ip)
        · rwa [shard, shards_store_same]
        · rw [shards_store_other _ _ _ _ shard]
          exact bounded i
    rw [others, Map.length_insert]
    constructor
    · rintro small ⟨-, full, new, active⟩
      have absent : ipKey call.ip ∉ rl.shards (shardIdx (ipKey call.ip)) :=
        Map.not_mem_iff_lookup.mpr new
      rw [retain_of_active active, if_neg absent] at small
      exact absurd small (not_le.mpr (Nat.lt_succ_of_le full))
    · intro spare
      have shrunk := length_retain_le call.now (rl.shards (shardIdx (ipKey call.ip)))
      split
      · exact shrunk.trans room
      · rename_i absent
        -- either the shard was not full, or something idle was dropped
        by_contra excess
        have kept : (retain call.now (rl.shards (shardIdx (ipKey call.ip)))).entries.length =
            (rl.shards (shardIdx (ipKey call.ip))).entries.length := by omega
        have full : MAX_KEYS ≤ (rl.shards (shardIdx (ipKey call.ip))).entries.length := by omega
        have active : ∀ k b, (rl.shards (shardIdx (ipKey call.ip))).lookup k = some b →
            keeps call.now b = true := by
          intro k b there
          by_contra idle
          rw [Bool.not_eq_true] at idle
          exact absurd kept (Nat.ne_of_lt (length_retain_lt full there idle))
        rw [retain_of_active active] at absent
        exact spare ⟨on, full, Map.not_mem_iff_lookup.mp absent, active⟩

/-- Newcomers to one shard within a millisecond all get a bucket of their own. -/
theorem length_run_newcomers (rl : RateLimiter F) (on : ¬ rl.rate ≤ 0) (now : UInt64) (i : Nat)
    (active : ∀ k b, (rl.shards i).lookup k = some b → b.lastMs = now) (calls : List (Call F))
    (here : ∀ call ∈ calls, call.now = now ∧ shardIdx (ipKey call.ip) = i)
    (new : ∀ call ∈ calls, ipKey call.ip ∉ rl.shards i)
    (distinct : (calls.map fun call => ipKey call.ip).Nodup) :
    ((rl.run calls).shards i).entries.length =
      (rl.shards i).entries.length + calls.length := by
  induction calls generalizing rl with
  | nil => rfl
  | cons call calls ih =>
      obtain ⟨rfl, shard⟩ := here call List.mem_cons_self
      rw [List.map_cons, List.nodup_cons] at distinct
      obtain ⟨apart, distinct⟩ := distinct
      have kept : retain call.now (rl.shards i) = rl.shards i := by
        apply retain_of_active
        intro k b found
        rw [keeps, active k b found, UInt64.sub_self]
        rfl
      obtain ⟨tokens, next⟩ : ∃ tokens, (rl.step call).shards i =
          (rl.shards i).insert (ipKey call.ip) ⟨tokens, call.now⟩ := by
        rcases step_cases rl call with ⟨off, -⟩ | ⟨tokens, same, -⟩
        · exact absurd off on
        · refine ⟨tokens, ?_⟩
          rw [same, ← shard, shards_store_same, shard, kept]
      have rest := ih (rl.step call) (by rwa [step_rate])
        (by
          intro k b found
          rw [next, Map.lookup_insert_eq] at found
          split at found
          · cases found
            rfl
          · exact active k b found)
        (fun c among => here c (List.mem_cons_of_mem _ among))
        (by
          intro c among
          rw [next, AList.mem_insert]
          rintro (same | there)
          · exact apart (List.mem_map.mpr ⟨c, among, same⟩)
          · exact new c (List.mem_cons_of_mem _ among) there)
        distinct
      rw [run, List.foldl_cons, ← run, rest, next, Map.length_insert,
        if_neg (new call List.mem_cons_self), List.length_cons]
      omega

/-- The clients of one shard are newcomers to a limiter that starts. -/
theorem length_run_clients {rate : F} (on : ¬ rate ≤ 0) (burst tokens : F) {ns : List Nat}
    (distinct : ns.Nodup) (small : ∀ n ∈ ns, n < 5056) :
    (((fresh rate burst).run (ns.map fun n => ⟨0, client n, tokens⟩)).shards 0).entries.length =
      ns.length := by
  rw [length_run_newcomers (fresh rate burst) on 0 0]
  · rw [List.length_map]
    exact Nat.zero_add _
  · intro k b found
    cases found
  · intro call among
    obtain ⟨n, -, rfl⟩ := List.mem_map.mp among
    exact ⟨rfl, shardIdx_client n⟩
  · intro call _ there
    cases there
  · simp only [List.map_map, Function.comp_def]
    exact nodup_clients distinct small

omit [Zero F] [Add F] [Sub F] [Mul F] [Div F] [NatCast F] [OfNat F 1000] [Min F] [LE F]
  [DecidableLE F] in
theorem bounded_fresh (rate burst : F) : (fresh rate burst).Bounded :=
  fun _ => Nat.zero_le _

/-- The run lemma: the bound holds throughout a run exactly when no call finds a
full shard of active clients. -/
theorem memory_bounded_iff (rate burst : F) (calls : List (Call F)) :
    (∀ n, ((fresh rate burst).run (calls.take n)).Bounded) ↔
      Runs.Along step (fun rl call => ¬ rl.Crowded call) (fresh rate burst) calls := by
  have start := bounded_fresh rate burst
  generalize fresh rate burst = rl at start
  induction calls generalizing rl with
  | nil => exact ⟨fun _ => trivial, fun _ n => by rwa [List.take_nil]⟩
  | cons call calls ih =>
      constructor
      · intro throughout
        have next : (rl.step call).Bounded := throughout 1
        exact ⟨(bounded_step_iff start).mp next,
          (ih (rl.step call) next).mp fun n => throughout (n + 1)⟩
      · rintro ⟨spare, later⟩ n
        have next := (bounded_step_iff start).mpr spare
        cases n with
        | zero => exact start
        | succ n => exact (ih (rl.step call) next).mpr later n

/-- One more client than a shard may hold, all within a millisecond. -/
def crowd : List (Call ℚ) :=
  (List.range (MAX_KEYS + 1)).map fun n => ⟨0, client n, 1⟩

theorem crowd_not_bounded :
    ¬ ∀ (rate burst : ℚ) (calls : List (Call ℚ)),
      (calls.Pairwise fun call call' => call.now ≤ call'.now) →
        ∀ n, ((fresh rate burst).run (calls.take n)).Bounded := by
  intro claim
  have clock : crowd.Pairwise fun call call' => call.now ≤ call'.now := by
    rw [crowd, List.pairwise_map]
    exact List.pairwise_of_forall fun _ _ => UInt64.le_refl _
  have on : ¬ (1 : ℚ) ≤ 0 := not_le.mpr one_pos
  have sized : (((fresh 1 1).run crowd).shards 0).entries.length = MAX_KEYS + 1 := by
    rw [crowd, length_run_clients on 1 1 List.nodup_range, List.length_range]
    intro n among
    rw [List.mem_range, MAX_KEYS] at among
    omega
  have excess := claim 1 1 crowd clock crowd.length 0
  rw [List.take_length, sized] at excess
  omega

end RateLimiter

end Shrt.Limiter
