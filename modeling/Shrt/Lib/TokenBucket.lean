import Mathlib.Algebra.Order.Field.Basic
import Mathlib.Tactic.Linarith

/-!
# Token buckets

A bucket gains tokens at a fixed rate up to a bound and pays for requests, each
at its own cost, when it holds enough.  Whatever is asked and in whatever
pattern, what a bucket pays within a window is at most its bound and what it
gains in that time.
-/

namespace Shrt.Lib.TokenBucket

variable {K : Type*} [Field K] [LinearOrder K]

structure Limit (K : Type*) where
  rate : K
  burst : K

/-- The tokens of a bucket at the time of its last request. -/
structure Bucket (K : Type*) where
  tokens : K
  last : K

structure Request (K : Type*) where
  time : K
  cost : K

variable (p : Limit K)

def level (b : Bucket K) (t : K) : K :=
  min (b.tokens + (t - b.last) * p.rate) p.burst

/-- A bucket that is not there yet is opened full. -/
def opened (b : Option (Bucket K)) (t : K) : Bucket K :=
  b.getD ⟨p.burst, t⟩

def offered (b : Option (Bucket K)) (t : K) : K :=
  level p (opened p b t) t

/-- One request: whether it is paid, and the bucket behind it. -/
def serve (b : Option (Bucket K)) (r : Request K) : Bool × Bucket K :=
  if r.cost ≤ offered p b r.time then (true, ⟨offered p b r.time - r.cost, r.time⟩)
  else (false, ⟨offered p b r.time, r.time⟩)

/-- The costs of the requests paid from `t1` to `t2`. -/
def spent (t1 t2 : K) : Option (Bucket K) → List (Request K) → K
  | _, [] => 0
  | b, r :: rs =>
      (if t1 ≤ r.time ∧ r.time ≤ t2 ∧ (serve p b r).1 then r.cost else 0) +
        spent t1 t2 (some (serve p b r).2) rs

/-- Requests in the order of their times, none before `t`. -/
def InOrder (t : K) (rs : List (Request K)) : Prop :=
  (∀ r ∈ rs, t ≤ r.time) ∧ rs.Pairwise fun r r' => r.time ≤ r'.time

variable {p}

/-- The bucket is neither overdrawn nor overfull. -/
structure Within (p : Limit K) (b : Bucket K) : Prop where
  nonneg : 0 ≤ b.tokens
  le_burst : b.tokens ≤ p.burst

theorem offered_le_burst (b : Option (Bucket K)) (t : K) : offered p b t ≤ p.burst :=
  min_le_right _ _

@[simp] theorem serve_last (b : Option (Bucket K)) (r : Request K) :
    (serve p b r).2.last = r.time := by
  unfold serve
  split
  · rfl
  · rfl

/-- What was paid for and what is left were there before. -/
theorem paid_add_tokens (b : Option (Bucket K)) (r : Request K) :
    (if (serve p b r).1 then r.cost else 0) + (serve p b r).2.tokens = offered p b r.time := by
  unfold serve
  split
  · simp
  · simp

/-- The first request opens the bucket. -/
theorem spent_none (t1 t2 : K) (r : Request K) (rs : List (Request K)) :
    spent p t1 t2 none (r :: rs) = spent p t1 t2 (some ⟨p.burst, r.time⟩) (r :: rs) :=
  rfl

/-- Nothing is paid in a window that is over. -/
theorem spent_late {t1 t2 : K} {rs : List (Request K)} (late : ∀ r ∈ rs, t2 < r.time)
    (b : Option (Bucket K)) : spent p t1 t2 b rs = 0 := by
  induction rs generalizing b with
  | nil => rfl
  | cons r rs ih =>
      have uncounted : ¬ (t1 ≤ r.time ∧ r.time ≤ t2 ∧ (serve p b r).1 = true) :=
        fun inside => absurd inside.2.1 (not_le.mpr (late r List.mem_cons_self))
      rw [spent, if_neg uncounted, ih fun r' among => late r' (List.mem_cons_of_mem _ among),
        add_zero]

variable [IsStrictOrderedRing K]

theorem Within.level_nonneg {b : Bucket K} (within : Within p b) (rate : 0 ≤ p.rate) {t : K}
    (later : b.last ≤ t) : 0 ≤ level p b t := by
  have gained : 0 ≤ (t - b.last) * p.rate := mul_nonneg (sub_nonneg.mpr later) rate
  refine le_min ?_ (within.nonneg.trans within.le_burst)
  linarith [within.nonneg]

/-- A bucket gains at most at its rate. -/
theorem level_le (b : Bucket K) {s t : K} (rate : 0 ≤ p.rate) (later : s ≤ t) :
    level p b t ≤ level p b s + (t - s) * p.rate := by
  have gained : 0 ≤ (t - s) * p.rate := mul_nonneg (sub_nonneg.mpr later) rate
  rw [level, level, ← min_add_add_right]
  refine min_le_min ?_ ?_
  · linarith
  · linarith

theorem offered_nonneg {b : Option (Bucket K)} (bound : 0 ≤ p.burst) (rate : 0 ≤ p.rate)
    (within : ∀ a ∈ b, Within p a) {t : K} (later : ∀ a ∈ b, a.last ≤ t) : 0 ≤ offered p b t := by
  cases b with
  | none =>
      have new : Within p ⟨p.burst, t⟩ := ⟨bound, le_rfl⟩
      exact new.level_nonneg rate le_rfl
  | some a => exact (within a rfl).level_nonneg rate (later a rfl)

/-- The step lemma. -/
theorem within_serve {b : Option (Bucket K)} {r : Request K} (bound : 0 ≤ p.burst)
    (rate : 0 ≤ p.rate) (within : ∀ a ∈ b, Within p a) (later : ∀ a ∈ b, a.last ≤ r.time)
    (cost : 0 ≤ r.cost) : Within p (serve p b r).2 := by
  have full := offered_le_burst (p := p) b r.time
  unfold serve
  split
  · rename_i paid
    exact ⟨sub_nonneg.mpr paid, (sub_le_self _ cost).trans full⟩
  · exact ⟨offered_nonneg bound rate within later, full⟩

/-! ## Windows -/

/-- What a bucket can pay until `t2`, counted from `t1` on. -/
def budget (p : Limit K) (t1 t2 : K) (b : Bucket K) : K :=
  level p b (max t1 b.last) + (t2 - max t1 b.last) * p.rate

theorem budget_nonneg {t1 t2 : K} {b : Bucket K} (within : Within p b) (rate : 0 ≤ p.rate)
    (window : t1 ≤ t2) (started : b.last ≤ t2) : 0 ≤ budget p t1 t2 b := by
  have held := within.level_nonneg rate (le_max_right t1 b.last)
  have gained : 0 ≤ (t2 - max t1 b.last) * p.rate :=
    mul_nonneg (sub_nonneg.mpr (max_le window started)) rate
  exact add_nonneg held gained

theorem budget_le (t1 t2 : K) (b : Bucket K) (rate : 0 ≤ p.rate) :
    budget p t1 t2 b ≤ p.burst + (t2 - t1) * p.rate := by
  have held : level p b (max t1 b.last) ≤ p.burst := min_le_right _ _
  have gained : (t2 - max t1 b.last) * p.rate ≤ (t2 - t1) * p.rate :=
    mul_le_mul_of_nonneg_right (sub_le_sub_left (le_max_left t1 b.last) t2) rate
  exact add_le_add held gained

/-- What is paid in the window comes out of the budget. -/
theorem paid_add_budget_le {t1 t2 : K} {b : Bucket K} {r : Request K} (rate : 0 ≤ p.rate)
    (later : b.last ≤ r.time) (cost : 0 ≤ r.cost) :
    (if t1 ≤ r.time ∧ r.time ≤ t2 ∧ (serve p (some b) r).1 then r.cost else 0) +
      budget p t1 t2 (serve p (some b) r).2 ≤ budget p t1 t2 b := by
  have balance : (if (serve p (some b) r).1 then r.cost else 0) + (serve p (some b) r).2.tokens =
      level p b r.time := paid_add_tokens (some b) r
  have paid : 0 ≤ if (serve p (some b) r).1 then r.cost else 0 := by
    split
    · exact cost
    · exact le_rfl
  rw [budget, budget, serve_last]
  rcases le_or_gt t1 r.time with inside | before
  · have counted : (if t1 ≤ r.time ∧ r.time ≤ t2 ∧ (serve p (some b) r).1 then r.cost else 0) ≤
        if (serve p (some b) r).1 then r.cost else 0 := by
      split
      · rename_i all
        rw [if_pos all.2.2]
      · exact paid
    have left : level p (serve p (some b) r).2 r.time ≤ (serve p (some b) r).2.tokens := by
      refine (min_le_left _ _).trans ?_
      rw [serve_last, sub_self, zero_mul, add_zero]
    have gained := level_le b rate (max_le inside later)
    rw [max_eq_right inside]
    linarith
  · have outside : ¬ (t1 ≤ r.time ∧ r.time ≤ t2 ∧ (serve p (some b) r).1 = true) :=
      fun all => absurd all.1 (not_le.mpr before)
    have left : (serve p (some b) r).2.tokens ≤ b.tokens + (r.time - b.last) * p.rate := by
      have held : level p b r.time ≤ b.tokens + (r.time - b.last) * p.rate := min_le_left _ _
      linarith
    rw [if_neg outside, zero_add, max_eq_left before.le, max_eq_left (later.trans before.le)]
    refine add_le_add_left (min_le_min ?_ le_rfl) _
    rw [serve_last]
    linarith

/-- The run lemma: requests that come in order. -/
theorem spent_le_budget {t1 t2 : K} {b : Bucket K} {rs : List (Request K)} (rate : 0 ≤ p.rate)
    (bound : 0 ≤ p.burst) (within : Within p b) (window : t1 ≤ t2) (started : b.last ≤ t2)
    (ordered : InOrder b.last rs) (costs : ∀ r ∈ rs, 0 ≤ r.cost) :
    spent p t1 t2 (some b) rs ≤ budget p t1 t2 b := by
  induction rs generalizing b with
  | nil => exact budget_nonneg within rate window started
  | cons r rs ih =>
      obtain ⟨later, sorted⟩ := ordered
      obtain ⟨behind, sorted⟩ := List.pairwise_cons.mp sorted
      have here := later r List.mem_cons_self
      have cost := costs r List.mem_cons_self
      rcases le_or_gt r.time t2 with inside | late
      · have next : Within p (serve p (some b) r).2 :=
          within_serve bound rate (by simpa using within) (by simpa using here) cost
        have rest := ih next (by rwa [serve_last]) ⟨by rwa [serve_last], sorted⟩
          fun r' among => costs r' (List.mem_cons_of_mem _ among)
        calc spent p t1 t2 (some b) (r :: rs)
            ≤ _ + budget p t1 t2 (serve p (some b) r).2 := add_le_add_right rest _
          _ ≤ budget p t1 t2 b := paid_add_budget_le rate here cost
      · have behind : ∀ r' ∈ r :: rs, t2 < r'.time := by
          intro r' among
          rcases List.mem_cons.mp among with rfl | among
          · exact late
          · exact late.trans_le (behind r' among)
        rw [spent_late behind]
        exact budget_nonneg within rate window started

/-- Within any window a bucket pays at most its bound and what it gains. -/
theorem spent_le {t1 t2 : K} {rs : List (Request K)} (rate : 0 ≤ p.rate) (bound : 0 ≤ p.burst)
    (window : t1 ≤ t2) (sorted : rs.Pairwise fun r r' => r.time ≤ r'.time)
    (costs : ∀ r ∈ rs, 0 ≤ r.cost) :
    spent p t1 t2 none rs ≤ p.burst + (t2 - t1) * p.rate := by
  have gained : 0 ≤ (t2 - t1) * p.rate := mul_nonneg (sub_nonneg.mpr window) rate
  cases rs with
  | nil => exact add_nonneg bound gained
  | cons r rs =>
      have behind := (List.pairwise_cons.mp sorted).1
      have first : ∀ r' ∈ r :: rs, r.time ≤ r'.time := by
        intro r' among
        rcases List.mem_cons.mp among with rfl | among
        · exact le_rfl
        · exact behind r' among
      rw [spent_none]
      rcases le_or_gt r.time t2 with inside | late
      · exact (spent_le_budget rate bound ⟨bound, le_rfl⟩ window inside ⟨first, sorted⟩ costs).trans
          (budget_le t1 t2 _ rate)
      · rw [spent_late fun r' among => late.trans_le (first r' among)]
        exact add_nonneg bound gained

end Shrt.Lib.TokenBucket
