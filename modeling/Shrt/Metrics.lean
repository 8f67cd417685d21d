import Mathlib.Algebra.GroupWithZero.Nat
import Mathlib.Data.List.Basic
import Shrt.Lib.SlotRing

/-!
# Request metrics

Requests are counted by the second in a ring of sixty slots.  A second is found in
its slot by the remainder of its number, taken as an unsigned one: the numbers of
the seconds before the epoch wrap, and sixteen of them fall on the slots of the
first sixteen seconds after it.
-/

namespace Shrt

open Shrt.Lib

structure Metrics where
  buckets : Nat → Int64
  cur : Int
  total : Int64
  started : Int64

/-- What `snapshot` reports.  `last5` is what the rate is rounded from. -/
structure Snapshot where
  last5 : Int64
  total : Int64
  uptimeS : Int64
  perSecond : List Int64
  deriving DecidableEq, Repr

namespace Metrics

def N : Nat := 60

/-- The second of a reading of the clock in milliseconds; the quotient is small, and
no sum of seconds overflows. -/
def second (ms : Int64) : Int :=
  (ms / 1000).toInt

/-- `(t as usize) % N`: a negative number wraps at `2 ^ 64`. -/
def slot (t : Int) : Nat :=
  (t % 18446744073709551616).toNat % N

/-- Before `init`. -/
def zero : Metrics :=
  ⟨fun _ => 0, 0, 0, 0⟩

def init (m : Metrics) (ms : Int64) : Metrics :=
  { m with started := ms, cur := second ms }

/-- `fetch_add(1)`, which wraps. -/
def up (n : Int64) : Int64 :=
  n + 1

def exchange (m : Metrics) (c s : Int) : Bool × Metrics :=
  if m.cur = c then (true, { m with cur := s }) else (false, m)

def tickFrom (c : Int) (m : Metrics) (s : Int) : Metrics :=
  let add := fun (m : Metrics) (sec : Int) =>
    { m with buckets := SlotRing.count slot up m.buckets sec }
  if s ≠ c then
    let swapped := m.exchange c s
    if swapped.1 then
      let m := swapped.2
      add { m with buckets := SlotRing.clear slot 0 m.buckets (c + 1) (s - c).toNat } s
    else add swapped.2 swapped.2.cur
  else add m s

def tick (m : Metrics) (ms : Int64) : Metrics :=
  let m := { m with total := up m.total }
  tickFrom m.cur m (second ms)

def run (m : Metrics) (ticks : List Int64) : Metrics :=
  ticks.foldl tick m

/-- The entry of a second: the last thirty seconds and the running one. -/
def entry (m : Metrics) (s : Int) (i : Nat) : Int64 :=
  let t := s - 30 + i
  if t ≤ m.cur ∧ m.cur - t < N then m.buckets (slot t) else 0

/-- `snapshot`, with its two readings of the clock. -/
def snapshot (m : Metrics) (ms later : Int64) : Snapshot :=
  let window := (List.range 31).map (m.entry (second ms))
  { last5 := ((window.drop 25).take 5).foldl (· + ·) 0
    total := m.total
    uptimeS := (later - m.started) / 1000
    perSecond := window }

/-! ## Slots -/

/-- The numbers of seconds are far from the bounds of 64 bits. -/
def InRange (t : Int) : Prop :=
  -9223372036854775808 ≤ t ∧ t < 9223372036854775808

theorem slot_of_nonneg {t : Int} (range : InRange t) (nonneg : 0 ≤ t) :
    (slot t : Int) = t % 60 := by
  have high := range.2
  have kept : t % 18446744073709551616 = t := Int.emod_eq_of_lt nonneg (by omega)
  rw [slot, N, kept]
  omega

theorem slot_of_neg {t : Int} (range : InRange t) (neg : t < 0) :
    (slot t : Int) = (t + 16) % 60 := by
  have low := range.1
  have wrapped : t % 18446744073709551616 = t + 18446744073709551616 := by
    rw [← Int.add_emod_right]
    exact Int.emod_eq_of_lt (by omega) (by omega)
  rw [slot, N, wrapped]
  omega

/-- Within half a minute only one second shares its slot with a later one: one before
the epoch with the one sixteen seconds later, after the epoch. -/
theorem eq_or_wrapped {t l : Int} (range : InRange t) (range' : InRange l) (after : t ≤ l)
    (near : l ≤ t + 30) (same : slot l = slot t) : l = t ∨ t < 0 ∧ 0 ≤ l ∧ l = t + 16 := by
  have equal : (slot l : Int) = slot t := congrArg Nat.cast same
  rcases Int.lt_or_le t 0 with before | since
  · rw [slot_of_neg range before] at equal
    rcases Int.lt_or_le l 0 with before' | since'
    · rw [slot_of_neg range' before'] at equal
      omega
    · rw [slot_of_nonneg range' since'] at equal
      omega
  · rw [slot_of_nonneg range since, slot_of_nonneg range' (since.trans after)] at equal
    omega

theorem slot_wrapped {t : Int} (range : InRange t) (neg : t < 0) (since : 0 ≤ t + 16) :
    slot (t + 16) = slot t := by
  have range' : InRange (t + 16) := ⟨by omega, by omega⟩
  have equal : (slot (t + 16) : Int) = slot t := by
    rw [slot_of_neg range neg, slot_of_nonneg range' since]
  exact Int.ofNat.inj equal

/-! ## Ticks -/

theorem tick_eq (m : Metrics) (ms : Int64) :
    m.tick ms =
      { m with
        total := up m.total
        cur := second ms
        buckets := SlotRing.count slot up
          (SlotRing.clear slot 0 m.buckets (m.cur + 1) (second ms - m.cur).toNat) (second ms) } := by
  obtain ⟨buckets, cur, total, started⟩ := m
  by_cases same : second ms = cur
  · simp [tick, tickFrom, same, SlotRing.clear]
  · simp [tick, tickFrom, same, exchange]

/-! ## Runs -/

theorem second_eq (ms : Int64) : second ms = ms.toInt.tdiv 1000 :=
  Int64.toInt_div_of_ne_right ms 1000 (by decide)

theorem second_mono {ms ms' : Int64} (later : ms ≤ ms') : second ms ≤ second ms' := by
  rw [second_eq, second_eq]
  exact Int.tdiv_le_tdiv (by decide) (Int64.le_iff_toInt_le.mp later)

theorem second_bounds (ms : Int64) :
    -9223372036854775 ≤ second ms ∧ second ms ≤ 9223372036854775 := by
  have low := Int.tdiv_le_tdiv (c := 1000) (by decide) ms.le_toInt
  have high := Int.tdiv_le_tdiv (c := 1000) (by decide) (Int.le_sub_one_of_lt ms.toInt_lt)
  rw [second_eq]
  exact ⟨low, high⟩

/-- The step lemma. -/
theorem exact_tick {m : Metrics} {events : List Int}
    (before : SlotRing.Exact slot 0 up m.cur m.buckets events) {ms : Int64}
    (later : m.cur ≤ second ms) :
    SlotRing.Exact slot 0 up (m.tick ms).cur (m.tick ms).buckets (events ++ [second ms]) := by
  rw [tick_eq]
  exact (before.clear later).count

theorem run_concat (m : Metrics) (ticks : List Int64) (ms : Int64) :
    m.run (ticks ++ [ms]) = (m.run ticks).tick ms :=
  List.foldl_concat ..

/-- The run lemma.  The first tick may come before the starting second: until then
there is nothing to clear. -/
theorem exact_run (start : Int64) {ticks : List Int64} (sorted : ticks.Pairwise (· ≤ ·)) :
    SlotRing.Exact slot 0 up ((zero.init start).run ticks).cur
      ((zero.init start).run ticks).buckets (ticks.map second) := by
  induction ticks using List.reverseRecOn with
  | nil => exact SlotRing.exact_zero _
  | append_singleton ticks ms ih =>
      obtain ⟨sorted, -, inOrder⟩ := List.pairwise_append.mp sorted
      rw [run_concat, List.map_append, List.map_singleton]
      rcases List.eq_nil_or_concat ticks with rfl | ⟨earlier, last, rfl⟩
      · rw [tick_eq]
        have nothing : SlotRing.clear slot (0 : Int64) (fun _ => 0) (second start + 1)
            (second ms - second start).toNat = fun _ => 0 := by
          funext j
          rw [SlotRing.clear_eq, ite_self]
        show SlotRing.Exact slot 0 up (second ms) (SlotRing.count slot up
          (SlotRing.clear slot 0 (fun _ => 0) (second start + 1)
            (second ms - second start).toNat) (second ms)) _
        rw [nothing]
        exact (SlotRing.exact_zero _).count
      · refine exact_tick (ih sorted) ?_
        rw [List.concat_eq_append, run_concat, tick_eq]
        exact second_mono (inOrder last (by simp) ms List.mem_cons_self)

/-! ## The window -/

/-- How many ticks there were in a second. -/
def ticksAt (ticks : List Int64) (t : Int) : Nat :=
  ticks.countP fun ms => second ms = t

theorem count_map_second (ticks : List Int64) (t : Int) :
    (ticks.map second).count t = ticksAt ticks t := by
  rw [List.count, List.countP_map, ticksAt]
  refine List.countP_congr fun ms _ => ?_
  simp

/-- The window is shorter than the ring. -/
theorem entry_eq {m : Metrics} {s : Int} {i : Nat} (later : m.cur ≤ s) :
    m.entry s i = if s - 30 + i ≤ m.cur then m.buckets (slot (s - 30 + i)) else 0 := by
  have near : m.cur - (s - 30 + i) < N := by
    rw [N]
    omega
  rw [entry]
  simp only [near, and_true]

theorem iterate_up (n : Nat) : Nat.iterate up n 0 = Int64.ofNat n := by
  induction n with
  | zero => rfl
  | succ n ih =>
      rw [Function.iterate_succ_apply', ih, up, Int64.ofNat_add]
      rfl

/-- A slot holds the ticks of the latest second that it serves. -/
theorem exists_ticksAt {m : Metrics} {ticks : List Int64}
    (exact_now : SlotRing.Exact slot 0 up m.cur m.buckets (ticks.map second)) {t : Int}
    (past : t ≤ m.cur) :
    ∃ l, t ≤ l ∧ l ≤ m.cur ∧ slot l = slot t ∧
      m.buckets (slot t) = Int64.ofNat (ticksAt ticks l) := by
  obtain ⟨l, after, within, same, counted⟩ := exact_now.exists_count past
  rw [count_map_second, iterate_up] at counted
  exact ⟨l, after, within, same, counted⟩

/-- A counter of 64 bits tells a number that is below the half of its range. -/
theorem toInt_ofNat_eq_iff (n : Nat) : (Int64.ofNat n).toInt = n ↔ n < 2 ^ 63 := by
  constructor
  · intro told
    have bound := (Int64.ofNat n).toInt_lt
    omega
  · exact Int64.toInt_ofNat_of_lt

/-- The seconds of the first sixteen of the epoch that the window shows a second time,
sixteen entries earlier. -/
structure Doubled (ticks : List Int64) (s r : Int) : Prop where
  first : 0 ≤ r ∧ r < 16
  shown : s - 14 ≤ r
  reached : ∃ τ ∈ ticks, r ≤ second τ

/-- No second of the window had more ticks than a counter tells. -/
def Countable (ticks : List Int64) (s : Int) : Prop :=
  ∀ i : Nat, i < 31 → ticksAt ticks (s - 30 + i) < 2 ^ 63

section Window

variable {m : Metrics} {ticks : List Int64} {ms : Int64}
  (exact_now : SlotRing.Exact slot 0 up m.cur m.buckets (ticks.map second))
  (later : m.cur ≤ second ms)
include exact_now later

/-- The entry of the second before the epoch reads the slot of `r`. -/
theorem even_of_shown
    (shown : ∀ i < 31, (m.entry (second ms) i).toInt = ticksAt ticks (second ms - 30 + i))
    (countable : Countable ticks (second ms)) {r : Int} (first : 0 ≤ r ∧ r < 16)
    (late : second ms - 14 ≤ r) (before : r ≤ m.cur) : ticksAt ticks r = ticksAt ticks (r - 16) := by
  obtain ⟨low, high⟩ := second_bounds ms
  obtain ⟨i, place⟩ : ∃ i : Nat, second ms - 30 + i = r - 16 :=
    ⟨(r + 14 - second ms).toNat, by omega⟩
  have entry := shown i (by omega)
  have wrapped := slot_wrapped (t := r - 16) ⟨by omega, by omega⟩ (by omega) (by omega)
  rw [Int.sub_add_cancel] at wrapped
  rw [entry_eq later, place, if_pos (by omega), ← wrapped] at entry
  obtain ⟨l, after, within, same, held⟩ := exists_ticksAt exact_now before
  rcases eq_or_wrapped ⟨by omega, by omega⟩ ⟨by omega, by omega⟩ after (by omega) same with
    rfl | ⟨negative, -⟩
  · obtain ⟨k, here⟩ : ∃ k : Nat, second ms - 30 + k = l :=
      ⟨(l + 30 - second ms).toNat, by omega⟩
    have few := countable k (by omega)
    rw [here] at few
    rw [held, (toInt_ofNat_eq_iff _).mpr few] at entry
    exact_mod_cast entry
  · omega

theorem entry_of_even (countable : Countable ticks (second ms))
    (even : ∀ r, 0 ≤ r ∧ r < 16 → second ms - 14 ≤ r → r ≤ m.cur →
      ticksAt ticks r = ticksAt ticks (r - 16)) {i : Nat} (inside : i < 31) :
    (m.entry (second ms) i).toInt = ticksAt ticks (second ms - 30 + i) := by
  obtain ⟨low, high⟩ := second_bounds ms
  rw [entry_eq later]
  split
  · rename_i past
    have told := (toInt_ofNat_eq_iff _).mpr (countable i inside)
    obtain ⟨l, after, within, same, held⟩ := exists_ticksAt exact_now past
    rw [held]
    rcases eq_or_wrapped ⟨by omega, by omega⟩ ⟨by omega, by omega⟩ after (by omega) same with
      rfl | ⟨before, since, rfl⟩
    · exact told
    · rw [even _ ⟨since, by omega⟩ (by omega) within, Int.add_sub_cancel]
      exact told
  · rename_i ahead
    have none_yet : ticksAt ticks (second ms - 30 + i) = 0 := by
      rw [← count_map_second, List.count_eq_zero]
      exact fun among => ahead (exact_now.past _ among)
    rw [none_yet]
    rfl

theorem window_iff (last : ∃ τ ∈ ticks, second τ = m.cur) :
    (∀ i < 31, (m.entry (second ms) i).toInt = ticksAt ticks (second ms - 30 + i)) ↔
      Countable ticks (second ms) ∧
        ∀ r, Doubled ticks (second ms) r → ticksAt ticks r = ticksAt ticks (r - 16) := by
  have reached : ∀ r, (∃ τ ∈ ticks, r ≤ second τ) ↔ r ≤ m.cur := by
    intro r
    constructor
    · rintro ⟨τ, among, before⟩
      exact before.trans (exact_now.past _ (List.mem_map_of_mem among))
    · intro before
      obtain ⟨τ, among, same⟩ := last
      exact ⟨τ, among, same ▸ before⟩
  constructor
  · intro shown
    have countable : Countable ticks (second ms) := by
      intro i inside
      have bound := (m.entry (second ms) i).toInt_lt
      rw [shown i inside] at bound
      omega
    exact ⟨countable, fun r doubled => even_of_shown exact_now later shown countable doubled.first
      doubled.shown ((reached r).mp doubled.reached)⟩
  · rintro ⟨countable, even⟩ i inside
    exact entry_of_even exact_now later countable
      (fun r first late before => even r ⟨first, late, (reached r).mpr before⟩) inside

end Window

/-- In every run the window shows the ticks of each of its seconds exactly when a counter can
tell their numbers, and no second is shown a second time unless it had as many ticks as the
one sixteen seconds before. -/
theorem window_exact_iff (start : Int64) {ticks : List Int64} (sorted : ticks.Pairwise (· ≤ ·))
    {ms : Int64} (later : ∀ τ ∈ ticks, second τ ≤ second ms) (ms' : Int64) :
    (((zero.init start).run ticks).snapshot ms ms').perSecond.map Int64.toInt =
        (List.range 31).map (fun k : Nat => (ticksAt ticks (second ms - 30 + k) : Int)) ↔
      Countable ticks (second ms) ∧
        ∀ r, Doubled ticks (second ms) r → ticksAt ticks r = ticksAt ticks (r - 16) := by
  have exact_now := exact_run start sorted
  have pointwise : (((zero.init start).run ticks).snapshot ms ms').perSecond.map Int64.toInt =
        (List.range 31).map (fun k : Nat => (ticksAt ticks (second ms - 30 + k) : Int)) ↔
      ∀ i < 31, (((zero.init start).run ticks).entry (second ms) i).toInt =
        ticksAt ticks (second ms - 30 + i) := by
    show ((List.range 31).map _).map _ = _ ↔ _
    rw [List.map_map, List.map_inj_left]
    simp only [List.mem_range, Function.comp_apply]
  rw [pointwise]
  rcases List.eq_nil_or_concat ticks with rfl | ⟨earlier, last, rfl⟩
  · constructor
    · refine fun _ => ⟨fun _ _ => Nat.two_pow_pos 63, ?_⟩
      rintro r ⟨-, -, τ, among, -⟩
      cases among
    · intro _ i _
      rw [entry]
      exact congrArg Int64.toInt (ite_self 0)
  · rw [List.concat_eq_append] at *
    have cur : ((zero.init start).run (earlier ++ [last])).cur = second last := by
      rw [run_concat, tick_eq]
    exact window_iff exact_now (cur ▸ later last (by simp)) ⟨last, by simp, cur.symm⟩

/-- A minute after its start a process has had two ticks a minute ago and one a second ago. -/
theorem window_exact_later :
    (((zero.init 100000).run [100000, 100500, 160000]).snapshot 161000 161000).perSecond.map
        Int64.toInt =
      (List.range 31).map fun k : Nat =>
        (ticksAt [100000, 100500, 160000] (second 161000 - 30 + k) : Int) := by
  have later : ∀ τ ∈ [100000, 100500, 160000], second τ ≤ second 161000 := by
    rw [List.forall_mem_cons, List.forall_mem_cons, List.forall_mem_singleton]
    decide
  refine (window_exact_iff 100000 (by decide) later 161000).mpr ⟨?_, ?_⟩
  · intro i _
    exact List.countP_le_length.trans_lt (by decide)
  · rintro r ⟨⟨-, few⟩, late, -⟩
    have now : second 161000 = 161 := by decide
    omega

/-- A tick at the epoch, as of any clock before it, is shown for sixteen seconds
earlier too. -/
theorem tick_shown_twice :
    ¬ ∀ (start : Int64) (ticks : List Int64), ticks.Pairwise (· ≤ ·) →
      ∀ ms : Int64, (∀ τ ∈ ticks, second τ ≤ second ms) → ∀ ms' : Int64,
        (((zero.init start).run ticks).snapshot ms ms').perSecond.map Int64.toInt =
          (List.range 31).map fun k : Nat => (ticksAt ticks (second ms - 30 + k) : Int) := by
  intro claim
  have later : ∀ τ ∈ [(0 : Int64)], second τ ≤ second 0 := by
    rw [List.forall_mem_singleton]
  exact absurd (claim 0 [0] (List.pairwise_singleton _ _) 0 later 0) (by decide)

end Metrics

end Shrt
