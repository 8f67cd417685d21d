import Mathlib.Data.List.Basic

/-!
# Units read from a stream that arrives in pieces

A scanner looks at the front of a buffer: it asks for more, finds a unit of some
size, finds the last unit that is to be read, or fails.  A reader cuts every
unit it can from its buffer and reads on.  If a unit that was found stays found
when more arrives, then the units do not depend on the pieces.
-/

namespace Shrt.Lib.Incremental

variable {α β : Type}

inductive Scan (β : Type) where
  | more
  | unit (size : Nat) (value : β)
  | last (size : Nat) (value : β)
  | failed

/-- Why a reader stopped: for want of input, behind a last unit, or at a
failure. -/
inductive Ending where
  | waiting
  | closed
  | failed
  deriving DecidableEq

/-- The units that were cut, why no more were, and what is left. -/
structure Cut (α β : Type) where
  units : List (Nat × β)
  ending : Ending
  rest : List α

def Cut.after (units : List (Nat × β)) (c : Cut α β) : Cut α β :=
  { c with units := units ++ c.units }

section Reading

variable (scan : List α → Scan β)

/-- Cut units from a buffer, at most `fuel` of them. -/
def cutFuel : Nat → List α → Cut α β
  | 0, buf => ⟨[], .waiting, buf⟩
  | fuel + 1, buf =>
      match scan buf with
      | .more => ⟨[], .waiting, buf⟩
      | .unit n v => (cutFuel fuel (buf.drop n)).after [(n, v)]
      | .last n v => ⟨[(n, v)], .closed, buf.drop n⟩
      | .failed => ⟨[], .failed, buf⟩

/-- Cut every unit of a buffer; each has at least one element. -/
def cut (buf : List α) : Cut α β :=
  cutFuel scan (buf.length + 1) buf

/-- Cut what can be cut after each piece. -/
def feed : List α → List (List α) → Cut α β
  | buf, [] => ⟨[], .waiting, buf⟩
  | buf, piece :: pieces =>
      let c := cut scan (buf ++ piece)
      match c.ending with
      | .waiting => (feed c.rest pieces).after c.units
      | _ => c

/-- What was found stays found when more arrives, and lies in the buffer. -/
structure Stable : Prop where
  unit : ∀ {buf n v}, scan buf = .unit n v →
    0 < n ∧ n ≤ buf.length ∧ ∀ more, scan (buf ++ more) = .unit n v
  last : ∀ {buf n v}, scan buf = .last n v →
    n ≤ buf.length ∧ ∀ more, scan (buf ++ more) = .last n v

/-- A stream that is a row of units, each of which is waited for. -/
inductive Row : List α → List (Nat × β) → Prop where
  | nil : scan [] = .more → Row [] []
  | cons {stream n v units} (inside : n ≤ stream.length)
      (found : ∀ buf more, stream = buf ++ more →
        scan buf = if buf.length < n then .more else .unit n v)
      (row : Row (stream.drop n) units) : Row stream ((n, v) :: units)

end Reading

@[simp]
theorem Cut.after_units (units : List (Nat × β)) (c : Cut α β) :
    (c.after units).units = units ++ c.units := rfl

@[simp]
theorem Cut.after_ending (units : List (Nat × β)) (c : Cut α β) :
    (c.after units).ending = c.ending := rfl

@[simp]
theorem Cut.after_rest (units : List (Nat × β)) (c : Cut α β) :
    (c.after units).rest = c.rest := rfl

@[simp]
theorem Cut.after_nil (c : Cut α β) : c.after [] = c := rfl

theorem Cut.after_after (first second : List (Nat × β)) (c : Cut α β) :
    (c.after second).after first = c.after (first ++ second) := by
  simp [Cut.after]

namespace Stable

variable {scan : List α → Scan β} (stable : Stable scan)

include stable

/-- More fuel than elements changes nothing. -/
theorem cutFuel_congr {fuel other : Nat} {buf : List α} (enough : buf.length < fuel)
    (otherEnough : buf.length < other) : cutFuel scan fuel buf = cutFuel scan other buf := by
  induction fuel generalizing other buf with
  | zero => omega
  | succ fuel ih =>
      cases other with
      | zero => omega
      | succ other =>
          simp only [cutFuel]
          cases found : scan buf with
          | more => rfl
          | last n v => rfl
          | failed => rfl
          | unit n v =>
              obtain ⟨positive, inside, -⟩ := stable.unit found
              have short : (buf.drop n).length < buf.length := by
                rw [List.length_drop]
                omega
              exact congrArg (Cut.after [(n, v)]) (ih (by omega) (by omega))

theorem cut_unit {buf : List α} {n : Nat} {v : β} (found : scan buf = .unit n v) :
    cut scan buf = (cut scan (buf.drop n)).after [(n, v)] := by
  obtain ⟨positive, inside, -⟩ := stable.unit found
  have short : (buf.drop n).length < buf.length := by
    rw [List.length_drop]
    omega
  rw [cut, cutFuel, found]
  exact congrArg (Cut.after [(n, v)]) (stable.cutFuel_congr short (Nat.lt_succ_self _))

omit stable in
theorem cut_more {buf : List α} (found : scan buf = .more) :
    cut scan buf = ⟨[], .waiting, buf⟩ := by
  rw [cut, cutFuel, found]

omit stable in
theorem cut_last {buf : List α} {n : Nat} {v : β} (found : scan buf = .last n v) :
    cut scan buf = ⟨[(n, v)], .closed, buf.drop n⟩ := by
  rw [cut, cutFuel, found]

omit stable in
theorem cut_failed {buf : List α} (found : scan buf = .failed) :
    cut scan buf = ⟨[], .failed, buf⟩ := by
  rw [cut, cutFuel, found]

/-- An argument over the units of a buffer, from the front. -/
theorem cut_induction {P : List α → Prop}
    (stop : ∀ buf, (∀ n v, scan buf ≠ .unit n v) → P buf)
    (unit : ∀ buf n v, scan buf = .unit n v → P (buf.drop n) → P buf) (buf : List α) : P buf := by
  induction size : buf.length using Nat.strongRecOn generalizing buf with
  | _ size ih =>
      cases found : scan buf with
      | more => exact stop buf fun n v => by simp [found]
      | last n v => exact stop buf fun n v => by simp [found]
      | failed => exact stop buf fun n v => by simp [found]
      | unit n v =>
          obtain ⟨positive, inside, -⟩ := stable.unit found
          refine unit buf n v found (ih (buf.drop n).length ?_ _ rfl)
          rw [List.length_drop]
          omega

/-- What a reader waits with is waited for. -/
theorem scan_rest {buf : List α} (waits : (cut scan buf).ending = .waiting) :
    scan (cut scan buf).rest = .more := by
  induction buf using stable.cut_induction with
  | stop buf none =>
      cases found : scan buf with
      | more => rw [cut_more found, found]
      | unit n v => exact absurd found (none n v)
      | last n v =>
          rw [cut_last found] at waits
          cases waits
      | failed =>
          rw [cut_failed found] at waits
          cases waits
  | unit buf n v found ih =>
      rw [stable.cut_unit found] at waits ⊢
      exact ih waits

/-- A reader that waits cuts the rest of its units from what it kept. -/
theorem cut_append {buf : List α} (waits : (cut scan buf).ending = .waiting) (more : List α) :
    cut scan (buf ++ more) =
      (cut scan ((cut scan buf).rest ++ more)).after (cut scan buf).units := by
  induction buf using stable.cut_induction with
  | stop buf none =>
      cases found : scan buf with
      | more =>
          rw [cut_more found]
          exact (Cut.after_nil _).symm
      | unit n v => exact absurd found (none n v)
      | last n v =>
          rw [cut_last found] at waits
          cases waits
      | failed =>
          rw [cut_failed found] at waits
          cases waits
  | unit buf n v found ih =>
      obtain ⟨-, inside, extended⟩ := stable.unit found
      rw [stable.cut_unit found] at waits ⊢
      rw [stable.cut_unit (extended more), List.drop_append_of_le_length inside, ih waits,
        Cut.after_after]
      rfl

/-- A reader that closed has cut the same units whatever comes behind. -/
theorem cut_append_closed {buf : List α} (closed : (cut scan buf).ending = .closed)
    (more : List α) : (cut scan (buf ++ more)).units = (cut scan buf).units ∧
      (cut scan (buf ++ more)).ending = .closed := by
  induction buf using stable.cut_induction with
  | stop buf none =>
      cases found : scan buf with
      | more =>
          rw [cut_more found] at closed
          cases closed
      | unit n v => exact absurd found (none n v)
      | last n v =>
          rw [cut_last found, cut_last ((stable.last found).2 more)]
          exact ⟨rfl, rfl⟩
      | failed =>
          rw [cut_failed found] at closed
          cases closed
  | unit buf n v found ih =>
      obtain ⟨-, inside, extended⟩ := stable.unit found
      rw [stable.cut_unit found] at closed ⊢
      rw [stable.cut_unit (extended more), List.drop_append_of_le_length inside]
      obtain ⟨units, ending⟩ := ih closed
      exact ⟨congrArg ([(n, v)] ++ ·) units, ending⟩

/-- The units before a failure stay when more arrives. -/
theorem units_prefix (buf more : List α) :
    (cut scan buf).units <+: (cut scan (buf ++ more)).units := by
  induction buf using stable.cut_induction with
  | stop buf none =>
      cases found : scan buf with
      | more =>
          rw [cut_more found]
          exact List.nil_prefix
      | unit n v => exact absurd found (none n v)
      | last n v =>
          simp only [cut_last found, cut_last ((stable.last found).2 more), List.prefix_refl]
      | failed =>
          rw [cut_failed found]
          exact List.nil_prefix
  | unit buf n v found ih =>
      obtain ⟨-, inside, extended⟩ := stable.unit found
      rw [stable.cut_unit found, stable.cut_unit (extended more),
        List.drop_append_of_le_length inside]
      exact (List.prefix_append_right_inj [(n, v)]).mpr ih

/-- A row of units holds what its scanner says of each, up to a last one. -/
theorem cut_units {P : β → Prop} (units : ∀ {buf n v}, scan buf = .unit n v → P v)
    (buf : List α) : ∃ first, (∀ u ∈ first, P u.2) ∧ ((cut scan buf).units = first ∨
      (cut scan buf).ending = .closed ∧ ∃ last, (cut scan buf).units = first ++ [last]) := by
  induction buf using stable.cut_induction with
  | stop buf none =>
      refine ⟨[], by simp, ?_⟩
      cases found : scan buf with
      | more =>
          rw [cut_more found]
          exact Or.inl rfl
      | unit n v => exact absurd found (none n v)
      | last n v =>
          rw [cut_last found]
          exact Or.inr ⟨rfl, (n, v), rfl⟩
      | failed =>
          rw [cut_failed found]
          exact Or.inl rfl
  | unit buf n v found ih =>
      obtain ⟨first, all, shape⟩ := ih
      rw [stable.cut_unit found]
      refine ⟨(n, v) :: first, ?_, ?_⟩
      · intro u member
        rcases List.mem_cons.mp member with rfl | member
        · exact units found
        · exact all u member
      · rcases shape with same | ⟨closed, last, same⟩
        · exact Or.inl (congrArg ((n, v) :: ·) same)
        · exact Or.inr ⟨closed, last, congrArg ((n, v) :: ·) same⟩

omit stable in
theorem feed_waiting {buf piece : List α} (pieces : List (List α))
    (waits : (cut scan (buf ++ piece)).ending = .waiting) :
    feed scan buf (piece :: pieces) =
      (feed scan (cut scan (buf ++ piece)).rest pieces).after (cut scan (buf ++ piece)).units := by
  simp only [feed, waits]

omit stable in
theorem feed_stopped {buf piece : List α} (pieces : List (List α))
    (stops : (cut scan (buf ++ piece)).ending ≠ .waiting) :
    feed scan buf (piece :: pieces) = cut scan (buf ++ piece) := by
  simp only [feed]

/-- Whatever the pieces, the units are the first of those of the whole. -/
theorem feed_prefix (buf : List α) (pieces : List (List α)) :
    (feed scan buf pieces).units <+: (cut scan (buf ++ pieces.flatten)).units := by
  induction pieces generalizing buf with
  | nil => exact List.nil_prefix
  | cons piece pieces ih =>
      rw [List.flatten_cons, ← List.append_assoc]
      by_cases waits : (cut scan (buf ++ piece)).ending = .waiting
      · rw [feed_waiting pieces waits, stable.cut_append waits]
        exact (List.prefix_append_right_inj _).mpr (ih _)
      · rw [feed_stopped pieces waits]
        exact stable.units_prefix _ _

/-- Without a failure the units are those of the whole, whatever the pieces. -/
theorem feed_eq_cut {buf piece : List α} {pieces : List (List α)}
    (sound : (feed scan buf (piece :: pieces)).ending ≠ .failed) :
    (feed scan buf (piece :: pieces)).units =
        (cut scan (buf ++ (piece :: pieces).flatten)).units ∧
      (feed scan buf (piece :: pieces)).ending =
        (cut scan (buf ++ (piece :: pieces).flatten)).ending := by
  rw [List.flatten_cons, ← List.append_assoc]
  induction pieces generalizing buf piece with
  | nil =>
      rw [List.flatten_nil, List.append_nil]
      by_cases waits : (cut scan (buf ++ piece)).ending = .waiting
      · rw [feed_waiting [] waits]
        exact ⟨List.append_nil _, waits.symm⟩
      · rw [feed_stopped [] waits]
        exact ⟨rfl, rfl⟩
  | cons next pieces ih =>
      by_cases waits : (cut scan (buf ++ piece)).ending = .waiting
      · rw [feed_waiting _ waits] at sound ⊢
        rw [stable.cut_append waits, List.flatten_cons, ← List.append_assoc]
        obtain ⟨units, ending⟩ := ih sound
        exact ⟨congrArg ((cut scan (buf ++ piece)).units ++ ·) units, ending⟩
      · rw [feed_stopped _ waits] at sound ⊢
        have closed : (cut scan (buf ++ piece)).ending = .closed := by
          cases ends : (cut scan (buf ++ piece)).ending with
          | waiting => exact absurd ends waits
          | closed => rfl
          | failed => exact absurd ends sound
        obtain ⟨units, ending⟩ := stable.cut_append_closed closed (next :: pieces).flatten
        exact ⟨units.symm, closed.trans ending.symm⟩

omit stable in
theorem eq_nil_of_flatten {pieces : List (List α)} (full : ∀ piece ∈ pieces, piece ≠ [])
    (empty : pieces.flatten = []) : pieces = [] := by
  cases pieces with
  | nil => rfl
  | cons piece pieces =>
      exact absurd (List.append_eq_nil_iff.mp empty).1 (full piece List.mem_cons_self)

/-- Of one stream, a reader that did not fail has cut all units that any other
has. -/
theorem feed_prefix_feed {first second : List (List α)} (same : first.flatten = second.flatten)
    (secondFull : ∀ piece ∈ second, piece ≠ [])
    (sound : (feed scan [] first).ending ≠ .failed) :
    (feed scan [] second).units <+: (feed scan [] first).units := by
  cases first with
  | nil =>
      obtain rfl := eq_nil_of_flatten secondFull same.symm
      exact List.prefix_refl _
  | cons piece pieces =>
      rw [(stable.feed_eq_cut sound).1, same]
      exact stable.feed_prefix [] second

/-- The units of a stream do not depend on the pieces it arrives in. -/
theorem feed_congr {first second : List (List α)} (same : first.flatten = second.flatten)
    (firstFull : ∀ piece ∈ first, piece ≠ []) (secondFull : ∀ piece ∈ second, piece ≠ [])
    (firstSound : (feed scan [] first).ending ≠ .failed)
    (secondSound : (feed scan [] second).ending ≠ .failed) :
    (feed scan [] first).units = (feed scan [] second).units :=
  (stable.feed_prefix_feed same.symm firstFull secondSound).eq_of_length_le
    (stable.feed_prefix_feed same secondFull firstSound).length_le

/-! ## Rows of units -/

/-- Of a row of units, a first part is cut and the others are waited for. -/
theorem cut_row {stream buf more : List α} {units : List (Nat × β)} (row : Row scan stream units)
    (start : stream = buf ++ more) :
    ∃ done left rest, units = done ++ left ∧ cut scan buf = ⟨done, .waiting, rest⟩ ∧
      Row scan (rest ++ more) left := by
  induction row generalizing buf with
  | nil empty =>
      obtain ⟨rfl, rfl⟩ := List.append_eq_nil_iff.mp start.symm
      exact ⟨[], [], [], rfl, cut_more empty, .nil empty⟩
  | @cons stream n v units inside found row ih =>
      have scanned := found buf more start
      rcases Nat.lt_or_ge buf.length n with short | long
      · rw [if_pos short] at scanned
        exact ⟨[], (n, v) :: units, buf, rfl, cut_more scanned, start ▸ .cons inside found row⟩
      · rw [if_neg (Nat.not_lt.mpr long)] at scanned
        have behind : stream.drop n = buf.drop n ++ more := by
          rw [start, List.drop_append_of_le_length long]
        obtain ⟨done, left, rest, rfl, cutRest, row'⟩ := ih behind
        refine ⟨(n, v) :: done, left, rest, rfl, ?_, row'⟩
        rw [stable.cut_unit scanned, cutRest]
        rfl

/-- A row of units is read whole, whatever the pieces. -/
theorem feed_row {buf : List α} {pieces : List (List α)} {units : List (Nat × β)}
    (waits : scan buf = .more) (row : Row scan (buf ++ pieces.flatten) units) :
    (feed scan buf pieces).units = units ∧ (feed scan buf pieces).ending = .waiting := by
  induction pieces generalizing buf units with
  | nil =>
      rw [List.flatten_nil, List.append_nil] at row
      cases row with
      | nil empty => exact ⟨rfl, rfl⟩
      | cons inside found row =>
          have scanned := found buf [] (List.append_nil buf).symm
          rw [if_neg (Nat.not_lt.mpr inside), waits] at scanned
          cases scanned
  | cons piece pieces ih =>
      rw [List.flatten_cons, ← List.append_assoc] at row
      obtain ⟨done, left, rest, rfl, cutFirst, row'⟩ := stable.cut_row row rfl
      have ends : (cut scan (buf ++ piece)).ending = .waiting := by rw [cutFirst]
      have waits' := stable.scan_rest ends
      rw [feed_waiting _ ends]
      rw [cutFirst] at waits' ⊢
      obtain ⟨units, ending⟩ := ih waits' row'
      exact ⟨congrArg (done ++ ·) units, ending⟩

end Stable

end Shrt.Lib.Incremental
