import Mathlib.Algebra.GroupWithZero.Nat
import Mathlib.Algebra.Order.BigOperators.Group.List
import Mathlib.Algebra.Order.Group.Nat
import Mathlib.Data.List.Induction

/-!
# Separator framing

A byte stream is read as the non-empty complete lines in front of its last
separator, followed by an unterminated rest.  The scan is one pass with the
line under construction as its accumulator, so the lines of an extended
stream are the old lines followed by the lines of the old rest extended.
-/

namespace Shrt.Lib.Framing

variable {α : Type}

/-- Terminate every line with the separator. -/
def unlines (sep : α) (ls : List (List α)) : List α :=
  ls.flatMap (· ++ [sep])

@[simp] theorem unlines_nil (sep : α) : unlines sep [] = [] := rfl

@[simp] theorem unlines_cons (sep : α) (l : List α) (ls : List (List α)) :
    unlines sep (l :: ls) = l ++ sep :: unlines sep ls := by
  simp [unlines]

theorem unlines_append (sep : α) (first second : List (List α)) :
    unlines sep (first ++ second) = unlines sep first ++ unlines sep second := by
  simp [unlines]

section Scan

variable [DecidableEq α]

/-- One pass over the data; `cur` is the line under construction. -/
def scan (sep : α) : List α → List α → List (List α) × List α
  | cur, [] => ([], cur)
  | cur, b :: bs =>
      if b = sep then
        let next := scan sep [] bs
        (if cur = [] then next.1 else cur :: next.1, next.2)
      else scan sep (cur ++ [b]) bs

def lines (sep : α) (data : List α) : List (List α) :=
  (scan sep [] data).1

def rest (sep : α) (data : List α) : List α :=
  (scan sep [] data).2

/-- Scanning a concatenation resumes with the rest of the first part. -/
theorem scan_append (sep : α) (cur first second : List α) :
    scan sep cur (first ++ second) =
      ((scan sep cur first).1 ++ (scan sep (scan sep cur first).2 second).1,
        (scan sep (scan sep cur first).2 second).2) := by
  induction first generalizing cur with
  | nil => simp [scan]
  | cons b bs ih =>
      simp only [List.cons_append, scan]
      by_cases hb : b = sep
      · simp only [hb, if_true]
        rw [ih []]
        split <;> simp
      · simp only [hb, if_false]
        exact ih (cur ++ [b])

/-- Without a separator the whole input joins the line under construction. -/
theorem scan_of_not_mem {sep : α} (cur : List α) {data : List α}
    (free : sep ∉ data) : scan sep cur data = ([], cur ++ data) := by
  induction data generalizing cur with
  | nil => simp [scan]
  | cons b bs ih =>
      obtain ⟨hb, hbs⟩ := not_or.mp (mt List.mem_cons.mpr free)
      rw [scan, if_neg (Ne.symm hb), ih _ hbs]
      simp

/-- The line under construction is the start of the first line. -/
theorem scan_eq_scan_nil {sep : α} {cur : List α} (free : sep ∉ cur)
    (data : List α) : scan sep cur data = scan sep [] (cur ++ data) := by
  rw [scan_append, scan_of_not_mem [] free]
  simp

/-- A terminated non-empty line is read off the front. -/
theorem scan_line {sep : α} {l : List α} (free : sep ∉ l) (nonempty : l ≠ [])
    (data : List α) :
    scan sep [] (l ++ sep :: data) =
      (l :: (scan sep [] data).1, (scan sep [] data).2) := by
  rw [scan_append, scan_of_not_mem [] free]
  simp [scan, nonempty]

/-- The rest never holds a separator. -/
theorem sep_not_mem_scan_rest (sep : α) {cur : List α} (free : sep ∉ cur)
    (data : List α) : sep ∉ (scan sep cur data).2 := by
  induction data generalizing cur with
  | nil => simpa [scan] using free
  | cons b bs ih =>
      rw [scan]
      split
      · exact ih (by simp)
      · rename_i hb
        apply ih
        simp [free, Ne.symm hb]

theorem sep_not_mem_rest (sep : α) (data : List α) : sep ∉ rest sep data :=
  sep_not_mem_scan_rest sep (by simp) data

/-- The rest is what follows the last separator. -/
theorem exists_front (sep : α) (data : List α) :
    ∃ front, data = front ++ rest sep data ∧ (front = [] ∨ ∃ before, front = before ++ [sep]) := by
  induction data using List.reverseRecOn with
  | nil => exact ⟨[], rfl, Or.inl rfl⟩
  | append_singleton data b ih =>
      obtain ⟨front, whole, ends⟩ := ih
      have scanned : rest sep (data ++ [b]) = (scan sep (rest sep data) [b]).2 := by
        rw [rest, scan_append]
        rfl
      by_cases closes : b = sep
      · refine ⟨data ++ [b], ?_, Or.inr ⟨data, by rw [closes]⟩⟩
        rw [scanned]
        simp [scan, closes]
      · refine ⟨front, ?_, ends⟩
        rw [scanned]
        conv_lhs => rw [whole]
        simp [scan, closes]

/-- What a framed stream needs of its lines. -/
def Framed (sep : α) (ls : List (List α)) : Prop :=
  ∀ l ∈ ls, sep ∉ l ∧ l ≠ []

theorem scan_unlines_append {sep : α} {ls : List (List α)}
    (framed : Framed sep ls) (data : List α) :
    scan sep [] (unlines sep ls ++ data) =
      (ls ++ (scan sep [] data).1, (scan sep [] data).2) := by
  induction ls with
  | nil => simp
  | cons l ls ih =>
      obtain ⟨free, nonempty⟩ := framed l List.mem_cons_self
      have tail := ih (fun m hm => framed m (List.mem_cons_of_mem _ hm))
      rw [unlines_cons, List.append_assoc, List.cons_append,
        scan_line free nonempty, tail]
      simp

/-- Reading a framed stream gives back its lines, then those of what follows. -/
theorem lines_unlines_append {sep : α} {ls : List (List α)}
    (framed : Framed sep ls) (data : List α) :
    lines sep (unlines sep ls ++ data) = ls ++ lines sep data := by
  simp [lines, scan_unlines_append framed]

theorem lines_unlines {sep : α} {ls : List (List α)} (framed : Framed sep ls) :
    lines sep (unlines sep ls) = ls := by
  simpa [lines, scan] using lines_unlines_append framed []

/-- Every line read was closed by a separator of its own. -/
theorem length_scan_le (sep : α) (cur data : List α) :
    (scan sep cur data).1.length ≤ data.count sep := by
  induction data generalizing cur with
  | nil => simp [scan]
  | cons b bs ih =>
      rw [scan]
      split
      · rename_i hb
        subst hb
        have := ih []
        split <;> simp <;> omega
      · rename_i hb
        have := ih (cur ++ [b])
        rw [List.count_cons_of_ne hb]
        exact this

/-! ## Complete lines, empty ones too -/

/-- Every line that a separator closes; `cur` is the line under construction. -/
def segments (sep : α) : List α → List α → List (List α)
  | _, [] => []
  | cur, b :: bs =>
      if b = sep then cur :: segments sep [] bs else segments sep (cur ++ [b]) bs

/-- The complete lines, the empty ones among them. -/
def completeLines (sep : α) (data : List α) : List (List α) :=
  segments sep [] data

/-- How many places the complete lines take, separators included. -/
def closedLength (sep : α) (data : List α) : Nat :=
  ((completeLines sep data).map fun l => l.length + 1).sum

theorem segments_append (sep : α) (cur first second : List α) :
    segments sep cur (first ++ second) =
      segments sep cur first ++ segments sep (scan sep cur first).2 second := by
  induction first generalizing cur with
  | nil => rfl
  | cons b bs ih =>
      simp only [List.cons_append, segments, scan]
      split
      · rw [ih, List.cons_append]
      · exact ih _

theorem segments_of_not_mem {sep : α} (cur : List α) {data : List α} (free : sep ∉ data) :
    segments sep cur data = [] := by
  induction data generalizing cur with
  | nil => rfl
  | cons b bs ih =>
      obtain ⟨first, later⟩ := not_or.mp (mt List.mem_cons.mpr free)
      rw [segments, if_neg (Ne.symm first)]
      exact ih _ later

/-- Data without a separator completes no line. -/
theorem completeLines_append_of_not_mem {sep : α} (first : List α) {second : List α}
    (free : sep ∉ second) : completeLines sep (first ++ second) = completeLines sep first := by
  rw [completeLines, segments_append, segments_of_not_mem _ free, List.append_nil]
  rfl

theorem closedLength_append_of_not_mem {sep : α} (first : List α) {second : List α}
    (free : sep ∉ second) : closedLength sep (first ++ second) = closedLength sep first := by
  rw [closedLength, completeLines_append_of_not_mem first free, closedLength]

/-- Behind a complete line the lines of the data follow as they are. -/
theorem completeLines_append_of_rest {sep : α} {first : List α} (ends : rest sep first = [])
    (second : List α) :
    completeLines sep (first ++ second) = completeLines sep first ++ completeLines sep second := by
  have resumed : (scan sep [] first).2 = [] := ends
  rw [completeLines, segments_append, resumed]
  rfl

theorem length_segments_add (sep : α) (cur data : List α) :
    ((segments sep cur data).map fun l => l.length + 1).sum + (scan sep cur data).2.length =
      cur.length + data.length := by
  induction data generalizing cur with
  | nil => simp [segments, scan]
  | cons b bs ih =>
      rw [segments, scan]
      by_cases closes : b = sep
      · have later := ih []
        simp only [if_pos closes, List.map_cons, List.sum_cons, List.length_cons,
          List.length_nil] at later ⊢
        omega
      · have later := ih (cur ++ [b])
        simp only [if_neg closes, List.length_cons, List.length_append, List.length_nil] at later ⊢
        omega

/-- What is not rest belongs to a complete line. -/
theorem closedLength_add_rest (sep : α) (data : List α) :
    closedLength sep data + (rest sep data).length = data.length := by
  have total := length_segments_add sep [] data
  rwa [List.length_nil, Nat.zero_add] at total

/-- From a separator on the rest does not depend on what came before. -/
theorem scan_snd_of_mem {sep : α} (cur : List α) {data : List α} (closes : sep ∈ data) :
    (scan sep cur data).2 = rest sep data := by
  rw [rest]
  induction data generalizing cur with
  | nil => cases closes
  | cons b bs ih =>
      rw [scan, scan]
      by_cases first : b = sep
      · rw [if_pos first, if_pos first]
      · have later : sep ∈ bs := (List.mem_cons.mp closes).resolve_left (Ne.symm first)
        rw [if_neg first, if_neg first, ih _ later, ← ih ([] ++ [b]) later]

theorem rest_append_of_mem {sep : α} (first : List α) {second : List α} (closes : sep ∈ second) :
    rest sep (first ++ second) = rest sep second := by
  rw [rest, scan_append]
  exact scan_snd_of_mem _ closes

theorem length_rest_lt {sep : α} {data : List α} (closes : sep ∈ data) :
    (rest sep data).length < data.length := by
  obtain ⟨front, whole, ends⟩ := exists_front sep data
  have used : front ≠ [] := by
    rintro rfl
    rw [List.nil_append] at whole
    exact sep_not_mem_rest sep data (whole ▸ closes)
  have split := congrArg List.length whole
  have some_used := List.length_pos_of_ne_nil used
  rw [List.length_append] at split
  omega

/-- A gap in front of a separator leaves less in complete lines. -/
theorem closedLength_gap {sep : α} (first : List α) {gap later : List α} (lost : gap ≠ [])
    (closes : sep ∈ gap ++ later) :
    closedLength sep (first ++ later) < closedLength sep (first ++ gap ++ later) := by
  have short := closedLength_add_rest sep (first ++ later)
  have whole := closedLength_add_rest sep (first ++ gap ++ later)
  have gap_pos := List.length_pos_of_ne_nil lost
  by_cases behind : sep ∈ later
  · rw [rest_append_of_mem _ behind, List.length_append] at short whole
    rw [List.length_append] at whole
    omega
  · have inside : sep ∈ gap := (List.mem_append.mp closes).resolve_right behind
    rw [closedLength_append_of_not_mem first behind, closedLength_append_of_not_mem _ behind]
    have cut := closedLength_add_rest sep first
    have kept := closedLength_add_rest sep (first ++ gap)
    have some_closed := length_rest_lt inside
    rw [rest_append_of_mem _ inside, List.length_append] at kept
    omega

/-- Fewer copies of lines take less room. -/
theorem closedLength_le_of_subperm {sep : α} {first second : List α}
    (among : (completeLines sep first).Subperm (completeLines sep second)) :
    closedLength sep first ≤ closedLength sep second := by
  obtain ⟨copies, same, sub⟩ := among
  calc closedLength sep first
      = (copies.map fun l => l.length + 1).sum := ((same.map _).sum_nat).symm
    _ ≤ closedLength sep second := (sub.map _).sum_le_sum fun _ _ => Nat.zero_le _

end Scan

end Shrt.Lib.Framing
