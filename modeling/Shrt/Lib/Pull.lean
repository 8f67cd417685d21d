import Mathlib.Data.List.Basic

/-!
# Readers of a finite input

A reader takes values from the front of an input that may end, and fails with
an error.  It reads a piece of input exactly when it takes this piece and
nothing else, whatever follows.  A reader given by recursion on itself is a
fixed point as soon as each turn takes something before it recurs.
-/

namespace Shrt.Lib

/-- A reader of values `α` from an input of `σ`, with errors `ε`. -/
abbrev Pull (σ ε α : Type) := StateT (List σ) (Except ε) α

namespace Pull

variable {σ ε α β : Type}

theorem run_bind_eq (r : Pull σ ε α) (next : α → Pull σ ε β) (input : List σ) :
    (r >>= next).run input =
      match r.run input with
      | .error e => .error e
      | .ok (v, rest) => (next v).run rest := by
  rw [StateT.run_bind]
  cases r.run input with
  | error e => rfl
  | ok read => rfl

theorem run_bind_of_ok {r : Pull σ ε α} {input rest : List σ} {v : α}
    (read : r.run input = .ok (v, rest)) (next : α → Pull σ ε β) :
    (r >>= next).run input = (next v).run rest := by
  rw [run_bind_eq, read]

theorem run_bind_of_error {r : Pull σ ε α} {input : List σ} {e : ε}
    (failed : r.run input = .error e) (next : α → Pull σ ε β) :
    (r >>= next).run input = .error e := by
  rw [run_bind_eq, failed]

/-- What a composed reader has read was read in two parts. -/
theorem exists_of_run_bind {r : Pull σ ε α} {next : α → Pull σ ε β} {input rest : List σ} {w : β}
    (read : (r >>= next).run input = .ok (w, rest)) :
    ∃ v between, r.run input = .ok (v, between) ∧ (next v).run between = .ok (w, rest) := by
  rw [run_bind_eq] at read
  cases first : r.run input with
  | error e =>
      rw [first] at read
      cases read
  | ok value =>
      obtain ⟨v, between⟩ := value
      rw [first] at read
      exact ⟨v, between, rfl, read⟩

/-- The `n` values read one after the other. -/
def times : Nat → Pull σ ε α → Pull σ ε (List α)
  | 0, _ => pure []
  | n + 1, r => do
      let v ← r
      let vs ← times n r
      return v :: vs

/-! ## Reading exactly -/

/-- Whatever follows, the reader takes the input and gives the value. -/
def Reads (r : Pull σ ε α) (input : List σ) (v : α) : Prop :=
  ∀ rest, r.run (input ++ rest) = .ok (v, rest)

theorem reads_pure (v : α) : (pure v : Pull σ ε α).Reads [] v :=
  fun _ => rfl

theorem Reads.bind {r : Pull σ ε α} {next : α → Pull σ ε β} {first second : List σ} {v : α} {w : β}
    (reads : r.Reads first v) (then_reads : (next v).Reads second w) :
    (r >>= next).Reads (first ++ second) w := by
  intro rest
  rw [List.append_assoc, run_bind_of_ok (reads (second ++ rest))]
  exact then_reads rest

/-- A reader that only passes on what it has read. -/
theorem Reads.map {r : Pull σ ε α} {input : List σ} {v : α} (reads : r.Reads input v)
    (f : α → β) : (r >>= fun a => pure (f a)).Reads input (f v) := by
  have given : (pure (f v) : Pull σ ε β).Reads [] (f v) := reads_pure (f v)
  have both : (r >>= fun a => pure (f a)).Reads (input ++ []) (f v) := reads.bind given
  rwa [List.append_nil] at both

/-- Encodings in a row are read one by one. -/
theorem Reads.times {ι : Type} {r : Pull σ ε α} {enc : ι → List σ} {val : ι → α} {xs : List ι}
    (reads : ∀ x ∈ xs, r.Reads (enc x) (val x)) :
    (times xs.length r).Reads (xs.flatMap enc) (xs.map val) := by
  induction xs with
  | nil => exact reads_pure []
  | cons x xs ih =>
      have first := reads x List.mem_cons_self
      have later := ih fun y among => reads y (List.mem_cons_of_mem x among)
      exact first.bind (later.map fun vs => val x :: vs)

/-! ## Input that ends -/

/-- On the input, which is all there is, the reader ends in an error of the kind `P`. -/
def Fails (r : Pull σ ε α) (P : ε → Prop) (input : List σ) : Prop :=
  ∃ e, P e ∧ r.run input = .error e

/-- On the input the reader ends in no other error. -/
def FailsOnly (r : Pull σ ε α) (P : ε → Prop) (input : List σ) : Prop :=
  ∀ e, r.run input = .error e → P e

/-- On the input, which is all there is, the reader fails or leaves nothing. -/
def Drains (r : Pull σ ε α) (input : List σ) : Prop :=
  ∀ v rest, r.run input = .ok (v, rest) → rest = []

variable {P : ε → Prop}

theorem fails_congr {r other : Pull σ ε α} {input image : List σ}
    (same : r.run input = other.run image) : r.Fails P input ↔ other.Fails P image := by
  rw [Fails, same, Fails]

theorem failsOnly_congr {r other : Pull σ ε α} {input image : List σ}
    (same : r.run input = other.run image) : r.FailsOnly P input ↔ other.FailsOnly P image := by
  rw [FailsOnly, same, FailsOnly]

theorem drains_congr {r other : Pull σ ε α} {input image : List σ}
    (same : r.run input = other.run image) : r.Drains input ↔ other.Drains image := by
  rw [Drains, same, Drains]

theorem not_fails_of_ok {r : Pull σ ε α} {input rest : List σ} {v : α}
    (read : r.run input = .ok (v, rest)) : ¬ r.Fails P input := by
  rintro ⟨e, -, failed⟩
  rw [read] at failed
  cases failed

theorem failsOnly_of_ok {r : Pull σ ε α} {input rest : List σ} {v : α}
    (read : r.run input = .ok (v, rest)) : r.FailsOnly P input := by
  intro e failed
  rw [read] at failed
  cases failed

theorem FailsOnly.exists_ok {r : Pull σ ε α} {input : List σ} (only : r.FailsOnly P input)
    (holds : ¬ r.Fails P input) : ∃ v rest, r.run input = .ok (v, rest) := by
  cases read : r.run input with
  | error e => exact absurd ⟨e, only e read, read⟩ holds
  | ok value => exact ⟨value.1, value.2, rfl⟩

theorem Fails.failsOnly {r : Pull σ ε α} {input : List σ} (fails : r.Fails P input) :
    r.FailsOnly P input := by
  obtain ⟨e, kind, failed⟩ := fails
  intro e' failed'
  rw [failed] at failed'
  cases failed'
  exact kind

theorem Fails.bind {r : Pull σ ε α} {input : List σ} (fails : r.Fails P input)
    (next : α → Pull σ ε β) : (r >>= next).Fails P input := by
  obtain ⟨e, kind, failed⟩ := fails
  exact ⟨e, kind, run_bind_of_error failed next⟩

theorem fails_bind_iff_of_ok {r : Pull σ ε α} {input rest : List σ} {v : α}
    (read : r.run input = .ok (v, rest)) (next : α → Pull σ ε β) :
    (r >>= next).Fails P input ↔ (next v).Fails P rest := by
  rw [Fails, run_bind_of_ok read, Fails]

/-- Passing on what was read adds no failure. -/
theorem fails_map_iff (r : Pull σ ε α) (f : α → β) (input : List σ) :
    (r >>= fun a => pure (f a)).Fails P input ↔ r.Fails P input := by
  cases read : r.run input with
  | error e => rw [Fails, Fails, run_bind_of_error read, read]; simp
  | ok value =>
      exact iff_of_false (not_fails_of_ok (run_bind_of_ok read _)) (not_fails_of_ok read)

theorem FailsOnly.bind {r : Pull σ ε α} {input : List σ} (only : r.FailsOnly P input)
    {next : α → Pull σ ε β}
    (later : ∀ v rest, r.run input = .ok (v, rest) → (next v).FailsOnly P rest) :
    (r >>= next).FailsOnly P input := by
  intro e failed
  cases read : r.run input with
  | error e' =>
      rw [run_bind_of_error read] at failed
      cases failed
      exact only e read
  | ok value =>
      rw [run_bind_of_ok read] at failed
      exact later value.1 value.2 read e failed

theorem failsOnly_pure (v : α) (input : List σ) : (pure v : Pull σ ε α).FailsOnly P input :=
  failsOnly_of_ok rfl

theorem Fails.drains {r : Pull σ ε α} {input : List σ} (fails : r.Fails P input) :
    r.Drains input :=
  fun _ _ read => absurd fails (not_fails_of_ok read)

theorem Drains.bind {r : Pull σ ε α} {input : List σ} {next : α → Pull σ ε β}
    (drains : r.Drains input) (at_end : ∀ v, (next v).Drains []) : (r >>= next).Drains input := by
  intro w rest read
  obtain ⟨v, between, first, second⟩ := exists_of_run_bind read
  cases drains v between first
  exact at_end v w rest second

theorem drains_pure_nil (v : α) : (pure v : Pull σ ε α).Drains [] := by
  intro w rest read
  cases read
  rfl

theorem times_drains_nil {r : Pull σ ε α} (fails : r.Fails P []) (n : Nat) :
    (times n r).Drains [] := by
  cases n with
  | zero => exact drains_pure_nil []
  | succ n => exact (fails.bind _).drains

theorem Drains.times_succ {r : Pull σ ε α} {part : List σ} (drains : r.Drains part)
    (at_end : r.Fails P []) (later : Nat) : (times (later + 1) r).Drains part :=
  drains.bind fun v => (times_drains_nil at_end later).bind fun vs => drains_pure_nil (v :: vs)

theorem FailsOnly.times_succ {r : Pull σ ε α} {part : List σ} (only : r.FailsOnly P part)
    (drains : r.Drains part) (at_end : r.Fails P []) (later : Nat) :
    (times (later + 1) r).FailsOnly P part := by
  have none_left : (times later r).FailsOnly P [] := by
    cases later with
    | zero => exact failsOnly_pure [] []
    | succ later => exact (at_end.bind _).failsOnly
  refine only.bind fun v rest read => ?_
  cases drains v rest read
  exact none_left.bind fun vs rest _ => failsOnly_pure (v :: vs) rest

/-- Behind a whole encoding a cut is a cut of what follows. -/
theorem fails_times_behind_iff {r : Pull σ ε α} {first : List σ} {v : α}
    (reads : r.Reads first v) (later : Nat) (input : List σ) :
    (times (later + 1) r).Fails P (first ++ input) ↔ (times later r).Fails P input := by
  rw [times, fails_bind_iff_of_ok (reads input), fails_map_iff]

theorem FailsOnly.times_behind {r : Pull σ ε α} {first input : List σ} {v : α} {later : Nat}
    (only : (times later r).FailsOnly P input) (reads : r.Reads first v) :
    (times (later + 1) r).FailsOnly P (first ++ input) := by
  rw [times, FailsOnly, run_bind_of_ok (reads input)]
  exact only.bind fun vs rest _ => failsOnly_pure (v :: vs) rest

theorem Drains.times_behind {r : Pull σ ε α} {first input : List σ} {v : α} {later : Nat}
    (drains : (times later r).Drains input) (reads : r.Reads first v) :
    (times (later + 1) r).Drains (first ++ input) := by
  rw [times, Drains, run_bind_of_ok (reads input)]
  exact drains.bind fun vs => drains_pure_nil (v :: vs)

/-- A cut inside one encoding shows in this one, or in the next, which meets
the end of the input. -/
theorem fails_times_succ_iff {r : Pull σ ε α} {part : List σ} (drains : r.Drains part)
    (only : r.FailsOnly P part) (at_end : r.Fails P []) (later : Nat) :
    (times (later + 1) r).Fails P part ↔ r.Fails P part ∨ 0 < later := by
  by_cases fails : r.Fails P part
  · exact iff_of_true (fails.bind _) (Or.inl fails)
  · obtain ⟨v, rest, read⟩ := only.exists_ok fails
    cases drains v rest read
    rw [times, fails_bind_iff_of_ok read, fails_map_iff, or_iff_right fails]
    cases later with
    | zero => exact iff_of_false (not_fails_of_ok rfl) (Nat.lt_irrefl 0)
    | succ later => exact iff_of_true (at_end.bind _) (Nat.succ_pos later)

/-! ## Recursion -/

/-- The reader never hands back more than it was given. -/
def Keeps (r : Pull σ ε α) : Prop :=
  ∀ input v rest, r.run input = .ok (v, rest) → rest.length ≤ input.length

/-- The reader takes something or fails. -/
def Takes (r : Pull σ ε α) : Prop :=
  ∀ input v rest, r.run input = .ok (v, rest) → rest.length < input.length

/-- Two readers that cannot be told apart on inputs shorter than `n`. -/
def Agree (n : Nat) (f g : Pull σ ε α) : Prop :=
  ∀ input : List σ, input.length < n → f.run input = g.run input

theorem keeps_pure (v : α) : (pure v : Pull σ ε α).Keeps := by
  intro input w rest read
  cases read
  exact Nat.le_refl _

theorem keeps_throw (e : ε) : (throw e : Pull σ ε α).Keeps := by
  intro input w rest read
  cases read

theorem Takes.keeps {r : Pull σ ε α} (takes : r.Takes) : r.Keeps :=
  fun input v rest read => Nat.le_of_lt (takes input v rest read)

theorem Keeps.bind {r : Pull σ ε α} {next : α → Pull σ ε β} (keeps : r.Keeps)
    (then_keeps : ∀ v, (next v).Keeps) : (r >>= next).Keeps := by
  intro input w rest read
  obtain ⟨v, between, first, second⟩ := exists_of_run_bind read
  exact Nat.le_trans (then_keeps v between w rest second) (keeps input v between first)

theorem Keeps.times {r : Pull σ ε α} (keeps : r.Keeps) (n : Nat) : (times n r).Keeps := by
  induction n with
  | zero => exact keeps_pure []
  | succ n ih => exact keeps.bind fun v => ih.bind fun vs => keeps_pure (v :: vs)

theorem Agree.refl (n : Nat) (f : Pull σ ε α) : Agree n f f :=
  fun _ _ => rfl

theorem Agree.bind {n : Nat} {f g : Pull σ ε α} {next other : α → Pull σ ε β}
    (agree : Agree n f g) (keeps : f.Keeps) (then_agree : ∀ v, Agree n (next v) (other v)) :
    Agree n (f >>= next) (g >>= other) := by
  intro input short
  rw [run_bind_eq, run_bind_eq, ← agree input short]
  cases read : f.run input with
  | error e => rfl
  | ok value =>
      have kept := keeps input value.1 value.2 read
      exact then_agree value.1 value.2 (Nat.lt_of_le_of_lt kept short)

/-- What follows a reader that takes something sees a shorter input. -/
theorem Agree.bind_of_takes {n : Nat} {r : Pull σ ε α} {next other : α → Pull σ ε β}
    (takes : r.Takes) (then_agree : ∀ v, Agree n (next v) (other v)) :
    Agree (n + 1) (r >>= next) (r >>= other) := by
  intro input short
  rw [run_bind_eq, run_bind_eq]
  cases read : r.run input with
  | error e => rfl
  | ok value =>
      have fewer := takes input value.1 value.2 read
      exact then_agree value.1 value.2 (by omega)

theorem Agree.times {n : Nat} {f g : Pull σ ε α} (agree : Agree n f g) (keeps : f.Keeps)
    (count : Nat) : Agree n (times count f) (times count g) := by
  induction count with
  | zero => exact Agree.refl n _
  | succ count ih =>
      exact agree.bind keeps fun v => ih.bind (keeps.times count) fun vs => Agree.refl n _

/-- A body that recurs only behind something it has taken. -/
structure Guarded (body : Pull σ ε α → Pull σ ε α) : Prop where
  keeps : ∀ {f}, f.Keeps → (body f).Keeps
  agree : ∀ {n f g}, f.Keeps → g.Keeps → Agree n f g → Agree (n + 1) (body f) (body g)

section Fix

variable [Inhabited ε]

def fixFuel (body : Pull σ ε α → Pull σ ε α) : Nat → Pull σ ε α
  | 0 => throw default
  | fuel + 1 => body (fixFuel body fuel)

/-- The reader that recurs as often as the input can pay for. -/
def fix (body : Pull σ ε α → Pull σ ε α) : Pull σ ε α :=
  fun input => (fixFuel body (input.length + 1)).run input

variable {body : Pull σ ε α → Pull σ ε α}

theorem Guarded.keeps_fixFuel (guarded : Guarded body) (fuel : Nat) :
    (fixFuel body fuel).Keeps := by
  induction fuel with
  | zero => exact keeps_throw default
  | succ fuel ih => exact guarded.keeps ih

theorem Guarded.keeps_fix (guarded : Guarded body) : (fix body).Keeps :=
  fun input => guarded.keeps_fixFuel (input.length + 1) input

/-- More fuel than the input is long makes no difference. -/
theorem Guarded.agree_fixFuel (guarded : Guarded body) (n more : Nat) :
    Agree n (fixFuel body n) (fixFuel body (n + more)) := by
  induction n with
  | zero => exact fun input short => absurd short (Nat.not_lt_zero _)
  | succ n ih =>
      rw [Nat.add_right_comm]
      exact guarded.agree (guarded.keeps_fixFuel n) (guarded.keeps_fixFuel (n + more)) ih

theorem Guarded.agree_fix (guarded : Guarded body) (n : Nat) :
    Agree n (fixFuel body n) (fix body) := by
  intro input short
  obtain ⟨more, rfl⟩ := Nat.exists_eq_add_of_lt short
  have same := guarded.agree_fixFuel (input.length + 1) more input (Nat.lt_succ_self _)
  rw [Nat.add_right_comm, ← same]
  rfl

/-- The fixed point equation: the fuel is never seen. -/
theorem Guarded.fix_eq (guarded : Guarded body) : fix body = body (fix body) := by
  funext input
  have short := Nat.lt_succ_self input.length
  exact guarded.agree (guarded.keeps_fixFuel input.length) guarded.keeps_fix
    (guarded.agree_fix input.length) input short

end Fix

end Pull

end Shrt.Lib
