import Mathlib.Data.List.Basic
import Mathlib.Data.List.Nodup
import Shrt.Lib.Runs

/-!
# Calls that take effect at one step

Calls are cut into steps, and the steps of many calls are made in any order.  If
every call takes effect at one of its steps, there in the way of the whole call
made in one go, then the calls have a sequential order with the same answers
and the same end: the order in which they took effect.
-/

namespace Shrt.Lib.Linear

/-- Calls in steps over a store `σ`: a call is given an `ι`, stands at a `π` and
answers a `β`.  The answer is known from the step on at which the call takes
effect; `whole` is the call in one go. -/
structure Calls (σ ι π β : Type) where
  start : ι → π
  next : ι → σ → π → σ × π
  answer : π → Option β
  whole : ι → σ → β × σ

structure Sys (σ ι π : Type) where
  store : σ
  calls : List (ι × π)

inductive Event (ι : Type) where
  | call (input : ι)
  | step (call : Nat)

variable {σ ι π β κ : Type}

def Event.input : Event ι → Option ι
  | .call input => some input
  | .step _ => none

/-- Before any call. -/
def Sys.idle (store : σ) : Sys σ ι π := ⟨store, []⟩

def Sys.inputAt (sys : Sys σ ι π) (k : Nat) : Option ι :=
  (sys.calls[k]?).map Prod.fst

namespace Calls

variable (calls : Calls σ ι π β)

/-- One event: a call starts, or one of the calls makes its next step. -/
def step (sys : Sys σ ι π) : Event ι → Sys σ ι π
  | .call input => { sys with calls := sys.calls ++ [(input, calls.start input)] }
  | .step k =>
      match sys.calls[k]? with
      | none => sys
      | some call =>
          let done := calls.next call.1 sys.store call.2
          { store := done.1, calls := sys.calls.set k (call.1, done.2) }

def run (sys : Sys σ ι π) (events : List (Event ι)) : Sys σ ι π :=
  events.foldl calls.step sys

/-- The answer of a call that has taken effect. -/
def answerAt (sys : Sys σ ι π) (k : Nat) : Option β :=
  (sys.calls[k]?).bind fun call => calls.answer call.2

/-- The calls one after the other, each in one go. -/
def inOrder (s : σ) : List ι → List β × σ
  | [] => ([], s)
  | input :: later =>
      let done := calls.whole input s
      let rest := inOrder done.2 later
      (done.1 :: rest.1, rest.2)

/-- A sequential order of the calls that have taken effect, by their numbers,
with the same answers and the same row in the end.  Each call is given what it
was given in the run, up to what is not its own. -/
structure Linearizes (like : ι → ι → Prop) (row : σ → κ) (s : σ) (sys : Sys σ ι π)
    (order : List (Nat × ι)) : Prop where
  once : (order.map Prod.fst).Nodup
  complete : ∀ k, k ∈ order.map Prod.fst ↔ calls.answerAt sys k ≠ none
  inputs : ∀ t ∈ order, ∃ input, sys.inputAt t.1 = some input ∧ like input t.2
  answers : (calls.inOrder s (order.map Prod.snd)).1.map some =
    order.map fun t => calls.answerAt sys t.1
  row : row (calls.inOrder s (order.map Prod.snd)).2 = row sys.store

/-- The step that an event makes meets the condition in the store it finds. -/
def Meets (guard : ι → σ → π → Bool) (sys : Sys σ ι π) : Event ι → Bool
  | .call _ => true
  | .step k => (sys.calls[k]?).all fun call => guard call.1 sys.store call.2

end Calls

/-! ## Laws of the calls -/

/-- What makes the order of effects a sequential order.  `At` says where a call
with an input can stand; a call that `closes` leaves the store closed, for good. -/
structure Calls.Lawful (calls : Calls σ ι π β) (like : ι → ι → Prop) (row : σ → κ)
    (At : ι → π → Prop) (closes : ι → β → Prop) (Closed : σ → Prop) (guard : ι → σ → π → Bool) :
    Prop where
  at_start : ∀ i, At i (calls.start i)
  at_next : ∀ i s p, At i p → At i (calls.next i s p).2
  unanswered : ∀ i, calls.answer (calls.start i) = none
  final : ∀ i s p b, calls.answer p = some b → calls.answer (calls.next i s p).2 = some b
  congr : ∀ i s s', row s = row s' → (calls.whole i s).1 = (calls.whole i s').1 ∧
    row (calls.whole i s).2 = row (calls.whole i s').2
  like_closes : ∀ i i' b, like i i' → closes i b → closes i' b
  closed_congr : ∀ s s', row s = row s' → Closed s → Closed s'
  closing : ∀ i s, closes i (calls.whole i s).1 → Closed (calls.whole i s).2
  closed : ∀ i s, Closed s → Closed (calls.whole i s).2
  silent : ∀ i s p, At i p → calls.answer (calls.next i s p).2 = calls.answer p →
    (∀ b, calls.answer p = some b → closes i b → Closed s) →
    row (calls.next i s p).1 = row s
  effect : ∀ i s p b, At i p → guard i s p = true → calls.answer p = none →
    calls.answer (calls.next i s p).2 = some b →
    ∃ i', like i i' ∧ (calls.whole i' s).1 = b ∧
      row (calls.whole i' s).2 = row (calls.next i s p).1

namespace Calls

variable {calls : Calls σ ι π β}

theorem inOrder_append (s : σ) (first second : List ι) :
    calls.inOrder s (first ++ second) =
      ((calls.inOrder s first).1 ++ (calls.inOrder (calls.inOrder s first).2 second).1,
        (calls.inOrder (calls.inOrder s first).2 second).2) := by
  induction first generalizing s with
  | nil => rfl
  | cons i first ih =>
      rw [List.cons_append, inOrder, inOrder, ih]
      rfl

section Positions

variable {sys : Sys σ ι π} {k : Nat} {call : ι × π}

theorem answerAt_call (unanswered : ∀ i, calls.answer (calls.start i) = none) (input : ι) (j : Nat) :
    calls.answerAt (calls.step sys (.call input)) j = calls.answerAt sys j := by
  simp only [answerAt, step]
  rcases Nat.lt_trichotomy j sys.calls.length with before | rfl | after
  · rw [List.getElem?_append_left before]
  · simp [unanswered]
  · rw [List.getElem?_eq_none (by rw [List.length_append]; exact after),
      List.getElem?_eq_none (Nat.le_of_lt after)]

theorem inputAt_call {input : ι} {j : Nat} {i : ι} (given : sys.inputAt j = some i) :
    (calls.step sys (.call input)).inputAt j = some i := by
  obtain ⟨call, there, rfl⟩ := Option.map_eq_some_iff.mp given
  rw [Sys.inputAt, step, List.getElem?_append_left (List.getElem?_eq_some_iff.mp there).1, there]
  rfl

theorem step_eq (there : sys.calls[k]? = some call) :
    calls.step sys (.step k) =
      { store := (calls.next call.1 sys.store call.2).1
        calls := sys.calls.set k (call.1, (calls.next call.1 sys.store call.2).2) } := by
  simp only [step, there]

theorem answerAt_step (there : sys.calls[k]? = some call) (j : Nat) :
    calls.answerAt (calls.step sys (.step k)) j =
      if j = k then calls.answer (calls.next call.1 sys.store call.2).2
      else calls.answerAt sys j := by
  have listed := (List.getElem?_eq_some_iff.mp there).1
  rw [step_eq there, answerAt, List.getElem?_set]
  by_cases same : j = k
  · subst same
    simp [listed]
  · simp [same, Ne.symm same, answerAt]

theorem inputAt_step (there : sys.calls[k]? = some call) (j : Nat) :
    (calls.step sys (.step k)).inputAt j = sys.inputAt j := by
  have listed := (List.getElem?_eq_some_iff.mp there).1
  rw [step_eq there, Sys.inputAt, Sys.inputAt, List.getElem?_set]
  by_cases same : j = k
  · subst same
    rw [if_pos rfl, if_pos listed, there]
    rfl
  · rw [if_neg (Ne.symm same)]

/-- The calls are numbered as they start. -/
theorem inputs_run (sys : Sys σ ι π) (events : List (Event ι)) :
    (calls.run sys events).calls.map Prod.fst =
      sys.calls.map Prod.fst ++ events.filterMap Event.input := by
  induction events generalizing sys with
  | nil => simp [run]
  | cons event events ih =>
      refine (ih (calls.step sys event)).trans ?_
      cases event with
      | call input => simp [step, Event.input]
      | step k =>
          have inputs : (calls.step sys (.step k)).calls.map Prod.fst = sys.calls.map Prod.fst := by
            refine List.ext_getElem? fun j => ?_
            cases there : sys.calls[k]? with
            | none => rw [step, there]
            | some call =>
                rw [List.getElem?_map, List.getElem?_map]
                exact inputAt_step there j
          rw [inputs]
          rfl

theorem inputAt_run (s : σ) (events : List (Event ι)) (k : Nat) :
    (calls.run (.idle s) events).inputAt k = (events.filterMap Event.input)[k]? := by
  rw [Sys.inputAt, ← List.getElem?_map, inputs_run]
  rfl

end Positions

section Order

variable {like : ι → ι → Prop} {row : σ → κ} {At : ι → π → Prop} {closes : ι → β → Prop}
variable {Closed : σ → Prop} {guard : ι → σ → π → Bool}

theorem Lawful.closed_inOrder (lawful : calls.Lawful like row At closes Closed guard) {s : σ}
    (closed : Closed s) (inputs : List ι) : Closed (calls.inOrder s inputs).2 := by
  induction inputs generalizing s with
  | nil => exact closed
  | cons i inputs ih => exact ih (lawful.closed i s closed)

/-- The store stays closed after a call that closes it. -/
theorem Lawful.closing_inOrder (lawful : calls.Lawful like row At closes Closed guard) {s : σ}
    {inputs : List ι} {k : Nat} {i : ι} {b : β} (given : inputs[k]? = some i)
    (answered : (calls.inOrder s inputs).1[k]? = some b) (closing : closes i b) :
    Closed (calls.inOrder s inputs).2 := by
  induction inputs generalizing s k with
  | nil => cases given
  | cons first inputs ih =>
      cases k with
      | zero =>
          cases given
          cases answered
          exact lawful.closed_inOrder (lawful.closing _ s closing) inputs
      | succ k => exact ih given answered

/-- What holds of a run: an order of the effects so far, and every call stands
where it can. -/
structure Ordered (calls : Calls σ ι π β) (like : ι → ι → Prop) (row : σ → κ) (At : ι → π → Prop)
    (s : σ) (sys : Sys σ ι π) (order : List (Nat × ι)) : Prop where
  linear : calls.Linearizes like row s sys order
  placed : ∀ call ∈ sys.calls, At call.1 call.2

theorem ordered_idle (calls : Calls σ ι π β) (like : ι → ι → Prop) (row : σ → κ)
    (At : ι → π → Prop) (s : σ) : calls.Ordered like row At s (.idle s) [] where
  linear :=
    { once := List.nodup_nil
      complete := fun k => by simp [answerAt, Sys.idle]
      inputs := fun t member => absurd member List.not_mem_nil
      answers := rfl
      row := rfl }
  placed _ member := absurd member List.not_mem_nil

namespace Linearizes

variable {s : σ} {sys : Sys σ ι π} {order : List (Nat × ι)}

/-- A call that closes the store closes it for good, in any sequential order. -/
theorem closed_inOrder {κ' : Type} {row' : σ → κ'}
    (lawful : calls.Lawful like row' At closes Closed guard)
    (linear : calls.Linearizes like row s sys order) {k : Nat} {i : ι} {b : β}
    (given : sys.inputAt k = some i) (answered : calls.answerAt sys k = some b)
    (closing : closes i b) : Closed (calls.inOrder s (order.map Prod.snd)).2 := by
  have member : k ∈ order.map Prod.fst := by
    rw [linear.complete, answered]
    exact Option.some_ne_none b
  obtain ⟨t, listed, rfl⟩ := List.mem_map.mp member
  obtain ⟨input, given', likely⟩ := linear.inputs t listed
  rw [given] at given'
  cases given'
  obtain ⟨n, place⟩ := List.mem_iff_getElem?.mp listed
  have input_eq : (order.map Prod.snd)[n]? = some t.2 := by
    rw [List.getElem?_map, place]
    rfl
  have answer_eq : (calls.inOrder s (order.map Prod.snd)).1[n]? = some b := by
    have both := congrArg (fun answers => answers[n]?) linear.answers
    simp only [List.getElem?_map, place, Option.map_some, answered] at both
    obtain ⟨b', there, same⟩ := Option.map_eq_some_iff.mp both
    cases same
    exact there
  exact lawful.closing_inOrder input_eq answer_eq (lawful.like_closes _ _ b likely closing)

theorem closed (lawful : calls.Lawful like row At closes Closed guard)
    (linear : calls.Linearizes like row s sys order) {k : Nat} {i : ι} {b : β}
    (given : sys.inputAt k = some i) (answered : calls.answerAt sys k = some b)
    (closing : closes i b) : Closed sys.store :=
  lawful.closed_congr _ _ linear.row (linear.closed_inOrder lawful given answered closing)

/-- Less of the row may be looked at. -/
theorem of_row {κ' : Type} (linear : calls.Linearizes like row s sys order) (f : κ → κ') :
    calls.Linearizes like (f ∘ row) s sys order where
  once := linear.once
  complete := linear.complete
  inputs := linear.inputs
  answers := linear.answers
  row := congrArg f linear.row

/-- Nothing took effect. -/
theorem of_silent {sys' : Sys σ ι π} (linear : calls.Linearizes like row s sys order)
    (answers : ∀ k, calls.answerAt sys' k = calls.answerAt sys k)
    (inputs : ∀ k i, sys.inputAt k = some i → sys'.inputAt k = some i)
    (rows : row sys'.store = row sys.store) : calls.Linearizes like row s sys' order where
  once := linear.once
  complete k := by rw [linear.complete, answers]
  inputs t member := by
    obtain ⟨input, given, likely⟩ := linear.inputs t member
    exact ⟨input, inputs _ _ given, likely⟩
  answers := by
    rw [linear.answers]
    simp only [answers]
  row := linear.row.trans rows.symm

/-- One call took effect. -/
theorem of_effect {sys' : Sys σ ι π} (lawful : calls.Lawful like row At closes Closed guard)
    (linear : calls.Linearizes like row s sys order) {k : Nat} {i i' : ι} {b : β}
    (fresh : calls.answerAt sys k = none)
    (answers : ∀ j, calls.answerAt sys' j = if j = k then some b else calls.answerAt sys j)
    (inputs : ∀ j, sys'.inputAt j = sys.inputAt j) (given : sys.inputAt k = some i)
    (likely : like i i') (answered : (calls.whole i' sys.store).1 = b)
    (rows : row (calls.whole i' sys.store).2 = row sys'.store) :
    calls.Linearizes like row s sys' (order ++ [(k, i')]) := by
  have absent : k ∉ order.map Prod.fst := by
    rw [linear.complete, fresh]
    exact fun different => different rfl
  have same := lawful.congr i' _ _ linear.row
  refine
    { once := ?_
      complete := fun j => ?_
      inputs := fun t member => ?_
      answers := ?_
      row := ?_ }
  · rw [List.map_append, List.nodup_append]
    refine ⟨linear.once, List.nodup_singleton _, ?_⟩
    rintro j earlier j' new rfl
    rw [List.map_singleton, List.mem_singleton] at new
    subst new
    exact absent earlier
  · rw [List.map_append, List.mem_append, linear.complete, answers, List.map_singleton,
      List.mem_singleton]
    by_cases here : j = k
    · simp [here]
    · simp [here]
  · rcases List.mem_append.mp member with earlier | new
    · obtain ⟨input, given, likely⟩ := linear.inputs t earlier
      exact ⟨input, by rw [inputs, given], likely⟩
    · rw [List.mem_singleton.mp new]
      exact ⟨i, by rw [inputs, given], likely⟩
  · have others : (order.map fun t => calls.answerAt sys' t.1) =
        order.map fun t => calls.answerAt sys t.1 := by
      refine List.map_congr_left fun t member => ?_
      rw [answers, if_neg]
      rintro rfl
      exact absent (List.mem_map_of_mem member)
    rw [List.map_append, List.map_append, inOrder_append, List.map_append, linear.answers, others]
    simp [inOrder, same.1, answered, answers]
  · rw [List.map_append, inOrder_append]
    exact same.2.trans rows

end Linearizes

namespace Ordered

variable {s : σ} {sys : Sys σ ι π} {order : List (Nat × ι)}

/-- A call makes its next step: it takes effect, or nothing changes. -/
theorem next (lawful : calls.Lawful like row At closes Closed guard)
    (ordered : calls.Ordered like row At s sys order) {k : Nat} {call : ι × π}
    (there : sys.calls[k]? = some call) (fine : guard call.1 sys.store call.2 = true) :
    ∃ later, calls.Linearizes like row s (calls.step sys (.step k)) (order ++ later) := by
  have placed := ordered.placed call (List.mem_of_getElem? there)
  have given : sys.inputAt k = some call.1 := by rw [Sys.inputAt, there, Option.map_some]
  have before : calls.answerAt sys k = calls.answer call.2 := by rw [answerAt, there, Option.bind_some]
  have unchanged : calls.answer (calls.next call.1 sys.store call.2).2 = calls.answer call.2 →
      ∃ later, calls.Linearizes like row s (calls.step sys (.step k)) (order ++ later) := by
    intro same
    refine ⟨[], ?_⟩
    rw [List.append_nil]
    refine ordered.linear.of_silent (fun j => ?_) (fun j i given => ?_) ?_
    · rw [answerAt_step there]
      split
      · rename_i here
        rw [here, same, before]
      · rfl
    · rw [inputAt_step there, given]
    · rw [step_eq there]
      refine lawful.silent _ _ _ placed same fun b answered closing => ?_
      exact ordered.linear.closed lawful given (before.trans answered) closing
  cases answered : calls.answer call.2 with
  | some b => exact unchanged (by rw [answered, lawful.final _ _ _ b answered])
  | none =>
      cases effect : calls.answer (calls.next call.1 sys.store call.2).2 with
      | none => exact unchanged (effect.trans answered.symm)
      | some b =>
          obtain ⟨i', likely, answer_eq, rows⟩ :=
            lawful.effect call.1 sys.store call.2 b placed fine answered effect
          refine ⟨[(k, i')], ?_⟩
          refine ordered.linear.of_effect lawful (before.trans answered) (fun j => ?_)
            (inputAt_step there) given likely answer_eq ?_
          · rw [answerAt_step there, effect]
          · rw [step_eq there]
            exact rows

theorem step (lawful : calls.Lawful like row At closes Closed guard)
    (ordered : calls.Ordered like row At s sys order) {event : Event ι}
    (fine : Meets guard sys event = true) :
    ∃ later, calls.Ordered like row At s (calls.step sys event) (order ++ later) := by
  cases event with
  | call input =>
      refine ⟨[], ?_, fun call member => ?_⟩
      · rw [List.append_nil]
        exact ordered.linear.of_silent (answerAt_call lawful.unanswered input)
          (fun _ _ given => inputAt_call given) rfl
      · rcases List.mem_append.mp member with earlier | new
        · exact ordered.placed call earlier
        · rw [List.mem_singleton.mp new]
          exact lawful.at_start input
  | step k =>
      cases there : sys.calls[k]? with
      | none =>
          refine ⟨[], ?_⟩
          rw [List.append_nil, Calls.step, there]
          exact ordered
      | some call =>
          rw [Meets, there, Option.all_some] at fine
          obtain ⟨later, linear⟩ := ordered.next lawful there fine
          refine ⟨later, linear, fun other member => ?_⟩
          rw [step_eq there] at member
          rcases List.mem_or_eq_of_mem_set member with earlier | rfl
          · exact ordered.placed other earlier
          · exact lawful.at_next _ _ _ (ordered.placed call (List.mem_of_getElem? there))

/-- The order of a run extends the orders of its beginnings. -/
theorem run (lawful : calls.Lawful like row At closes Closed guard)
    (ordered : calls.Ordered like row At s sys order) {events : List (Event ι)}
    (fine : Runs.Along calls.step (fun sys event => Meets guard sys event = true) sys events) :
    ∃ later, calls.Ordered like row At s (calls.run sys events) (order ++ later) := by
  induction events generalizing sys order with
  | nil => exact ⟨[], by rwa [List.append_nil]⟩
  | cons event events ih =>
      obtain ⟨now, next⟩ := ordered.step lawful fine.1
      obtain ⟨later, final⟩ := ih next fine.2
      refine ⟨now ++ later, ?_⟩
      rw [← List.append_assoc]
      exact final

end Ordered

/-- A run whose steps all meet the condition has a sequential order that begins
with the order of any beginning of the run. -/
theorem linearizes_run (lawful : calls.Lawful like row At closes Closed guard) {s : σ}
    {first rest : List (Event ι)}
    (fine : Runs.Along calls.step (fun sys event => Meets guard sys event = true) (.idle s)
      (first ++ rest)) :
    ∃ earlier later, calls.Linearizes like row s (calls.run (.idle s) first) earlier ∧
      calls.Linearizes like row s (calls.run (.idle s) (first ++ rest)) (earlier ++ later) := by
  obtain ⟨begun, ended⟩ := Runs.Along.append.mp fine
  obtain ⟨earlier, start⟩ := (ordered_idle calls like row At s).run lawful begun
  rw [List.nil_append] at start
  obtain ⟨later, final⟩ := start.run lawful ended
  refine ⟨earlier, later, start.linear, ?_⟩
  rw [run, List.foldl_append]
  exact final.linear

end Order

end Calls

end Shrt.Lib.Linear
