import Mathlib.Data.List.Basic
import Shrt.Lib.Runs

/-!
# A read-through cache under interleaving

Readers look into a cache, else read the backend and put what they read into
the cache.  Writers write the backend and then drop the entry of the cache.  The
calls run in any order of their steps.  Every write is numbered; a reader that
puts in what it read is late if a writer has written since the read and has
already dropped the entry.  As long as no reader is late, what a reader returns
was written no earlier than by any writer that had returned when it started.
-/

namespace Shrt.Lib.ReadThrough

/-- What became of a command: it took effect and said so, it took effect and
its answer was lost, or it had no effect. -/
inductive Fate where
  | done
  | lost
  | failed
  deriving DecidableEq, Repr

/-- What a read of the backend finds: a row, nothing, or a dead row that the
call then deletes. -/
inductive Found (ρ : Type) where
  | row (row : ρ)
  | absent
  | dead
  deriving DecidableEq, Repr

/-- The steps of the calls on one key, over a store `σ`: what a step is given
from outside is an `ε`, a row of the backend is a `ρ`, an update asks for an
`α` and a value is a `υ`. -/
structure Parts (σ ε ρ α υ : Type) where
  lookup : ε → σ → Option υ × σ
  fetch : ε → σ → Found ρ × σ
  value : ρ → υ
  insert : ε → σ → ρ → σ
  load : ε → σ → Found ρ × σ
  write : ε → σ → ρ → α → Fate × σ
  asked : α → υ
  probe : ε → σ → Found Unit × σ
  reap : ε → σ → σ
  delete : ε → σ → Fate × σ
  tidy : ε → σ → σ
  drop : σ → σ

/-- How far a call has come.  A write is known by the number of writes in
front of it; a fetched row by the number of writes when it was read. -/
inductive Call (ρ α υ : Type) where
  | resolving
  | missed
  | fetched (seen : Nat) (row : ρ)
  | expired
  | answered (value : Option υ)
  | updating (asked : α)
  | loaded (asked : α) (row : ρ)
  | removing
  | probed
  | gone
  | deleted (write : Nat)
  | wrote (write : Nat)
  | returned (write : Option Nat)
  deriving DecidableEq

def Found.elim {ρ β : Type} (found : Found ρ) (row : ρ → β) (absent dead : β) : β :=
  match found with
  | .row r => row r
  | .absent => absent
  | .dead => dead

/-- The store, the calls made so far, every write of the backend (`none`
deletes) and how many writes are covered by a dropped entry. -/
structure Sys (σ ρ α υ : Type) where
  store : σ
  calls : List (Call ρ α υ)
  writes : List (Option υ)
  covered : Nat

inductive Event (ε α : Type) where
  | resolve
  | update (asked : α)
  | remove
  | step (call : Nat) (outside : ε)

/-- What one step of a call does. -/
structure Outcome (σ ρ α υ : Type) where
  store : σ
  call : Call ρ α υ
  wrote : List (Option υ)
  covers : Nat

variable {σ ε ρ α υ : Type}

namespace Parts

variable (parts : Parts σ ε ρ α υ)

/-- What follows a write: its value is on record unless it failed, and the call
goes on if it was acknowledged. -/
def afterWrite (done : Fate × σ) (value : Option υ) (next : Call ρ α υ) : Outcome σ ρ α υ where
  store := done.2
  call := if done.1 = .done then next else .returned none
  wrote := if done.1 = .failed then [] else [value]
  covers := 0

theorem afterWrite_call (done : Fate × σ) (value : Option υ) (next : Call ρ α υ) :
    ((afterWrite done value next).call = next ∧ (afterWrite done value next).wrote = [value]) ∨
      (afterWrite done value next).call = .returned none := by
  obtain ⟨fate, store⟩ := done
  cases fate with
  | done => exact Or.inl ⟨rfl, rfl⟩
  | lost => exact Or.inr rfl
  | failed => exact Or.inr rfl

/-- The next step of a call, when `n` writes were made. -/
def next (n : Nat) (store : σ) (e : ε) : Call ρ α υ → Outcome σ ρ α υ
  | .resolving =>
      let looked := parts.lookup e store
      ⟨looked.2, looked.1.elim .missed fun v => .answered (some v), [], 0⟩
  | .missed =>
      let read := parts.fetch e store
      ⟨read.2, read.1.elim (fun row => .fetched n row) (.answered none) .expired, [], 0⟩
  | .expired => ⟨parts.reap e store, .answered none, [], 0⟩
  | .fetched _ row => ⟨parts.insert e store row, .answered (some (parts.value row)), [], 0⟩
  | .updating asked =>
      let read := parts.load e store
      ⟨read.2, read.1.elim (fun row => .loaded asked row) (.returned none) .gone, [], 0⟩
  | .loaded asked row =>
      afterWrite (parts.write e store row asked) (some (parts.asked asked)) (.wrote n)
  | .removing =>
      let read := parts.probe e store
      ⟨read.2, read.1.elim (fun _ => .probed) (.returned none) .gone, [], 0⟩
  | .gone => ⟨parts.reap e store, .returned none, [], 0⟩
  | .probed => afterWrite (parts.delete e store) none (.deleted n)
  | .deleted write => ⟨parts.tidy e store, .wrote write, [], 0⟩
  | .wrote write => ⟨parts.drop store, .returned (some write), [], write + 1⟩
  | .answered value => ⟨store, .answered value, [], 0⟩
  | .returned write => ⟨store, .returned write, [], 0⟩

/-- One event: a call starts, or one of the calls makes its next step. -/
def step (sys : Sys σ ρ α υ) : Event ε α → Sys σ ρ α υ
  | .resolve => { sys with calls := sys.calls ++ [.resolving] }
  | .update asked => { sys with calls := sys.calls ++ [.updating asked] }
  | .remove => { sys with calls := sys.calls ++ [.removing] }
  | .step i e =>
      match sys.calls[i]? with
      | none => sys
      | some call =>
          let out := parts.next sys.writes.length sys.store e call
          { store := out.store
            calls := sys.calls.set i out.call
            writes := sys.writes ++ out.wrote
            covered := max sys.covered out.covers }

def run (sys : Sys σ ρ α υ) (events : List (Event ε α)) : Sys σ ρ α υ :=
  events.foldl parts.step sys

end Parts

def timely (sys : Sys σ ρ α υ) : Event ε α → Bool
  | .step i _ =>
      match sys.calls[i]? with
      | some (.fetched seen _) => sys.covered ≤ seen
      | _ => true
  | _ => true

/-! ## Laws of the steps -/

/-- No row and no entry was added or changed. -/
structure Quiet (row cached : σ → Option υ) (s s' : σ) : Prop where
  row : ∀ v, row s' = some v → row s = some v
  cached : ∀ v, cached s' = some v → cached s = some v

/-- The steps as seen through the value in the backend and the one in the
cache. -/
structure Parts.Lawful (parts : Parts σ ε ρ α υ) (row cached : σ → Option υ) : Prop where
  lookup_quiet : ∀ e s, Quiet row cached s (parts.lookup e s).2
  lookup_hit : ∀ e s v, (parts.lookup e s).1 = some v → cached s = some v
  fetch_quiet : ∀ e s, Quiet row cached s (parts.fetch e s).2
  fetch_some : ∀ e s r, (parts.fetch e s).1 = .row r → row s = some (parts.value r)
  insert_row : ∀ e s r v, row (parts.insert e s r) = some v → row s = some v
  insert_cached : ∀ e s r v, cached (parts.insert e s r) = some v → v = parts.value r
  load_quiet : ∀ e s, Quiet row cached s (parts.load e s).2
  write_quiet : ∀ e s r a, (parts.write e s r a).1 = .failed →
    Quiet row cached s (parts.write e s r a).2
  write_row : ∀ e s r a v, (parts.write e s r a).1 ≠ .failed →
    row (parts.write e s r a).2 = some v → v = parts.asked a
  write_cached : ∀ e s r a v, cached (parts.write e s r a).2 = some v → cached s = some v
  probe_quiet : ∀ e s, Quiet row cached s (parts.probe e s).2
  delete_quiet : ∀ e s, (parts.delete e s).1 = .failed → Quiet row cached s (parts.delete e s).2
  delete_row : ∀ e s, (parts.delete e s).1 ≠ .failed → row (parts.delete e s).2 = none
  delete_cached : ∀ e s v, cached (parts.delete e s).2 = some v → cached s = some v
  reap_quiet : ∀ e s, Quiet row cached s (parts.reap e s)
  tidy_quiet : ∀ e s, Quiet row cached s (parts.tidy e s)
  drop_quiet : ∀ s, Quiet row cached s (parts.drop s)
  drop_cached : ∀ s, cached (parts.drop s) = none

namespace Parts.Lawful

variable {parts : Parts σ ε ρ α υ} {row cached : σ → Option υ} {n : Nat} {s : σ} {e : ε}
variable {call : Call ρ α υ}

/-- A step leaves the row, or writes the one that is there after it. -/
theorem next_row (lawful : parts.Lawful row cached) (n : Nat) (s : σ) (e : ε) (call : Call ρ α υ) :
    ((parts.next n s e call).wrote = [] ∧
        ∀ v, row (parts.next n s e call).store = some v → row s = some v) ∨
      ∃ x, (parts.next n s e call).wrote = [x] ∧
        ∀ v, row (parts.next n s e call).store = some v → x = some v := by
  cases call with
  | resolving => exact Or.inl ⟨rfl, (lawful.lookup_quiet e s).row⟩
  | missed => exact Or.inl ⟨rfl, (lawful.fetch_quiet e s).row⟩
  | fetched seen r => exact Or.inl ⟨rfl, lawful.insert_row e s r⟩
  | expired => exact Or.inl ⟨rfl, (lawful.reap_quiet e s).row⟩
  | gone => exact Or.inl ⟨rfl, (lawful.reap_quiet e s).row⟩
  | updating asked => exact Or.inl ⟨rfl, (lawful.load_quiet e s).row⟩
  | loaded asked r =>
      by_cases failed : (parts.write e s r asked).1 = .failed
      · exact Or.inl ⟨if_pos failed, (lawful.write_quiet e s r asked failed).row⟩
      · refine Or.inr ⟨_, if_neg failed, fun v shown => ?_⟩
        rw [lawful.write_row e s r asked v failed shown]
  | removing => exact Or.inl ⟨rfl, (lawful.probe_quiet e s).row⟩
  | probed =>
      by_cases failed : (parts.delete e s).1 = .failed
      · exact Or.inl ⟨if_pos failed, (lawful.delete_quiet e s failed).row⟩
      · refine Or.inr ⟨_, if_neg failed, fun v shown => ?_⟩
        exact (lawful.delete_row e s failed).symm.trans shown
  | deleted write => exact Or.inl ⟨rfl, (lawful.tidy_quiet e s).row⟩
  | wrote write => exact Or.inl ⟨rfl, (lawful.drop_quiet s).row⟩
  | answered value => exact Or.inl ⟨rfl, fun _ shown => shown⟩
  | returned write => exact Or.inl ⟨rfl, fun _ shown => shown⟩

/-- What is cached after a step was cached before, or is put in by a reader. -/
theorem next_cached (lawful : parts.Lawful row cached) {v : υ}
    (shown : cached (parts.next n s e call).store = some v) :
    (parts.next n s e call).covers = 0 ∧
      (cached s = some v ∨ ∃ seen r, call = .fetched seen r ∧ v = parts.value r) := by
  cases call with
  | resolving => exact ⟨rfl, Or.inl ((lawful.lookup_quiet e s).cached v shown)⟩
  | missed => exact ⟨rfl, Or.inl ((lawful.fetch_quiet e s).cached v shown)⟩
  | fetched seen r => exact ⟨rfl, Or.inr ⟨seen, r, rfl, lawful.insert_cached e s r v shown⟩⟩
  | expired => exact ⟨rfl, Or.inl ((lawful.reap_quiet e s).cached v shown)⟩
  | gone => exact ⟨rfl, Or.inl ((lawful.reap_quiet e s).cached v shown)⟩
  | updating asked => exact ⟨rfl, Or.inl ((lawful.load_quiet e s).cached v shown)⟩
  | loaded asked r => exact ⟨rfl, Or.inl (lawful.write_cached e s r asked v shown)⟩
  | removing => exact ⟨rfl, Or.inl ((lawful.probe_quiet e s).cached v shown)⟩
  | probed => exact ⟨rfl, Or.inl (lawful.delete_cached e s v shown)⟩
  | deleted write => exact ⟨rfl, Or.inl ((lawful.tidy_quiet e s).cached v shown)⟩
  | wrote write =>
      rw [next, lawful.drop_cached] at shown
      cases shown
  | answered value => exact ⟨rfl, Or.inl shown⟩
  | returned write => exact ⟨rfl, Or.inl shown⟩

end Parts.Lawful

/-! ## Freshness -/

/-- The value is not older than the `n`th write. -/
def Fresh (writes : List (Option υ)) (n : Nat) (v : υ) : Prop :=
  n = 0 ∨ some v ∈ writes.drop (n - 1)

namespace Fresh

variable {writes : List (Option υ)} {n m : Nat} {v : υ}

theorem mono (fresh : Fresh writes n v) (le : m ≤ n) : Fresh writes m v := by
  rcases fresh with zero | member
  · exact Or.inl (by omega)
  · exact Or.inr ((List.drop_sublist_drop_left writes (by omega)).subset member)

theorem append (fresh : Fresh writes n v) (more : List (Option υ)) :
    Fresh (writes ++ more) n v := by
  rcases fresh with zero | member
  · exact Or.inl zero
  · right
    rw [List.drop_append]
    exact List.mem_append_left _ member

theorem last (writes : List (Option υ)) (v : υ) :
    Fresh (writes ++ [some v]) (writes ++ [some v]).length v := by
  right
  simp

end Fresh

/-- What is known of a call at its stage. -/
def Call.Meets (parts : Parts σ ε ρ α υ) (writes : List (Option υ)) (covered : Nat) :
    Call ρ α υ → Prop
  | .fetched seen r => seen ≤ writes.length ∧ Fresh writes seen (parts.value r)
  | .deleted write => write < writes.length
  | .wrote write => write < writes.length
  | .returned (some write) => write < covered
  | _ => True

/-- What is known of a reader that started when `floor` writes were covered. -/
def Call.Since (writes : List (Option υ)) (floor : Nat) : Call ρ α υ → Prop
  | .fetched seen _ => floor ≤ seen
  | .answered (some v) => Fresh writes floor v
  | _ => True

/-- The row is the last write, the entry is no older than what is covered. -/
structure Sound (parts : Parts σ ε ρ α υ) (row cached : σ → Option υ) (sys : Sys σ ρ α υ) :
    Prop where
  row : ∀ v, row sys.store = some v → Fresh sys.writes sys.writes.length v
  cached : ∀ v, cached sys.store = some v → Fresh sys.writes sys.covered v
  bounded : sys.covered ≤ sys.writes.length
  calls : ∀ call ∈ sys.calls, call.Meets parts sys.writes sys.covered

/-- Before any call. -/
def Sys.idle (store : σ) : Sys σ ρ α υ := ⟨store, [], [], 0⟩

theorem sound_idle (parts : Parts σ ε ρ α υ) (row cached : σ → Option υ) (store : σ) :
    Sound parts row cached (.idle store) where
  row _ _ := Or.inl rfl
  cached _ _ := Or.inl rfl
  bounded := Nat.le_refl 0
  calls _ member := absurd member List.not_mem_nil

theorem Call.Meets.mono {parts : Parts σ ε ρ α υ} {writes : List (Option υ)} {covered covered' : Nat}
    {call : Call ρ α υ} (meets : call.Meets parts writes covered) (more : List (Option υ))
    (le : covered ≤ covered') : call.Meets parts (writes ++ more) covered' := by
  cases call with
  | fetched seen r =>
      exact ⟨Nat.le_trans meets.1 (by simp), meets.2.append more⟩
  | deleted write => exact Nat.lt_of_lt_of_le meets (by simp)
  | wrote write => exact Nat.lt_of_lt_of_le meets (by simp)
  | returned write =>
      cases write with
      | none => trivial
      | some k => exact Nat.lt_of_lt_of_le meets le
  | _ => trivial

theorem Call.Since.append {writes : List (Option υ)} {floor : Nat} {call : Call ρ α υ}
    (since : call.Since writes floor) (more : List (Option υ)) :
    call.Since (writes ++ more) floor := by
  cases call with
  | answered v =>
      cases v with
      | none => trivial
      | some v => exact Fresh.append since more
  | fetched seen r => exact since
  | _ => trivial

namespace Sound

variable {parts : Parts σ ε ρ α υ} {row cached : σ → Option υ} {sys : Sys σ ρ α υ} {e : ε}
variable {call : Call ρ α υ}

/-- A call meets what is known of its next stage. -/
theorem next_meets (lawful : parts.Lawful row cached) (sound : Sound parts row cached sys)
    (meets : call.Meets parts sys.writes sys.covered) :
    let out := parts.next sys.writes.length sys.store e call
    out.call.Meets parts (sys.writes ++ out.wrote) (max sys.covered out.covers) := by
  cases call with
  | resolving =>
      simp only [Parts.next]
      cases (parts.lookup e sys.store).1 <;> trivial
  | missed =>
      simp only [Parts.next, List.append_nil]
      cases read : (parts.fetch e sys.store).1 with
      | absent => trivial
      | dead => trivial
      | row r => exact ⟨Nat.le_refl _, sound.row _ (lawful.fetch_some e sys.store r read)⟩
  | updating asked =>
      simp only [Parts.next]
      cases (parts.load e sys.store).1 <;> trivial
  | loaded asked r =>
      simp only [Parts.next]
      rcases Parts.afterWrite_call _ _ _ with ⟨call_eq, wrote_eq⟩ | call_eq
      · rw [call_eq, wrote_eq]
        simp [Call.Meets]
      · rw [call_eq]
        trivial
  | removing =>
      simp only [Parts.next]
      cases (parts.probe e sys.store).1 <;> trivial
  | probed =>
      simp only [Parts.next]
      rcases Parts.afterWrite_call _ _ _ with ⟨call_eq, wrote_eq⟩ | call_eq
      · rw [call_eq, wrote_eq]
        simp [Call.Meets]
      · rw [call_eq]
        trivial
  | deleted write =>
      simp only [Parts.next, List.append_nil]
      exact meets
  | wrote write => exact Nat.lt_of_lt_of_le (Nat.lt_succ_self write) (Nat.le_max_right _ _)
  | returned write => exact meets.mono [] (Nat.le_max_left _ _)
  | _ => trivial

/-- A reader that started at `floor` meets what is known of its next stage. -/
theorem next_since (lawful : parts.Lawful row cached) (sound : Sound parts row cached sys)
    {floor : Nat} (reached : floor ≤ sys.covered) (meets : call.Meets parts sys.writes sys.covered)
    (since : call.Since sys.writes floor) :
    let out := parts.next sys.writes.length sys.store e call
    out.call.Since (sys.writes ++ out.wrote) floor := by
  cases call with
  | resolving =>
      simp only [Parts.next, List.append_nil]
      cases looked : (parts.lookup e sys.store).1 with
      | none => trivial
      | some v => exact (sound.cached v (lawful.lookup_hit e sys.store v looked)).mono reached
  | missed =>
      simp only [Parts.next, List.append_nil]
      cases (parts.fetch e sys.store).1 with
      | absent => trivial
      | dead => trivial
      | row r => exact Nat.le_trans reached sound.bounded
  | fetched seen r =>
      simp only [Parts.next, List.append_nil]
      exact meets.2.mono since
  | updating asked =>
      simp only [Parts.next]
      cases (parts.load e sys.store).1 <;> trivial
  | loaded asked r =>
      simp only [Parts.next]
      rcases Parts.afterWrite_call _ _ _ with ⟨call_eq, -⟩ | call_eq
      all_goals
        rw [call_eq]
        trivial
  | removing =>
      simp only [Parts.next]
      cases (parts.probe e sys.store).1 <;> trivial
  | probed =>
      simp only [Parts.next]
      rcases Parts.afterWrite_call _ _ _ with ⟨call_eq, -⟩ | call_eq
      all_goals
        rw [call_eq]
        trivial
  | answered value => exact since.append []
  | _ => trivial

/-- A call that starts. -/
theorem started (sound : Sound parts row cached sys)
    (meets : call.Meets parts sys.writes sys.covered) :
    Sound parts row cached { sys with calls := sys.calls ++ [call] } where
  row := sound.row
  cached := sound.cached
  bounded := sound.bounded
  calls other member := by
    rcases List.mem_append.mp member with earlier | new
    · exact sound.calls other earlier
    · rw [List.mem_singleton.mp new]
      exact meets

/-- The row after a step is the last write. -/
theorem next_row (lawful : parts.Lawful row cached) (sound : Sound parts row cached sys) {v : υ}
    (shown : row (parts.next sys.writes.length sys.store e call).store = some v) :
    let writes := sys.writes ++ (parts.next sys.writes.length sys.store e call).wrote
    Fresh writes writes.length v := by
  rcases lawful.next_row sys.writes.length sys.store e call with ⟨none, kept⟩ | ⟨x, one, last⟩
  · rw [none, List.append_nil]
    exact sound.row v (kept v shown)
  · rw [one, last v shown]
    exact Fresh.last sys.writes v

/-- The entry after a step covers what is covered, if no late reader put it in. -/
theorem next_cached (lawful : parts.Lawful row cached) (sound : Sound parts row cached sys)
    (meets : call.Meets parts sys.writes sys.covered)
    (fine : ∀ seen r, call = .fetched seen r → sys.covered ≤ seen) {v : υ}
    (shown : cached (parts.next sys.writes.length sys.store e call).store = some v) :
    let out := parts.next sys.writes.length sys.store e call
    Fresh (sys.writes ++ out.wrote) (max sys.covered out.covers) v := by
  dsimp only
  obtain ⟨nothing, kept | ⟨seen, r, rfl, rfl⟩⟩ := lawful.next_cached shown
  · rw [nothing, Nat.max_zero]
    exact (sound.cached v kept).append _
  · rw [nothing, Nat.max_zero]
    exact (meets.2.mono (fine seen r rfl)).append _

/-- What one write covers is on record. -/
theorem next_bounded (sound : Sound parts row cached sys)
    (meets : call.Meets parts sys.writes sys.covered) :
    let out := parts.next sys.writes.length sys.store e call
    max sys.covered out.covers ≤ (sys.writes ++ out.wrote).length := by
  have grows : sys.covered ≤
      (sys.writes ++ (parts.next sys.writes.length sys.store e call).wrote).length := by
    rw [List.length_append]
    exact Nat.le_add_right_of_le sound.bounded
  refine Nat.max_le.mpr ⟨grows, ?_⟩
  cases call with
  | wrote write =>
      simp only [Parts.next, List.append_nil]
      exact meets
  | _ => exact Nat.zero_le _

theorem step (lawful : parts.Lawful row cached) (sound : Sound parts row cached sys)
    {event : Event ε α} (fine : timely sys event = true) :
    Sound parts row cached (parts.step sys event) := by
  cases event with
  | resolve => exact sound.started trivial
  | update asked => exact sound.started trivial
  | remove => exact sound.started trivial
  | step i e =>
      rw [Parts.step]
      cases there : sys.calls[i]? with
      | none => exact sound
      | some call =>
          have meets := sound.calls call (List.mem_of_getElem? there)
          refine ⟨fun v => sound.next_row lawful, fun v => ?_, sound.next_bounded meets,
            fun other member => ?_⟩
          · refine sound.next_cached lawful meets fun seen r stage => ?_
            rw [timely, there, stage] at fine
            exact of_decide_eq_true fine
          · rcases List.mem_or_eq_of_mem_set member with earlier | rfl
            · exact (sound.calls other earlier).mono _ (Nat.le_max_left _ _)
            · exact sound.next_meets lawful meets

end Sound

/-- What is known of the reader `i` that started when `floor` writes were covered. -/
structure Reader (parts : Parts σ ε ρ α υ) (row cached : σ → Option υ) (i floor : Nat)
    (sys : Sys σ ρ α υ) : Prop where
  sound : Sound parts row cached sys
  reached : floor ≤ sys.covered
  listed : i < sys.calls.length
  since : ∀ call, sys.calls[i]? = some call → call.Since sys.writes floor

namespace Reader

variable {parts : Parts σ ε ρ α υ} {row cached : σ → Option υ} {i floor : Nat} {sys : Sys σ ρ α υ}

/-- A later call does not matter to the reader. -/
theorem started (reader : Reader parts row cached i floor sys) {call : Call ρ α υ}
    (sound : Sound parts row cached { sys with calls := sys.calls ++ [call] }) :
    Reader parts row cached i floor { sys with calls := sys.calls ++ [call] } where
  sound := sound
  reached := reader.reached
  listed := by
    rw [List.length_append]
    exact Nat.lt_add_right _ reader.listed
  since other there := by
    rw [List.getElem?_append_left reader.listed] at there
    exact reader.since other there

theorem step (lawful : parts.Lawful row cached) (reader : Reader parts row cached i floor sys)
    {event : Event ε α} (fine : timely sys event = true) :
    Reader parts row cached i floor (parts.step sys event) := by
  have sound := reader.sound.step lawful fine
  cases event with
  | resolve => exact reader.started sound
  | update asked => exact reader.started sound
  | remove => exact reader.started sound
  | step j e =>
      rw [Parts.step] at sound ⊢
      cases there : sys.calls[j]? with
      | none => exact reader
      | some call =>
          rw [there] at sound
          refine ⟨sound, Nat.le_trans reader.reached (Nat.le_max_left _ _), ?_, fun other place => ?_⟩
          · rw [List.length_set]
            exact reader.listed
          · rw [List.getElem?_set] at place
            by_cases same : j = i
            · subst same
              rw [if_pos rfl, if_pos reader.listed] at place
              cases place
              exact reader.sound.next_since lawful reader.reached
                (reader.sound.calls call (List.mem_of_getElem? there)) (reader.since call there)
            · rw [if_neg same] at place
              exact (reader.since other place).append _

end Reader

/-- If no reader is late, a reader returns a value that was written no earlier
than by any writer that had returned before the reader started. -/
theorem read_after_write {parts : Parts σ ε ρ α υ} {row cached : σ → Option υ}
    (lawful : parts.Lawful row cached) {store : σ} {first rest : List (Event ε α)}
    (fine : Runs.Along parts.step (fun sys event => timely sys event = true) (.idle store)
      (first ++ .resolve :: rest))
    {write : Nat} (returned : .returned (some write) ∈ (parts.run (.idle store) first).calls)
    {v : υ} (answer : (parts.run (.idle store) (first ++ .resolve :: rest)).calls[
      (parts.run (.idle store) first).calls.length]? = some (.answered (some v))) :
    some v ∈ (parts.run (.idle store) (first ++ .resolve :: rest)).writes.drop write := by
  obtain ⟨before, after⟩ := Runs.Along.append.mp fine
  have sound : Sound parts row cached (parts.run (.idle store) first) :=
    before.invariant (fun _ _ sound fine => sound.step lawful fine)
      (sound_idle parts row cached store)
  have covered : write < (parts.run (.idle store) first).covered := sound.calls _ returned
  have reader : Reader parts row cached (parts.run (.idle store) first).calls.length (write + 1)
      (parts.step (parts.run (.idle store) first) .resolve) := by
    refine ⟨sound.started trivial, covered, ?_, fun call there => ?_⟩
    · simp [Parts.step]
    · simp only [Parts.step, List.getElem?_concat_length, Option.some.injEq] at there
      subst there
      trivial
  have final : Reader parts row cached (parts.run (.idle store) first).calls.length (write + 1)
      (rest.foldl parts.step (parts.step (parts.run (.idle store) first) .resolve)) :=
    after.2.invariant (fun _ _ reader fine => reader.step lawful fine) reader
  have run_eq : parts.run (.idle store) (first ++ .resolve :: rest) =
      rest.foldl parts.step (parts.step (parts.run (.idle store) first) .resolve) := by
    rw [Parts.run, List.foldl_append]
    rfl
  rw [run_eq] at answer ⊢
  rcases final.since _ answer with zero | member
  · cases zero
  · exact member

end Shrt.Lib.ReadThrough
