import Mathlib.Data.List.Basic
import Mathlib.Logic.Function.Basic
import Shrt.Lib.Runs

/-!
# Claiming an instance id

`claim_instance` walks over the lock files of a directory, takes the first it
can create, and steals those of dead processes.  Here any number of processes
do so at once, one file step at a time, while processes start, die and release
their locks.
-/

namespace Shrt.Store

open Shrt.Lib.Runs

abbrev Pid := Int32

def CLAIM_IDS : Nat := 1024

/-- One lock path: the file that is there, the number of files ever made at
it, and the pid that the text of each holds, if it holds one. -/
structure LockPath where
  file : Option Nat
  made : Nat
  text : Nat → Option Pid

namespace LockPath

/-- A path with a lock file left over from earlier, or none. -/
def left : Option (Option Pid) → LockPath
  | none => ⟨none, 0, fun _ => none⟩
  | some text => ⟨some 0, 1, fun _ => text⟩

/-- `create_new` where no file is. -/
def create (l : LockPath) : LockPath :=
  ⟨some l.made, l.made + 1, Function.update l.text l.made none⟩

/-- The write through the handle of the file `f`. -/
def write (l : LockPath) (f : Nat) (pid : Pid) : LockPath :=
  { l with text := Function.update l.text f (some pid) }

def remove (l : LockPath) : LockPath :=
  { l with file := none }

end LockPath

/-- Where a process stands: before the next file step for lock `i`, with the
id `i` returned and its file `f` not released, or not claiming. -/
inductive Claimer where
  | create (i : Nat)
  | write (i f : Nat)
  | read (i : Nat)
  | test (i : Nat) (pid : Pid)
  | remove (i : Nat)
  | recreate (i : Nat)
  | returned (i f : Nat)
  | idle

/-- The lock file that a process has created and not released. -/
def Claimer.has : Claimer → Option (Nat × Nat)
  | .write i f | .returned i f => some (i, f)
  | _ => none

def Claimer.removes : Claimer → Option Nat
  | .remove i => some i
  | _ => none

/-- The next id of the loop, or the error at its end. -/
def Claimer.next (i : Nat) : Claimer :=
  if i + 1 < CLAIM_IDS then .create (i + 1) else .idle

/-- The lock files of a directory and the processes that are alive. -/
structure Lockers where
  locks : Nat → LockPath
  procs : Pid → Option Claimer

inductive LockEvent where
  | spawn (p : Pid)
  | die (p : Pid)
  | claim (p : Pid)
  /-- The next file step of the process; `written` tells whether a write
  succeeds, which the code ignores. -/
  | turn (p : Pid) (written : Bool)
  | release (p : Pid)

namespace Lockers

def start (left : Nat → Option (Option Pid)) : Lockers :=
  ⟨fun i => .left (left i), fun _ => none⟩

def pidAlive (w : Lockers) (p : Pid) : Bool :=
  (w.procs p).isSome

/-- The process `p` goes on to `next`. -/
def goto (w : Lockers) (p : Pid) (next : Claimer) : Lockers :=
  { w with procs := Function.update w.procs p (some next) }

def setLock (w : Lockers) (i : Nat) (l : LockPath) : Lockers :=
  { w with locks := Function.update w.locks i l }

@[simp] theorem goto_locks (w : Lockers) (p : Pid) (c : Claimer) :
    (w.goto p c).locks = w.locks := rfl

@[simp] theorem setLock_self (w : Lockers) (i : Nat) (l : LockPath) :
    (w.setLock i l).locks i = l := by
  simp [setLock]

theorem setLock_other {n i : Nat} (other : n ≠ i) (w : Lockers) (l : LockPath) :
    (w.setLock i l).locks n = w.locks n := by
  simp [setLock, other]

/-- `create_new`: the process goes on to write, or to `otherwise` when the file
exists. -/
def tryCreate (w : Lockers) (p : Pid) (i : Nat) (otherwise : Claimer) : Lockers :=
  match (w.locks i).file with
  | none => (w.setLock i (w.locks i).create).goto p (.write i (w.locks i).made)
  | some _ => w.goto p otherwise

def turn (w : Lockers) (p : Pid) (written : Bool) : Claimer → Lockers
  | .create i => w.tryCreate p i (.read i)
  | .write i f =>
      if written then (w.setLock i ((w.locks i).write f p)).goto p (.returned i f)
      else w.goto p (.returned i f)
  | .read i =>
      match (w.locks i).file.bind (w.locks i).text with
      | none => w.goto p (.next i)
      | some pid => w.goto p (.test i pid)
  | .test i pid =>
      if pid ≤ 0 || w.pidAlive pid then w.goto p (.next i) else w.goto p (.remove i)
  | .remove i => (w.setLock i (w.locks i).remove).goto p (.recreate i)
  | .recreate i => w.tryCreate p i (.next i)
  | .returned _ _ | .idle => w

def step (w : Lockers) : LockEvent → Lockers
  | .spawn p => if 0 < p ∧ w.procs p = none then w.goto p .idle else w
  | .die p => { w with procs := Function.update w.procs p none }
  | .claim p =>
      match w.procs p with
      | some .idle => w.goto p (.create 0)
      | _ => w
  | .turn p written =>
      match w.procs p with
      | some c => w.turn p written c
      | none => w
  | .release p =>
      match w.procs p with
      | some (.returned i _) => (w.setLock i (w.locks i).remove).goto p .idle
      | _ => w

/-- The process is alive, `claim_instance` returned `i` to it, and it has not
released its lock. -/
def Holds (w : Lockers) (p : Pid) (i : Nat) : Prop :=
  ∃ f, w.procs p = some (.returned i f)

/-- A lock file that is removed to be stolen holds the pid of a process that
is dead at that moment. -/
def StealsDead (w : Lockers) : LockEvent → Prop
  | .turn p _ => ∀ i ∈ (w.procs p).bind Claimer.removes, ∀ f ∈ (w.locks i).file,
      ∃ pid ∈ (w.locks i).text f, w.procs pid = none
  | _ => True

instance (w : Lockers) : ∀ event, Decidable (w.StealsDead event)
  | .turn p _ => inferInstanceAs (Decidable (∀ i ∈ (w.procs p).bind Claimer.removes,
      ∀ f ∈ (w.locks i).file, ∃ pid ∈ (w.locks i).text f, w.procs pid = none))
  | .spawn _ | .die _ | .claim _ | .release _ => isTrue trivial

/-! ## Exclusion -/

/-- Every lock file that a live process created and did not release is at its
path and names that process or nobody, and no two processes created the same. -/
structure Excludes (w : Lockers) : Prop where
  made : ∀ i f, (w.locks i).file = some f → f < (w.locks i).made
  has : ∀ p c i f, w.procs p = some c → c.has = some (i, f) →
    (w.locks i).file = some f ∧ ∀ pid, (w.locks i).text f = some pid → pid = p
  sole : ∀ p q c d i f, w.procs p = some c → w.procs q = some d → c.has = some (i, f) →
    d.has = some (i, f) → p = q

theorem excludes_start (left : Nat → Option (Option Pid)) : (start left).Excludes := by
  refine ⟨?_, ?_, ?_⟩
  · intro i f present
    simp only [start, LockPath.left] at present ⊢
    split at present
    · cases present
    · cases present
      exact Nat.one_pos
  · intro p c i f alive
    cases alive
  · intro p q c d i f alive
    cases alive

theorem goto_eq_some {w : Lockers} {p q : Pid} {c d : Claimer}
    (alive : (w.goto p c).procs q = some d) : (q = p ∧ d = c) ∨ (q ≠ p ∧ w.procs q = some d) := by
  simp only [goto, Function.update_apply] at alive
  split at alive
  · rename_i same
    cases alive
    exact Or.inl ⟨same, rfl⟩
  · rename_i other
    exact Or.inr ⟨other, alive⟩

/-- A process that goes on without a lock file of its own. -/
theorem Excludes.goto {w : Lockers} (excludes : w.Excludes) (p : Pid) {c : Claimer}
    (without : c.has = none) : (w.goto p c).Excludes := by
  refine ⟨excludes.made, ?_, ?_⟩
  · intro q d i f alive has
    obtain ⟨rfl, rfl⟩ | ⟨-, alive⟩ := goto_eq_some alive
    · rw [without] at has
      cases has
    · exact excludes.has q d i f alive has
  · intro q r c' d i f alive alive' has has'
    obtain ⟨rfl, rfl⟩ | ⟨-, alive⟩ := goto_eq_some alive
    · rw [without] at has
      cases has
    · obtain ⟨rfl, rfl⟩ | ⟨-, alive'⟩ := goto_eq_some alive'
      · rw [without] at has'
        cases has'
      · exact excludes.sole q r c' d i f alive alive' has has'

/-- A process that creates the lock file where none is. -/
theorem Excludes.create {w : Lockers} (excludes : w.Excludes) (p : Pid) {i : Nat}
    (absent : (w.locks i).file = none) :
    ((w.setLock i (w.locks i).create).goto p (.write i (w.locks i).made)).Excludes := by
  have elsewhere : ∀ {q : Pid} {d : Claimer} {n f : Nat}, w.procs q = some d →
      d.has = some (n, f) → n ≠ i := by
    rintro q d n f alive has rfl
    rw [(excludes.has q d n f alive has).1] at absent
    cases absent
  refine ⟨?_, ?_, ?_⟩
  · intro n f present
    by_cases same : n = i
    · subst same
      simp only [goto_locks, setLock_self, LockPath.create] at present ⊢
      cases present
      exact Nat.lt_succ_self _
    · simp only [goto_locks, setLock_other same] at present ⊢
      exact excludes.made n f present
  · intro q d n f alive has
    obtain ⟨rfl, rfl⟩ | ⟨-, alive⟩ := goto_eq_some alive
    · cases has
      simp [LockPath.create]
    · have other := elsewhere alive has
      simp only [goto_locks, setLock_other other]
      exact excludes.has q d n f alive has
  · intro q r c d n f alive alive' has has'
    obtain ⟨rfl, rfl⟩ | ⟨-, before⟩ := goto_eq_some alive
    · obtain ⟨rfl, -⟩ | ⟨-, before'⟩ := goto_eq_some alive'
      · rfl
      · cases has
        exact absurd rfl (elsewhere before' has')
    · obtain ⟨rfl, rfl⟩ | ⟨-, before'⟩ := goto_eq_some alive'
      · cases has'
        exact absurd rfl (elsewhere before has)
      · exact excludes.sole q r c d n f before before' has has'

/-- A process that has the same lock file as before. -/
theorem Excludes.keep {w : Lockers} (excludes : w.Excludes) {p : Pid} {c c' : Claimer}
    (alive : w.procs p = some c) (same : c'.has = c.has) : (w.goto p c').Excludes := by
  have before : ∀ {q : Pid} {d : Claimer}, (w.goto p c').procs q = some d →
      ∃ d', w.procs q = some d' ∧ d'.has = d.has := by
    intro q d running
    obtain ⟨rfl, rfl⟩ | ⟨-, running⟩ := goto_eq_some running
    · exact ⟨c, alive, same.symm⟩
    · exact ⟨d, running, rfl⟩
  refine ⟨excludes.made, ?_, ?_⟩
  · intro q d n f running has
    obtain ⟨d', running, shared⟩ := before running
    exact excludes.has q d' n f running (shared.trans has)
  · intro q r d e n f running running' has has'
    obtain ⟨d', running, shared⟩ := before running
    obtain ⟨e', running', shared'⟩ := before running'
    exact excludes.sole q r d' e' n f running running' (shared.trans has) (shared'.trans has')

theorem Excludes.write {w : Lockers} (excludes : w.Excludes) {p : Pid} {i f : Nat}
    (alive : w.procs p = some (.write i f)) :
    (w.setLock i ((w.locks i).write f p)).Excludes := by
  refine ⟨?_, ?_, excludes.sole⟩
  · intro n g present
    by_cases same : n = i
    · subst same
      simp only [setLock_self, LockPath.write] at present ⊢
      exact excludes.made n g present
    · simp only [setLock_other same] at present ⊢
      exact excludes.made n g present
  · intro q d n g running has
    obtain ⟨present, named⟩ := excludes.has q d n g running has
    by_cases same : n = i
    · subst same
      simp only [setLock_self, LockPath.write]
      refine ⟨present, fun pid text => ?_⟩
      rw [Function.update_apply] at text
      split at text
      · rename_i here
        subst here
        cases text
        exact excludes.sole p q _ d n g alive running rfl has
      · exact named pid text
    · simp only [setLock_other same]
      exact ⟨present, named⟩

/-- A lock file removed by a process when no other live process created it. -/
theorem Excludes.remove {w : Lockers} (excludes : w.Excludes) (p : Pid) {i : Nat} {c : Claimer}
    (without : c.has = none)
    (free : ∀ q d f, q ≠ p → w.procs q = some d → d.has ≠ some (i, f)) :
    ((w.setLock i (w.locks i).remove).goto p c).Excludes := by
  refine ⟨?_, ?_, ?_⟩
  · intro n f present
    by_cases same : n = i
    · subst same
      simp [LockPath.remove] at present
    · simp only [goto_locks, setLock_other same] at present ⊢
      exact excludes.made n f present
  · intro q d n f running has
    obtain ⟨rfl, rfl⟩ | ⟨other, running⟩ := goto_eq_some running
    · rw [without] at has
      cases has
    · have differs : n ≠ i := by
        rintro rfl
        exact free q d f other running has
      simp only [goto_locks, setLock_other differs]
      exact excludes.has q d n f running has
  · exact (excludes.goto p without).sole

theorem Excludes.tryCreate {w : Lockers} (excludes : w.Excludes) (p : Pid) (i : Nat)
    {otherwise : Claimer} (without : otherwise.has = none) :
    (w.tryCreate p i otherwise).Excludes := by
  rw [Lockers.tryCreate]
  split
  · rename_i absent
    exact excludes.create p absent
  · exact excludes.goto p without

theorem has_next (i : Nat) : (Claimer.next i).has = none := by
  rw [Claimer.next]
  split
  · rfl
  · rfl

theorem Excludes.turn {w : Lockers} (excludes : w.Excludes) {p : Pid} {c : Claimer}
    (alive : w.procs p = some c) {written : Bool} (dead : w.StealsDead (.turn p written)) :
    (w.turn p written c).Excludes := by
  cases c with
  | create i => exact excludes.tryCreate p i rfl
  | write i f =>
      simp only [Lockers.turn]
      split
      · exact (excludes.write alive).keep (c := .write i f) alive rfl
      · exact excludes.keep alive rfl
  | read i =>
      simp only [Lockers.turn]
      split
      · exact excludes.goto p (has_next i)
      · exact excludes.goto p rfl
  | test i pid =>
      simp only [Lockers.turn]
      split
      · exact excludes.goto p (has_next i)
      · exact excludes.goto p rfl
  | remove i =>
      refine excludes.remove p rfl fun q d f _ running has => ?_
      obtain ⟨present, named⟩ := excludes.has q d i f running has
      obtain ⟨pid, text, gone⟩ := dead i (by simp [alive, Claimer.removes]) f present
      rw [named pid text, running] at gone
      cases gone
  | recreate i => exact excludes.tryCreate p i (has_next i)
  | returned i f => exact excludes
  | idle => exact excludes

theorem Excludes.step {w : Lockers} (excludes : w.Excludes) {event : LockEvent}
    (dead : w.StealsDead event) : (w.step event).Excludes := by
  cases event with
  | spawn p =>
      simp only [Lockers.step]
      split
      · exact excludes.goto p rfl
      · exact excludes
  | die p =>
      have before : ∀ {q : Pid} {d : Claimer},
          Function.update w.procs p none q = some d → w.procs q = some d := by
        intro q d running
        rw [Function.update_apply] at running
        split at running
        · cases running
        · exact running
      exact ⟨excludes.made, fun q d i f running => excludes.has q d i f (before running),
        fun q r c d i f running running' =>
          excludes.sole q r c d i f (before running) (before running')⟩
  | claim p =>
      simp only [Lockers.step]
      split
      · exact excludes.goto p rfl
      · exact excludes
  | turn p written =>
      simp only [Lockers.step]
      split
      · rename_i c alive
        exact excludes.turn alive dead
      · exact excludes
  | release p =>
      simp only [Lockers.step]
      split
      · rename_i i f alive
        refine excludes.remove p rfl fun q d g other running has => other ?_
        -- the file at the path is its own, so nobody else has one there
        have mine := (excludes.has p _ i f alive rfl).1
        have theirs := (excludes.has q d i g running has).1
        obtain rfl : f = g := Option.some.inj (mine.symm.trans theirs)
        exact excludes.sole q p d _ i f running alive has rfl
      · exact excludes

/-- In every run in which only the lock files of dead processes are removed to
be stolen, no two live processes hold the same id. -/
theorem claim_exclusive (left : Nat → Option (Option Pid)) (run : List LockEvent)
    (dead : Along step StealsDead (start left) run) (p q : Pid) (i : Nat)
    (first : (run.foldl step (start left)).Holds p i)
    (second : (run.foldl step (start left)).Holds q i) : p = q := by
  have excludes : (run.foldl step (start left)).Excludes :=
    dead.invariant (fun _ _ excludes dead => excludes.step dead) (excludes_start left)
  obtain ⟨f, alive⟩ := first
  obtain ⟨g, alive'⟩ := second
  have mine := (excludes.has p _ i f alive rfl).1
  have theirs := (excludes.has q _ i g alive' rfl).1
  obtain rfl : f = g := Option.some.inj (mine.symm.trans theirs)
  exact excludes.sole p q _ _ i f alive alive' rfl rfl

/-- The directory of a process with pid 9 that died with the first id. -/
def deadHolder (i : Nat) : Option (Option Pid) :=
  if i = 0 then some (some 9) else none

/-- The lock of the dead process is stolen, and another process goes on to the
next id. -/
def oneThief : List LockEvent :=
  [.spawn 1, .spawn 2, .claim 1, .claim 2, .turn 1 true, .turn 2 true, .turn 1 true, .turn 1 true,
   .turn 1 true, .turn 1 true, .turn 2 true, .turn 1 true, .turn 2 true, .turn 2 true]

theorem claim_exclusive_oneThief :
    (oneThief.foldl step (start deadHolder)).Holds 1 0 ∧
      (oneThief.foldl step (start deadHolder)).Holds 2 1 ∧
      ∀ q, (oneThief.foldl step (start deadHolder)).Holds q 0 → q = 1 := by
  have first : (oneThief.foldl step (start deadHolder)).Holds 1 0 := ⟨1, by rfl⟩
  have second : (oneThief.foldl step (start deadHolder)).Holds 2 1 := ⟨0, by rfl⟩
  have dead : Along step StealsDead (start deadHolder) oneThief := by
    decide +kernel
  exact ⟨first, second, fun q holds => claim_exclusive deadHolder oneThief dead q 1 0 holds first⟩

/-- Two processes find the same dead holder; the second removes the lock that
the first has created in the meantime. -/
def twoThieves : List LockEvent :=
  [.spawn 1, .spawn 2, .claim 1, .claim 2, .turn 1 true, .turn 2 true, .turn 1 true, .turn 2 true,
   .turn 1 true, .turn 2 true, .turn 1 true, .turn 1 true, .turn 1 true, .turn 2 true,
   .turn 2 true, .turn 2 true]

theorem live_lock_stolen :
    ¬ ∀ (left : Nat → Option (Option Pid)) (run : List LockEvent) (p q : Pid) (i : Nat),
      (run.foldl step (start left)).Holds p i → (run.foldl step (start left)).Holds q i →
      p = q := by
  intro exclusive
  have same := exclusive deadHolder twoThieves 1 2 0 ⟨1, by rfl⟩ ⟨2, by rfl⟩
  revert same
  decide

end Lockers

end Shrt.Store
