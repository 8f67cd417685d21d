import Mathlib.Data.List.Basic
import Mathlib.Logic.Function.Basic
import Shrt.Store.Tailing

/-!
# Reading siblings one log at a time

A poll visits every known log once, in the order of the reader map; a read miss
visits one log, or polls.  Either way a store reads a list of logs one after
another, each from where it stopped the last time.
-/

namespace Shrt.Store

open Shrt.Codec Shrt.Lib Shrt.Lib.Utf8 Shrt.Lib.Framing

/-- What a store has read: its view, and the reader of every log. -/
structure Ears where
  view : View
  heard : Inst → TailReader

def Ears.hear (env : Env) (inst : Inst) (dir : Dir) (e : Ears) (j : Inst) : Ears :=
  let got := readSibling env inst dir j e.view (e.heard j)
  ⟨got.1, Function.update e.heard j got.2⟩

@[simp] theorem Ears.hear_view (env : Env) (inst : Inst) (dir : Dir) (e : Ears) (j : Inst) :
    (e.hear env inst dir j).view = (readSibling env inst dir j e.view (e.heard j)).1 := rfl

@[simp] theorem Ears.hear_self (env : Env) (inst : Inst) (dir : Dir) (e : Ears) (j : Inst) :
    (e.hear env inst dir j).heard j = (readSibling env inst dir j e.view (e.heard j)).2 :=
  Function.update_self _ _ _

theorem Ears.hear_other (env : Env) (inst : Inst) (dir : Dir) (e : Ears) {j k : Inst}
    (other : k ≠ j) : (e.hear env inst dir j).heard k = e.heard k :=
  Function.update_of_ne other _ _

/-- Logs that are not read keep their readers. -/
theorem Ears.foldl_hear_other (env : Env) (inst : Inst) (dir : Dir) {js : List Inst} {i : Inst}
    (absent : i ∉ js) (e : Ears) : (js.foldl (Ears.hear env inst dir) e).heard i = e.heard i := by
  induction js generalizing e with
  | nil => rfl
  | cons j js ih =>
      rw [List.mem_cons, not_or] at absent
      rw [List.foldl_cons, ih absent.2, Ears.hear_other env inst dir e absent.1]

def Inner.ears (s : Inner) : Ears :=
  ⟨s.view, s.heard⟩

/-- The readers of a poll: those there are, and new ones for the logs that have
none. -/
def Inner.discovered (s : Inner) (dir : Dir) : Map Inst TailReader :=
  (shardFiles dir s.inst).foldl
    (fun m f => if f ∈ m then m else m.insert f TailReader.fromStart) s.readers

def Inner.pollOrder (env : Env) (s : Inner) (dir : Dir) : List Inst :=
  (env.readerOrder.iter (s.discovered dir)).map Prod.fst

def Inner.tailOrder (env : Env) (s : Inner) (dir : Dir) (code : String) : List Inst :=
  match encode code, s.aof with
  | first :: _, some _ =>
      match (alphaIdx first).filter (· ≠ s.inst) with
      | some owner => [owner]
      | none =>
          if env.clock 1 - s.lastPoll ≥ TAIL_MIN_INTERVAL then s.pollOrder env dir else []
  | _, _ => []

/-- The store read these logs and did nothing else. -/
structure Reads (env : Env) (dir : Dir) (js : List Inst) (s s' : Inner) : Prop
    extends OnlyReads s s' where
  ears : s'.ears = js.foldl (Ears.hear env s.inst dir) s.ears
  others : ∀ j ∈ js, j ≠ s.inst
  once : js.Nodup
  noSelf : s'.readers.lookup s.inst = none

/-! ## Polls -/

theorem lookup_discovered (fs : List Inst) (readers : Map Inst TailReader) (k : Inst) :
    (fs.foldl (fun m f => if f ∈ m then m else m.insert f TailReader.fromStart) readers).lookup k =
      (readers.lookup k).or (if k ∈ fs then some TailReader.fromStart else none) := by
  induction fs generalizing readers with
  | nil => simp
  | cons f fs ih =>
      rw [List.foldl_cons, ih]
      by_cases same : k = f
      · subst same
        by_cases known : k ∈ readers
        · obtain ⟨r, found⟩ := Option.ne_none_iff_exists'.mp (Map.mem_iff_lookup.mp known)
          simp [known, found]
        · simp [known, Map.not_mem_iff_lookup.mp known]
      · split
        · simp [same]
        · simp [same]

/-- Discovering a log does not change where it is read from. -/
theorem heard_discovered (s : Inner) (dir : Dir) (k : Inst) :
    ((s.discovered dir).lookup k).getD TailReader.fromStart = s.heard k := by
  rw [Inner.discovered, lookup_discovered, Inner.heard]
  cases s.readers.lookup k with
  | some r => rfl
  | none => split <;> rfl

theorem mem_pollOrder {env : Env} {s : Inner} {dir : Dir} {k : Inst} :
    k ∈ s.pollOrder env dir ↔ (s.discovered dir).lookup k ≠ none := by
  rw [Inner.pollOrder, List.mem_map]
  constructor
  · rintro ⟨⟨k', r⟩, listed, rfl⟩
    rw [env.readerOrder.mem_iter_iff.mp listed]
    simp
  · intro known
    obtain ⟨r, found⟩ := Option.ne_none_iff_exists'.mp known
    exact ⟨(k, r), env.readerOrder.mem_iter_iff.mpr found, rfl⟩

/-- Every sibling log there is gets read by a poll. -/
theorem mem_pollOrder_of_present {env : Env} {s : Inner} {dir : Dir} {k : Inst}
    (other : k ≠ s.inst) (present : (dir (.log k)).isSome) : k ∈ s.pollOrder env dir := by
  rw [mem_pollOrder, Inner.discovered, lookup_discovered,
    if_pos (mem_shardFiles.mpr ⟨other, present⟩)]
  cases s.readers.lookup k <;> simp

/-- A log that a poll does not read is not there, and was never read. -/
theorem unread_of_not_mem {env : Env} {s : Inner} {dir : Dir} {k : Inst} (other : k ≠ s.inst)
    (unread : k ∉ s.pollOrder env dir) :
    dir (.log k) = none ∧ s.heard k = TailReader.fromStart := by
  constructor
  · by_contra present
    exact unread (mem_pollOrder_of_present other (Option.isSome_iff_ne_none.mpr present))
  · have unknown : (s.discovered dir).lookup k = none := by
      by_contra known
      exact unread (mem_pollOrder.mpr known)
    rw [← heard_discovered s dir k, unknown]
    rfl

theorem lookup_discovered_self {s : Inner} {dir : Dir} (noSelf : s.readers.lookup s.inst = none) :
    (s.discovered dir).lookup s.inst = none := by
  have unlisted : s.inst ∉ shardFiles dir s.inst := fun member =>
    (mem_shardFiles.mp member).1 rfl
  rw [Inner.discovered, lookup_discovered, noSelf, if_neg unlisted]
  rfl

/-- Pulling a list of readers reads their logs one after another. -/
theorem pull_eq (env : Env) (inst : Inst) (dir : Dir) {l : List (Inst × TailReader)}
    (distinct : (l.map Prod.fst).Nodup) (e : Ears) (readers : Map Inst TailReader)
    (current : ∀ fr ∈ l, e.heard fr.1 = fr.2)
    (kept : ∀ k, (readers.lookup k).getD TailReader.fromStart = e.heard k) :
    let pulled := l.foldl (fun (acc : View × Map Inst TailReader) fr =>
      let got := readSibling env inst dir fr.1 acc.1 fr.2
      (got.1, acc.2.insert fr.1 got.2)) (e.view, readers)
    let heard := (l.map Prod.fst).foldl (Ears.hear env inst dir) e
    pulled.1 = heard.view ∧
      (∀ k, (pulled.2.lookup k).getD TailReader.fromStart = heard.heard k) ∧
      ∀ k, k ∉ l.map Prod.fst → pulled.2.lookup k = readers.lookup k := by
  induction l generalizing e readers with
  | nil => exact ⟨rfl, kept, fun _ _ => rfl⟩
  | cons fr l ih =>
      obtain ⟨absent, distinct⟩ := List.nodup_cons.mp distinct
      have here : e.heard fr.1 = fr.2 := current fr List.mem_cons_self
      have later : ∀ fr' ∈ l, (e.hear env inst dir fr.1).heard fr'.1 = fr'.2 := by
        intro fr' member
        have other : fr'.1 ≠ fr.1 := fun same =>
          absent (same ▸ List.mem_map_of_mem member)
        rw [Ears.hear_other env inst dir e other]
        exact current fr' (List.mem_cons_of_mem _ member)
      have kept' : ∀ k, ((readers.insert fr.1
          (readSibling env inst dir fr.1 e.view fr.2).2).lookup k).getD TailReader.fromStart =
          (e.hear env inst dir fr.1).heard k := by
        intro k
        rw [Map.lookup_insert_eq]
        by_cases same : k = fr.1
        · rw [if_pos same, same, Ears.hear_self, here]
          rfl
        · rw [if_neg same, Ears.hear_other env inst dir e same]
          exact kept k
      have view : (e.hear env inst dir fr.1).view =
          (readSibling env inst dir fr.1 e.view fr.2).1 := by
        rw [Ears.hear_view, here]
      obtain ⟨views, readers', untouched⟩ := ih distinct _ _ later kept'
      rw [view] at views readers' untouched
      refine ⟨views, readers', fun k unlisted => ?_⟩
      rw [List.map_cons, List.mem_cons, not_or] at unlisted
      obtain ⟨other, unlisted⟩ := unlisted
      rw [List.foldl_cons]
      refine (untouched k unlisted).trans ?_
      rw [Map.lookup_insert_eq, if_neg other]

/-- A poll reads its logs one after another, and no others. -/
theorem pollLocked_eq (env : Env) (s : Inner) (dir : Dir) :
    (s.pollLocked env dir).ears = (s.pollOrder env dir).foldl (Ears.hear env s.inst dir) s.ears ∧
    ∀ k, k ∉ s.pollOrder env dir →
      (s.pollLocked env dir).readers.lookup k = (s.discovered dir).lookup k := by
  obtain ⟨view, heard, untouched⟩ := pull_eq env s.inst dir
    (env.readerOrder.nodup_keys (s.discovered dir)) s.ears (s.discovered dir)
    (fun fr member => by
      have found := env.readerOrder.mem_iter_iff.mp member
      have same := heard_discovered s dir fr.1
      rw [found] at same
      exact same.symm)
    (heard_discovered s dir)
  refine ⟨?_, untouched⟩
  have ears : (s.pollLocked env dir).ears = ⟨(s.pollLocked env dir).view,
      fun k => ((s.pollLocked env dir).readers.lookup k).getD TailReader.fromStart⟩ := rfl
  rw [ears]
  congr 1
  funext k
  exact heard k

theorem reads_pollLocked (env : Env) {s : Inner} (dir : Dir)
    (noSelf : s.readers.lookup s.inst = none) :
    Reads env dir (s.pollOrder env dir) s (s.pollLocked env dir) := by
  obtain ⟨ears, untouched⟩ := pollLocked_eq env s dir
  have self : s.inst ∉ s.pollOrder env dir := fun member =>
    mem_pollOrder.mp member (lookup_discovered_self noSelf)
  refine ⟨onlyReads_pollLocked env s dir, ears, ?_,
    env.readerOrder.nodup_keys (s.discovered dir), ?_⟩
  · intro j member same
    exact self (same ▸ member)
  · exact (untouched s.inst self).trans (lookup_discovered_self noSelf)

/-! ## Read misses -/

theorem reads_nothing (env : Env) (dir : Dir) {s : Inner}
    (noSelf : s.readers.lookup s.inst = none) : Reads env dir [] s s :=
  ⟨⟨rfl, rfl, rfl, rfl⟩, rfl, by simp, List.nodup_nil, noSelf⟩

theorem reads_tailMissed (env : Env) {s : Inner} (dir : Dir) (code : String)
    (noSelf : s.readers.lookup s.inst = none) :
    Reads env dir (s.tailOrder env dir code) s (s.tailMissed env dir code) := by
  have still := reads_nothing env dir noSelf
  cases bytes : encode code with
  | nil =>
      simp only [Inner.tailMissed, Inner.tailOrder, bytes]
      exact still
  | cons first rest =>
      cases queue : s.aof with
      | none =>
          simp only [Inner.tailMissed, Inner.tailOrder, bytes, queue]
          exact still
      | some q =>
          cases picked : (alphaIdx first).filter (· ≠ s.inst) with
          | none =>
              simp only [Inner.tailMissed, Inner.tailOrder, bytes, queue, picked]
              split
              · exact reads_pollLocked env dir noSelf
              · exact still
          | some owner =>
              have other : owner ≠ s.inst := by
                have := Option.filter_eq_some_iff.mp picked
                simpa using this.2
              simp only [Inner.tailMissed, Inner.tailOrder, bytes, queue, picked]
              refine ⟨⟨rfl, rfl, queue.symm, rfl⟩, ?_, ?_, List.nodup_singleton _, ?_⟩
              · rw [List.foldl_cons, List.foldl_nil, Ears.hear, Inner.ears, Inner.ears]
                congr 1
                funext k
                rw [Inner.heard, Map.lookup_insert_eq, Function.update_apply]
                split
                · rfl
                · rfl
              · intro j member
                rw [List.mem_singleton.mp member]
                exact other
              · rw [Map.lookup_insert_eq, if_neg (Ne.symm other)]
                exact noSelf

end Shrt.Store
