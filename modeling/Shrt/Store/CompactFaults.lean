import Mathlib.Data.List.Basic
import Shrt.Store.Restart

/-!
# Compaction on a failing disk

`compact` ignores the result of every file operation.  Here each of them may
fail: the write that flushes the log, the creation of the temporary file, each
write of a row or a newline, the sync and the rename.  A failed write leaves
some proper prefix of its bytes behind.
-/

namespace Shrt.Store

open Shrt.Codec Shrt.Lib Shrt.Lib.Framing

structure Faults where
  logWrite : Bool
  create : Bool
  row : Nat → Bool
  newline : Nat → Bool
  sync : Bool
  rename : Bool

/-- How many bytes the failed writes got out. -/
structure Leftovers where
  log : Nat
  row : Nat → Nat

def writeAll (ok : Bool) (left : Nat) (b : Bytes) : Bytes :=
  if ok then b else b.take (min left (b.length - 1))

/-- The temporary file after the loop over the rows, from the `k`-th on. -/
def writeRows (f : Faults) (left : Leftovers) : Nat → List Rec → Bytes
  | _, [] => []
  | k, r :: rs =>
      writeAll (f.row k) (left.row k) r.line ++ writeAll (f.newline k) 0 [NL] ++
        writeRows f left (k + 1) rs

namespace Inner

/-- The directory after `flush_locked`; the queue is cleared in any case. -/
def flushWith (env : Env) (f : Faults) (left : Leftovers) (s : Inner) (a : Aof) (dir : Dir) :
    Dir :=
  let queued := (a.pushRaw (s.hitLines env)).buf
  if queued = [] then dir
  else dir.append (.log s.inst) (writeAll f.logWrite left.log queued)

/-- `compact` with every result ignored.  A failed sync changes no byte. -/
def compactWith (env : Env) (f : Faults) (left : Leftovers) (s : Inner) (dir : Dir) :
    Inner × Dir :=
  match s.aof with
  | none => (s, dir)
  | some a =>
      let dir := s.flushWith env f left a dir
      let s := { s with dirty := ∅, aof := some ⟨[]⟩ }
      let dir := if f.create then
          let dir := dir.write (.snapTmp s.inst) (writeRows f left 0 (s.snapshotRows env))
          if f.rename then dir.rename (.snapTmp s.inst) (.snap s.inst) else dir
        else dir
      (s, dir.write (.log s.inst) [])

end Inner

/-- Every operation succeeds. -/
structure Faults.None (f : Faults) : Prop where
  logWrite : f.logWrite = true
  create : f.create = true
  row : ∀ k, f.row k = true
  newline : ∀ k, f.newline k = true
  rename : f.rename = true

theorem writeRows_ok {f : Faults} {left : Leftovers} {rs : List Rec} {k : Nat}
    (row : ∀ m, k ≤ m → m < k + rs.length → f.row m = true)
    (newline : ∀ m, k ≤ m → m < k + rs.length → f.newline m = true) :
    writeRows f left k rs = logBytes rs := by
  induction rs generalizing k with
  | nil => rfl
  | cons r rs ih =>
      have tail := ih (k := k + 1)
        (fun m low high => row m (by omega) (by simp; omega))
        (fun m low high => newline m (by omega) (by simp; omega))
      rw [writeRows, tail, logBytes_cons, row k (by omega) (by simp),
        newline k (by omega) (by simp)]
      simp [writeAll]

/-- On a healthy disk this is `compact`. -/
theorem compactWith_ok {f : Faults} (healthy : f.None) (env : Env) (left : Leftovers)
    (s : Inner) (dir : Dir) : s.compactWith env f left dir = s.compact env dir := by
  cases queue : s.aof with
  | none => simp only [Inner.compactWith, Inner.compact, queue]
  | some a =>
      have rows : ∀ rs, writeRows f left 0 rs = logBytes rs := fun rs =>
        writeRows_ok (fun m _ _ => healthy.row m) (fun m _ _ => healthy.newline m)
      have flushed := flushLocked_eq env queue dir
      simp only [Inner.compactWith, Inner.compact, Inner.flushWith, queue, flushed,
        healthy.create, healthy.rename, healthy.logWrite, rows, if_true, Aof.pushRaw, writeAll,
        Aof.flush, Aof.truncate]
      split <;> rfl

/-! ## What the two own files replay to -/

def ownView (env : Env) (inst : Inst) (dir : Dir) : View :=
  replayInto env inst dir (.log inst) (replayInto env inst dir (.snap inst) .empty)

/-- Every own link of the store is in the index, with its url, creation time
and expiry. -/
def HoldsOwn (s : Inner) (index : Index) : Prop :=
  ∀ c ent, s.index.lookup c = some ent → ent.i = s.inst.i32 →
    ∃ ent', index.lookup c = some ent' ∧ ent'.u = ent.u ∧ ent'.a = ent.a ∧ ent'.e = ent.e

/-- The codes of the index are plain, as all created codes are. -/
def PlainCodes (s : Inner) : Prop :=
  ∀ c ent, s.index.lookup c = some ent → Plain c

theorem allOk_snapshotRows (env : Env) {s : Inner} (plain : PlainCodes s) :
    AllOk (s.snapshotRows env) := by
  intro r member
  obtain ⟨⟨c, ent⟩, kept, rfl⟩ := List.mem_map.mp member
  exact plain c ent (env.indexOrder.mem_iter_iff.mp (List.mem_of_mem_filter kept))

theorem nodup_snapshotRows (env : Env) (s : Inner) :
    ((s.snapshotRows env).map Rec.code).Nodup := by
  have keys : (s.snapshotRows env).map Rec.code =
      ((env.indexOrder.iter s.index).filter fun ce => ce.2.i == s.inst.i32).map Prod.fst := by
    rw [Inner.snapshotRows, List.map_map]
    rfl
  rw [keys]
  exact (env.indexOrder.nodup_keys s.index).sublist (List.filter_sublist.map _)

/-- A complete snapshot holds every own link. -/
theorem holdsOwn_snapshot (env opening : Env) {s : Inner} (plain : PlainCodes s) :
    HoldsOwn s (replay opening s.inst .empty (s.snapshotRows env)).index := by
  intro c ent found own
  have kept : (c, ent) ∈
      (env.indexOrder.iter s.index).filter (fun ce => ce.2.i == s.inst.i32) :=
    List.mem_filter.mpr ⟨env.indexOrder.mem_iter_iff.mpr found, by simp [own]⟩
  have distinct : (((env.indexOrder.iter s.index).filter
      fun ce => ce.2.i == s.inst.i32).map Prod.fst).Nodup :=
    (env.indexOrder.nodup_keys s.index).sublist (List.filter_sublist.map _)
  have folded := (replay_snapshot opening s.inst (v := .empty)
    (fun ce member => plain ce.1 ce.2
      (env.indexOrder.mem_iter_iff.mp (List.mem_of_mem_filter member))) distinct rfl).2 c
  rw [find?_key_of_mem distinct kept] at folded
  exact ⟨ent.restored, folded, rfl, rfl, rfl⟩

/-! ## Too few lines for all rows -/

/-- A code is live after some operations only if one of them is its row. -/
theorem mem_codes_of_live (env : Env) (inst : Inst) {ops : List Op} {v : View} {c : String}
    (live : (ops.foldl (apply env inst) v).index.lookup c ≠ none) :
    v.index.lookup c ≠ none ∨ c ∈ ops.map Op.c := by
  induction ops generalizing v with
  | nil => exact Or.inl live
  | cons o ops ih =>
      rcases ih live with now | later
      · by_cases before : v.index.lookup c = none
        · right
          rw [List.map_cons, List.mem_cons]
          left
          by_contra other
          apply now
          unfold apply
          split
          · simp only [Map.lookup_erase_eq, before, ite_self]
          · split
            · split
              · rename_i e found
                have differs : c ≠ o.h := fun same => by
                  rw [same, found] at before
                  cases before
                simp only [Map.lookup_insert_eq, if_neg differs, before]
              · exact before
            · split
              · exact before
              · simp only [Map.lookup_insert_eq, if_neg other, before]
        · exact Or.inl before
      · exact Or.inr (List.mem_cons_of_mem _ later)

/-- When failed writes leave nothing behind, a line needs a row of its own. -/
theorem length_scan_writeRows {f : Faults} {left : Leftovers} (nothing : ∀ k, left.row k = 0)
    {rs : List Rec} (ok : AllOk rs) (k : Nat) (cur : Bytes) :
    (scan NL cur (writeRows f left k rs)).1.length ≤
      (if cur = [] then 0 else 1) + (List.range' k rs.length).countP f.row := by
  induction rs generalizing k cur with
  | nil => simp [writeRows, scan]
  | cons r rs ih =>
      have okTail : AllOk rs := fun s hs => ok s (List.mem_cons_of_mem _ hs)
      have noNewline := NL_not_mem_line (ok r List.mem_cons_self)
      have nonempty := line_ne_nil r
      -- The row itself only joins the line under construction.
      have joined : ∀ rest, scan NL cur (writeAll (f.row k) (left.row k) r.line ++ rest) =
          scan NL (cur ++ if f.row k then r.line else []) rest := by
        intro rest
        rw [nothing k]
        cases f.row k with
        | true => simp [writeAll, scan_append, scan_of_not_mem cur noNewline]
        | false => simp [writeAll]
      rw [writeRows, List.append_assoc, joined, List.length_cons, List.range'_succ,
        List.countP_cons]
      have tailFresh := ih okTail (k + 1) []
      have tailJoined := ih okTail (k + 1) (cur ++ if f.row k then r.line else [])
      have pending : (if (cur ++ if f.row k then r.line else []) = [] then 0 else 1) ≤
          (if cur = [] then 0 else 1) + (if f.row k = true then 1 else 0) := by
        cases f.row k <;> by_cases none : cur = [] <;> simp [none, nonempty]
      generalize (cur ++ if f.row k then r.line else []) = line at tailJoined pending ⊢
      cases f.newline k with
      | false =>
          simp only [writeAll, Bool.false_eq_true, if_false, List.length_singleton,
            Nat.sub_self, Nat.min_zero, List.take_zero, List.nil_append]
          omega
      | true =>
          simp only [writeAll, if_true, List.singleton_append, scan]
          rw [if_pos rfl] at tailFresh
          split
          · omega
          · rename_i some
            rw [if_neg some] at pending
            simp only [List.length_cons]
            omega

theorem count_writeRows (f : Faults) (left : Leftovers) {rs : List Rec} (ok : AllOk rs)
    (k : Nat) :
    (writeRows f left k rs).count NL ≤ (List.range' k rs.length).countP f.newline := by
  induction rs generalizing k with
  | nil => simp [writeRows]
  | cons r rs ih =>
      have tail := ih (fun s hs => ok s (List.mem_cons_of_mem _ hs)) (k + 1)
      have row : (writeAll (f.row k) (left.row k) r.line).count NL = 0 := by
        rw [List.count_eq_zero]
        intro member
        apply NL_not_mem_line (ok r List.mem_cons_self)
        unfold writeAll at member
        split at member
        · exact member
        · exact List.mem_of_mem_take member
      have newline : (writeAll (f.newline k) 0 [NL]).count NL ≤
          if f.newline k = true then 1 else 0 := by
        cases f.newline k <;> simp [writeAll]
      rw [writeRows, List.count_append, List.count_append, row, List.length_cons,
        List.range'_succ, List.countP_cons]
      omega

/-- A snapshot with a write missing has fewer lines than rows. -/
theorem length_readOps_writeRows {f : Faults} (left : Leftovers)
    (nothing : ∀ k, left.row k = 0) {rs : List Rec} (ok : AllOk rs)
    (failed : ¬ ∀ k, k < rs.length → f.row k = true ∧ f.newline k = true) :
    (readOps (writeRows f left 0 rs)).length < rs.length := by
  have parsed : (readOps (writeRows f left 0 rs)).length ≤
      (scan NL [] (writeRows f left 0 rs)).1.length := List.length_filterMap_le _ _
  have byRows := length_scan_writeRows (f := f) nothing ok 0 []
  have byNewlines := (length_scan_le NL [] (writeRows f left 0 rs)).trans
    (count_writeRows f left ok 0)
  rw [if_pos rfl, Nat.zero_add] at byRows
  have missing : (List.range' 0 rs.length).countP f.row < rs.length ∨
      (List.range' 0 rs.length).countP f.newline < rs.length := by
    by_contra all
    rw [not_or, Nat.not_lt, Nat.not_lt] at all
    have full : (List.range' 0 rs.length).length = rs.length := List.length_range'
    have rows := List.countP_eq_length.mp
      (le_antisymm List.countP_le_length (full.le.trans all.1))
    have newlines := List.countP_eq_length.mp
      (le_antisymm List.countP_le_length (full.le.trans all.2))
    exact failed fun k inside =>
      ⟨rows k (by simp [List.mem_range', inside]), newlines k (by simp [List.mem_range', inside])⟩
  omega

/-! ## When compaction keeps every own row -/

/-- The files that `compactWith` leaves: an empty log, and the new snapshot or
the old one. -/
theorem compactWith_files (env : Env) (f : Faults) (left : Leftovers) {s : Inner} {a : Aof}
    (queue : s.aof = some a) (dir : Dir) :
    (s.compactWith env f left dir).2.read (.log s.inst) = [] ∧
    (s.compactWith env f left dir).2.read (.snap s.inst) =
      if f.create = true ∧ f.rename = true then writeRows f left 0 (s.snapshotRows env)
      else dir.read (.snap s.inst) := by
  have flushed : s.flushWith env f left a dir (.snap s.inst) = dir (.snap s.inst) := by
    unfold Inner.flushWith
    split
    · rfl
    · exact Dir.append_other (by simp) _ _
  simp only [Inner.compactWith, queue]
  refine ⟨Dir.read_write_same _ _ _, ?_⟩
  rw [Dir.read_write_other (by simp), Dir.read, Dir.read, ← flushed]
  cases f.create with
  | false => simp
  | true =>
      cases f.rename with
      | false => simp [Dir.write_other]
      | true =>
          simp only [if_true, and_self]
          rw [Dir.rename_target (by simp)]
          exact Dir.read_write_same _ _ _

/-- After `compact` the own files replay to the snapshot file alone. -/
theorem ownView_compactWith (env opening : Env) (f : Faults) (left : Leftovers) {s : Inner}
    {a : Aof} (queue : s.aof = some a) (dir : Dir) :
    ownView opening s.inst (s.compactWith env f left dir).2 =
      (readOps (if f.create = true ∧ f.rename = true then
          writeRows f left 0 (s.snapshotRows env)
        else dir.read (.snap s.inst))).foldl (apply opening s.inst) .empty := by
  obtain ⟨log, snap⟩ := compactWith_files env f left queue dir
  rw [ownView, replayInto_records opening s.inst allOk_nil log, replay_nil, replayInto,
    foldl_applyLine, replayFile, snap, readOps]

/-- Whatever fails, and whatever the failed writes leave behind, no own row is
lost exactly when all writes of the new snapshot, its creation and its rename
succeed, or when the old snapshot that then stays in place holds every own row
itself. -/
theorem compact_keeps_rows_iff (env opening : Env) (f : Faults) (s : Inner) (dir : Dir)
    (a : Aof) (queue : s.aof = some a) (plain : PlainCodes s) :
    (∀ left, HoldsOwn s (ownView opening s.inst (s.compactWith env f left dir).2).index) ↔
      (f.create = true ∧ f.rename = true ∧
        ∀ k, k < (s.snapshotRows env).length → f.row k = true ∧ f.newline k = true) ∨
      (¬ (f.create = true ∧ f.rename = true) ∧
        HoldsOwn s (replayInto opening s.inst dir (.snap s.inst) .empty).index) := by
  have ok := allOk_snapshotRows env plain
  simp only [ownView_compactWith env opening f _ queue dir]
  by_cases installed : f.create = true ∧ f.rename = true
  · simp only [if_pos installed]
    rw [or_iff_left (fun h => h.1 installed), ← and_assoc, and_iff_right installed]
    constructor
    · intro holds
      by_contra failed
      have few := length_readOps_writeRows ⟨0, fun _ => 0⟩ (fun _ => rfl) ok failed
      have every : (s.snapshotRows env).map Rec.code ⊆
          (readOps (writeRows f ⟨0, fun _ => 0⟩ 0 (s.snapshotRows env))).map Op.c := by
        intro c member
        obtain ⟨r, written, rfl⟩ := List.mem_map.mp member
        obtain ⟨⟨c, ent⟩, kept, rfl⟩ := List.mem_map.mp written
        obtain ⟨stored, own⟩ := List.mem_filter.mp kept
        obtain ⟨ent', found, -⟩ := holds ⟨0, fun _ => 0⟩ c ent
          (env.indexOrder.mem_iter_iff.mp stored) (by simpa using own)
        have live := mem_codes_of_live opening s.inst
          (fun missing => by rw [missing] at found; cases found)
        exact live.resolve_left (fun h => h rfl)
      have enough := (List.subperm_of_subset (nodup_snapshotRows env s) every).length_le
      simp only [List.length_map] at enough
      omega
    · intro written left
      have complete : writeRows f left 0 (s.snapshotRows env) = logBytes (s.snapshotRows env) :=
        writeRows_ok (fun k _ inside => (written k (by omega)).1)
          (fun k _ inside => (written k (by omega)).2)
      rw [complete, readOps_logBytes ok]
      exact holdsOwn_snapshot env opening plain
  · simp only [if_neg installed]
    have same : (readOps (dir.read (.snap s.inst))).foldl (apply opening s.inst) .empty =
        replayInto opening s.inst dir (.snap s.inst) .empty := by
      rw [replayInto, foldl_applyLine, replayFile, readOps]
    rw [same]
    constructor
    · exact fun holds => Or.inr ⟨installed, holds ⟨0, fun _ => 0⟩⟩
    · rintro (⟨created, renamed, -⟩ | ⟨-, holds⟩)
      · exact absurd ⟨created, renamed⟩ installed
      · exact fun _ => holds

/-- The codes of a store that is alone are plain. -/
theorem plainCodes_run (env : Env) (inst : Inst) (history : List (Env × Call)) :
    PlainCodes ((World.fresh env inst).run history).store := by
  obtain ⟨snap, log, buf, -, sound⟩ := settled_run env inst history
  exact fun c ent found => (sound.mine c ent found).1

/-- A store with one link that was not compacted yet. -/
def oneLink : World :=
  (World.fresh (.at 0 []) 0).run [(.at 1 [], .shorten "https://a" (some promo) 0)]

theorem compact_keeps_rows_unsynced :
    ∃ a, oneLink.store.aof = some a ∧
      ∀ left, HoldsOwn oneLink.store (ownView (.at 3 []) oneLink.store.inst
        (oneLink.store.compactWith (.at 2 [])
          ⟨false, true, fun _ => true, fun _ => true, false, true⟩ left oneLink.dir).2).index := by
  obtain ⟨snap, log, buf, sole, -⟩ := settled_run (.at 0 []) 0
    [(.at 1 [], .shorten "https://a" (some promo) 0)]
  refine ⟨_, sole.queue, ?_⟩
  exact (compact_keeps_rows_iff (.at 2 []) (.at 3 []) _ oneLink.store oneLink.dir _ sole.queue
    (plainCodes_run _ _ _)).mpr (Or.inl ⟨rfl, rfl, fun _ _ => ⟨rfl, rfl⟩⟩)

/-- When the temporary file cannot be created the log is emptied all the same. -/
theorem failed_create_loses_rows :
    ¬ ∀ (env opening : Env) (f : Faults) (left : Leftovers) (inst : Inst)
      (history : List (Env × Call)),
      HoldsOwn ((World.fresh (.at 0 []) inst).run history).store
        (ownView opening inst
          (((World.fresh (.at 0 []) inst).run history).store.compactWith env f left
            ((World.fresh (.at 0 []) inst).run history).dir).2).index := by
  intro keeps
  have kept := keeps (.at 2 []) (.at 3 [])
    ⟨true, false, fun _ => true, fun _ => true, true, true⟩ ⟨0, fun _ => 0⟩ 0
    [(.at 1 [], .shorten "https://a" (some promo) 0)] "promo"
    ⟨"https://a", 1, 0, Inst.i32 0, 0, 0⟩ (by decide +kernel) (by decide +kernel)
  obtain ⟨ent', found, -⟩ := kept
  have lost : (ownView (.at 3 []) 0 (oneLink.store.compactWith (.at 2 [])
      ⟨true, false, fun _ => true, fun _ => true, true, true⟩ ⟨0, fun _ => 0⟩
      oneLink.dir).2).index.lookup "promo" = none := by
    decide +kernel
  rw [show (World.fresh (.at 0 []) 0).run [(.at 1 [], .shorten "https://a" (some promo) 0)] =
    oneLink from rfl, lost] at found
  cases found

end Shrt.Store
