import Mathlib.Data.List.Basic
import Shrt.Store.Ownership

/-!
# What calls leave of a link

A call that writes changes the link it is about at most, and one that reads the
logs of siblings changes what their lines claim.  So a link outlives every call
that neither revises it nor reads a line about it.
-/

namespace Shrt.Store

open Shrt.Codec Shrt.Lib Shrt.Lib.Utf8 Shrt.Lib.Framing Shrt.Lib.Runs

def Call.revises : Call → Option String
  | .update code _ _ _ => some code
  | .remove code => some code
  | _ => none

/-- The store does not read its own log. -/
def World.Outward (w : World) : Prop :=
  w.store.readers.lookup w.store.inst = none

/-- The link of a code, but for its hits. -/
def World.Links (w : World) (code url : String) (exp : Int64) : Prop :=
  ∃ e, w.store.index.lookup code = some e ∧ e.u = url ∧ e.e = exp

def World.hears (w : World) (env : Env) : Call → List Inst
  | .resolve c => if c ∈ w.store.index then [] else w.store.tailOrder env w.dir c
  | .poll => if w.store.aof.isSome then w.store.pollOrder env w.dir else []
  | _ => []

/-- No line that a call reads in a sibling's log sets or removes the row of a code. -/
def World.Unclaimed (w : World) (env : Env) (call : Call) (code : String) : Prop :=
  ∀ j ∈ w.hears env call, ∀ o ∈ w.store.ears.ops env w.dir j, Op.assigns o ≠ some code

instance (w : World) (env : Env) (call : Call) (code : String) :
    Decidable (w.Unclaimed env call code) :=
  inferInstanceAs (Decidable (∀ j ∈ w.hears env call, ∀ o ∈ w.store.ears.ops env w.dir j,
    Op.assigns o ≠ some code))

theorem World.Unclaimed.of_deaf {w : World} {env : Env} {call : Call}
    (deaf : w.hears env call = []) (code : String) : w.Unclaimed env call code := by
  intro j heard
  rw [deaf] at heard
  cases heard

/-- A call that writes: the links of other codes stay, and so does what is
read. -/
structure Writes (revised : Option String) (w w' : World) : Prop where
  inst : w'.store.inst = w.store.inst
  readers : w'.store.readers = w.store.readers
  kept : ∀ c e, some c ≠ revised → w.store.index.lookup c = some e →
    w'.store.index.lookup c = some e

/-- The loop of `shorten_many` overwrites nothing. -/
theorem lookup_bulk {inst : Inst} {now exp : Int64} {entry : String → Entry}
    {items : List (String × Suffix)} {retries : List Suffix} {index index' : Index}
    {rows rows' : Bytes} {codes codes' : List String} {c : String} {e : Entry}
    (done : Inner.bulk inst now exp entry items retries index rows codes =
      some (index', rows', codes')) (found : index.lookup c = some e) :
    index'.lookup c = some e := by
  induction items generalizing retries index rows codes with
  | nil =>
      cases done
      exact found
  | cons item items ih =>
      obtain ⟨url, buf⟩ := item
      rw [Inner.bulk, Option.bind_eq_some_iff] at done
      obtain ⟨⟨code, rest⟩, drawn, done⟩ := done
      refine ih done ?_
      have free : code ∉ index := (freshCode_spec drawn).1
      have other : c ≠ code := by
        rintro rfl
        exact absurd found (by rw [Map.not_mem_iff_lookup.mp free]; simp)
      rw [Map.lookup_insert_eq, if_neg other]
      exact found

namespace Writes

variable {w w' w'' : World} {revised : Option String}

theorem refl (w : World) (revised : Option String) : Writes revised w w :=
  ⟨rfl, rfl, fun _ _ _ found => found⟩

theorem outward (writes : Writes revised w w') (outward : w.Outward) : w'.Outward := by
  rw [World.Outward, writes.inst, writes.readers]
  exact outward

theorem links (writes : Writes revised w w') {code url : String} {exp : Int64}
    (spared : some code ≠ revised) (linked : w.Links code url exp) : w'.Links code url exp := by
  obtain ⟨e, found, facts⟩ := linked
  exact ⟨e, writes.kept code e spared found, facts⟩

theorem logRaw {s : Inner} {dir : Dir} {bytes : Bytes} (writes : Writes revised w ⟨s, dir⟩) :
    Writes revised w ⟨(s.logRaw dir bytes).1, (s.logRaw dir bytes).2⟩ := by
  have frame := frame_logRaw s dir bytes
  refine ⟨frame.inst.trans writes.inst, frame.readers.trans writes.readers, ?_⟩
  intro c e spared found
  rw [index_logRaw]
  exact writes.kept c e spared found

/-- A new link does not take the place of another. -/
theorem create {s : Inner} {dir : Dir} {code url : String} {now exp : Int64}
    (free : code ∉ s.index) (revised : Option String) :
    Writes revised ⟨s, dir⟩
      ⟨(s.create dir code url now exp).1, (s.create dir code url now exp).2⟩ := by
  refine logRaw (s := { s with index := s.index.insert code (s.newEntry url now exp) })
    ⟨rfl, rfl, fun c e _ found => ?_⟩
  have found' : s.index.lookup c = some e := found
  have other : c ≠ code := by
    rintro rfl
    rw [Map.not_mem_iff_lookup.mp free] at found'
    cases found'
  simp only [Map.lookup_insert_eq, if_neg other]
  exact found'

theorem shorten (w : World) (env : Env) (url : String) (aliasCode : Option Alias) (ttl : Int64) :
    Writes none w (w.step (env, .shorten url aliasCode ttl)) := by
  simp only [World.step]
  cases aliasCode with
  | some a =>
      simp only [Inner.shorten, Option.map_some]
      split
      · exact .refl w none
      · rename_i done made
        split at made
        · cases made
          exact .refl w none
        · rename_i free
          cases made
          exact create free none
  | none =>
      simp only [Inner.shorten, Option.map_none]
      cases drawn : Inner.freshCode w.store.inst w.store.index env.rng with
      | none => exact .refl w none
      | some fresh => exact create (freshCode_spec drawn).1 none

theorem shortenMany (w : World) (env : Env) (urls : List String) (ttl : Int64) :
    Writes none w (w.step (env, .shortenMany urls ttl)) := by
  simp only [World.step, Inner.shortenMany]
  split
  · exact .refl w none
  · rename_i done made
    split at made
    · cases made
    · obtain ⟨⟨index', rows', codes'⟩, bulked, rfl⟩ := Option.map_eq_some_iff.mp made
      exact logRaw (s := { w.store with index := index' })
        ⟨rfl, rfl, fun c e _ found => lookup_bulk bulked found⟩

theorem update (w : World) (env : Env) (code url : String) (ttl : Int64) (hasTtl : Bool) :
    Writes (some code) w (w.step (env, .update code url ttl hasTtl)) := by
  simp only [World.step, Inner.update]
  split
  · exact .refl w _
  · split
    · exact .refl w _
    · refine ⟨rfl, rfl, fun c e spared found => ?_⟩
      have other : c ≠ code := fun same => spared (congrArg some same)
      simp only [Inner.logPush, Map.lookup_insert_eq, if_neg other]
      exact found

theorem remove (w : World) (env : Env) (code : String) :
    Writes (some code) w (w.step (env, .remove code)) := by
  simp only [World.step, Inner.remove]
  split
  · exact .refl w _
  · split
    · exact .refl w _
    · refine ⟨rfl, rfl, fun c e spared found => ?_⟩
      have other : c ≠ code := fun same => spared (congrArg some same)
      simp only [Inner.logPush, Map.lookup_erase_eq, if_neg other]
      exact found

theorem flush (w : World) (env : Env) : Writes none w (w.step (env, .flush)) := by
  have frame := frame_flushLocked w.store w.dir env
  refine ⟨frame.inst, frame.readers, fun c e _ found => ?_⟩
  simp only [World.step, Inner.flushLocked]
  split
  · exact found
  · exact found

theorem compact (w : World) (env : Env) : Writes none w (w.step (env, .compact)) := by
  cases queue : w.store.aof with
  | none =>
      simp only [World.step, Inner.compact, queue]
      exact .refl w none
  | some q =>
      simp only [World.step, Inner.compact, queue, flushLocked_eq env queue]
      exact ⟨rfl, rfl, fun c e _ found => found⟩

end Writes

/-! ## Reading siblings -/

/-- The fold of lines that set or remove other codes keeps a link. -/
theorem links_foldl_apply (env : Env) (k : Inst) {ops : List Op} {code url : String} {exp : Int64}
    (unclaimed : ∀ o ∈ ops, Op.assigns o ≠ some code) {v : View}
    (linked : ∃ e, v.index.lookup code = some e ∧ e.u = url ∧ e.e = exp) :
    ∃ e, (ops.foldl (apply env k) v).index.lookup code = some e ∧ e.u = url ∧ e.e = exp := by
  induction ops generalizing v with
  | nil => exact linked
  | cons o ops ih =>
      refine ih (fun o' member => unclaimed o' (List.mem_cons_of_mem _ member)) ?_
      have spared := unclaimed o List.mem_cons_self
      obtain ⟨e, found, target, expires⟩ := linked
      rw [Op.assigns] at spared
      rw [apply]
      split
      · rename_i removes
        rw [if_pos removes] at spared
        have other : code ≠ o.x := fun same => spared (congrArg some same.symm)
        refine ⟨e, ?_, target, expires⟩
        rw [Map.lookup_erase_eq, if_neg other]
        exact found
      · rename_i keeps
        rw [if_neg keeps] at spared
        split
        · dsimp only
          cases hit : v.index.lookup o.h with
          | none => exact ⟨e, found, target, expires⟩
          | some e' =>
              dsimp only
              by_cases same : code = o.h
              · subst same
                cases found.symm.trans hit
                refine ⟨{ e with h := e.h + o.d, oh := if k.i64 == o.i then e.oh + o.d else e.oh },
                  ?_, target, expires⟩
                rw [Map.lookup_insert_eq, if_pos rfl]
              · refine ⟨e, ?_, target, expires⟩
                rw [Map.lookup_insert_eq, if_neg same]
                exact found
        · rename_i counts
          rw [if_neg counts] at spared
          split
          · exact ⟨e, found, target, expires⟩
          · rename_i named
            rw [if_neg named] at spared
            have other : code ≠ o.c := fun same => spared (congrArg some same.symm)
            refine ⟨e, ?_, target, expires⟩
            dsimp only
            rw [Map.lookup_insert_eq, if_neg other]
            exact found

variable {w : World} {env : Env} {code url : String} {exp : Int64}

/-- A read of logs that claim no code keeps its link. -/
theorem World.Links.reads {js : List Inst} {s' : Inner} (linked : w.Links code url exp)
    (reads : Reads env w.dir js w.store s')
    (unclaimed : ∀ j ∈ js, ∀ o ∈ w.store.ears.ops env w.dir j, Op.assigns o ≠ some code) :
    World.Links ⟨s', w.dir⟩ code url exp := by
  have view : s'.view = (js.flatMap (w.store.ears.ops env w.dir)).foldl
      (apply env w.store.inst) w.store.view := by
    have ears := congrArg Ears.view reads.ears
    rw [view_foldl_hear env w.store.inst w.dir reads.once] at ears
    exact ears
  have silent : ∀ o ∈ js.flatMap (w.store.ears.ops env w.dir), Op.assigns o ≠ some code := by
    intro o member
    obtain ⟨j, here, there⟩ := List.mem_flatMap.mp member
    exact unclaimed j here o there
  have stored : ∃ e, w.store.view.index.lookup code = some e ∧ e.u = url ∧ e.e = exp := linked
  have kept := links_foldl_apply env w.store.inst silent stored
  rw [← view] at kept
  exact kept

/-- A hit changes counts only. -/
theorem World.Links.bump {s : Inner} {dir : Dir} {c : String} {e : Entry}
    (linked : World.Links ⟨s, dir⟩ code url exp) (found : s.index.lookup c = some e) :
    World.Links ⟨s.bump env c e, dir⟩ code url exp := by
  rw [Inner.bump]
  split
  · obtain ⟨e', there, facts⟩ := linked
    have there' : s.index.lookup code = some e' := there
    by_cases same : code = c
    · subst same
      cases found.symm.trans there'
      refine ⟨{ e with h := e.h + 1, oh := e.oh + 1 }, ?_, facts⟩
      simp only [Map.lookup_insert_eq, if_pos]
    · refine ⟨e', ?_, facts⟩
      simp only [Map.lookup_insert_eq, if_neg same]
      exact there'
  · exact linked

/-- A resolve reads what it reads, and then counts a hit or does nothing more. -/
theorem World.Outward.resolve (outward : w.Outward) (env : Env) (c : String) :
    ∃ s', Reads env w.dir (w.hears env (.resolve c)) w.store s' ∧
      ((w.store.resolve env w.dir c).2 = s' ∨
        ∃ e, s'.index.lookup c = some e ∧ (w.store.resolve env w.dir c).2 = s'.bump env c e) := by
  rw [Inner.resolve, World.hears]
  cases found : w.store.index.lookup c with
  | some e =>
      rw [if_pos (Map.mem_iff_lookup.mpr (by simp [found]))]
      refine ⟨w.store, reads_nothing env w.dir outward, ?_⟩
      dsimp only
      split
      · exact Or.inr ⟨e, found, rfl⟩
      · exact Or.inl rfl
  | none =>
      rw [if_neg (Map.not_mem_iff_lookup.mpr found)]
      refine ⟨_, reads_tailMissed env w.dir c outward, ?_⟩
      cases queue : w.store.aof with
      | none =>
          have still : w.store.tailMissed env w.dir c = w.store := by
            cases bytes : encode c with
            | nil => simp only [Inner.tailMissed, bytes]
            | cons first rest => simp only [Inner.tailMissed, bytes, queue]
          exact Or.inl still.symm
      | some q =>
          dsimp only
          cases again : (w.store.tailMissed env w.dir c).index.lookup c with
          | none => exact Or.inl rfl
          | some e =>
              dsimp only
              split
              · exact Or.inr ⟨e, rfl, rfl⟩
              · exact Or.inl rfl

theorem World.Outward.poll (outward : w.Outward) (env : Env) :
    Reads env w.dir (w.hears env .poll) w.store (w.store.pollTails env w.dir) := by
  rw [Inner.pollTails, World.hears]
  cases w.store.aof with
  | none => exact reads_nothing env w.dir outward
  | some q => exact reads_pollLocked env w.dir outward

theorem Writes.step (w : World) (env : Env) {call : Call}
    (writes : call.logs = true ∨ call = .compact) :
    Writes call.revises w (w.step (env, call)) := by
  cases call with
  | shorten url aliasCode ttl => exact .shorten w env url aliasCode ttl
  | shortenMany urls ttl => exact .shortenMany w env urls ttl
  | update code url ttl hasTtl => exact .update w env code url ttl hasTtl
  | remove code => exact .remove w env code
  | flush => exact .flush w env
  | compact => exact .compact w env
  | resolve code => simp [Call.logs] at writes
  | poll => simp [Call.logs] at writes
  | restart => simp [Call.logs] at writes

/-- Whatever a store does, it does not read its own log. -/
theorem World.Outward.step (outward : w.Outward) (call : Env × Call) : (w.step call).Outward := by
  obtain ⟨env, call⟩ := call
  have read : ∀ {js s'}, Reads env w.dir js w.store s' → World.Outward ⟨s', w.dir⟩ := by
    intro js s' reads
    rw [World.Outward, reads.inst]
    exact reads.noSelf
  cases call with
  | resolve code =>
      obtain ⟨s', reads, same | ⟨e, -, same⟩⟩ := outward.resolve env code
      · simp only [World.step, same]
        exact read reads
      · simp only [World.step, same, Inner.bump]
        have still : World.Outward ⟨s', w.dir⟩ := read reads
        split
        · exact still
        · exact still
  | poll => exact read (outward.poll env)
  | restart => exact lookup_readers_new env _ _ false
  | shorten url aliasCode ttl => exact (Writes.step w env (Or.inl rfl)).outward outward
  | shortenMany urls ttl => exact (Writes.step w env (Or.inl rfl)).outward outward
  | update code url ttl hasTtl => exact (Writes.step w env (Or.inl rfl)).outward outward
  | remove code => exact (Writes.step w env (Or.inl rfl)).outward outward
  | flush => exact (Writes.step w env (Or.inl rfl)).outward outward
  | compact => exact (Writes.step w env (Or.inr rfl)).outward outward

/-- A link outlives every call that does not change it, as long as it reads no
line that claims its code, and a restart of a store that is alone. -/
theorem World.Links.step (linked : w.Links code url exp) (outward : w.Outward) {call : Call}
    (spared : call.revises ≠ some code) (unclaimed : w.Unclaimed env call code)
    (alone : call = .restart → Settled w) : (w.step (env, call)).Links code url exp := by
  have unrevised : some code ≠ none := by simp
  cases call with
  | resolve c =>
      obtain ⟨s', reads, same | ⟨e, found, same⟩⟩ := outward.resolve env c
      · simp only [World.step, same]
        exact linked.reads reads unclaimed
      · simp only [World.step, same]
        exact (linked.reads reads unclaimed).bump found
  | poll => exact linked.reads (outward.poll env) unclaimed
  | restart =>
      have rows := (alone rfl).rows_reopen env env
      obtain ⟨e, found, target, expires⟩ := linked
      have row := congrFun rows code
      rw [Index.rows, Index.rows, found] at row
      obtain ⟨e', found', same⟩ := Option.map_eq_some_iff.mp row
      have urls : e'.u = e.u := congrArg Row.u same
      have expiries : e'.e = e.e := congrArg Row.e same
      exact ⟨e', found', urls.trans target, expiries.trans expires⟩
  | shorten url aliasCode ttl => exact (Writes.step w env (Or.inl rfl)).links unrevised linked
  | shortenMany urls ttl => exact (Writes.step w env (Or.inl rfl)).links unrevised linked
  | update c url ttl hasTtl => exact (Writes.step w env (Or.inl rfl)).links (Ne.symm spared) linked
  | remove c => exact (Writes.step w env (Or.inl rfl)).links (Ne.symm spared) linked
  | flush => exact (Writes.step w env (Or.inl rfl)).links unrevised linked
  | compact => exact (Writes.step w env (Or.inr rfl)).links unrevised linked

end Shrt.Store
