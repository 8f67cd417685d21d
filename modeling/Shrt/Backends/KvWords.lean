import Mathlib.Data.List.Basic
import Shrt.Backends.Words
import Shrt.Kv.Bulk
import Shrt.Kv.Hits
import Shrt.Kv.Listing

/-!
# The words of the key-value store

The server may evict a key whose deadline has come, and the sweep deletes fields that are
past their expiry.  As long as the cache agrees with the server every call reads and writes
the words that the server holds.
-/

namespace Shrt.Backends

open Shrt.Codec Shrt.Lib Shrt.Lib.Utf8 Shrt.Kv
open Shrt.Http (Ops)
open Shrt.Store (MutResult)
open Shrt.Store.Inner (expiry)

def kvOps (env : KvEnv) (scan : Scan) : Ops KvStore where
  healthy _ := true
  resolve s code := s.resolve env code
  stats s code := (s.stats env code).1
  list s limit offset byHits q :=
    (s.list env scan limit offset (if byHits then "hits" else "created") q).1
  shorten s url aliasCode ttl := s.shorten env url aliasCode ttl
  shortenMany s urls ttl := s.shortenMany env urls ttl
  update s code url ttl hasTtl := s.update env code url ttl hasTtl
  remove s code := s.remove env code

/-- `close`, which sends the hits, and `open` on the same server, with an empty cache. -/
def kvRestart (env : KvEnv) (s : KvStore) : KvStore :=
  { s.flushHits env with cache := { s.cache with shards := fun _ => .empty }, dirty := ∅ }

def kvWords (s : KvStore) : Words :=
  fun c => (s.row c).map fun row => ⟨row.u, row.e⟩

/-- The cache agrees with the server, which holds the words. -/
structure KvReflects (now : Int64) (s : KvStore) (ws : Words) : Prop where
  sound : s.Sound now
  lapsed : Lapsed now ws (kvWords s)

namespace KvReflects

variable {now : Int64} {s s' : KvStore} {ws : Words} {env : KvEnv}

theorem lapses_words {s s' : KvStore} {c : String} (fades : KvStore.Fades now s s' c) :
    Lapses (fun w : Word => past w.e now = true) (kvWords s c) (kvWords s' c) :=
  lapses_map (f := fun row : Row => (⟨row.u, row.e⟩ : Word)) (fun _ old => old) fades

/-- A call in which rows only go away at their expiry. -/
theorem fades (reflects : KvReflects now s ws) (sound : s'.Sound now)
    (fades : ∀ c, KvStore.Fades now s s' c) : KvReflects now s' ws :=
  ⟨sound, reflects.lapsed.trans fun c => lapses_words (fades c)⟩

/-- A call that sets the row of one code. -/
theorem set (reflects : KvReflects now s ws) (sound : s'.Sound now) {code : String}
    {v : Option Word} (here : kvWords s' code = v)
    (others : ∀ c, c ≠ code → KvStore.Fades now s s' c) :
    KvReflects now s' (Function.update ws code v) :=
  ⟨sound, reflects.lapsed.set here fun c other => lapses_words (others c other)⟩

theorem atStep (reflects : KvReflects now s ws) {t : Nat} (le : env.clock t ≤ now) :
    KvReflects now (s.atStep env t) ws :=
  reflects.fades (reflects.sound.atStep le) (KvStore.Fades.atStep reflects.sound.lawful env le)

theorem kvWords_of_kvGet {s : KvStore} {code : String} {e c : Int64} {u : String}
    (held : s.kvGet code = some (encVal e c u)) : kvWords s code = some ⟨u, e⟩ := by
  rw [kvWords, KvStore.row, held, Option.bind_some, decVal_encVal]
  rfl

/-! ### Creations -/

/-- A create that finds its code free. -/
theorem created (reflects : KvReflects now s ws) {time begun ttl : Int64} {code url : String}
    (plain : Plain code) (nonneg : 0 ≤ begun) (le : begun ≤ time)
    (free : (s.setNx time code (encVal (expiry begun ttl) begun url) ttl).1 = true) :
    KvReflects now (s.setNx time code (encVal (expiry begun ttl) begun url) ttl).2
      (ws.put code ⟨url, expiry begun ttl⟩) := by
  refine reflects.set (reflects.sound.setNx plain nonneg le) ?_ fun c other =>
    Or.inl (KvStore.row_setNx_other s _ _ _ other)
  rw [KvStore.fst_setNx, Option.isNone_iff_eq_none] at free
  refine kvWords_of_kvGet (c := begun) ?_
  rw [KvStore.kvGet_setNx, if_pos ⟨rfl, free⟩]

/-- One that finds it taken. -/
theorem tried (reflects : KvReflects now s ws) {time ttl : Int64} {code : String} {value : Bytes}
    (taken : (s.setNx time code value ttl).1 = false) :
    KvReflects now (s.setNx time code value ttl).2 ws := by
  rw [KvStore.setNx_taken taken]
  exact reflects

theorem freshCode (timed : env.Timed now) (reflects : KvReflects now s ws) {begun t t' : Nat}
    {url code : String} {ttl : Int64} {rng rng' : List Suffix} (le : begun ≤ t)
    (done : KvStore.freshCode env (encVal (expiry (env.clock begun) ttl) (env.clock begun) url) ttl
      s t rng = some (code, s', t', rng')) :
    Plain code ∧ KvReflects now s' (ws.put code ⟨url, expiry (env.clock begun) ttl⟩) := by
  induction rng generalizing s t with
  | nil => cases done
  | cons buf rng ih =>
      have before := reflects.atStep (timed.bounded t)
      rw [KvStore.freshCode] at done
      split at done
      · rename_i free
        cases done
        have plain := plain_genCode s.inst buf
        exact ⟨plain, before.created plain (timed.nonneg begun) (timed.monotone le) free⟩
      · rename_i taken
        exact ih (before.tried (Bool.eq_false_iff.mpr taken)) (le.trans (Nat.le_succ t)) done

theorem shortenFrom (timed : env.Timed now) (reflects : KvReflects now s ws) {t t' : Nat}
    {url : String} {aliasCode made : Option String} {ttl : Int64} {rng rng' : List Suffix}
    (plain : ∀ a, aliasCode = some a → codeOk a = true)
    (done : s.shortenFrom env t rng url aliasCode ttl = some (made, s', t', rng')) :
    (made = none → KvReflects now s' ws) ∧
      ∀ code, made = some code → Plain code ∧
        KvReflects now s' (ws.put code ⟨url, expiry (env.clock t) ttl⟩) := by
  cases aliasCode with
  | none =>
      simp only [KvStore.shortenFrom, Option.map_eq_some_iff] at done
      obtain ⟨⟨code, s'', t'', rng''⟩, found, same⟩ := done
      cases same
      refine ⟨fun none_made => ?_, fun code made => ?_⟩
      · cases none_made
      · cases made
        exact reflects.freshCode timed (Nat.le_succ t) found
  | some a =>
      have before := reflects.atStep (timed.bounded (t + 1))
      rw [KvStore.shortenFrom] at done
      split at done
      · rename_i free
        cases done
        refine ⟨fun none_made => ?_, fun code made => ?_⟩
        · cases none_made
        · cases made
          have valid : Plain a := .of_codeOk (plain a rfl)
          exact ⟨valid,
            before.created valid (timed.nonneg t) (timed.monotone (Nat.le_succ t)) free⟩
      · rename_i taken
        cases done
        refine ⟨fun _ => before.tried (Bool.eq_false_iff.mpr taken), fun code made => ?_⟩
        cases made

/-- The creates of a batch that found their codes free. -/
def freeRows (tried : List (String × String × Bool)) : List (String × String) :=
  (tried.filter fun r => r.2.2).map fun r => (r.2.1, r.1)

theorem pipeNx (timed : env.Timed now) (reflects : KvReflects now s ws) (ttl : Int64) (t : Nat)
    {cmds : List (String × String)} (plain : ∀ cmd ∈ cmds, Plain cmd.2) :
    let done := KvStore.pipeNx env (env.clock 0) ttl s t cmds
    KvReflects now done.2.1
      (ws.puts ((freeRows done.1).map fun cu => (cu.1, ⟨cu.2, expiry (env.clock 0) ttl⟩))) := by
  induction cmds generalizing s ws t with
  | nil => exact reflects
  | cons cmd cmds ih =>
      obtain ⟨url, code⟩ := cmd
      have before := reflects.atStep (timed.bounded t)
      have rest : ∀ cmd ∈ cmds, Plain cmd.2 := fun cmd among =>
        plain cmd (List.mem_cons_of_mem _ among)
      rw [KvStore.pipeNx]
      dsimp only
      cases free : ((s.atStep env t).setNx (env.clock t) code
          (encVal (expiry (env.clock 0) ttl) (env.clock 0) url) ttl).1 with
      | true =>
          have named : Plain code := plain (url, code) List.mem_cons_self
          exact ih (before.created named (timed.nonneg 0) (timed.monotone (Nat.zero_le t)) free)
            (t + 1) rest
      | false => exact ih (before.tried free) (t + 1) rest

/-- The retries make the words that the batch has not made. -/
theorem retryTaken (timed : env.Timed now) (reflects : KvReflects now s ws) {ttl : Int64} {t : Nat}
    {rng : List Suffix} {tried : List (String × String × Bool)} {codes : List String}
    (plain : ∀ r ∈ tried, Plain r.2.1)
    (done : KvStore.retryTaken env ttl s t rng tried = some (codes, s')) :
    codes.length = tried.length ∧ (∀ c ∈ codes, Plain c) ∧
      ∃ made, KvReflects now s' (ws.puts made) ∧
        (∀ m ∈ made, ∃ t, m.2.e = expiry (env.clock t) ttl) ∧
        (freeRows tried ++ made.map fun m => (m.1, m.2.u)).Perm
          (codes.zip (tried.map Prod.fst)) := by
  induction tried generalizing s ws t rng codes with
  | nil =>
      cases done
      exact ⟨rfl, by simp, [], reflects, by simp, .refl _⟩
  | cons one tried ih =>
      obtain ⟨url, code, free⟩ := one
      have rest : ∀ r ∈ tried, Plain r.2.1 := fun r among => plain r (List.mem_cons_of_mem _ among)
      cases free with
      | true =>
          simp only [KvStore.retryTaken, Option.map_eq_some_iff] at done
          obtain ⟨⟨codes', s''⟩, later, same⟩ := done
          cases same
          obtain ⟨long, named, made, after, times, rows⟩ := ih reflects rest later
          refine ⟨congrArg Nat.succ long, ?_, made, after, times, rows.cons _⟩
          exact List.forall_mem_cons.mpr ⟨plain _ List.mem_cons_self, named⟩
      | false =>
          simp only [KvStore.retryTaken, Option.bind_eq_some_iff, Option.map_eq_some_iff] at done
          obtain ⟨⟨again, s₁, t₁, rng₁⟩, drawn, ⟨codes', s''⟩, later, same⟩ := done
          cases same
          have fresh := reflects.shortenFrom timed (by simp) drawn
          cases again with
          | none =>
              simp only [KvStore.shortenFrom, Option.map_eq_some_iff] at drawn
              obtain ⟨found, -, same⟩ := drawn
              cases same
          | some code' =>
              obtain ⟨named', between⟩ := fresh.2 code' rfl
              obtain ⟨long, named, made, after, times, rows⟩ := ih between rest later
              refine ⟨congrArg Nat.succ long, List.forall_mem_cons.mpr ⟨named', named⟩,
                (code', ⟨url, expiry (env.clock t) ttl⟩) :: made, after,
                List.forall_mem_cons.mpr ⟨⟨t, rfl⟩, times⟩, ?_⟩
              exact List.perm_middle.trans (rows.cons _)

theorem shortenMany (timed : env.Timed now) (reflects : KvReflects now s ws) {urls : List String}
    {ttl : Int64} {codes : List String}
    (done : s.shortenMany env urls ttl = some (codes, s')) :
    codes.length = urls.length ∧ (∀ c ∈ codes, Plain c) ∧
      ∃ made, Makes env.clock ttl (codes.zip urls) made ∧ KvReflects now s' (ws.puts made) := by
  rw [KvStore.shortenMany] at done
  split at done
  · cases done
  rename_i enough
  let cmds := urls.zip ((env.rng.take urls.length).map (genCode s.inst))
  have count : urls.length ≤ ((env.rng.take urls.length).map (genCode s.inst)).length := by
    rw [List.length_map, List.length_take]
    omega
  have plain : ∀ cmd ∈ cmds, Plain cmd.2 := by
    intro cmd among
    obtain ⟨buf, -, same⟩ := List.mem_map.mp (List.of_mem_zip among).2
    exact same ▸ plain_genCode _ buf
  have order : (KvStore.pipeNx env (env.clock 0) ttl s 1 cmds).1.map (fun r => (r.1, r.2.1)) =
      cmds := KvStore.map_pipeNx env (env.clock 0) ttl s 1 cmds
  have asked : (KvStore.pipeNx env (env.clock 0) ttl s 1 cmds).1.map Prod.fst = urls := by
    have firsts := congrArg (List.map Prod.fst) order
    rw [List.map_map, List.map_fst_zip count] at firsts
    exact firsts
  have named : ∀ r ∈ (KvStore.pipeNx env (env.clock 0) ttl s 1 cmds).1, Plain r.2.1 := by
    intro r among
    refine plain (r.1, r.2.1) ?_
    rw [← order]
    exact List.mem_map.mpr ⟨r, among, rfl⟩
  have batch := reflects.pipeNx timed ttl 1 plain
  have first := Makes.at_once env.clock ttl
    (freeRows (KvStore.pipeNx env (env.clock 0) ttl s 1 cmds).1) 0
  dsimp only at batch
  generalize (freeRows (KvStore.pipeNx env (env.clock 0) ttl s 1 cmds).1).map _ = fresh
    at batch first
  obtain ⟨long, codes_plain, made, after, times, rows⟩ := batch.retryTaken timed named done
  rw [asked] at rows
  refine ⟨?_, codes_plain, fresh ++ made, ⟨?_, ?_⟩, ?_⟩
  · rw [long, ← asked, List.length_map]
  · rw [List.map_append]
    exact (first.rows.append_right _).trans rows
  · intro m among
    rcases List.mem_append.mp among with early | late
    · exact first.times m early
    · exact times m late
  · rw [Words.puts_append]
    exact after

/-! ### Changes -/

theorem kvWords_bump (s : KvStore) (env : KvEnv) (code : String) :
    kvWords (s.bump env code) = kvWords s := by
  rw [KvStore.bump]
  split
  · rfl
  · rfl

/-- The row of a code is overwritten. -/
theorem lapsed_setRow (timed : env.Timed now) (reflects : KvReflects now s ws)
    (code url : String) (created e px : Int64) :
    Lapsed now (ws.put code ⟨url, e⟩)
      (kvWords ((s.atStep env 3).setRow (env.clock 3) code (encVal e created url) px)) := by
  refine (reflects.atStep (timed.bounded 3)).lapsed.set ?_ fun c other => Or.inl ?_
  · refine kvWords_of_kvGet (c := created) ?_
    rw [KvStore.kvGet_setRow, if_pos rfl]
  · rw [kvWords, KvStore.row_setRow_other _ _ _ _ other]
    rfl

/-- The row and the hits of a code are deleted. -/
theorem lapsed_delRow (timed : env.Timed now) (reflects : KvReflects now s ws) (code : String) :
    Lapsed now (ws.drop code) (kvWords (((s.delRow code).2.atStep env 1).delHits code)) := by
  have deleted := KvStore.Sound.delRow_lawful reflects.sound.lawful code
  have evicted := KvStore.Fades.atStep deleted env (timed.bounded 1)
  have hits : ∀ c, (((s.delRow code).2.atStep env 1).delHits code).row c =
      ((s.delRow code).2.atStep env 1).row c :=
    KvStore.row_delHits (deleted.evict (env.clock 1) (env.evicts 1)) code
  refine reflects.lapsed.set ?_ fun c other => ?_
  · have gone : (s.delRow code).2.row code = none := by
      rw [KvStore.row, KvStore.kvGet_delRow, if_pos rfl]
      rfl
    rw [kvWords, hits]
    rcases evicted code with same | ⟨none_left, -⟩
    · rw [same, gone]
      rfl
    · rw [none_left]
      rfl
  · have same : kvWords s c = kvWords (s.delRow code).2 c := by
      rw [kvWords, kvWords, KvStore.row_delRow_other _ other]
    have after : kvWords (((s.delRow code).2.atStep env 1).delHits code) c =
        kvWords ((s.delRow code).2.atStep env 1) c := by
      rw [kvWords, kvWords, hits]
    rw [same, after]
    exact lapses_words (evicted c)

theorem update (timed : env.Timed now) (reflects : KvReflects now s ws) (code url : String)
    (ttl : Int64) (hasTtl : Bool) :
    let done := s.update env code url ttl hasTtl
    (done.1 = .ok → ∃ w t, ws code = some w ∧ KvReflects now done.2
      (ws.put code ⟨url, if hasTtl then expiry (env.clock t) ttl else w.e⟩)) ∧
      (done.1 ≠ .ok → KvReflects now done.2 ws) := by
  have sound := reflects.sound.update timed code url ttl hasTtl
  have read := reflects.atStep (timed.bounded 0)
  rw [KvStore.update] at sound ⊢
  cases shown : ((s.atStep env 0).kvGet code).bind decVal with
  | none =>
      refine ⟨fun ok => ?_, fun _ => read⟩
      cases ok
  | some row =>
      rw [shown] at sound
      have there : ws code = some ⟨row.u, row.e⟩ :=
        read.lapsed.shown (congrArg (Option.map _) shown)
      have set := read.lapsed_setRow timed code url row.c
      exact ⟨fun _ => ⟨⟨row.u, row.e⟩, 1, there, sound, set _ _⟩,
        fun other => absurd rfl other⟩

theorem remove (timed : env.Timed now) (reflects : KvReflects now s ws) (code : String) :
    let done := s.remove env code
    (done.1 = .ok → KvReflects now done.2 (ws.drop code)) ∧
      (done.1 ≠ .ok → KvReflects now done.2 ws) := by
  have sound := reflects.sound.remove timed code
  have first := reflects.atStep (timed.bounded 0)
  rw [KvStore.remove] at sound ⊢
  cases done : ((s.atStep env 0).delRow code).1 with
  | false =>
      rw [done] at sound
      simp only [Bool.false_eq_true, if_false] at sound ⊢
      refine ⟨fun ok => ?_, fun _ => ?_⟩
      · cases ok
      · exact first.fades sound fun c => Or.inl (KvStore.row_delRow_missing done c)
  | true =>
      rw [done] at sound
      simp only [if_true] at sound ⊢
      exact ⟨fun _ => ⟨sound, first.lapsed_delRow timed code⟩, fun other => absurd rfl other⟩

theorem resolve (timed : env.Timed now) (reflects : KvReflects now s ws) (code : String) :
    KvReflects now (s.resolve env code).2 ws := by
  have read := (reflects.atStep (timed.bounded 2)).lapsed
  refine ⟨reflects.sound.resolve timed code, ?_⟩
  rw [KvStore.resolve]
  cases hit : (s.cached env code).1 with
  | some shown =>
      dsimp only
      rw [kvWords_bump]
      exact reflects.lapsed
  | none =>
      dsimp only
      split
      · exact read
      · rw [kvWords_bump]
        exact read

/-! ### What the server and the threads do -/

theorem flushHits (timed : env.Timed now) (reflects : KvReflects now s ws) :
    KvReflects now (s.flushHits env) ws := by
  have start : KvReflects now { s.atStep env 0 with dirty := ∅ } ws :=
    let read := reflects.atStep (timed.bounded 0)
    ⟨⟨read.sound.lawful, read.sound.fits⟩, read.lapsed⟩
  have sent : ∀ (s : KvStore) (cn : String × Int64), KvReflects now s ws →
      KvReflects now (s.addHits cn.1 cn.2) ws := fun s cn reflects =>
    reflects.fades (reflects.sound.addHits cn.1 cn.2) fun c =>
      Or.inl (KvStore.row_addHits reflects.sound.lawful cn.1 cn.2 c)
  exact Runs.invariant sent start _

theorem sweepExpired (timed : env.Timed now) (reflects : KvReflects now s ws) :
    KvReflects now (s.sweepExpired env) ws :=
  reflects.fades (reflects.sound.sweepExpired timed)
    (KvStore.fades_sweepExpired reflects.sound.lawful env (timed.bounded 0) (timed.bounded 1))

theorem stats (timed : env.Timed now) (reflects : KvReflects now s ws) (code : String) :
    KvReflects now (s.stats env code).2 ws :=
  (reflects.atStep (timed.bounded 0)).atStep (timed.bounded 1)

theorem listKeys (timed : env.Timed now) (reflects : KvReflects now s ws) (q : String) (t : Nat)
    (keys : List Bytes) : KvReflects now (KvStore.listKeys env q s t keys).2 ws := by
  induction keys generalizing s t with
  | nil => exact reflects
  | cons k keys ih =>
      have later := ih ((reflects.atStep (timed.bounded t)).atStep (timed.bounded (t + 1))) (t + 2)
      rw [KvStore.listKeys]
      split
      · exact later
      · split
        · exact later
        · exact later

theorem list (timed : env.Timed now) (reflects : KvReflects now s ws) (scan : Scan)
    (limit offset : Nat) (sort q : String) :
    KvReflects now (s.list env scan limit offset sort q).2 ws := by
  have read := reflects.atStep (timed.bounded 0)
  rw [KvStore.list, KvStore.listed]
  dsimp only
  split
  · exact read
  · exact read.listKeys timed q 1 _

theorem restart (timed : env.Timed now) (reflects : KvReflects now s ws) :
    KvReflects now (kvRestart env s) ws := by
  have flushed := reflects.flushHits timed
  refine flushed.fades ⟨flushed.sound.lawful, fun c ent found => ?_⟩ fun c => Or.inl rfl
  rw [Lru.find] at found
  cases found

theorem readRow_eq (s : KvStore) (env : KvEnv) (read check : Nat) (code : String) :
    s.readRow env read check code = ((s.atStep env read).row code).bind fun row =>
      if past row.e (env.clock check) then none else some row := by
  rw [KvStore.readRow, KvStore.row, Option.bind_assoc]

/-- A read from the server answers the word of its code. -/
theorem reads_readRow (reflects : KvReflects (env.clock 1) s ws)
    (monotone : ∀ {t t'}, t ≤ t' → env.clock t ≤ env.clock t') (code : String) :
    Reads ws env.clock code ((s.readRow env 2 3 code).map Row.u) := by
  have fades := KvStore.Fades.atStep reflects.sound.lawful env (Int64.le_refl (env.clock 2)) code
  rw [readRow_eq]
  cases read : (s.atStep env 2).row code with
  | some row =>
      have held : s.row code = some row := by
        rcases fades with same | ⟨gone, -⟩
        · exact same.symm.trans read
        · rw [gone] at read
          cases read
      have there : ws code = some ⟨row.u, row.e⟩ :=
        reflects.lapsed.shown (congrArg (Option.map _) held)
      rw [Option.bind_some]
      cases late : past row.e (env.clock 3) with
      | false =>
          refine ⟨row.e, there, ?_⟩
          cases early : past row.e (env.clock 0) with
          | false => rfl
          | true =>
              rw [past_mono (monotone (Nat.zero_le 3)) early] at late
              cases late
      | true =>
          intro w same
          rw [there] at same
          cases same
          exact ⟨3, late⟩
  | none =>
      intro w there
      rcases reflects.lapsed.missing there with shown | old
      · rw [kvWords, Option.map_eq_some_iff] at shown
        obtain ⟨row, held, rfl⟩ := shown
        rcases fades with same | ⟨-, row', was, old⟩
        · rw [read, held] at same
          cases same
        · rw [held] at was
          cases was
          exact ⟨2, old⟩
      · exact ⟨1, old⟩

/-- A resolve answers the word of its code. -/
theorem reads (reflects : KvReflects (env.clock 1) s ws)
    (monotone : ∀ {t t'}, t ≤ t' → env.clock t ≤ env.clock t') (code : String) :
    Reads ws env.clock code (s.resolve env code).1 := by
  rw [KvStore.resolve]
  cases hit : (s.cached env code).1 with
  | some shown =>
      obtain ⟨u, e⟩ := shown
      obtain ⟨cachedAt, found, current⟩ := Lru.get_some hit
      rcases reflects.sound.fits code _ found with gone | ⟨row, held, expires, url⟩
      · rw [current] at gone
        cases gone
      · dsimp only at expires url
        refine ⟨e, reflects.lapsed.shown ?_, ?_⟩
        · rw [kvWords, held, ← expires, ← url]
          rfl
        · cases early : past e (env.clock 0) with
          | false => rfl
          | true =>
              rw [past_mono (monotone (Nat.zero_le 1)) early] at current
              cases current
  | none =>
      have answer := reflects.reads_readRow monotone code
      have same : KvStore.readRow { s with cache := (s.cached env code).2 } env 2 3 code =
          s.readRow env 2 3 code := rfl
      rw [← same] at answer
      dsimp only
      cases got : KvStore.readRow { s with cache := (s.cached env code).2 } env 2 3 code with
      | some row =>
          rw [got] at answer
          exact answer
      | none =>
          rw [got] at answer
          exact answer

end KvReflects

end Shrt.Backends
