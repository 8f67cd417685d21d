import Mathlib.Data.List.Basic
import Mathlib.Data.List.Forall2
import Shrt.Store.Cluster

/-!
# Bulk creation in process

A bulk creation takes its codes from one random buffer and draws again for each
that is taken, by an older link or by one of the same call.  Whatever the
collisions are, every url gets a new code of the instance, its link and, in
input order, its row in the queue of the log.
-/

namespace Shrt.Store

open Shrt.Codec Shrt.Lib Shrt.Lib.Utf8 Shrt.Lib.Framing
open Shrt.Store.Inner (expiry)

/-- Eight base62 characters that start with the mark of the instance. -/
structure Generated (i : Inst) (c : String) : Prop where
  length : (encode c).length = CODE_LEN
  base62 : ∀ b ∈ encode c, b ∈ ALPHABET
  marked : (encode c).head? = some (prefixByte i)

theorem alphabetByte_mem (b : UInt8) : alphabetByte b ∈ ALPHABET := by
  apply forall_byte (P := fun b => alphabetByte b ∈ ALPHABET)
  decide +kernel

theorem prefixByte_mem (i : Inst) : prefixByte i ∈ ALPHABET := by
  revert i
  decide +kernel

theorem generated_genCode (i : Inst) (buf : Suffix) : Generated i (genCode i buf) where
  length := by
    rw [encode_genCode, randSuffix, List.length_cons, List.length_map, Vector.length_toList]
    rfl
  base62 := by
    intro b member
    rw [encode_genCode] at member
    rcases List.mem_cons.mp member with rfl | member
    · exact prefixByte_mem i
    · obtain ⟨r, -, rfl⟩ := List.mem_map.mp member
      exact alphabetByte_mem r
  marked := by
    rw [encode_genCode]
    rfl

/-- The mark tells the instance. -/
theorem Generated.inst_eq {i j : Inst} {c : String} (first : Generated i c)
    (second : Generated j c) : i = j := by
  have same : prefixByte i = prefixByte j := Option.some.inj (first.marked.symm.trans second.marked)
  have position := alphaIdx_prefixByte i
  rw [same, alphaIdx_prefixByte] at position
  exact (Option.some.inj position).symm

/-- The rows that are logged for urls and their codes. -/
def newRows (inst : Inst) (now exp : Int64) (urls codes : List String) : List Rec :=
  List.zipWith (fun url c => .row c url now exp inst.i64 0) urls codes

/-- The index got one link of a new code for every url, and no other change. -/
structure Draws (inst : Inst) (entry : String → Entry) (urls : List String)
    (index index' : Index) (codes : List String) : Prop where
  generated : ∀ c ∈ codes, Generated inst c
  fresh : ∀ c ∈ codes, c ∉ index
  distinct : codes.Nodup
  aligned : List.Forall₂ (fun url c => index'.lookup c = some (entry url)) urls codes
  untouched : ∀ c, c ∉ codes → index'.lookup c = index.lookup c

namespace Draws

variable {inst : Inst} {entry : String → Entry} {urls codes : List String}
  {index index' : Index}

theorem nil (inst : Inst) (entry : String → Entry) (index : Index) :
    Draws inst entry [] index index [] where
  generated c member := by cases member
  fresh c member := by cases member
  distinct := .nil
  aligned := .nil
  untouched _ _ := rfl

/-- A code that is drawn first is taken for those drawn later. -/
theorem cons {c url : String} (generated : Generated inst c) (free : c ∉ index)
    (later : Draws inst entry urls (index.insert c (entry url)) index' codes) :
    Draws inst entry (url :: urls) index index' (c :: codes) := by
  have others : ∀ d ∈ codes, d ≠ c ∧ d ∉ index := by
    intro d member
    have untaken := later.fresh d member
    rw [AList.mem_insert, not_or] at untaken
    exact untaken
  have unlisted : c ∉ codes := fun member => (others c member).1 rfl
  constructor
  · intro d member
    rcases List.mem_cons.mp member with rfl | member
    · exact generated
    · exact later.generated d member
  · intro d member
    rcases List.mem_cons.mp member with rfl | member
    · exact free
    · exact (others d member).2
  · exact List.nodup_cons.mpr ⟨unlisted, later.distinct⟩
  · refine .cons ?_ later.aligned
    rw [later.untouched c unlisted, Map.lookup_insert_eq, if_pos rfl]
  · intro d unlisted
    obtain ⟨other, unlisted⟩ := not_or.mp (fun either => unlisted (List.mem_cons.mpr either))
    rw [later.untouched d unlisted, Map.lookup_insert_eq, if_neg other]

/-- What was there is kept. -/
theorem kept (draws : Draws inst entry urls index index' codes) {c : String} {e : Entry}
    (found : index.lookup c = some e) : index'.lookup c = some e := by
  have unlisted : c ∉ codes := by
    intro member
    rw [Map.not_mem_iff_lookup.mp (draws.fresh c member)] at found
    cases found
  rw [draws.untouched c unlisted]
  exact found

end Draws

/-- The loop of `shorten_many`, from whatever it starts with. -/
theorem bulk_draws {inst : Inst} {now exp : Int64} {entry : String → Entry}
    {items : List (String × Suffix)} {retries : List Suffix} {index index' : Index}
    {rows rows' : Bytes} {codes codes' : List String}
    (done : Inner.bulk inst now exp entry items retries index rows codes =
      some (index', rows', codes')) :
    ∃ drawn, codes' = codes ++ drawn ∧
      Draws inst entry (items.map Prod.fst) index index' drawn ∧
      rows' = rows ++ logBytes (newRows inst now exp (items.map Prod.fst) drawn) := by
  induction items generalizing retries index rows codes with
  | nil =>
      cases done
      exact ⟨[], (List.append_nil _).symm, Draws.nil inst entry _, (List.append_nil _).symm⟩
  | cons item items ih =>
      obtain ⟨url, buf⟩ := item
      rw [Inner.bulk, Option.bind_eq_some_iff] at done
      obtain ⟨⟨c, rest⟩, took, done⟩ := done
      obtain ⟨free, b, -, rfl⟩ := freshCode_spec took
      obtain ⟨drawn, rfl, later, rfl⟩ := ih done
      refine ⟨genCode inst b :: drawn, List.append_assoc _ _ _, ?_, ?_⟩
      · exact .cons (generated_genCode inst b) free later
      · dsimp only
        rw [rowLineInto_eq, List.map_cons, newRows, newRows, List.zipWith_cons_cons,
          logBytes_cons]
        simp [Rec.line]

/-- Bytes went behind the queue of the log, and past the threshold the whole
queue to the file; a store without a log writes nothing. -/
structure Appends (s s' : Inner) (dir dir' : Dir) (bytes : Bytes) : Prop where
  memory : s.aof = none → s'.aof = none ∧ dir' = dir
  queue : ∀ q, s.aof = some q →
    if (q.pushRaw bytes).pendingBytes > FLUSH_BYTES then
      s'.aof = some ⟨[]⟩ ∧ dir' = dir.append (.log s.inst) (q.buf ++ bytes)
    else s'.aof = some (q.pushRaw bytes) ∧ dir' = dir

theorem appends_logRaw (s : Inner) (dir : Dir) (bytes : Bytes) :
    Appends s (s.logRaw dir bytes).1 dir (s.logRaw dir bytes).2 bytes := by
  constructor
  · intro memory
    rw [Inner.logRaw, memory]
    exact ⟨memory, rfl⟩
  · intro q queue
    by_cases full : (q.pushRaw bytes).pendingBytes > FLUSH_BYTES
    · have filled : (q.pushRaw bytes).buf ≠ [] := by
        intro idle
        rw [Aof.pendingBytes, idle] at full
        cases full
      simp only [Inner.logRaw, queue, if_pos full, Aof.flush, if_neg filled, true_and]
      rfl
    · simp only [Inner.logRaw, queue, if_neg full, true_and]

/-- Whatever codes collide, a bulk creation gives every url a new code of the
instance, stores its link, keeps all others and logs the rows in input order. -/
theorem shortenMany_draws {env : Env} {s s' : Inner} {dir dir' : Dir} {urls codes : List String}
    {ttl : Int64} (done : s.shortenMany env dir urls ttl = some (codes, s', dir')) :
    Draws s.inst (fun url => s.newEntry url (env.clock 0) (expiry (env.clock 0) ttl)) urls
        s.index s'.index codes ∧
      (∀ c e, s.index.lookup c = some e → s'.index.lookup c = some e) ∧
      (∀ c ∈ codes, ∀ j, j ≠ s.inst → ∀ buf, genCode j buf ≠ c) ∧
      Appends s s' dir dir'
        (logBytes (newRows s.inst (env.clock 0) (expiry (env.clock 0) ttl) urls codes)) := by
  simp only [Inner.shortenMany] at done
  split at done
  · cases done
  · rename_i enough
    obtain ⟨⟨index, rows, drawn⟩, bulked, made⟩ := Option.map_eq_some_iff.mp done
    obtain ⟨rfl, logged⟩ := Prod.mk.inj made
    have stored : s'.index = index :=
      (congrArg (fun done => done.1.index) logged.symm).trans (index_logRaw _ _ _)
    have queued := appends_logRaw { s with index := index } dir rows
    rw [logged] at queued
    have names : (urls.zip env.rng).map Prod.fst = urls := List.map_fst_zip (by omega)
    obtain ⟨codes, rfl, draws, rfl⟩ := bulk_draws bulked
    rw [names] at draws
    rw [names, List.nil_append] at queued
    rw [List.nil_append, stored]
    refine ⟨draws, fun c e found => draws.kept found, ?_, ?_⟩
    · rintro c member j other buf rfl
      exact other ((generated_genCode j buf).inst_eq (draws.generated _ member))
    · exact ⟨queued.memory, queued.queue⟩

/-- A store with one link, under the code that the zero bytes stand for. -/
def zeroLink : World :=
  (World.fresh (.at 0 []) 0).step (.at 1 [Vector.replicate 7 0], .shorten "u" none 0)

/-- The first candidate meets the link, and its replacement the second one. -/
theorem shortenMany_draws_colliding :
    ∃ s' dir', zeroLink.store.shortenMany
        (.at 2 [Vector.replicate 7 0, Vector.replicate 7 1, Vector.replicate 7 1,
          Vector.replicate 7 2]) zeroLink.dir ["v", "w"] 0 =
          some (["01111111", "02222222"], s', dir') ∧
      Draws 0 (fun url => zeroLink.store.newEntry url 2 0) ["v", "w"] zeroLink.store.index
        s'.index ["01111111", "02222222"] := by
  have drawn : (zeroLink.store.shortenMany
      (.at 2 [Vector.replicate 7 0, Vector.replicate 7 1, Vector.replicate 7 1,
        Vector.replicate 7 2]) zeroLink.dir ["v", "w"] 0).map Prod.fst =
      some ["01111111", "02222222"] := by
    decide +kernel
  obtain ⟨⟨codes, s', dir'⟩, done, rfl⟩ := Option.map_eq_some_iff.mp drawn
  exact ⟨s', dir', done, (shortenMany_draws done).1⟩

end Shrt.Store
