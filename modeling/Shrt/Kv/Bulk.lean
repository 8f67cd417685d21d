import Mathlib.Data.List.Basic
import Mathlib.Data.List.Forall2
import Shrt.Kv.Cached

/-!
# Bulk creation over a connection that fails

A bulk creation sends its creates in one pipe and goes by the replies, place by
place.  A pipe that fails has no replies, whatever the server applied of it, and
the codes are returned as they were drawn.  They are all stored with their urls
if the pipe is answered; if it fails, exactly when the rows that are there and
the commands that were applied happen to hold every code with its url.
-/

namespace Shrt.Kv

open Shrt.Codec Shrt.Lib
open Shrt.Store.Inner (expiry)

/-- How a pipe ends: with a reply to every command, or with an error after the
server applied the first commands. -/
inductive Piped where
  | answered
  | failed (applied : Nat)
  deriving DecidableEq, Repr

namespace KvStore

/-- The creates of a bulk creation: each url with the code that is drawn for it. -/
def batch (env : KvEnv) (s : KvStore) (urls : List String) : List (String × String) :=
  urls.zip ((env.rng.take urls.length).map (genCode s.inst))

/-- `shorten_many` with the outcome of its pipe. -/
def shortenManyOver (pipe : Piped) (env : KvEnv) (s : KvStore) (urls : List String) (ttl : Int64) :
    Option (List String × KvStore) :=
  if env.rng.length < urls.length then none
  else
    let sent := s.batch env urls
    match pipe with
    | .answered =>
        let piped := pipeNx env (env.clock 0) ttl s 1 sent
        retryTaken env ttl piped.2.1 piped.2.2 (env.rng.drop urls.length) piped.1
    | .failed applied =>
        -- `unwrap_or_default`: no replies, so no code is looked at again
        some (sent.map Prod.snd, (pipeNx env (env.clock 0) ttl s 1 (sent.take applied)).2.1)

theorem shortenManyOver_answered (env : KvEnv) (s : KvStore) (urls : List String) (ttl : Int64) :
    shortenManyOver .answered env s urls ttl = s.shortenMany env urls ttl := rfl

/-- One code for each url, and the server holds it with that url. -/
def Stores (s : KvStore) (urls codes : List String) : Prop :=
  List.Forall₂ (fun url code => (s.row code).map Row.u = some url) urls codes

/-- The code of a command is held with its url: by a row from before, or as the
first of the applied commands that carry the code. -/
def Lands (s : KvStore) (applied : List (String × String)) (cmd : String × String) : Prop :=
  match s.kvGet cmd.2 with
  | some v => (decVal v).map Row.u = some cmd.1
  | none => (applied.find? fun other => other.2 == cmd.2).map Prod.fst = some cmd.1

/-- The pipe is answered, or every command lands. -/
def Placed (pipe : Piped) (s : KvStore) (sent : List (String × String)) : Prop :=
  match pipe with
  | .answered => True
  | .failed applied => ∀ cmd ∈ sent, s.Lands (sent.take applied) cmd

/-- Whenever the server evicts due keys during the call, this value is not due. -/
def Undue (env : KvEnv) (code : String) (st : Stored) : Prop :=
  ∀ t, env.evicts t (lkey code) = true → Stored.due (env.clock t) st = false

/-- No row under the code is evicted during the call, neither the one that is
there nor one that the call creates.  Fields of hashes are never evicted. -/
structure Spared (env : KvEnv) (ttl : Int64) (code : String) (s : KvStore) : Prop where
  held : s.layout = .key → s.kv.AtKeys (fun _ => lkey code) (Undue env code)
  fresh : s.layout = .key → ∀ t value,
    Undue env code ⟨value, if ttl > 0 then some ((env.clock t).toInt + ttl.toInt) else none⟩

section Steps

variable {env : KvEnv} {s s' : KvStore} {code url : String} {ttl : Int64} {v : Bytes}

namespace Spared

theorem atStep (spared : Spared env ttl code s) (t : Nat) : Spared env ttl code (s.atStep env t) where
  held layout := (spared.held layout).evict _ _
  fresh := spared.fresh

theorem setNx (spared : Spared env ttl code s) (t : Nat) (c : String) (value : Bytes) :
    Spared env ttl code (s.setNx (env.clock t) c value ttl).2 where
  held layout := by
    have same : s.layout = .key := layout
    simp only [KvStore.setNx, same]
    exact (spared.held same).set fun _ _ => spared.fresh same t value
  fresh := spared.fresh

theorem keptByCreates (env : KvEnv) (ttl : Int64) (code : String) :
    KeptByCreates env ttl (Spared env ttl code) where
  evicted _ t spared := spared.atStep t
  created _ _ t c _ _ _ spared := spared.setNx t c _

theorem kvGet_atStep (spared : Spared env ttl code s) (t : Nat) :
    (s.atStep env t).kvGet code = s.kvGet code := by
  cases layout : s.layout with
  | hash =>
      simp only [kvGet, KvStore.atStep, layout]
      rfl
  | key =>
      have left := Redis.lookup_evict_eq s.kv (env.clock t) (env.evicts t) (lkey code)
      simp only [kvGet, KvStore.atStep, layout, Redis.get, left]
      cases found : s.kv.strings.lookup (lkey code) with
      | none => rfl
      | some st =>
          have stays : (!(env.evicts t (lkey code) && Stored.due (env.clock t) st)) = true := by
            cases chosen : env.evicts t (lkey code) with
            | false => rfl
            | true => simp [spared.held layout code st found t chosen]
          rw [Option.filter_some, if_pos stays]

/-- A server that evicts nothing spares every row. -/
theorem of_evicts (kept : ∀ t k, env.evicts t k = false) (ttl : Int64) (code : String)
    (s : KvStore) : Spared env ttl code s where
  held _ _ _ _ t chosen := absurd chosen (by rw [kept]; simp)
  fresh _ _ _ t chosen := absurd chosen (by rw [kept]; simp)

end Spared

/-- Creates keep a row that is not evicted. -/
theorem keptByCreates_row (env : KvEnv) (ttl : Int64) (code : String) (v : Bytes) :
    KeptByCreates env ttl fun s => Spared env ttl code s ∧ s.kvGet code = some v where
  evicted s t held := ⟨held.1.atStep t, by rw [held.1.kvGet_atStep, held.2]⟩
  created s begun t c url _ _ held := by
    refine ⟨held.1.setNx t c _, ?_⟩
    rw [kvGet_setNx, if_neg, held.2]
    rintro ⟨rfl, free⟩
    rw [held.2] at free
    cases free

theorem keptByCreates_inst (env : KvEnv) (ttl : Int64) (inst : Inst) :
    KeptByCreates env ttl fun s => s.inst = inst where
  evicted _ _ same := same
  created _ _ _ _ _ _ _ same := same

/-- What a batch leaves under a code: the row from before, else that of the first
command for the code. -/
theorem kvGet_pipeNx (spared : Spared env ttl code s) (now : Int64) (t : Nat)
    (cmds : List (String × String)) :
    (pipeNx env now ttl s t cmds).2.1.kvGet code =
      (s.kvGet code).or ((cmds.find? fun cmd => cmd.2 == code).map fun cmd =>
        encVal (expiry now ttl) now cmd.1) := by
  induction cmds generalizing s t with
  | nil => simp [pipeNx]
  | cons cmd cmds ih =>
      obtain ⟨url, c⟩ := cmd
      rw [pipeNx, ih ((spared.atStep t).setNx t c _), kvGet_setNx, spared.kvGet_atStep,
        List.find?_cons]
      by_cases same : code = c
      · subst same
        cases held : s.kvGet code with
        | none => simp [spared.kvGet_atStep, held]
        | some v => simp [spared.kvGet_atStep, held]
      · have other : (c == code) = false := by simpa using Ne.symm same
        rw [if_neg fun both => same both.1, other]

theorem spared_pipeNx (spared : Spared env ttl code s) (now : Int64) (t : Nat)
    (cmds : List (String × String)) : Spared env ttl code (pipeNx env now ttl s t cmds).2.1 := by
  induction cmds generalizing s t with
  | nil => exact spared
  | cons cmd cmds ih => exact ih ((spared.atStep t).setNx t _ _) (t + 1)

theorem map_pipeNx (env : KvEnv) (now ttl : Int64) (s : KvStore) (t : Nat)
    (cmds : List (String × String)) :
    (pipeNx env now ttl s t cmds).1.map (fun r => (r.1, r.2.1)) = cmds := by
  induction cmds generalizing s t with
  | nil => rfl
  | cons cmd cmds ih => rw [pipeNx, List.map_cons, ih]

/-- A command that is answered with success has stored its row. -/
theorem kvGet_of_created {now : Int64} {t : Nat} {cmds : List (String × String)}
    (spared : Spared env ttl code s) (created : (url, code, true) ∈ (pipeNx env now ttl s t cmds).1) :
    (pipeNx env now ttl s t cmds).2.1.kvGet code = some (encVal (expiry now ttl) now url) := by
  induction cmds generalizing s t with
  | nil => cases created
  | cons cmd cmds ih =>
      rw [pipeNx] at created ⊢
      rcases List.mem_cons.mp created with first | later
      · obtain ⟨rfl, rfl, free⟩ : url = cmd.1 ∧ code = cmd.2 ∧ _ := by simpa using first
        have unused : (s.atStep env t).kvGet cmd.2 = none := by
          rw [fst_setNx] at free
          exact Option.isNone_iff_eq_none.mp free
        rw [kvGet_pipeNx ((spared.atStep t).setNx t _ _), kvGet_setNx, if_pos ⟨rfl, unused⟩]
        rfl
      · exact ih ((spared.atStep t).setNx t _ _) later

theorem map_row_iff {s : KvStore} : (s.row code).map Row.u = some url ↔
    ∃ v, s.kvGet code = some v ∧ (decVal v).map Row.u = some url := by
  rw [row, Option.map_bind, Option.bind_eq_some_iff]
  rfl

/-- Creates keep the url of a row that is not evicted. -/
theorem url_kept (spared : Spared env ttl code s)
    (kept : ∀ Inv : KvStore → Prop, KeptByCreates env ttl Inv → Inv s → Inv s')
    (held : (s.row code).map Row.u = some url) : (s'.row code).map Row.u = some url := by
  obtain ⟨v, found, decoded⟩ := map_row_iff.mp held
  have later := kept _ (keptByCreates_row env ttl code v) ⟨spared, found⟩
  exact map_row_iff.mpr ⟨v, later.2, decoded⟩

/-- A drawn code is stored when the draw is over. -/
theorem freshCode_stored {t t' : Nat} {rng rng' : List Suffix}
    (done : freshCode env v ttl s t rng = some (code, s', t', rng')) :
    (∃ buf ∈ rng, code = genCode s.inst buf) ∧ s'.kvGet code = some v ∧
      ∀ buf ∈ rng', buf ∈ rng := by
  induction rng generalizing s t with
  | nil => cases done
  | cons buf rng ih =>
      rw [freshCode] at done
      split at done
      · rename_i free
        cases done
        refine ⟨⟨buf, List.mem_cons_self, rfl⟩, ?_, fun _ => List.mem_cons_of_mem buf⟩
        rw [fst_setNx, Option.isNone_iff_eq_none] at free
        rw [kvGet_setNx, if_pos ⟨rfl, free⟩]
      · obtain ⟨⟨buf', drawn, same⟩, stored, fewer⟩ := ih done
        exact ⟨⟨buf', List.mem_cons_of_mem buf drawn, same⟩, stored,
          fun other member => List.mem_cons_of_mem buf (fewer other member)⟩

/-- The codes of a bulk creation after its retries: those that were free, and
new ones for the others. -/
theorem stores_retryTaken {t : Nat} {rng : List Suffix} {tried : List (String × String × Bool)}
    {codes : List String} (spared : ∀ buf ∈ rng, Spared env ttl (genCode s.inst buf) s)
    (free : ∀ url code, (url, code, true) ∈ tried →
      Spared env ttl code s ∧ (s.row code).map Row.u = some url)
    (done : retryTaken env ttl s t rng tried = some (codes, s')) :
    s'.Stores (tried.map Prod.fst) codes := by
  induction tried generalizing s t rng codes with
  | nil =>
      cases done
      exact .nil
  | cons one tried ih =>
      obtain ⟨url, code, fate⟩ := one
      cases fate with
      | true =>
          simp only [retryTaken, Option.map_eq_some_iff] at done
          obtain ⟨⟨codes', s''⟩, later, same⟩ := done
          cases same
          obtain ⟨code_spared, held⟩ := free url code List.mem_cons_self
          have kept := url_kept code_spared (fun _ kept start => kept.retryTaken start later) held
          exact .cons kept (ih spared (fun _ _ member => free _ _ (List.mem_cons_of_mem _ member))
            later)
      | false =>
          simp only [retryTaken, Option.bind_eq_some_iff, Option.map_eq_some_iff] at done
          obtain ⟨⟨made, s₁, t₁, rng₁⟩, again, ⟨codes', s''⟩, later, same⟩ := done
          cases same
          have unmoved : s₁.inst = s.inst :=
            (keptByCreates_inst env ttl s.inst).shortenFrom (by simp) rfl again
          have after : ∀ code, Spared env ttl code s → Spared env ttl code s₁ := fun code before =>
            (Spared.keptByCreates env ttl code).shortenFrom (by simp) before again
          have carried : ∀ url code, (url, code, true) ∈ tried →
              Spared env ttl code s₁ ∧ (s₁.row code).map Row.u = some url := by
            intro url' code' member
            obtain ⟨code_spared, held⟩ := free url' code' (List.mem_cons_of_mem _ member)
            exact ⟨after _ code_spared, url_kept code_spared
              (fun _ kept start => kept.shortenFrom (by simp) start again) held⟩
          simp only [shortenFrom, Option.map_eq_some_iff] at again
          obtain ⟨⟨fresh, s₂, t₂, rng₂⟩, drawn, same⟩ := again
          cases same
          obtain ⟨⟨buf, member, rfl⟩, stored, fewer⟩ := freshCode_stored drawn
          have held := map_row_iff.mpr ⟨_, stored, (congrArg _ (decVal_encVal _ _ url)).trans rfl⟩
          refine .cons (url_kept (after _ (spared buf member))
            (fun _ kept start => kept.retryTaken start later) held) (ih ?_ carried later)
          intro other left
          rw [unmoved]
          exact after _ (spared other (fewer other left))

end Steps

section Many

variable {pipe : Piped} {env : KvEnv} {s s' : KvStore} {urls codes : List String} {ttl : Int64}

theorem map_fst_batch (env : KvEnv) (s : KvStore) (enough : ¬ env.rng.length < urls.length) :
    (s.batch env urls).map Prod.fst = urls := by
  refine List.map_fst_zip ?_
  rw [List.length_map, List.length_take]
  omega

theorem spared_batch (spared : ∀ buf ∈ env.rng, Spared env ttl (genCode s.inst buf) s)
    {cmd : String × String} (member : cmd ∈ s.batch env urls) : Spared env ttl cmd.2 s := by
  obtain ⟨buf, drawn, same⟩ := List.mem_map.mp (List.of_mem_zip member).2
  rw [← same]
  exact spared buf (List.mem_of_mem_take drawn)

theorem inst_pipeNx (env : KvEnv) (now ttl : Int64) (s : KvStore) (t : Nat)
    (cmds : List (String × String)) : (pipeNx env now ttl s t cmds).2.1.inst = s.inst := by
  induction cmds generalizing s t with
  | nil => rfl
  | cons cmd cmds ih =>
      rw [pipeNx, ih]
      rfl

theorem stores_map_iff (s : KvStore) (cmds : List (String × String)) :
    s.Stores (cmds.map Prod.fst) (cmds.map Prod.snd) ↔
      ∀ cmd ∈ cmds, (s.row cmd.2).map Row.u = some cmd.1 := by
  rw [Stores, List.forall₂_map_left_iff, List.forall₂_map_right_iff, List.forall₂_same]

/-- What the applied commands leave under a code is the url of its command
exactly if the command landed. -/
theorem row_pipeNx_iff {applied : List (String × String)} {cmd : String × String}
    (spared : Spared env ttl cmd.2 s) (now : Int64) :
    ((pipeNx env now ttl s 1 applied).2.1.row cmd.2).map Row.u = some cmd.1 ↔
      s.Lands applied cmd := by
  rw [row, kvGet_pipeNx spared, Lands]
  cases s.kvGet cmd.2 with
  | some v => rfl
  | none =>
      rw [Option.none_or]
      cases applied.find? fun other => other.2 == cmd.2 with
      | none => rfl
      | some other =>
          rw [Option.map_some, Option.bind_some, decVal_encVal]
          rfl

/-- The codes that a bulk creation returns are stored with their urls exactly if
its pipe was answered or all its commands landed. -/
theorem shortenMany_stores_iff (spared : ∀ buf ∈ env.rng, Spared env ttl (genCode s.inst buf) s)
    (done : s.shortenManyOver pipe env urls ttl = some (codes, s')) :
    s'.Stores urls codes ↔ s.Placed pipe (s.batch env urls) := by
  rw [shortenManyOver] at done
  split at done
  · cases done
  · rename_i enough
    have sent_urls : (s.batch env urls).map Prod.fst = urls := map_fst_batch env s enough
    cases pipe with
    | answered =>
        refine iff_of_true ?_ trivial
        have retried := stores_retryTaken ?_ ?_ done
        · have order := map_pipeNx env (env.clock 0) ttl s 1 (s.batch env urls)
          have firsts := congrArg (List.map Prod.fst) order
          rw [List.map_map, sent_urls] at firsts
          rw [← firsts]
          exact retried
        · intro buf left
          rw [inst_pipeNx]
          exact spared_pipeNx (spared buf (List.mem_of_mem_drop left)) _ 1 _
        · intro url code created
          have sent : (url, code) ∈ s.batch env urls := by
            rw [← map_pipeNx env (env.clock 0) ttl s 1 (s.batch env urls)]
            exact List.mem_map.mpr ⟨_, created, rfl⟩
          have code_spared := spared_batch spared sent
          refine ⟨spared_pipeNx code_spared _ 1 _, map_row_iff.mpr ⟨_, kvGet_of_created code_spared created, ?_⟩⟩
          rw [decVal_encVal]
          rfl
    | failed applied =>
        cases done
        have all := stores_map_iff (pipeNx env (env.clock 0) ttl s 1
          ((s.batch env urls).take applied)).2.1 (s.batch env urls)
        rw [sent_urls] at all
        rw [all]
        exact forall₂_congr fun cmd member => row_pipeNx_iff (spared_batch spared member) _

/-- The same code is drawn twice, and the second create is retried. -/
theorem shortenMany_stores_retried :
    let env := KvEnv.at 1000 [.replicate 7 1, .replicate 7 1, .replicate 7 2]
    let s := KvStore.fresh 0 .key ⟨8, by decide⟩ 100 0
    ∃ codes s', s.shortenManyOver .answered env ["https://a.example", "https://b.example"] 0 =
        some (codes, s') ∧ codes = ["01111111", "02222222"] ∧
      s'.Stores ["https://a.example", "https://b.example"] codes := by
  intro env s
  have returned : (s.shortenManyOver .answered env ["https://a.example", "https://b.example"] 0).map
      Prod.fst = some ["01111111", "02222222"] := by
    decide +kernel
  obtain ⟨⟨codes, s'⟩, done, same⟩ := Option.map_eq_some_iff.mp returned
  have spared : ∀ buf ∈ env.rng, Spared env 0 (genCode s.inst buf) s :=
    fun buf _ => .of_evicts (fun _ _ => rfl) 0 _ s
  exact ⟨codes, s', done, same, (shortenMany_stores_iff spared done).mpr trivial⟩

/-- The connection is lost before the server read a command: the code that is
returned is stored nowhere. -/
theorem shortenMany_unstored :
    let env := KvEnv.at 1000 [.replicate 7 1]
    let s := KvStore.fresh 0 .key ⟨8, by decide⟩ 100 0
    ∃ codes s', s.shortenManyOver (.failed 0) env ["https://a.example"] 0 = some (codes, s') ∧
      codes = ["01111111"] ∧ s'.row "01111111" = none ∧ ¬ s'.Stores ["https://a.example"] codes := by
  intro env s
  have returned : (s.shortenManyOver (.failed 0) env ["https://a.example"] 0).map
      (fun done => (done.1, done.2.row "01111111")) = some (["01111111"], none) := by
    decide +kernel
  obtain ⟨⟨codes, s'⟩, done, same⟩ := Option.map_eq_some_iff.mp returned
  obtain ⟨rfl, absent⟩ := Prod.mk.inj same
  refine ⟨_, s', done, rfl, absent, ?_⟩
  intro stored
  cases stored with
  | cons held _ =>
      rw [absent] at held
      cases held

end Many

end KvStore

end Shrt.Kv
