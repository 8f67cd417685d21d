import Mathlib.Data.List.Basic
import Mathlib.Logic.Function.Basic
import Shrt.Kv.Connections
import Shrt.Lib.Runs

/-!
# Replies and the commands they answer

An idle connection has nothing under way, a connection in use carries one call
alone, and one that has failed is never used again.  This holds in every run, and
it ties each reply to its command: what a call returns is what the server answered
to its own commands while it was waiting.
-/

namespace Shrt.Kv

open Shrt.Codec Shrt.Lib
open Shrt.Lib.Pull (Reads Fails Drains)

/-! ## The invariant -/

def Phase.conn? : Phase → Option Nat
  | .idle => none
  | .taken c _ _ => some c
  | .reading c _ _ _ => some c

/-- What a thread in a call can rely on. -/
def Phase.Meets (log : List Executed) (sockets : Nat → Socket) : Phase → Prop
  | .idle => True
  | .taken c since _ => (sockets c).Clear ∧ since ≤ log.length ∧ upTo log c since = []
  | .reading c since cmds rs =>
      rs.length < cmds.length ∧ Awaits log (sockets c) c since cmds ∧
        Hears log (sockets c) c since rs

/-- The replies of a call are those of its commands, which were executed in order
between its begin and its return, and nothing else on this connection. -/
def Finished.Matched (call : Finished) (log : List Executed) (closed : Bool) : Prop :=
  ∀ rs, call.result = some rs →
    ∃ replies, between log call.conn call.since call.till = call.cmds.zip replies ∧
      replies.length = call.cmds.length ∧ Heard closed rs replies

namespace Network

variable {δ : Type}

/-- A connection that is in the pool or held by a thread. -/
def InUse (s : Network δ) (c : Nat) : Prop :=
  c ∈ s.pool ∨ ∃ t, (s.threads t).conn? = some c

/-- A call that has failed is over for its connection too: no other command will
come over it. -/
def Dropped (s : Network δ) (call : Finished) : Prop :=
  call.conn < s.opened ∧ ¬ s.InUse call.conn ∧
    Awaits s.log (s.sockets call.conn) call.conn call.since call.cmds

/-- The invariant, but for what one thread relies on. -/
structure Sound (s : Network δ) (out : Option Nat) : Prop where
  nodup : s.pool.Nodup
  waiting : ∀ c ∈ s.pool, c < s.opened ∧ (s.sockets c).Clear
  fresh : ∀ c, s.opened ≤ c → (s.sockets c).Clear
  held : ∀ t c, (s.threads t).conn? = some c → c < s.opened ∧ c ∉ s.pool
  alone : ∀ t t' c, (s.threads t).conn? = some c → (s.threads t').conn? = some c → t = t'
  phases : ∀ t, out ≠ some t → (s.threads t).Meets s.log s.sockets
  sendable : ∀ x ∈ s.log, x.reply.Sendable
  past : ∀ call ∈ s.finished, call.till ≤ s.log.length
  matched : ∀ call ∈ s.finished, call.Matched s.log (s.sockets call.conn).closed
  dropped : ∀ call ∈ s.finished, call.result = none → s.Dropped call

end Network

/-! ## What others do not change -/

theorem Awaits.other {log : List Executed} {socket : Socket} {c since : Nat} {cmds : List Command}
    (awaits : Awaits log socket c since cmds) {x : Executed} (apart : x.conn ≠ c) :
    Awaits (log ++ [x]) socket c since cmds := by
  obtain ⟨past, queue, executed, start⟩ := awaits
  refine ⟨by simp; omega, queue, ?_, start⟩
  rw [upTo_concat past, if_neg apart, List.append_nil]
  exact executed

/-- A phase depends on its own connection alone. -/
theorem Phase.Meets.frame {log : List Executed} {sockets sockets' : Nat → Socket} {phase : Phase}
    (meets : phase.Meets log sockets)
    (same : ∀ c, phase.conn? = some c → sockets' c = sockets c) : phase.Meets log sockets' := by
  cases phase with
  | idle => trivial
  | taken c since cmds =>
      rw [Meets, same c rfl]
      exact meets
  | reading c since cmds rs =>
      rw [Meets, same c rfl]
      exact meets

theorem Phase.Meets.other {log : List Executed} {sockets : Nat → Socket} {phase : Phase}
    (meets : phase.Meets log sockets) {x : Executed} (apart : phase.conn? ≠ some x.conn) :
    phase.Meets (log ++ [x]) sockets := by
  cases phase with
  | idle => trivial
  | taken c since cmds =>
      obtain ⟨clear, past, none_yet⟩ := meets
      have elsewhere : x.conn ≠ c := fun same => apart (congrArg some same.symm)
      refine ⟨clear, by simp; omega, ?_⟩
      rw [upTo_concat past, if_neg elsewhere, none_yet, List.append_nil]
  | reading c since cmds rs =>
      obtain ⟨few, awaits, hears⟩ := meets
      have elsewhere : x.conn ≠ c := fun same => apart (congrArg some same.symm)
      refine ⟨few, awaits.other elsewhere, ?_⟩
      rw [Hears, upTo_concat awaits.1, if_neg elsewhere, List.append_nil]
      exact hears

theorem Heard.closing {closed : Bool} {rs replies : List Resp} (heard : Heard closed rs replies) :
    Heard true rs replies :=
  heard.imp id fun damaged => ⟨rfl, damaged.2⟩

namespace Network

variable {δ : Type} {s : Network δ} {t c since : Nat} {cmds : List Command}

/-! ## Steps of a thread -/

/-- A thread uses its own connection: the others see nothing of it. -/
theorem Sound.touch (sound : s.Sound none) (mine : (s.threads t).conn? = some c) {socket : Socket}
    (closed : socket.closed = (s.sockets c).closed) :
    ({ s with sockets := Function.update s.sockets c socket } : Network δ).Sound (some t) := by
  obtain ⟨small, taken⟩ := sound.held t c mine
  have others : ∀ c', c' ≠ c → Function.update s.sockets c socket c' = s.sockets c' :=
    fun c' apart => Function.update_of_ne apart _ _
  refine ⟨sound.nodup, ?_, ?_, sound.held, sound.alone, ?_, sound.sendable, sound.past, ?_, ?_⟩
  · intro c' among
    dsimp only at among ⊢
    rw [others c' fun same => taken (same ▸ among)]
    exact sound.waiting c' among
  · intro c' new
    dsimp only at new ⊢
    rw [others c' (by omega)]
    exact sound.fresh c' new
  · intro t' apart
    refine (sound.phases t' (by simp)).frame fun c' holds => others c' ?_
    rintro rfl
    exact apart (congrArg some (sound.alone t t' c' mine holds))
  · intro call among
    have flag : (Function.update s.sockets c socket call.conn).closed =
        (s.sockets call.conn).closed := by
      by_cases same : call.conn = c
      · rw [same, Function.update_self, closed]
      · rw [others _ same]
    rw [flag]
    exact sound.matched call among
  · intro call among failed
    obtain ⟨old, unused, awaits⟩ := sound.dropped call among failed
    refine ⟨old, unused, ?_⟩
    dsimp only
    rw [others call.conn fun same => unused (Or.inr ⟨t, same ▸ mine⟩)]
    exact awaits

/-- A thread goes on with its connection. -/
theorem Sound.keep (sound : s.Sound (some t)) (mine : (s.threads t).conn? = some c) {phase : Phase}
    (holds : phase.conn? = some c) (meets : phase.Meets s.log s.sockets) :
    ({ s with threads := Function.update s.threads t phase } : Network δ).Sound none := by
  have same_conn : ∀ t', (Function.update s.threads t phase t').conn? = (s.threads t').conn? := by
    intro t'
    by_cases same : t' = t
    · rw [same, Function.update_self, holds, mine]
    · rw [Function.update_of_ne same]
  refine ⟨sound.nodup, sound.waiting, sound.fresh, ?_, ?_, ?_, sound.sendable, sound.past,
    sound.matched, ?_⟩
  · intro t' c' held
    exact sound.held t' c' ((same_conn t').symm.trans held)
  · intro t' t'' c' held held'
    exact sound.alone t' t'' c' ((same_conn t').symm.trans held) ((same_conn t'').symm.trans held')
  · intro t' _
    by_cases same : t' = t
    · change (Function.update s.threads t phase t').Meets s.log s.sockets
      rw [same, Function.update_self]
      exact meets
    · change (Function.update s.threads t phase t').Meets s.log s.sockets
      rw [Function.update_of_ne same]
      exact sound.phases t' fun out => same (Option.some.inj out).symm
  · intro call among failed
    obtain ⟨old, unused, awaits⟩ := sound.dropped call among failed
    refine ⟨old, fun used => unused ?_, awaits⟩
    exact used.imp id fun ⟨t', held⟩ => ⟨t', (same_conn t').symm.trans held⟩

/-- A thread that has returned holds nothing. -/
theorem held_idle {threads : Nat → Phase} {t' c' : Nat}
    (held : (Function.update threads t .idle t').conn? = some c') :
    t' ≠ t ∧ (threads t').conn? = some c' := by
  by_cases same : t' = t
  · rw [same, Function.update_self] at held
    cases held
  · rw [Function.update_of_ne same] at held
    exact ⟨same, held⟩

/-- What a returning thread leaves in use. -/
theorem inUse_finish {result : Option (List Resp)} {c' : Nat}
    (used : (s.finish t c since cmds result).InUse c') :
    c' ∈ s.pool ∨ ∃ t', t' ≠ t ∧ (s.threads t').conn? = some c' :=
  used.imp id fun ⟨t', held⟩ => ⟨t', held_idle held⟩

/-- A call fails: its connection is not used again. -/
theorem Sound.fail (sound : s.Sound (some t)) (mine : (s.threads t).conn? = some c)
    (awaits : Awaits s.log (s.sockets c) c since cmds) :
    (s.finish t c since cmds none).Sound none := by
  refine ⟨sound.nodup, sound.waiting, sound.fresh, ?_, ?_, ?_, sound.sendable, ?_, ?_, ?_⟩
  · intro t' c' held
    exact sound.held t' c' (held_idle held).2
  · intro t' t'' c' held held'
    exact sound.alone t' t'' c' (held_idle held).2 (held_idle held').2
  · intro t' _
    change (Function.update s.threads t .idle t').Meets s.log s.sockets
    by_cases same : t' = t
    · rw [same, Function.update_self]
      trivial
    · rw [Function.update_of_ne same]
      exact sound.phases t' fun out => same (Option.some.inj out).symm
  · intro call among
    rcases List.mem_append.mp among with old | new
    · exact sound.past call old
    · cases List.mem_singleton.mp new
      exact Nat.le_refl _
  · intro call among
    rcases List.mem_append.mp among with old | new
    · exact sound.matched call old
    · cases List.mem_singleton.mp new
      intro rs none_returned
      cases none_returned
  · intro call among failed
    rcases List.mem_append.mp among with old | new
    · obtain ⟨small, unused, awaits'⟩ := sound.dropped call old failed
      refine ⟨small, fun used => unused ?_, awaits'⟩
      exact (inUse_finish used).imp id fun ⟨t', _, held⟩ => ⟨t', held⟩
    · cases List.mem_singleton.mp new
      refine ⟨(sound.held t c mine).1, fun used => ?_, awaits⟩
      rcases inUse_finish used with pooled | ⟨t', other, held⟩
      · exact (sound.held t c mine).2 pooled
      · exact other (sound.alone t' t c held mine)

/-- A call returns its replies: the connection it gives back has nothing under
way. -/
theorem Sound.settle (sound : s.Sound (some t)) (mine : (s.threads t).conn? = some c)
    {rs : List Resp} (awaits : Awaits s.log (s.sockets c) c since cmds)
    (hears : Hears s.log (s.sockets c) c since rs) (enough : rs.length = cmds.length) (ahead : Nat) :
    ((s.give c ahead).finish t c since cmds (some rs)).Sound none := by
  obtain ⟨clear, replies, executed, count, heard⟩ := complete awaits hears enough
  obtain ⟨small, taken⟩ := sound.held t c mine
  -- nothing was read ahead
  have unchanged : (s.give c ahead).sockets = s.sockets := by
    change Function.update s.sockets c _ = s.sockets
    rw [Function.update_eq_self_iff]
    have nothing : (s.sockets c).arrived.drop ahead = (s.sockets c).arrived := by
      rw [clear.2, List.drop_nil]
    rw [nothing]
  have mem_pool : ∀ {c'}, c' ∈ s.pool ++ [c] ↔ c' ∈ s.pool ∨ c' = c := by
    intro c'
    rw [List.mem_append, List.mem_singleton]
  refine ⟨?_, ?_, ?_, ?_, ?_, ?_, sound.sendable, ?_, ?_, ?_⟩
  · change (s.pool ++ [c]).Nodup
    rw [List.nodup_append]
    refine ⟨sound.nodup, List.nodup_singleton c, fun c' among c'' single same => ?_⟩
    rw [same, List.mem_singleton.mp single] at among
    exact taken among
  · intro c' among
    change c' < s.opened ∧ ((s.give c ahead).sockets c').Clear
    rw [unchanged]
    rcases mem_pool.mp among with old | rfl
    · exact sound.waiting c' old
    · exact ⟨small, clear⟩
  · intro c' new
    change ((s.give c ahead).sockets c').Clear
    rw [unchanged]
    exact sound.fresh c' new
  · intro t' c' held
    obtain ⟨other, held'⟩ := held_idle held
    refine ⟨(sound.held t' c' held').1, fun among => ?_⟩
    rcases mem_pool.mp among with old | rfl
    · exact (sound.held t' c' held').2 old
    · exact other (sound.alone t' t c' held' mine)
  · intro t' t'' c' held held'
    exact sound.alone t' t'' c' (held_idle held).2 (held_idle held').2
  · intro t' _
    change (Function.update s.threads t .idle t').Meets s.log (s.give c ahead).sockets
    rw [unchanged]
    by_cases same : t' = t
    · rw [same, Function.update_self]
      trivial
    · rw [Function.update_of_ne same]
      exact sound.phases t' fun out => same (Option.some.inj out).symm
  · intro call among
    rcases List.mem_append.mp among with old | new
    · exact sound.past call old
    · cases List.mem_singleton.mp new
      exact Nat.le_refl _
  · intro call among
    change call.Matched s.log ((s.give c ahead).sockets call.conn).closed
    rw [unchanged]
    rcases List.mem_append.mp among with old | new
    · exact sound.matched call old
    · cases List.mem_singleton.mp new
      intro rs' returned
      cases returned
      refine ⟨replies, ?_, count, heard⟩
      exact (between_length s.log c since).trans executed
  · intro call among failed
    rcases List.mem_append.mp among with old | new
    · obtain ⟨small', unused, awaits'⟩ := sound.dropped call old failed
      refine ⟨small', fun used => unused ?_, ?_⟩
      · rcases inUse_finish used with pooled | ⟨t', -, held⟩
        · rcases mem_pool.mp pooled with old' | same
          · exact Or.inl old'
          · exact Or.inr ⟨t, same ▸ mine⟩
        · exact Or.inr ⟨t', held⟩
      · change Awaits s.log ((s.give c ahead).sockets call.conn) _ _ _
        rw [unchanged]
        exact awaits'
    · cases List.mem_singleton.mp new
      cases failed

/-- Behind a reply, or behind the write, a thread returns or reads on. -/
theorem Sound.loop (sound : s.Sound (some t)) (mine : (s.threads t).conn? = some c)
    {rs : List Resp} (awaits : Awaits s.log (s.sockets c) c since cmds)
    (hears : Hears s.log (s.sockets c) c since rs) (few : rs.length ≤ cmds.length) (ahead : Nat) :
    (s.loop t c since cmds rs ahead).Sound none := by
  rw [Network.loop]
  split
  · rename_i enough
    exact sound.settle mine awaits hears enough ahead
  · rename_i more
    exact sound.keep mine rfl ⟨by omega, awaits, hears⟩

/-- An idle thread comes to hold a connection that is clear and in nobody's hands. -/
theorem Sound.hold (sound : s.Sound none) (idle : s.threads t = .idle) (small : c < s.opened)
    (apart : c ∉ s.pool) (free : ∀ t', (s.threads t').conn? ≠ some c) (clear : (s.sockets c).Clear)
    (kept : ∀ call ∈ s.finished, call.result = none → call.conn ≠ c) (cmds : List Command) :
    ({ s with threads := Function.update s.threads t (.taken c s.log.length cmds) } :
      Network δ).Sound none := by
  have holder : ∀ {t' c'},
      (Function.update s.threads t (.taken c s.log.length cmds) t').conn? = some c' →
        t' = t ∧ c' = c ∨ t' ≠ t ∧ (s.threads t').conn? = some c' := by
    intro t' c' held
    by_cases same : t' = t
    · rw [same, Function.update_self] at held
      exact Or.inl ⟨same, (Option.some.inj held).symm⟩
    · rw [Function.update_of_ne same] at held
      exact Or.inr ⟨same, held⟩
  refine ⟨sound.nodup, sound.waiting, sound.fresh, ?_, ?_, ?_, sound.sendable, sound.past,
    sound.matched, ?_⟩
  · intro t' c' held
    rcases holder held with ⟨-, rfl⟩ | ⟨-, held'⟩
    · exact ⟨small, apart⟩
    · exact sound.held t' c' held'
  · intro t' t'' c' held held'
    rcases holder held with ⟨rfl, rfl⟩ | ⟨-, before⟩
    · rcases holder held' with ⟨same, -⟩ | ⟨-, before'⟩
      · exact same.symm
      · exact absurd before' (free t'')
    · rcases holder held' with ⟨-, rfl⟩ | ⟨-, before'⟩
      · exact absurd before (free t')
      · exact sound.alone t' t'' c' before before'
  · intro t' _
    change (Function.update s.threads t (.taken c s.log.length cmds) t').Meets s.log s.sockets
    by_cases same : t' = t
    · rw [same, Function.update_self]
      refine ⟨clear, Nat.le_refl _, ?_⟩
      rw [upTo, List.drop_length]
      rfl
    · rw [Function.update_of_ne same]
      exact sound.phases t' (by simp)
  · intro call among failed
    obtain ⟨old, unused, awaits⟩ := sound.dropped call among failed
    refine ⟨old, fun used => unused ?_, awaits⟩
    rcases used with pooled | ⟨t', held⟩
    · exact Or.inl pooled
    · rcases holder held with ⟨-, same⟩ | ⟨-, held'⟩
      · exact absurd same (kept call among failed)
      · exact Or.inr ⟨t', held'⟩

/-- A connection taken out of the pool. -/
theorem Sound.unpool (sound : s.Sound none) {rest : List Nat} (pool : s.pool = rest ++ [c]) :
    ({ s with pool := rest } : Network δ).Sound none ∧ c < s.opened ∧ c ∉ rest ∧
      (∀ t', (s.threads t').conn? ≠ some c) ∧ (s.sockets c).Clear ∧
      ∀ call ∈ s.finished, call.result = none → call.conn ≠ c := by
  have last : c ∈ s.pool := by simp [pool]
  have nodup := sound.nodup
  rw [pool, List.nodup_append] at nodup
  obtain ⟨distinct, -, apart⟩ := nodup
  have inside : ∀ c' ∈ rest, c' ∈ s.pool := fun c' among => by simp [pool, among]
  refine ⟨⟨distinct, fun c' among => sound.waiting c' (inside c' among), sound.fresh, ?_,
    sound.alone, sound.phases, sound.sendable, sound.past, sound.matched, ?_⟩,
    (sound.waiting c last).1, fun among => apart c among c (by simp) rfl,
    fun t' held => (sound.held t' c held).2 last, (sound.waiting c last).2, ?_⟩
  · intro t' c' held
    exact ⟨(sound.held t' c' held).1, fun among => (sound.held t' c' held).2 (inside c' among)⟩
  · intro call among failed
    obtain ⟨old, unused, awaits⟩ := sound.dropped call among failed
    exact ⟨old, fun used => unused (used.imp (inside call.conn) id), awaits⟩
  · rintro call among failed rfl
    exact (sound.dropped call among failed).2.1 (Or.inl last)

/-- A connection opened. -/
theorem Sound.dial (sound : s.Sound none) :
    ({ s with opened := s.opened + 1 } : Network δ).Sound none := by
  refine ⟨sound.nodup, fun c among => ?_, fun c new => ?_, fun t c held => ?_, sound.alone,
    sound.phases, sound.sendable, sound.past, sound.matched, fun call among failed => ?_⟩
  · exact ⟨Nat.lt_succ_of_lt (sound.waiting c among).1, (sound.waiting c among).2⟩
  · exact sound.fresh c (Nat.le_of_succ_le new)
  · exact ⟨Nat.lt_succ_of_lt (sound.held t c held).1, (sound.held t c held).2⟩
  · obtain ⟨old, unused, awaits⟩ := sound.dropped call among failed
    exact ⟨Nat.lt_succ_of_lt old, unused, awaits⟩

theorem Sound.begin (sound : s.Sound none) (idle : s.threads t = .idle) (cmds : List Command)
    (works : Bool) :
    (match s.take works with
      | (some c, s) =>
          { s with threads := Function.update s.threads t (.taken c s.log.length cmds) }
      | (none, s) => s).Sound none := by
  rw [take]
  cases last : s.pool.getLast? with
  | some c =>
      obtain ⟨left, small, apart, free, clear, kept⟩ :=
        sound.unpool (List.dropLast_append_getLast? c last).symm
      cases works with
      | true => exact left.hold idle small apart free clear kept cmds
      | false => exact left
  | none =>
      cases works with
      | true =>
          refine sound.dial.hold idle (Nat.lt_succ_self _) ?_ ?_ (sound.fresh _ (Nat.le_refl _)) ?_
            cmds
          · exact fun among => Nat.lt_irrefl _ (sound.waiting _ among).1
          · exact fun t' held => Nat.lt_irrefl _ (sound.held t' _ held).1
          · exact fun call among failed => Nat.ne_of_lt (sound.dropped call among failed).1
      | false => exact sound

theorem flatMap_bytes (cmds : List Command) :
    pipeBytes (cmds.map Command.args) = cmds.flatMap Command.bytes := by
  rw [pipeBytes_eq, List.flatMap_map]
  rfl

/-- Some bytes of the commands are written. -/
theorem Sound.send (sound : s.Sound none) (phase : s.threads t = .taken c since cmds) {part : Bytes}
    (start : part <+: cmds.flatMap Command.bytes) :
    (s.send c part).Sound (some t) ∧ ((s.send c part).threads t).conn? = some c ∧
      Awaits (s.send c part).log ((s.send c part).sockets c) c since cmds ∧
      Hears (s.send c part).log ((s.send c part).sockets c) c since [] := by
  have mine : (s.threads t).conn? = some c := by rw [phase]; rfl
  have meets := sound.phases t (by simp)
  rw [phase] at meets
  obtain ⟨clear, past, none_yet⟩ := meets
  have socket : (s.send c part).sockets c =
      { s.sockets c with sent := (s.sockets c).sent ++ part } := Function.update_self ..
  rw [socket]
  refine ⟨sound.touch mine rfl, mine, Awaits.of_clear clear past none_yet start, Or.inl ⟨[], ?_, ?_⟩⟩
  · change (upTo s.log c since).map Prod.snd = _
    rw [none_yet]
    rfl
  · dsimp only
    rw [clear.2]
    exact ⟨List.nil_prefix, fun _ => rfl⟩

/-! ## Steps of the server and of the network -/

theorem Sound.serve (sound : s.Sound none) (srv : Server δ) (c : Nat) :
    (s.serve srv c).Sound none := by
  rw [Network.serve]
  cases took : srv.next (s.sockets c).sent with
  | none => exact sound
  | some taken =>
      obtain ⟨cmd, rest⟩ := taken
      dsimp only
      have busy : ¬ (s.sockets c).Clear := by
        intro clear
        rw [clear.1, srv.next_part cmd [] List.nil_prefix cmd.bytes_ne_nil.symm] at took
        cases took
      have others : ∀ socket c', c' ≠ c →
          Function.update s.sockets c socket c' = s.sockets c' :=
        fun socket c' apart => Function.update_of_ne apart _ _
      refine ⟨sound.nodup, ?_, ?_, sound.held, sound.alone, ?_, ?_, ?_, ?_, ?_⟩
      · intro c' among
        have apart : c' ≠ c := by
          rintro rfl
          exact busy (sound.waiting c' among).2
        dsimp only
        rw [others _ c' apart]
        exact sound.waiting c' among
      · intro c' new
        have apart : c' ≠ c := by
          rintro rfl
          exact busy (sound.fresh c' new)
        dsimp only
        rw [others _ c' apart]
        exact sound.fresh c' new
      · intro t' _
        have meets := sound.phases t' (by simp)
        dsimp only
        by_cases mine : (s.threads t').conn? = some c
        · cases phase : s.threads t' with
          | idle => trivial
          | taken c' since cmds =>
              rw [phase] at meets mine
              cases mine
              exact absurd meets.1 busy
          | reading c' since cmds rs =>
              rw [phase] at meets mine
              cases mine
              obtain ⟨few, awaits, hears⟩ := meets
              rw [Phase.Meets, Function.update_self]
              exact ⟨few, awaits.serve took _ _, hears.serve awaits.1 cmd _ rest⟩
        · refine (meets.other mine).frame fun c' holds => others _ c' ?_
          rintro rfl
          exact mine holds
      · intro x among
        rcases List.mem_append.mp among with old | new
        · exact sound.sendable x old
        · cases List.mem_singleton.mp new
          exact srv.sendable _ _
      · intro call among
        have before := sound.past call among
        simp only [List.length_append, List.length_singleton]
        omega
      · intro call among rs returned
        obtain ⟨replies, executed, count, heard⟩ := sound.matched call among rs returned
        refine ⟨replies, ?_, count, ?_⟩
        · rw [between_concat (sound.past call among)]
          exact executed
        · dsimp only
          by_cases same : call.conn = c
          · rw [same, Function.update_self, ← same]
            exact heard
          · rw [others _ _ same]
            exact heard
      · intro call among failed
        obtain ⟨old, unused, awaits⟩ := sound.dropped call among failed
        refine ⟨old, unused, ?_⟩
        dsimp only
        by_cases same : call.conn = c
        · rw [same] at awaits ⊢
          rw [Function.update_self]
          exact awaits.serve took _ _
        · rw [others _ _ same]
          exact awaits.other (Ne.symm same)

theorem Sound.cut (sound : s.Sound none) (c n : Nat) :
    ({ s with
      sockets := Function.update s.sockets c
        { s.sockets c with arrived := (s.sockets c).arrived.take n, closed := true } } :
      Network δ).Sound none := by
  have clear_cut : ∀ c', (s.sockets c').Clear → (Function.update s.sockets c
      { s.sockets c with arrived := (s.sockets c).arrived.take n, closed := true } c').Clear := by
    intro c' clear
    by_cases same : c' = c
    · subst same
      rw [Function.update_self]
      exact ⟨clear.1, by rw [clear.2, List.take_nil]⟩
    · rw [Function.update_of_ne same]
      exact clear
  have awaits_cut : ∀ {c' since cmds}, Awaits s.log (s.sockets c') c' since cmds →
      Awaits s.log (Function.update s.sockets c
        { s.sockets c with arrived := (s.sockets c).arrived.take n, closed := true } c') c' since
        cmds := by
    intro c' since cmds awaits
    by_cases same : c' = c
    · subst same
      rw [Function.update_self]
      exact awaits
    · rw [Function.update_of_ne same]
      exact awaits
  refine ⟨sound.nodup, fun c' among => ⟨(sound.waiting c' among).1, ?_⟩, ?_, sound.held,
    sound.alone, ?_, sound.sendable, sound.past, ?_, ?_⟩
  · exact clear_cut c' (sound.waiting c' among).2
  · exact fun c' new => clear_cut c' (sound.fresh c' new)
  · intro t' _
    have meets := sound.phases t' (by simp)
    dsimp only
    cases phase : s.threads t' with
    | idle => trivial
    | taken c' since cmds =>
        rw [phase] at meets
        exact ⟨clear_cut c' meets.1, meets.2⟩
    | reading c' since cmds rs =>
        rw [phase] at meets
        obtain ⟨few, awaits, hears⟩ := meets
        refine ⟨few, awaits_cut awaits, ?_⟩
        by_cases same : c' = c
        · subst same
          rw [Function.update_self]
          exact hears.cut n
        · rw [Function.update_of_ne same]
          exact hears
  · intro call among rs returned
    obtain ⟨replies, executed, count, heard⟩ := sound.matched call among rs returned
    refine ⟨replies, executed, count, ?_⟩
    dsimp only
    by_cases same : call.conn = c
    · rw [same, Function.update_self]
      exact heard.closing
    · rw [Function.update_of_ne same]
      exact heard
  · intro call among failed
    obtain ⟨old, unused, awaits⟩ := sound.dropped call among failed
    exact ⟨old, unused, awaits_cut awaits⟩

/-! ## Runs -/

theorem sound_connect (db : δ) : (connect db).Sound none := by
  refine ⟨List.nodup_singleton 0, ?_, fun c _ => ⟨rfl, rfl⟩, ?_, ?_, fun t _ => trivial, ?_, ?_, ?_,
    ?_⟩
  · intro c among
    cases List.mem_singleton.mp among
    exact ⟨Nat.zero_lt_one, rfl, rfl⟩
  · intro t c held
    cases held
  · intro t t' c held
    cases held
  · exact fun x among => absurd among List.not_mem_nil
  · exact fun call among => absurd among List.not_mem_nil
  · exact fun call among => absurd among List.not_mem_nil
  · exact fun call among => absurd among List.not_mem_nil

/-- The step lemma: one case for each event. -/
theorem Sound.step (sound : s.Sound none) (srv : Server δ) (event : Event) :
    (s.step srv event).Sound none := by
  cases event with
  | begin t cmds works =>
      rw [Network.step]
      cases phase : s.threads t with
      | idle => exact sound.begin phase cmds works
      | taken c since cmds => exact sound
      | reading c since cmds rs => exact sound
  | write t part =>
      rw [Network.step]
      cases phase : s.threads t with
      | idle => exact sound
      | reading c since cmds rs => exact sound
      | taken c since cmds =>
          dsimp only
          rw [flatMap_bytes]
          cases part with
          | none =>
              obtain ⟨sent, mine, awaits, hears⟩ := sound.send phase (List.prefix_refl _)
              exact sent.loop mine awaits hears (Nat.zero_le _) 0
          | some n =>
              obtain ⟨sent, mine, awaits, -⟩ := sound.send phase (List.take_prefix n _)
              exact sent.fail mine awaits
  | serve c => exact sound.serve srv c
  | receive t ahead =>
      rw [Network.step]
      cases phase : s.threads t with
      | idle => exact sound
      | taken c since cmds => exact sound
      | reading c since cmds rs =>
          dsimp only
          have mine : (s.threads t).conn? = some c := by rw [phase]; rfl
          have meets := sound.phases t (by simp)
          rw [phase] at meets
          obtain ⟨few, awaits, hears⟩ := meets
          cases read : readResp.run (s.sockets c).arrived with
          | ok value =>
              obtain ⟨r, rest⟩ := value
              let socket : Socket := { s.sockets c with arrived := rest }
              have closed : socket.closed = (s.sockets c).closed := rfl
              have touched := sound.touch mine closed
              refine touched.loop mine ?_ ?_ ?_ ahead
              · dsimp only
                rw [Function.update_self]
                exact awaits
              · dsimp only
                rw [Function.update_self]
                exact hears.receive sound.sendable read
              · rw [List.length_append, List.length_singleton]
                exact few
          | error e =>
              dsimp only
              split
              · have closed : (s.sockets c).closed = (s.sockets c).closed := rfl
                have touched := sound.touch mine closed
                rw [Function.update_eq_self] at touched
                exact touched.fail mine awaits
              · exact sound
  | cut c n => exact sound.cut c n

theorem sound_run (srv : Server δ) (db : δ) (events : List Event) :
    ((connect db).run srv events).Sound none := by
  have keep : ∀ (s : Network δ) (event : Event), s.Sound none → (s.step srv event).Sound none :=
    fun _ event sound => sound.step srv event
  exact Runs.invariant keep (sound_connect db) events

end Network

/-- The server did what it does with the commands one by one. -/
inductive Server.Ran {δ : Type} (srv : Server δ) (db : δ) : List Executed → δ → Prop where
  | nil : Ran srv db [] db
  | exec {log : List Executed} {now : δ} (ran : Ran srv db log now) (c : Nat) (cmd : Command) :
      Ran srv db (log ++ [⟨c, cmd, (srv.exec now cmd).2⟩]) (srv.exec now cmd).1

/-! ## A server that counts -/

def argsOf : Resp → Option (List Bytes)
  | .arr items => items.mapM fun item =>
      match item with
      | .bulk b => b
      | _ => none
  | _ => none

/-- A command, if its lengths are those of vectors. -/
def Command.of? (args : List Bytes) : Option Command :=
  if few : args.length < 2 ^ 58 then
    if short : ∀ a ∈ args, a.length + 2 < 2 ^ 63 then some ⟨args, few, short⟩ else none
  else none

def takeCommand (b : Bytes) : Option (Command × Bytes) :=
  match readResp.run b with
  | .ok (v, rest) =>
      match (argsOf v).bind Command.of? with
      | some cmd => if cmd.bytes ++ rest = b then some (cmd, rest) else none
      | none => none
  | .error _ => none

theorem argsOf_commandResp (args : List Bytes) : argsOf (commandResp args) = some args := by
  rw [commandResp, argsOf]
  induction args with
  | nil => rfl
  | cons a args ih =>
      rw [List.map_cons, List.mapM_cons, ih]
      rfl

theorem Command.of?_args (cmd : Command) : Command.of? cmd.args = some cmd := by
  rw [Command.of?, dif_pos cmd.few, dif_pos cmd.short]

theorem takeCommand_whole (cmd : Command) (rest : Bytes) :
    takeCommand (cmd.bytes ++ rest) = some (cmd, rest) := by
  have read : readResp.run (cmd.bytes ++ rest) = .ok (commandResp cmd.args, rest) :=
    reads_command cmd.few cmd.short rest
  rw [takeCommand, read]
  simp only [argsOf_commandResp, Option.bind_some, cmd.of?_args, if_true]

theorem takeCommand_part (cmd : Command) (part : Bytes) (start : part <+: cmd.bytes)
    (short : part ≠ cmd.bytes) : takeCommand part = none := by
  rw [takeCommand]
  cases readResp.run part with
  | error e => rfl
  | ok value =>
      dsimp only
      cases (argsOf value.1).bind Command.of? with
      | none => rfl
      | some other =>
          dsimp only
          rw [if_neg]
          intro all
          obtain ⟨more, joined⟩ := start
          have mine := reads_command cmd.few cmd.short []
          have others := reads_command other.few other.short (value.2 ++ more)
          rw [← Command.bytes, ← List.append_assoc, all, joined] at others
          rw [List.append_nil, ← Command.bytes, others] at mine
          have none_left : value.2 ++ more = [] := congrArg Prod.snd (Except.ok.inj mine)
          rw [(List.append_eq_nil_iff.mp none_left).2, List.append_nil] at joined
          exact short joined

/-- A server that answers each command with the number of those before it. -/
def countingServer : Server Nat where
  next := takeCommand
  exec n _ := (n + 1, .int (Int64.ofNat n))
  next_whole := takeCommand_whole
  next_part := takeCommand_part
  sendable n _ := .int (Int64.ofNat n)

def ping : Command :=
  ⟨[[80, 73, 78, 71]], by decide, by decide⟩

namespace Network

variable {δ : Type}

theorem ran_loop {srv : Server δ} {db : δ} {s : Network δ} (ran : srv.Ran db s.log s.db)
    (t c since : Nat) (cmds : List Command) (rs : List Resp) (ahead : Nat) :
    srv.Ran db (s.loop t c since cmds rs ahead).log (s.loop t c since cmds rs ahead).db := by
  rw [loop]
  split
  · exact ran
  · exact ran

theorem ran_step {srv : Server δ} {db : δ} {s : Network δ} (ran : srv.Ran db s.log s.db)
    (event : Event) : srv.Ran db (s.step srv event).log (s.step srv event).db := by
  cases event with
  | begin t cmds works =>
      rw [step]
      cases s.threads t with
      | idle =>
          simp only [take]
          cases s.pool.getLast? with
          | some c => cases works <;> exact ran
          | none => cases works <;> exact ran
      | taken c since cmds => exact ran
      | reading c since cmds rs => exact ran
  | write t part =>
      rw [step]
      cases s.threads t with
      | idle => exact ran
      | reading c since cmds rs => exact ran
      | taken c since cmds =>
          cases part with
          | none => exact ran_loop (s := s.send c _) ran t c since cmds [] 0
          | some n => exact ran
  | serve c =>
      rw [step, serve]
      cases srv.next (s.sockets c).sent with
      | none => exact ran
      | some taken => exact .exec ran c taken.1
  | receive t ahead =>
      rw [step]
      cases s.threads t with
      | idle => exact ran
      | taken c since cmds => exact ran
      | reading c since cmds rs =>
          dsimp only
          cases readResp.run (s.sockets c).arrived with
          | ok value =>
              exact ran_loop (s := { s with sockets := Function.update s.sockets c _ }) ran t c
                since cmds _ ahead
          | error e =>
              dsimp only
              split
              · exact ran
              · exact ran
  | cut c n => exact ran

/-- A call that has returned stays among those that have. -/
theorem finished_loop (s : Network δ) (t c since : Nat) (cmds : List Command) (rs : List Resp)
    (ahead : Nat) : s.finished <+: (s.loop t c since cmds rs ahead).finished := by
  rw [loop]
  split
  · exact List.prefix_append _ _
  · exact List.prefix_refl _

theorem finished_step (srv : Server δ) (s : Network δ) (event : Event) :
    s.finished <+: (s.step srv event).finished := by
  cases event with
  | begin t cmds works =>
      rw [step]
      cases s.threads t with
      | idle =>
          simp only [take]
          cases s.pool.getLast? with
          | some c => cases works <;> exact List.prefix_refl _
          | none => cases works <;> exact List.prefix_refl _
      | taken c since cmds => exact List.prefix_refl _
      | reading c since cmds rs => exact List.prefix_refl _
  | write t part =>
      rw [step]
      cases s.threads t with
      | idle => exact List.prefix_refl _
      | reading c since cmds rs => exact List.prefix_refl _
      | taken c since cmds =>
          cases part with
          | none => exact finished_loop (s.send c _) t c since cmds [] 0
          | some n => exact List.prefix_append _ _
  | serve c =>
      rw [step, serve]
      cases srv.next (s.sockets c).sent with
      | none => exact List.prefix_refl _
      | some taken => exact List.prefix_refl _
  | receive t ahead =>
      rw [step]
      cases s.threads t with
      | idle => exact List.prefix_refl _
      | taken c since cmds => exact List.prefix_refl _
      | reading c since cmds rs =>
          dsimp only
          cases readResp.run (s.sockets c).arrived with
          | ok value =>
              exact finished_loop { s with sockets := Function.update s.sockets c _ } t c since
                cmds _ ahead
          | error e =>
              dsimp only
              split
              · exact List.prefix_append _ _
              · exact List.prefix_refl _
  | cut c n => exact List.prefix_refl _

theorem finished_run (srv : Server δ) (s : Network δ) (events : List Event) :
    s.finished <+: (s.run srv events).finished := by
  have keep : ∀ (s' : Network δ) (event : Event), s.finished <+: s'.finished →
      s.finished <+: (s'.step srv event).finished :=
    fun s' event kept => kept.trans (finished_step srv s' event)
  exact Runs.invariant keep (List.prefix_refl _) events

/-- However threads, server and failures interleave: what a call returns are the replies to
its own commands, each executed once between its begin and its return, in order.  Only the
last value can be that of a reply that was cut, and only when the connection has ended. -/
theorem replies_matched (srv : Server δ) (db : δ) (events : List Event) (call : Finished)
    (rs : List Resp) :
    let s := (connect db).run srv events
    call ∈ s.finished → call.result = some rs →
      srv.Ran db s.log s.db ∧ call.till ≤ s.log.length ∧
        ∃ replies, between s.log call.conn call.since call.till = call.cmds.zip replies ∧
          replies.length = call.cmds.length ∧ Heard (s.sockets call.conn).closed rs replies := by
  intro s among returned
  have sound := sound_run srv db events
  have keep : ∀ (s : Network δ) (event : Event), srv.Ran db s.log s.db →
      srv.Ran db (s.step srv event).log (s.step srv event).db :=
    fun _ event ran => ran_step ran event
  exact ⟨Runs.invariant keep .nil events, sound.past call among, sound.matched call among rs returned⟩

/-- Two threads at once: the first call has one command, and the other one's two are executed
around it. -/
def crossed : List Event :=
  [.begin 0 [ping] true, .begin 1 [ping, ping] true, .write 1 none, .serve 1, .write 0 none,
    .serve 0, .serve 1, .receive 1 0, .receive 0 0, .receive 1 0]

theorem replies_matched_crossed :
    ∃ call ∈ ((connect 0).run countingServer crossed).finished, ∃ rs, call.result = some rs ∧
      countingServer.Ran 0 ((connect 0).run countingServer crossed).log
        ((connect 0).run countingServer crossed).db ∧
      call.till ≤ ((connect 0).run countingServer crossed).log.length ∧
      ∃ replies,
        between ((connect 0).run countingServer crossed).log call.conn call.since call.till =
          call.cmds.zip replies ∧
        replies.length = call.cmds.length ∧
        Heard (((connect 0).run countingServer crossed).sockets call.conn).closed rs replies := by
  have filled : ((connect 0).run countingServer crossed).finished.length = 2 := by decide +kernel
  have ended : ((connect 0).run countingServer crossed).finished.all
      (fun call => call.result.isSome) = true := by
    decide +kernel
  have among := List.getElem_mem (l := ((connect 0).run countingServer crossed).finished) (n := 0)
    (by rw [filled]; decide)
  obtain ⟨rs, returned⟩ := Option.isSome_iff_exists.mp (List.all_eq_true.mp ended _ among)
  exact ⟨_, among, rs, returned, replies_matched countingServer 0 crossed _ rs among returned⟩

/-- A call that fails has had some first part of its commands executed, each once, and no
other command will ever come over its connection. -/
theorem failed_call_executed_once (srv : Server δ) (db : δ) (events later : List Event)
    (call : Finished) :
    let s := (connect db).run srv events
    let s' := s.run srv later
    call ∈ s.finished → call.result = none →
      ∃ n, (upTo s'.log call.conn call.since).map Prod.fst = call.cmds.take n ∧
        call.conn ∉ s'.pool ∧ ∀ t, (s'.threads t).conn? ≠ some call.conn := by
  intro s s' among failed
  have joined : s' = (connect db).run srv (events ++ later) := (List.foldl_append ..).symm
  have sound : s'.Sound none := joined ▸ sound_run srv db (events ++ later)
  obtain ⟨-, unused, -, queue, executed, -⟩ :=
    sound.dropped call ((finished_run srv s later).subset among) failed
  refine ⟨((upTo s'.log call.conn call.since).map Prod.fst).length, ?_, ?_, ?_⟩
  · rw [← executed, List.take_left]
  · exact fun pooled => unused (Or.inl pooled)
  · exact fun t held => unused (Or.inr ⟨t, held⟩)

/-- A batch of two whose connection ends behind the first reply. -/
def broken : List Event :=
  [.begin 0 [ping, ping] true, .write 0 none, .serve 0, .cut 0 100, .receive 0 0, .receive 0 0]

theorem failed_call_executed_once_broken :
    ∃ call ∈ ((connect 0).run countingServer broken).finished, call.result = none ∧
      ∃ n, (upTo (((connect 0).run countingServer broken).run countingServer [.serve 0]).log
          call.conn call.since).map Prod.fst = call.cmds.take n ∧
        call.conn ∉ (((connect 0).run countingServer broken).run countingServer [.serve 0]).pool ∧
        ∀ t, ((((connect 0).run countingServer broken).run countingServer [.serve 0]).threads
          t).conn? ≠ some call.conn := by
  have filled : ((connect 0).run countingServer broken).finished.length = 1 := by decide +kernel
  have ended : ((connect 0).run countingServer broken).finished.all
      (fun call => call.result.isNone) = true := by
    decide +kernel
  have among := List.getElem_mem (l := ((connect 0).run countingServer broken).finished) (n := 0)
    (by rw [filled]; decide)
  have failed := Option.isNone_iff_eq_none.mp (List.all_eq_true.mp ended _ among)
  exact ⟨_, among, failed,
    failed_call_executed_once countingServer 0 broken [.serve 0] _ among failed⟩

end Network

end Shrt.Kv
