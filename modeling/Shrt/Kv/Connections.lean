import Mathlib.Data.List.Basic
import Mathlib.Logic.Function.Basic
import Shrt.Kv.Truncated

/-!
# The connections of the client

Threads share a pool of connections to one server.  A call takes a connection,
writes its commands in one go, reads one reply for each and gives the connection
back; after an error it drops it.  The server takes the commands of each
connection in order and answers them in order, the connections interleave in any
way, and a connection may end at any byte.

Nothing on the wire says which command a reply belongs to.  What makes a reply
the right one is that a connection in the pool has nothing under way.
-/

namespace Shrt.Kv

open Shrt.Codec Shrt.Lib Shrt.Lib.Resp2
open Shrt.Lib.Pull (Reads Fails Drains)

/-! ## Both ends -/

/-- A command, of lengths that vectors can have. -/
structure Command where
  args : List Bytes
  few : args.length < 2 ^ 58
  short : ∀ a ∈ args, a.length + 2 < 2 ^ 63

def Command.bytes (cmd : Command) : Bytes :=
  writeCmd [] cmd.args

/-- A server: what it takes from the bytes it was sent, and what it does and
answers.  It takes a command as soon as it is there as a whole. -/
structure Server (δ : Type) where
  next : Bytes → Option (Command × Bytes)
  exec : δ → Command → δ × Resp
  next_whole : ∀ (cmd : Command) (rest : Bytes), next (cmd.bytes ++ rest) = some (cmd, rest)
  next_part : ∀ (cmd : Command) (part : Bytes), part <+: cmd.bytes → part ≠ cmd.bytes →
    next part = none
  sendable : ∀ (db : δ) (cmd : Command), (exec db cmd).2.Sendable

/-- A connection: the bytes that the server has not taken, those that the client
has not read, and whether no more will come. -/
structure Socket where
  sent : Bytes
  arrived : Bytes
  closed : Bool

/-- A command that the server has executed for a connection. -/
structure Executed where
  conn : Nat
  cmd : Command
  reply : Resp

/-- Where a thread is in a call: it holds a connection since a point of the log,
and has read some replies. -/
inductive Phase where
  | idle
  | taken (conn since : Nat) (cmds : List Command)
  | reading (conn since : Nat) (cmds : List Command) (rs : List Resp)

structure Finished where
  conn : Nat
  since : Nat
  till : Nat
  cmds : List Command
  result : Option (List Resp)

/-- The client with its threads, the connections and the server. -/
structure Network (δ : Type) where
  db : δ
  pool : List Nat
  opened : Nat
  sockets : Nat → Socket
  threads : Nat → Phase
  log : List Executed
  finished : List Finished

/-- What can happen: a call begins, or fails to get a connection; it writes all
its bytes or fails behind some of them; the server executes a command; a reply
is read, with some bytes behind it in the reader's buffer; a connection ends
behind some more bytes. -/
inductive Event where
  | begin (t : Nat) (cmds : List Command) (works : Bool)
  | write (t : Nat) (part : Option Nat)
  | serve (c : Nat)
  | receive (t ahead : Nat)
  | cut (c n : Nat)

namespace Network

variable {δ : Type}

def connect (db : δ) : Network δ :=
  ⟨db, [0], 1, fun _ => ⟨[], [], false⟩, fun _ => .idle, [], []⟩

/-- `take`: the connection given back last, or a new one. -/
def take (s : Network δ) (works : Bool) : Option Nat × Network δ :=
  match s.pool.getLast? with
  | some c => (if works then some c else none, { s with pool := s.pool.dropLast })
  | none => if works then (some s.opened, { s with opened := s.opened + 1 }) else (none, s)

/-- `give`: the reader goes, with what it has read ahead. -/
def give (s : Network δ) (c ahead : Nat) : Network δ :=
  let socket := s.sockets c
  { s with
    pool := s.pool ++ [c]
    sockets :=
      Function.update s.sockets c { socket with arrived := socket.arrived.drop ahead } }

def finish (s : Network δ) (t c since : Nat) (cmds : List Command)
    (result : Option (List Resp)) : Network δ :=
  { s with
    threads := Function.update s.threads t .idle
    finished := s.finished ++ [⟨c, since, s.log.length, cmds, result⟩] }

/-- The loop over the commands of a call, with the replies so far. -/
def loop (s : Network δ) (t c since : Nat) (cmds : List Command) (rs : List Resp)
    (ahead : Nat) : Network δ :=
  if rs.length = cmds.length then (s.give c ahead).finish t c since cmds (some rs)
  else { s with threads := Function.update s.threads t (.reading c since cmds rs) }

/-- `write_all` of the first `n` bytes. -/
def send (s : Network δ) (c : Nat) (bytes : Bytes) : Network δ :=
  let socket := s.sockets c
  { s with sockets := Function.update s.sockets c { socket with sent := socket.sent ++ bytes } }

/-- The server takes a command and answers, if the other end is still there. -/
def serve (srv : Server δ) (s : Network δ) (c : Nat) : Network δ :=
  let socket := s.sockets c
  match srv.next socket.sent with
  | none => s
  | some (cmd, rest) =>
      let done := srv.exec s.db cmd
      let answer := if socket.closed then [] else done.2.reply.wire
      { s with
        db := done.1
        sockets := Function.update s.sockets c
          { socket with sent := rest, arrived := socket.arrived ++ answer }
        log := s.log ++ [⟨c, cmd, done.2⟩] }

/-- `cmd` and `pipe`, event by event: `cmd` is `pipe` with one command, and both
write the same bytes.  A read that finds too little waits, unless nothing more
will come. -/
def step (srv : Server δ) (s : Network δ) : Event → Network δ
  | .begin t cmds works =>
      match s.threads t with
      | .idle =>
          match s.take works with
          | (some c, s) =>
              { s with threads := Function.update s.threads t (.taken c s.log.length cmds) }
          | (none, s) => s
      | _ => s
  | .write t part =>
      match s.threads t with
      | .taken c since cmds =>
          let out := pipeBytes (cmds.map Command.args)
          match part with
          | none => (s.send c out).loop t c since cmds [] 0
          | some n => (s.send c (out.take n)).finish t c since cmds none
      | _ => s
  | .serve c => s.serve srv c
  | .receive t ahead =>
      match s.threads t with
      | .reading c since cmds rs =>
          let socket := s.sockets c
          match readResp.run socket.arrived with
          | .ok (r, rest) =>
              let s := { s with
                sockets := Function.update s.sockets c { socket with arrived := rest } }
              s.loop t c since cmds (rs ++ [r]) ahead
          | .error _ => if socket.closed then s.finish t c since cmds none else s
      | _ => s
  | .cut c n =>
      let socket := s.sockets c
      { s with
        sockets := Function.update s.sockets c
          { socket with arrived := socket.arrived.take n, closed := true } }

def run (srv : Server δ) (s : Network δ) (events : List Event) : Network δ :=
  events.foldl (step srv) s

end Network

/-! ## What was executed on a connection -/

/-- The commands of a part of the log that came over one connection, with their
replies. -/
def onConn (c : Nat) (log : List Executed) : List (Command × Resp) :=
  (log.filter fun x => x.conn = c).map fun x => (x.cmd, x.reply)

/-- The executions on a connection between two points of the log. -/
def between (log : List Executed) (c since till : Nat) : List (Command × Resp) :=
  onConn c ((log.take till).drop since)

theorem onConn_concat (c : Nat) (log : List Executed) (x : Executed) :
    onConn c (log ++ [x]) = onConn c log ++ if x.conn = c then [(x.cmd, x.reply)] else [] := by
  rw [onConn, onConn, List.filter_append, List.map_append]
  by_cases same : x.conn = c <;> simp [same]

theorem between_concat {log : List Executed} {till : Nat} (past : till ≤ log.length)
    (c since : Nat) (x : Executed) : between (log ++ [x]) c since till = between log c since till := by
  rw [between, between, List.take_append_of_le_length past]

def upTo (log : List Executed) (c since : Nat) : List (Command × Resp) :=
  onConn c (log.drop since)

theorem upTo_concat {log : List Executed} {since : Nat} (past : since ≤ log.length) (c : Nat)
    (x : Executed) :
    upTo (log ++ [x]) c since =
      upTo log c since ++ if x.conn = c then [(x.cmd, x.reply)] else [] := by
  rw [upTo, upTo, List.drop_append_of_le_length past, onConn_concat]

theorem between_length (log : List Executed) (c since : Nat) :
    between log c since log.length = upTo log c since := by
  rw [between, upTo, List.take_length]

/-! ## What is under way on a connection -/

def wiresOf (replies : List Resp) : Bytes :=
  replies.flatMap fun r => r.reply.wire

/-- Nothing is under way. -/
def Socket.Clear (socket : Socket) : Prop :=
  socket.sent = [] ∧ socket.arrived = []

/-- Some of the commands of a call were executed, in order, and the bytes sent
for the others are the beginning of what they are written as. -/
def Awaits (log : List Executed) (socket : Socket) (c since : Nat) (cmds : List Command) : Prop :=
  since ≤ log.length ∧ ∃ queue : List Command,
    (upTo log c since).map Prod.fst ++ queue = cmds ∧
      socket.sent <+: queue.flatMap Command.bytes

/-- A value that is read when the connection ends inside a reply, unnoticed. -/
def CutValue (r v : Resp) : Prop :=
  ∃ k < r.reply.wire.length, cutNoticed r.reply k = false ∧
    readResp.run (r.reply.wire.take k) = .ok (v, [])

/-- What was read are the replies; where the connection has ended, the last value
may be that of a reply that was cut. -/
def Heard (closed : Bool) (rs replies : List Resp) : Prop :=
  rs = replies ∨ closed = true ∧
    ∃ init r v, replies = init ++ [r] ∧ rs = init ++ [v] ∧ CutValue r v

/-- The values read are those of the first replies, and the others are there to be
read; or the connection has ended inside a reply that was taken for a whole one. -/
def Hears (log : List Executed) (socket : Socket) (c since : Nat) (rs : List Resp) : Prop :=
  (∃ unread, (upTo log c since).map Prod.snd = rs ++ unread ∧
    socket.arrived <+: wiresOf unread ∧
    (socket.closed = false → socket.arrived = wiresOf unread)) ∨
  (socket.closed = true ∧ socket.arrived = [] ∧
    ∃ init r v later, (upTo log c since).map Prod.snd = init ++ r :: later ∧
      rs = init ++ [v] ∧ CutValue r v)

theorem wiresOf_concat (replies : List Resp) (r : Resp) :
    wiresOf (replies ++ [r]) = wiresOf replies ++ r.reply.wire := by
  rw [wiresOf, List.flatMap_append, List.flatMap_singleton, wiresOf]

theorem Command.bytes_ne_nil (cmd : Command) : cmd.bytes ≠ [] := by
  rw [Command.bytes, writeCmd_eq, command, Reply.wire, frame]
  simp

/-- From the beginning of commands in a row the server takes the first of them or
waits. -/
theorem Server.next_of_prefix {δ : Type} (srv : Server δ) {sent rest : Bytes}
    {queue : List Command} {cmd : Command} (start : sent <+: queue.flatMap Command.bytes)
    (took : srv.next sent = some (cmd, rest)) :
    ∃ later, queue = cmd :: later ∧ rest <+: later.flatMap Command.bytes := by
  have waits : ∀ q : Command, sent <+: q.bytes → sent = q.bytes := by
    intro q inside
    by_contra part
    rw [srv.next_part q sent inside part] at took
    cases took
  cases queue with
  | nil =>
      have none_sent : sent = [] := List.prefix_nil.mp start
      have whole := waits cmd (none_sent ▸ List.nil_prefix)
      exact absurd (whole.symm.trans none_sent) cmd.bytes_ne_nil
  | cons q later =>
      rw [List.flatMap_cons] at start
      have whole : q.bytes <+: sent := by
        rcases List.prefix_or_prefix_of_prefix start (List.prefix_append q.bytes _) with
          inside | whole
        · have all_of_it := waits q inside
          exact all_of_it ▸ List.prefix_refl q.bytes
        · exact whole
      obtain ⟨behind, rfl⟩ := whole
      rw [srv.next_whole] at took
      cases took
      exact ⟨later, rfl, (List.prefix_append_right_inj _).mp start⟩

theorem OneLine.wellFormed_bytes {s : String} (line : OneLine s) :
    13 ∉ Utf8.encode s ∧ 10 ∉ Utf8.encode s := by
  refine ⟨?_, line.lf_not_mem⟩
  rw [Utf8.mem_encode_iff (by decide)]
  exact line.cr

theorem Resp.Sendable.wellFormed {r : Resp} (sendable : r.Sendable) : r.reply.WellFormed := by
  induction sendable with
  | simple line => exact .simple line.wellFormed_bytes.1 line.wellFormed_bytes.2
  | int n => exact .int n
  | null => exact .nullBulk
  | bulk room => exact .bulk room
  | arr room parts ih =>
      rw [Resp.reply, Resp.replies_eq_map]
      refine .arr (by simpa using room) fun item among => ?_
      obtain ⟨r, member, rfl⟩ := List.mem_map.mp among
      exact ih r member
  | err line => exact .error line.wellFormed_bytes.1 line.wellFormed_bytes.2

/-- Reading from the beginning of replies in a row gives the first of them, or a
value of this one, cut, and nothing is left. -/
theorem read_of_prefix {arrived rest : Bytes} {unread : List Resp} {v : Resp}
    (sendable : ∀ r ∈ unread, r.Sendable) (start : arrived <+: wiresOf unread)
    (read : readResp.run arrived = .ok (v, rest)) :
    ∃ r later, unread = r :: later ∧
      (v = r ∧ arrived = r.reply.wire ++ rest ∧ rest <+: wiresOf later ∨
        CutValue r v ∧ rest = [] ∧ arrived ≠ wiresOf unread) := by
  cases unread with
  | nil =>
      rw [List.prefix_nil.mp start] at read
      exact absurd readResp_nil (Pull.not_fails_of_ok read)
  | cons r later =>
      refine ⟨r, later, rfl, ?_⟩
      have sendable_r := sendable r List.mem_cons_self
      have split : wiresOf (r :: later) = r.reply.wire ++ wiresOf later := List.flatMap_cons
      rw [split] at start ⊢
      by_cases whole : r.reply.wire <+: arrived
      · obtain ⟨behind, rfl⟩ := whole
        rw [sendable_r.reads behind] at read
        cases read
        exact Or.inl ⟨rfl, rfl, (List.prefix_append_right_inj _).mp start⟩
      · right
        have inside : arrived <+: r.reply.wire :=
          (List.prefix_or_prefix_of_prefix start (List.prefix_append _ _)).resolve_right whole
        have shorter : arrived.length < r.reply.wire.length := by
          by_contra long
          exact whole (inside.eq_of_length_le (Nat.le_of_not_lt long) ▸ List.prefix_refl _)
        have cut := List.prefix_iff_eq_take.mp inside
        obtain ⟨drains, -, noticed⟩ := cutAs_reply sendable_r.wellFormed shorter
        rw [← cut] at drains noticed
        have nothing := drains v rest read
        refine ⟨⟨arrived.length, shorter, ?_, ?_⟩, nothing, ?_⟩
        · exact Bool.eq_false_iff.mpr fun seen => Pull.not_fails_of_ok read (noticed.mpr seen)
        · rw [← cut, read, nothing]
        · intro all
          exact whole (all ▸ List.prefix_append _ _)

/-! ## What each end does to a call -/

theorem Awaits.of_clear {log : List Executed} {socket : Socket} {c since : Nat}
    (clear : socket.Clear) (past : since ≤ log.length) (none_yet : upTo log c since = [])
    {part : Bytes} {cmds : List Command} (start : part <+: cmds.flatMap Command.bytes) :
    Awaits log { socket with sent := socket.sent ++ part } c since cmds := by
  refine ⟨past, cmds, ?_, ?_⟩
  · rw [none_yet]
    rfl
  · rw [clear.1]
    exact start

theorem Awaits.serve {δ : Type} {srv : Server δ} {log : List Executed} {socket : Socket}
    {c since : Nat} {cmds : List Command} (awaits : Awaits log socket c since cmds) {cmd : Command}
    {rest : Bytes} (took : srv.next socket.sent = some (cmd, rest)) (reply : Resp) (arrived : Bytes) :
    Awaits (log ++ [⟨c, cmd, reply⟩]) { socket with sent := rest, arrived := arrived } c since
      cmds := by
  obtain ⟨past, queue, executed, start⟩ := awaits
  obtain ⟨later, rfl, start'⟩ := srv.next_of_prefix start took
  refine ⟨by simp; omega, later, ?_, start'⟩
  rw [upTo_concat past, if_pos rfl, List.map_append, List.append_assoc]
  exact executed

theorem Hears.serve {log : List Executed} {socket : Socket} {c since : Nat} {rs : List Resp}
    (hears : Hears log socket c since rs) (past : since ≤ log.length) (cmd : Command) (reply : Resp)
    (rest : Bytes) :
    Hears (log ++ [⟨c, cmd, reply⟩])
      { socket with
        sent := rest
        arrived := socket.arrived ++ if socket.closed then [] else reply.reply.wire } c since rs := by
  have replies : (upTo (log ++ [⟨c, cmd, reply⟩]) c since).map Prod.snd =
      (upTo log c since).map Prod.snd ++ [reply] := by
    rw [upTo_concat past, if_pos rfl, List.map_append]
    rfl
  rw [Hears, replies]
  rcases hears with ⟨unread, exact_so_far, start, all⟩ | ⟨closed, nothing, init, r, v, later, cut⟩
  · refine Or.inl ⟨unread ++ [reply], ?_, ?_, ?_⟩
    · rw [exact_so_far, List.append_assoc]
    · cases closed : socket.closed with
      | true =>
          rw [if_pos rfl, List.append_nil, wiresOf_concat]
          exact start.trans (List.prefix_append _ _)
      | false =>
          rw [all closed, wiresOf_concat]
          exact List.prefix_refl _
    · intro opened
      rw [all opened, wiresOf_concat, if_neg (by simpa using opened)]
  · refine Or.inr ⟨closed, ?_, init, r, v, later ++ [reply], ?_, cut.2⟩
    · rw [nothing, closed]
      rfl
    · rw [cut.1, List.append_assoc, List.cons_append]

theorem Hears.receive {log : List Executed} {socket : Socket} {c since : Nat} {rs : List Resp}
    (hears : Hears log socket c since rs) (sendable : ∀ x ∈ log, x.reply.Sendable) {v : Resp}
    {rest : Bytes} (read : readResp.run socket.arrived = .ok (v, rest)) :
    Hears log { socket with arrived := rest } c since (rs ++ [v]) := by
  rcases hears with ⟨unread, exact_so_far, start, all⟩ | ⟨-, nothing, -⟩
  · have sendable' : ∀ r ∈ unread, r.Sendable := by
      intro r among
      have listed : r ∈ (upTo log c since).map Prod.snd := by
        rw [exact_so_far]
        exact List.mem_append_right _ among
      simp only [upTo, onConn, List.map_map, List.mem_map, List.mem_filter] at listed
      obtain ⟨x, ⟨there, -⟩, rfl⟩ := listed
      exact sendable x (List.mem_of_mem_drop there)
    obtain ⟨r, later, rfl, ⟨rfl, whole, start'⟩ | ⟨cut, rfl, short⟩⟩ :=
      read_of_prefix sendable' start read
    · refine Or.inl ⟨later, ?_, start', fun opened => ?_⟩
      · rw [exact_so_far, List.append_assoc, List.singleton_append]
      · have complete := all opened
        rw [whole, wiresOf, List.flatMap_cons] at complete
        exact List.append_cancel_left complete
    · refine Or.inr ⟨?_, rfl, rs, r, v, later, exact_so_far, rfl, cut⟩
      exact Bool.eq_true_of_not_eq_false fun opened => short (all opened)
  · rw [nothing] at read
    exact absurd readResp_nil (Pull.not_fails_of_ok read)

theorem Hears.cut {log : List Executed} {socket : Socket} {c since : Nat} {rs : List Resp}
    (hears : Hears log socket c since rs) (n : Nat) :
    Hears log { socket with arrived := socket.arrived.take n, closed := true } c since rs := by
  rcases hears with ⟨unread, exact_so_far, start, -⟩ | ⟨-, nothing, damaged⟩
  · exact Or.inl ⟨unread, exact_so_far, (List.take_prefix _ _).trans start, by simp⟩
  · refine Or.inr ⟨rfl, ?_, damaged⟩
    rw [nothing, List.take_nil]

/-- When there is a value for every command, every command was executed, and
nothing is left on the connection. -/
theorem complete {log : List Executed} {socket : Socket} {c since : Nat} {cmds : List Command}
    {rs : List Resp} (awaits : Awaits log socket c since cmds) (hears : Hears log socket c since rs)
    (enough : rs.length = cmds.length) :
    socket.Clear ∧ ∃ replies, upTo log c since = cmds.zip replies ∧
      replies.length = cmds.length ∧ Heard socket.closed rs replies := by
  obtain ⟨past, queue, executed, start⟩ := awaits
  have count := congrArg List.length executed
  rw [List.length_append, List.length_map] at count
  have zipped : ∀ pairs : List (Command × Resp),
      pairs = (pairs.map Prod.fst).zip (pairs.map Prod.snd) := by
    intro pairs
    rw [List.zip_map', List.map_id'']
    exact fun _ => rfl
  have all_served : queue = [] → (upTo log c since).map Prod.fst = cmds ∧ socket.sent = [] := by
    rintro rfl
    exact ⟨by simpa using executed, List.prefix_nil.mp start⟩
  rcases hears with ⟨unread, exact_so_far, arrived, -⟩ | ⟨closed, nothing, init, r, v, later, replies,
    values, cut⟩
  · have lengths := congrArg List.length exact_so_far
    rw [List.length_map, List.length_append] at lengths
    have no_queue : queue = [] := List.eq_nil_of_length_eq_zero (by omega)
    have no_unread : unread = [] := List.eq_nil_of_length_eq_zero (by omega)
    obtain ⟨names, sent⟩ := all_served no_queue
    subst no_unread
    rw [List.append_nil] at exact_so_far
    refine ⟨⟨sent, List.prefix_nil.mp arrived⟩, rs, ?_, enough, Or.inl rfl⟩
    rw [← names, ← exact_so_far]
    exact zipped _
  · have lengths := congrArg List.length replies
    rw [values] at enough
    simp only [List.length_map, List.length_append, List.length_cons, List.length_nil] at lengths enough
    have no_queue : queue = [] := List.eq_nil_of_length_eq_zero (by omega)
    have no_later : later = [] := List.eq_nil_of_length_eq_zero (by omega)
    obtain ⟨names, sent⟩ := all_served no_queue
    subst no_later
    refine ⟨⟨sent, nothing⟩, init ++ [r], ?_, by simpa using enough,
      Or.inr ⟨closed, init, r, v, rfl, values, cut⟩⟩
    rw [← names, ← replies]
    exact zipped _

end Shrt.Kv
