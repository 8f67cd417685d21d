import Mathlib.Data.List.Basic
import Shrt.Lib.Incremental
import Shrt.Http.Reply

/-!
# Connections

One connection of the server: reads are appended to a buffer, every complete
request in it is answered in order, and the replies are written together.  The
parser of request heads is given from outside.
-/

namespace Shrt.Http

open Shrt.Codec Shrt.Lib Shrt.Lib.Utf8 Shrt.Lib.Decimal Shrt.Lib.Incremental

/-- The head of a request, as the parser leaves it. -/
structure Head where
  method : Option String
  path : Option String
  version : Option Nat
  headers : List (String × Bytes)
  deriving DecidableEq

/-- What the parser says of a buffer: a head of some length, a head that is not
complete, or an error. -/
inductive Parsed where
  | complete (hdrlen : Nat) (req : Head)
  | incomplete
  | error
  deriving DecidableEq

structure HandlerCall where
  method : String
  path : String
  body : Bytes
  admin : String
  client : String
  deriving DecidableEq, Repr

/-- What a connection knows of the other side. -/
structure Remote where
  peer : String
  trustProxy : Bool

def headerVal (req : Head) (name : String) : Option Bytes :=
  (req.headers.find? fun h => eqIgnoreCase h.1 name).map Prod.snd

def asciiLower (b : UInt8) : UInt8 :=
  if 65 ≤ b ∧ b ≤ 90 then b + 32 else b

def keepAlive (req : Head) (version : Nat) : Bool :=
  match headerVal req "connection" with
  | some v => !(v.map asciiLower == encode "close")
  | none => version == 1

def parseUsize? (s : String) : Option Nat :=
  let digits := match s.toList with
    | '+' :: cs => cs
    | cs => cs
  (readNat? digits).filter (· < 2 ^ 64)

def contentLength (req : Head) : Nat :=
  (((headerVal req "content-length").bind decode?).bind fun v => parseUsize? (trim v)).getD 0

def adminToken (req : Head) : String :=
  ((headerVal req "x-admin-token").bind decode?).getD ""

/-- The address that a request is counted for. -/
def clientOf (remote : Remote) (req : Head) : String :=
  if remote.trustProxy then
    ((((headerVal req "x-forwarded-for").bind decode?).map fun v =>
      trim (String.ofList (v.toList.takeWhile (· ≠ ',')))).filter (· ≠ "")).getD remote.peer
  else remote.peer

def needsBody (method : String) : Bool :=
  method == "POST" || method == "PATCH"

def bodyLimit (path : String) : Nat :=
  if (splitQuery path).1 = "/api/shorten/bulk" then MAX_BULK_BODY else MAX_BODY

def tooLarge : Reply :=
  ⟨413, none, encode "\x7b\"error\":\"body too large\"\x7d", none⟩

/-- What is done for a head: the handler is called, or the body is refused. -/
inductive Act where
  | serve (call : HandlerCall)
  | refuse

def bodyLength (req : Head) : Nat :=
  if needsBody (req.method.getD "GET") then contentLength req else 0

def callOf (remote : Remote) (req : Head) (body : Bytes) : HandlerCall where
  method := req.method.getD "GET"
  path := req.path.getD "/"
  body := body
  admin := adminToken req
  client := clientOf remote req

/-- A connection: the store behind it, the buffer with what is parsed of it, the
replies that wait and what was written.  The calls are kept with the bytes that
were consumed for each. -/
structure Conn (σ : Type) where
  app : σ
  buf : Bytes
  parsedOff : Nat
  out : Bytes
  closeAfter : Bool
  written : Bytes
  calls : List (HandlerCall × Nat)

/-- How a connection ends: closed in order, dropped at a malformed head, after a
refused body, or with a handler that never returned. -/
inductive End where
  | closed
  | dropped
  | refused
  | died
  deriving DecidableEq, Repr

section Serving

variable {σ : Type} (parse : Bytes → Parsed) (cfg : Config) (remote : Remote)
  (handle : σ → HandlerCall → Handled σ)

/-- What the unparsed bytes start with. -/
def scan (rest : Bytes) : Scan Act :=
  match parse rest with
  | .incomplete => .more
  | .error => .failed
  | .complete hdrlen req =>
      if needsBody (req.method.getD "GET") && bodyLimit (req.path.getD "/") < contentLength req then
        .last 0 .refuse
      else
        let total := hdrlen + bodyLength req
        if rest.length < total then .more
        else
          let call := callOf remote req ((rest.drop hdrlen).take (bodyLength req))
          if keepAlive req (req.version.getD 1) then .unit total (.serve call)
          else .last total (.serve call)

/-- Write the replies that wait. -/
def Conn.flush (c : Conn σ) : Conn σ :=
  { c with written := c.written ++ c.out, out := [] }

/-- Call the handler and append its reply, or refuse the body and write at
once. -/
def Conn.perform (c : Conn σ) (total : Nat) : Act → Conn σ × Option End
  | .refuse => (Conn.flush { c with out := writeReply cfg c.out tooLarge }, some .refused)
  | .serve call =>
      let c := { c with calls := c.calls ++ [(call, total)] }
      match handle c.app call with
      | .replied reply app =>
          ({ c with
              app := app
              out := writeReply cfg c.out reply
              parsedOff := c.parsedOff + total }, none)
      | _ => (c, some .died)

/-- Process every complete request in the buffer.  Without an end the loop was
left to read on or to close. -/
def process : Nat → Conn σ → Conn σ × Option End
  | 0, c => (c, none)
  | fuel + 1, c =>
      match scan parse remote (c.buf.drop c.parsedOff) with
      | .more => (c, none)
      | .failed => (c, some .dropped)
      | .unit total act =>
          match c.perform cfg handle total act with
          | (c, none) => process fuel c
          | (c, some ended) => (c, some ended)
      | .last total act =>
          match c.perform cfg handle total act with
          | (c, none) => ({ c with closeAfter := true }, none)
          | (c, some ended) => (c, some ended)

/-- One turn of the loop on what was read; nothing is read at the end of the
stream. -/
def turn (c : Conn σ) (chunk : Bytes) : Conn σ × Option End :=
  let c := { c with buf := c.buf ++ chunk }
  if chunk = [] ∧ c.buf.length = c.parsedOff then (c, some .closed)
  else
    match process parse cfg remote handle (c.buf.length + 1) c with
    | (c, some ended) => (c, some ended)
    | (c, none) =>
        let c := { c with buf := c.buf.drop c.parsedOff, parsedOff := 0 }
        let c := c.flush
        (c, if c.closeAfter ∨ chunk = [] then some .closed else none)

/-- The reads of a connection, then the end of the stream. -/
def serveReads : Conn σ → List Bytes → Conn σ × End
  | c, [] =>
      let done := turn parse cfg remote handle c []
      (done.1, done.2.getD .closed)
  | c, chunk :: chunks =>
      match turn parse cfg remote handle c chunk with
      | (c, none) => serveReads c chunks
      | (c, some ended) => (c, ended)

def Conn.new (app : σ) : Conn σ :=
  ⟨app, [], 0, [], false, [], []⟩

def handleConn (app : σ) (reads : List Bytes) : Conn σ × End :=
  serveReads parse cfg remote handle (Conn.new app) reads

end Serving

/-! ## The units of a stream -/

def callsOf (units : List (Nat × Act)) : List (HandlerCall × Nat) :=
  units.filterMap fun u =>
    match u.2 with
    | .serve call => some (call, u.1)
    | .refuse => none

section Spec

variable {σ : Type} (cfg : Config) (handle : σ → HandlerCall → Handled σ)

/-- The store and the reply bytes after all the units, if every call returns. -/
def answered : σ → List (Nat × Act) → Option (σ × Bytes)
  | s, [] => some (s, [])
  | s, (_, .refuse) :: units =>
      (answered s units).map fun r => (r.1, replyBytes cfg tooLarge ++ r.2)
  | s, (_, .serve call) :: units =>
      match handle s call with
      | .replied reply s => (answered s units).map fun r => (r.1, replyBytes cfg reply ++ r.2)
      | _ => none

/-- The units were answered between two states of a connection. -/
def After (c c' : Conn σ) (units : List (Nat × Act)) : Prop :=
  ∃ bytes, answered cfg handle c.app units = some (c'.app, bytes) ∧
    c'.written ++ c'.out = c.written ++ c.out ++ bytes ∧ c'.calls = c.calls ++ callsOf units

/-- A call among the units did not return; the calls up to it were made. -/
def Died (c c' : Conn σ) (units : List (Nat × Act)) : Prop :=
  answered cfg handle c.app units = none ∧
    ∃ made, made <+: callsOf units ∧ c'.calls = c.calls ++ made

end Spec

variable {σ : Type} {parse : Bytes → Parsed} {cfg : Config} {remote : Remote}
  {handle : σ → HandlerCall → Handled σ}

theorem answered_append (s : σ) (first second : List (Nat × Act)) :
    answered cfg handle s (first ++ second) =
      (answered cfg handle s first).bind fun r =>
        (answered cfg handle r.1 second).map fun r' => (r'.1, r.2 ++ r'.2) := by
  induction first generalizing s with
  | nil => simp [answered]
  | cons u first ih =>
      obtain ⟨n, act⟩ := u
      cases act with
      | refuse => simp [answered, ih, Option.map_bind, Option.bind_map, Function.comp_def]
      | serve call =>
          simp only [List.cons_append, answered]
          cases handle s call with
          | panicked => rfl
          | drawing => rfl
          | replied reply s' => simp [ih, Option.map_bind, Option.bind_map, Function.comp_def]

/-- A call that was answered returned, and so did those behind it. -/
theorem answered_serve {s : σ} {n : Nat} {call : HandlerCall} {units : List (Nat × Act)}
    {r : σ × Bytes} (all : answered cfg handle s ((n, .serve call) :: units) = some r) :
    ∃ reply s' r', handle s call = .replied reply s' ∧
      answered cfg handle s' units = some r' ∧ r = (r'.1, replyBytes cfg reply ++ r'.2) := by
  rw [answered] at all
  cases replied : handle s call with
  | panicked =>
      rw [replied] at all
      cases all
  | drawing =>
      rw [replied] at all
      cases all
  | replied reply s' =>
      rw [replied] at all
      obtain ⟨r', later, rfl⟩ := Option.map_eq_some_iff.mp all
      exact ⟨reply, s', r', rfl, later, rfl⟩

/-- What is answered is answered up to any unit. -/
theorem answered_first {s : σ} {first units : List (Nat × Act)} {r : σ × Bytes}
    (all : answered cfg handle s units = some r) (start : first <+: units) :
    answered cfg handle s first ≠ none := by
  obtain ⟨second, rfl⟩ := start
  intro none
  rw [answered_append, none] at all
  cases all

theorem callsOf_append (first second : List (Nat × Act)) :
    callsOf (first ++ second) = callsOf first ++ callsOf second :=
  List.filterMap_append

theorem callsOf_first {first units : List (Nat × Act)} (start : first <+: units) :
    callsOf first <+: callsOf units :=
  start.filterMap _

namespace After

theorem refl (c : Conn σ) : After cfg handle c c [] :=
  ⟨[], rfl, (List.append_nil _).symm, (List.append_nil _).symm⟩

theorem trans {c c' c'' : Conn σ} {first second : List (Nat × Act)}
    (one : After cfg handle c c' first) (two : After cfg handle c' c'' second) :
    After cfg handle c c'' (first ++ second) := by
  obtain ⟨bytes, answered, written, calls⟩ := one
  obtain ⟨bytes', answered', written', calls'⟩ := two
  refine ⟨bytes ++ bytes', ?_, ?_, ?_⟩
  · rw [answered_append, answered, Option.bind_some, answered']
    rfl
  · rw [written', written, List.append_assoc]
  · rw [calls', calls, callsOf_append, List.append_assoc]

/-- What follows a call that does not return is not answered. -/
theorem died {c c' c'' : Conn σ} {first second : List (Nat × Act)}
    (one : After cfg handle c c' first) (two : Died cfg handle c' c'' second) :
    Died cfg handle c c'' (first ++ second) := by
  obtain ⟨bytes, answered, -, calls⟩ := one
  obtain ⟨none, made, first_made, calls'⟩ := two
  refine ⟨?_, callsOf first ++ made, ?_, ?_⟩
  · rw [answered_append, answered, Option.bind_some, none]
    rfl
  · rw [callsOf_append]
    exact (List.prefix_append_right_inj _).mpr first_made
  · rw [calls', calls, List.append_assoc]

/-- To write what waits and to drop what is parsed changes nothing. -/
theorem flush {c c' : Conn σ} {units : List (Nat × Act)} (after : After cfg handle c c' units)
    (buf : Bytes) (parsedOff : Nat) :
    After cfg handle c (Conn.flush { c' with buf := buf, parsedOff := parsedOff }) units := by
  obtain ⟨bytes, answered, written, calls⟩ := after
  refine ⟨bytes, answered, ?_, calls⟩
  rw [← written]
  exact List.append_nil _

end After

/-- A call that does not return ends it, whatever units follow. -/
theorem Died.append {c c' : Conn σ} {units : List (Nat × Act)} (died : Died cfg handle c c' units)
    (more : List (Nat × Act)) : Died cfg handle c c' (units ++ more) := by
  obtain ⟨none, made, first_made, calls⟩ := died
  refine ⟨?_, made, ?_, calls⟩
  · rw [answered_append, none]
    rfl
  · rw [callsOf_append]
    exact first_made.trans (List.prefix_append _ _)

/-! ## The loops -/

variable (cfg handle) in
theorem perform_serve (c : Conn σ) (total : Nat) (call : HandlerCall) :
    (∃ c', c.perform cfg handle total (.serve call) = (c', none) ∧
        After cfg handle c c' [(total, .serve call)] ∧ c'.buf = c.buf ∧
        c'.parsedOff = c.parsedOff + total ∧ c'.closeAfter = c.closeAfter) ∨
      ∃ c', c.perform cfg handle total (.serve call) = (c', some .died) ∧
        Died cfg handle c c' [(total, .serve call)] := by
  have calls : callsOf [(total, Act.serve call)] = [(call, total)] := rfl
  cases returned : handle c.app call with
  | replied reply app =>
      refine Or.inl ⟨{ c with
          calls := c.calls ++ [(call, total)]
          app := app
          out := writeReply cfg c.out reply
          parsedOff := c.parsedOff + total }, ?_, ⟨replyBytes cfg reply, ?_, ?_, ?_⟩, rfl, rfl, rfl⟩
      · simp only [Conn.perform, returned]
      · simp [answered, returned]
      · simp [writeReply]
      · rw [calls]
  | panicked =>
      refine Or.inr ⟨{ c with calls := c.calls ++ [(call, total)] }, ?_, ?_, [(call, total)],
        List.prefix_refl _, rfl⟩
      · simp only [Conn.perform, returned]
      · simp [answered, returned]
  | drawing =>
      refine Or.inr ⟨{ c with calls := c.calls ++ [(call, total)] }, ?_, ?_, [(call, total)],
        List.prefix_refl _, rfl⟩
      · simp only [Conn.perform, returned]
      · simp [answered, returned]

variable (cfg handle) in
theorem perform_refuse (c : Conn σ) (total : Nat) :
    ∃ c', c.perform cfg handle total .refuse = (c', some .refused) ∧
      After cfg handle c c' [(total, .refuse)] ∧ c'.out = [] := by
  refine ⟨_, rfl, ⟨replyBytes cfg tooLarge, ?_, ?_, ?_⟩, rfl⟩
  · simp [answered, Conn.flush]
  · simp [Conn.flush, writeReply]
  · simp [Conn.flush, callsOf]

theorem scan_complete {b : Bytes} {n : Nat} {req : Head} (found : parse b = .complete n req) :
    scan parse remote b =
      if needsBody (req.method.getD "GET") && bodyLimit (req.path.getD "/") < contentLength req then
        .last 0 .refuse
      else if b.length < n + bodyLength req then .more
      else if keepAlive req (req.version.getD 1) then
        .unit (n + bodyLength req) (.serve (callOf remote req ((b.drop n).take (bodyLength req))))
      else
        .last (n + bodyLength req)
          (.serve (callOf remote req ((b.drop n).take (bodyLength req)))) := by
  rw [scan, found]

variable (parse remote) in
/-- All that the front of a buffer can be: a request refused for its length, or
one that is there as a whole, or else nothing to act on. -/
theorem scan_cases (b : Bytes) :
    scan parse remote b = .more ∨ scan parse remote b = .failed ∨
      ∃ n req, parse b = .complete n req ∧
        ((scan parse remote b = .last 0 .refuse ∧
            ∀ b', parse b' = .complete n req → scan parse remote b' = .last 0 .refuse) ∨
          n + bodyLength req ≤ b.length ∧ ∃ call,
            scan parse remote b = .unit (n + bodyLength req) (.serve call) ∨
              scan parse remote b = .last (n + bodyLength req) (.serve call)) := by
  cases parsed : parse b with
  | incomplete => exact Or.inl (by rw [scan, parsed])
  | error => exact Or.inr (Or.inl (by rw [scan, parsed]))
  | complete n req =>
      by_cases oversize : (needsBody (req.method.getD "GET") &&
          decide (bodyLimit (req.path.getD "/") < contentLength req)) = true
      · have refused : ∀ b', parse b' = .complete n req →
            scan parse remote b' = .last 0 .refuse := by
          intro b' parsed'
          rw [scan_complete parsed', if_pos oversize]
        exact Or.inr (Or.inr ⟨n, req, rfl, Or.inl ⟨refused b parsed, refused⟩⟩)
      · rw [scan_complete parsed, if_neg oversize]
        split
        · exact Or.inl rfl
        · rename_i enough
          refine Or.inr (Or.inr ⟨n, req, rfl, Or.inr ⟨Nat.not_lt.mp enough,
            callOf remote req ((b.drop n).take (bodyLength req)), ?_⟩⟩)
          split
          · exact Or.inl rfl
          · exact Or.inr rfl

theorem scan_ne_refuse (rest : Bytes) (total : Nat) :
    scan parse remote rest ≠ .unit total .refuse := by
  obtain more | failed | ⟨n, req, -, ⟨refused, -⟩ | ⟨-, call, unit | last⟩⟩ :=
    scan_cases parse remote rest
  · simp [more]
  · simp [failed]
  · simp [refused]
  · simp [unit]
  · simp [last]

/-- How the inner loop leaves a connection, by the reason that no more units
were cut. -/
def Left (c : Conn σ) (k : Cut UInt8 Act) (r : Conn σ × Option End) : Prop :=
  match k.ending with
  | .waiting => r.2 = none ∧ r.1.closeAfter = c.closeAfter ∧ r.1.buf.drop r.1.parsedOff = k.rest
  | .failed => r.2 = some .dropped
  | .closed => (r.2 = some .refused ∧ r.1.out = []) ∨ (r.2 = none ∧ r.1.closeAfter = true)

variable (parse cfg remote handle) in
/-- The inner loop answers the units that can be cut from what is unparsed. -/
theorem process_spec (fuel : Nat) (c : Conn σ) :
    let k := cutFuel (scan parse remote) fuel (c.buf.drop c.parsedOff)
    let r := process parse cfg remote handle fuel c
    (r.2 = some .died ∧ Died cfg handle c r.1 k.units) ∨
      (After cfg handle c r.1 k.units ∧ Left c k r) := by
  dsimp only
  induction fuel generalizing c with
  | zero => exact Or.inr ⟨.refl c, rfl, rfl, rfl⟩
  | succ fuel ih =>
      simp only [cutFuel, process]
      cases found : scan parse remote (c.buf.drop c.parsedOff) with
      | more => exact Or.inr ⟨.refl c, rfl, rfl, rfl⟩
      | failed => exact Or.inr ⟨.refl c, rfl⟩
      | unit total act =>
          cases act with
          | refuse => exact absurd found (scan_ne_refuse _ _)
          | serve call =>
              dsimp only
              rcases perform_serve cfg handle c total call with
                ⟨c', performed, after, buf, off, close⟩ | ⟨c', performed, died⟩
              · rw [performed]
                have behind : c'.buf.drop c'.parsedOff = (c.buf.drop c.parsedOff).drop total := by
                  rw [buf, off, List.drop_drop]
                have later := ih c'
                rw [behind] at later
                rcases later with ⟨ended, died⟩ | ⟨after', left⟩
                · exact Or.inl ⟨ended, after.died died⟩
                · refine Or.inr ⟨after.trans after', ?_⟩
                  rw [Left, close] at left
                  exact left
              · rw [performed]
                exact Or.inl ⟨rfl, died.append _⟩
      | last total act =>
          cases act with
          | refuse =>
              obtain ⟨c', performed, after, empty⟩ := perform_refuse cfg handle c total
              dsimp only
              rw [performed]
              exact Or.inr ⟨after, Or.inl ⟨rfl, empty⟩⟩
          | serve call =>
              dsimp only
              rcases perform_serve cfg handle c total call with
                ⟨c', performed, after, -⟩ | ⟨c', performed, died⟩
              · rw [performed]
                exact Or.inr ⟨after, Or.inr ⟨rfl, rfl⟩⟩
              · rw [performed]
                exact Or.inl ⟨rfl, died⟩

/-- Between two turns: everything parsed was dropped and everything answered was
written. -/
structure Idle (c : Conn σ) : Prop where
  parsedOff : c.parsedOff = 0
  out : c.out = []
  closeAfter : c.closeAfter = false

theorem idle_new (app : σ) : Idle (Conn.new app) :=
  ⟨rfl, rfl, rfl⟩

/-- How a turn leaves a connection. -/
def Turned (k : Cut UInt8 Act) (r : Conn σ × Option End) : Prop :=
  match k.ending with
  | .waiting => r.2 = none ∧ Idle r.1 ∧ r.1.buf = k.rest
  | .failed => r.2 = some .dropped
  | .closed => (r.2 = some .refused ∨ r.2 = some .closed) ∧ r.1.out = []

variable (parse cfg remote handle) in
/-- A turn answers the units that can be cut from the buffer. -/
theorem turn_spec {c : Conn σ} (idle : Idle c) {chunk : Bytes} (full : chunk ≠ []) :
    let k := cut (scan parse remote) (c.buf ++ chunk)
    let r := turn parse cfg remote handle c chunk
    (r.2 = some .died ∧ Died cfg handle c r.1 k.units) ∨
      (After cfg handle c r.1 k.units ∧ Turned k r) := by
  dsimp only
  have unparsed : (c.buf ++ chunk).drop c.parsedOff = c.buf ++ chunk := by
    rw [idle.parsedOff, List.drop_zero]
  have spec := process_spec parse cfg remote handle ((c.buf ++ chunk).length + 1)
    { c with buf := c.buf ++ chunk }
  dsimp only at spec
  rw [unparsed, show cutFuel (scan parse remote) ((c.buf ++ chunk).length + 1) (c.buf ++ chunk) =
    cut (scan parse remote) (c.buf ++ chunk) from rfl] at spec
  rw [turn, if_neg (fun both => full both.1)]
  dsimp only
  generalize process parse cfg remote handle ((c.buf ++ chunk).length + 1)
    { c with buf := c.buf ++ chunk } = r at spec ⊢
  obtain ⟨c', ended⟩ := r
  rcases spec with ⟨died, lost⟩ | ⟨after, left⟩
  · cases died
    exact Or.inl ⟨rfl, lost⟩
  · right
    rw [Turned]
    rw [Left] at left
    cases ends : (cut (scan parse remote) (c.buf ++ chunk)).ending with
    | waiting =>
        rw [ends] at left
        obtain ⟨on, close, rest⟩ := left
        cases on
        have stays : ¬ (c'.closeAfter = true ∨ chunk = []) := by
          rintro (closing | empty)
          · rw [close, idle.closeAfter] at closing
            cases closing
          · exact full empty
        refine ⟨after.flush _ _, if_neg stays, ⟨rfl, rfl, close.trans idle.closeAfter⟩, rest⟩
    | failed =>
        rw [ends] at left
        cases left
        exact ⟨after, rfl⟩
    | closed =>
        rw [ends] at left
        rcases left with ⟨refused, empty⟩ | ⟨on, closing⟩
        · cases refused
          exact ⟨after, Or.inl rfl, empty⟩
        · cases on
          exact ⟨after.flush _ _, Or.inr (if_pos (Or.inl closing)), rfl⟩

variable (cfg handle) in
/-- At the end of the stream nothing more is answered. -/
theorem turn_eof {c : Conn σ} (idle : Idle c)
    (waits : c.buf = [] ∨ scan parse remote c.buf = .more) :
    let r := turn parse cfg remote handle c []
    r.2 = some .closed ∧ After cfg handle c r.1 [] ∧ r.1.out = [] := by
  dsimp only
  rw [turn]
  dsimp only
  rw [List.append_nil]
  split
  · exact ⟨rfl, .refl c, idle.out⟩
  · rename_i pending
    rcases waits with empty | waits
    · exact absurd ⟨rfl, by rw [empty, idle.parsedOff]; rfl⟩ pending
    · rw [process, idle.parsedOff, List.drop_zero]
      simp only [waits]
      exact ⟨if_pos (Or.inr trivial), (After.refl c).flush _ _, rfl⟩

variable (cfg handle) in
/-- A connection answers the units that its reads are cut into. -/
theorem serveReads_spec (stable : Stable (scan parse remote)) {c : Conn σ} (idle : Idle c)
    (waits : c.buf = [] ∨ scan parse remote c.buf = .more) {reads : List Bytes}
    (full : ∀ chunk ∈ reads, chunk ≠ []) :
    let k := feed (scan parse remote) c.buf reads
    let r := serveReads parse cfg remote handle c reads
    (r.2 = .died ∧ Died cfg handle c r.1 k.units) ∨
      (After cfg handle c r.1 k.units ∧ r.2 ≠ .died ∧ (r.2 = .dropped ↔ k.ending = .failed) ∧
        (r.2 ≠ .dropped → r.1.out = [])) := by
  dsimp only
  induction reads generalizing c with
  | nil =>
      obtain ⟨ended, after, out⟩ := turn_eof cfg handle idle waits
      have closed : (serveReads parse cfg remote handle c []).2 = .closed := by
        simp only [serveReads, ended, Option.getD_some]
      refine Or.inr ⟨after, ?_, ?_, fun _ => out⟩
      · rw [closed]
        simp
      · rw [closed, feed]
        simp
  | cons chunk reads ih =>
      have spec := turn_spec parse cfg remote handle idle (full chunk List.mem_cons_self)
      dsimp only at spec
      simp only [serveReads]
      generalize turn parse cfg remote handle c chunk = r at spec ⊢
      obtain ⟨c', ended⟩ := r
      by_cases on : (cut (scan parse remote) (c.buf ++ chunk)).ending = .waiting
      · rw [Stable.feed_waiting reads on]
        rcases spec with ⟨died, lost⟩ | ⟨after, turned⟩
        · cases died
          exact Or.inl ⟨rfl, lost.append _⟩
        · rw [Turned, on] at turned
          obtain ⟨goes, idle', rest⟩ := turned
          cases goes
          have drained : c'.buf = [] ∨ scan parse remote c'.buf = .more :=
            Or.inr (rest ▸ stable.scan_rest on)
          have later := ih idle' drained fun chunk member =>
            full chunk (List.mem_cons_of_mem _ member)
          change c'.buf = _ at rest
          rw [rest] at later
          rcases later with ⟨died, lost⟩ | ⟨after', alive, dropped, out⟩
          · exact Or.inl ⟨died, after.died lost⟩
          · exact Or.inr ⟨after.trans after', alive, dropped, out⟩
      · rw [Stable.feed_stopped reads on]
        rcases spec with ⟨died, lost⟩ | ⟨after, turned⟩
        · cases died
          exact Or.inl ⟨rfl, lost⟩
        · rw [Turned] at turned
          cases ends : (cut (scan parse remote) (c.buf ++ chunk)).ending with
          | waiting => exact absurd ends on
          | failed =>
              rw [ends] at turned
              cases turned
              exact Or.inr ⟨after, by simp, by simp, by simp⟩
          | closed =>
              rw [ends] at turned
              obtain ⟨refused | closed, out⟩ := turned
              · cases refused
                exact Or.inr ⟨after, by simp, by simp, fun _ => out⟩
              · cases closed
                exact Or.inr ⟨after, by simp, by simp, fun _ => out⟩

end Shrt.Http
