import Mathlib.Data.List.Basic
import Shrt.Http.Pipeline

/-!
# Answered requests

The replies to the requests of one read are written together when the read is
processed.  A head that cannot be parsed ends the connection at once, and with
it go the replies that wait for the requests in front of it.
-/

namespace Shrt.Http

open Shrt.Codec Shrt.Lib Shrt.Lib.Utf8 Shrt.Lib.Incremental
open Shrt.Store (World)

/-- How the reads of a connection end. -/
inductive LastRead where
  | eof
  | error
  deriving DecidableEq

section Serving

variable {σ : Type} (parse : Bytes → Parsed) (cfg : Config) (remote : Remote)
  (handle : σ → HandlerCall → Handled σ)

/-- The reads of a connection, then the end of the stream or a read that fails. -/
def serveUntil (last : LastRead) : Conn σ → List Bytes → Conn σ × End
  | c, [] =>
      match last with
      | .eof => serveReads parse cfg remote handle c []
      | .error => (c, .closed)
  | c, chunk :: chunks =>
      match turn parse cfg remote handle c chunk with
      | (c, none) => serveUntil last c chunks
      | (c, some ended) => (c, ended)

def repliesTo : σ → List (HandlerCall × Nat) → Bytes
  | _, [] => []
  | s, (call, _) :: calls =>
      match handle s call with
      | .replied reply s => replyBytes cfg reply ++ repliesTo s calls
      | _ => []

/-- No read brings a head that cannot be parsed behind a request that is complete
with it. -/
def Separate : Bytes → List Bytes → Prop
  | _, [] => True
  | buf, chunk :: chunks =>
      match (cut (scan parse remote) (buf ++ chunk)).ending with
      | .waiting => Separate (cut (scan parse remote) (buf ++ chunk)).rest chunks
      | .failed => (cut (scan parse remote) (buf ++ chunk)).units = []
      | .closed => True

instance decidableSeparate : ∀ buf chunks, Decidable (Separate parse remote buf chunks)
  | _, [] => isTrue trivial
  | buf, chunk :: chunks =>
      match ends : (cut (scan parse remote) (buf ++ chunk)).ending with
      | .waiting =>
          have := decidableSeparate (cut (scan parse remote) (buf ++ chunk)).rest chunks
          decidable_of_iff
            (Separate parse remote (cut (scan parse remote) (buf ++ chunk)).rest chunks)
            (by rw [Separate, ends])
      | .failed =>
          decidable_of_iff ((cut (scan parse remote) (buf ++ chunk)).units.isEmpty = true)
            (by rw [Separate, ends]; exact List.isEmpty_iff)
      | .closed => isTrue (by rw [Separate, ends]; trivial)

end Serving

theorem serveUntil_eof {σ : Type} (parse : Bytes → Parsed) (cfg : Config) (remote : Remote)
    (handle : σ → HandlerCall → Handled σ) (c : Conn σ) (reads : List Bytes) :
    serveUntil parse cfg remote handle .eof c reads =
      serveReads parse cfg remote handle c reads := by
  induction reads generalizing c with
  | nil => rfl
  | cons chunk reads ih =>
      simp only [serveUntil, serveReads]
      generalize turn parse cfg remote handle c chunk = r
      obtain ⟨c', ended⟩ := r
      cases ended with
      | none => exact ih c'
      | some ended => rfl

section Answers

variable {σ : Type} {parse : Bytes → Parsed} {cfg : Config} {remote : Remote}
  {handle : σ → HandlerCall → Handled σ}

/-- A unit whose request is handed over. -/
def Served (act : Act) : Prop :=
  ∃ call, act = .serve call

theorem served_of_scan {buf : Bytes} {n : Nat} {act : Act}
    (found : scan parse remote buf = .unit n act) : Served act := by
  cases act with
  | serve call => exact ⟨call, rfl⟩
  | refuse => exact absurd found (scan_ne_refuse _ _)

/-- Where the reading goes on or fails, every unit is a request handed over. -/
theorem served_units (stable : Stable (scan parse remote)) {buf : Bytes}
    (goes : (cut (scan parse remote) buf).ending ≠ .closed) :
    ∀ u ∈ (cut (scan parse remote) buf).units, Served u.2 := by
  obtain ⟨first, served, same | ⟨closed, -⟩⟩ :=
    stable.cut_units (fun found => served_of_scan found) buf
  · rw [same]
    exact served
  · exact absurd closed goes

theorem replyBytes_ne_nil (reply : Reply) : replyBytes cfg reply ≠ [] := by
  have start : encode "access-control-allow-origin: " ≠ [] := by decide
  simp [replyBytes, corsBlock, start]

/-- The replies to requests that were all handed over are what was appended. -/
theorem repliesTo_append {units : List (Nat × Act)} (served : ∀ u ∈ units, Served u.2) {s : σ}
    {r : σ × Bytes} (all : answered cfg handle s units = some r)
    (more : List (HandlerCall × Nat)) :
    repliesTo cfg handle s (callsOf units ++ more) = r.2 ++ repliesTo cfg handle r.1 more := by
  induction units generalizing s r with
  | nil =>
      cases all
      rfl
  | cons u units ih =>
      obtain ⟨n, act⟩ := u
      obtain ⟨call, rfl⟩ := served _ List.mem_cons_self
      obtain ⟨reply, s', r', replied, later, rfl⟩ := answered_serve all
      have rest := ih (fun u member => served u (List.mem_cons_of_mem _ member)) later
      change repliesTo cfg handle s ((call, n) :: (callsOf units ++ more)) = _
      simp only [repliesTo, replied, rest, List.append_assoc]

theorem repliesTo_served {units : List (Nat × Act)} (served : ∀ u ∈ units, Served u.2) {s : σ}
    {r : σ × Bytes} (all : answered cfg handle s units = some r) :
    repliesTo cfg handle s (callsOf units) = r.2 := by
  have replies := repliesTo_append served all []
  rw [List.append_nil] at replies
  rw [replies]
  exact List.append_nil _

/-- The replies to the calls among units are the first of what was appended for
them; a refusal may stand behind. -/
theorem repliesTo_prefix {units first : List (Nat × Act)} (served : ∀ u ∈ first, Served u.2)
    (shape : units = first ∨ ∃ last, units = first ++ [last]) {s : σ} {r : σ × Bytes}
    (all : answered cfg handle s units = some r) :
    repliesTo cfg handle s (callsOf units) <+: r.2 := by
  rcases shape with rfl | ⟨⟨n, act⟩, rfl⟩
  · rw [repliesTo_served served all]
  · cases act with
    | serve call =>
        rw [repliesTo_served _ all]
        intro u member
        rcases List.mem_append.mp member with member | member
        · exact served u member
        · rw [List.mem_singleton.mp member]
          exact ⟨call, rfl⟩
    | refuse =>
        rw [answered_append] at all
        obtain ⟨r', front, all⟩ := Option.bind_eq_some_iff.mp all
        obtain ⟨r'', -, rfl⟩ := Option.map_eq_some_iff.mp all
        have calls : callsOf (first ++ [(n, Act.refuse)]) = callsOf first := by
          rw [callsOf_append]
          exact List.append_nil _
        rw [calls, repliesTo_served served front]
        exact List.prefix_append _ _

/-- A request that is answered is answered with some bytes. -/
theorem answered_ne_nil {units : List (Nat × Act)} (present : units ≠ []) {s : σ}
    {r : σ × Bytes} (all : answered cfg handle s units = some r) : r.2 ≠ [] := by
  cases units with
  | nil => exact absurd rfl present
  | cons u units =>
      obtain ⟨n, act⟩ := u
      cases act with
      | refuse =>
          obtain ⟨r', -, rfl⟩ := Option.map_eq_some_iff.mp all
          exact List.append_ne_nil_of_left_ne_nil (replyBytes_ne_nil _) _
      | serve call =>
          obtain ⟨reply, s', r', -, -, rfl⟩ := answered_serve all
          exact List.append_ne_nil_of_left_ne_nil (replyBytes_ne_nil _) _

/-! ## The reads -/

variable (parse cfg remote handle) in
/-- The inner loop writes at a refusal only. -/
theorem process_written (fuel : Nat) (c : Conn σ)
    (kept : (process parse cfg remote handle fuel c).2 = some .dropped) :
    (process parse cfg remote handle fuel c).1.written = c.written := by
  induction fuel generalizing c with
  | zero => cases kept
  | succ fuel ih =>
      simp only [process] at kept ⊢
      cases found : scan parse remote (c.buf.drop c.parsedOff) with
      | more => rfl
      | failed => rfl
      | last total act =>
          simp only [found] at kept
          cases act with
          | refuse => cases kept
          | serve call =>
              rcases perform_serve cfg handle c total call with
                ⟨c', performed, -⟩ | ⟨c', performed, -⟩
              · rw [performed] at kept
                cases kept
              · rw [performed] at kept
                cases kept
      | unit total act =>
          cases act with
          | refuse => exact absurd found (scan_ne_refuse _ _)
          | serve call =>
              simp only [found] at kept ⊢
              have same : (c.perform cfg handle total (.serve call)).1.written = c.written := by
                simp only [Conn.perform]
                split
                · rfl
                · rfl
              rcases perform_serve cfg handle c total call with
                ⟨c', performed, -⟩ | ⟨c', performed, -⟩
              · rw [performed] at kept same ⊢
                rw [ih c' kept]
                exact same
              · rw [performed] at kept
                cases kept

variable (parse cfg remote handle) in
theorem turn_written (c : Conn σ) (chunk : Bytes)
    (dropped : (turn parse cfg remote handle c chunk).2 = some .dropped) :
    (turn parse cfg remote handle c chunk).1.written = c.written := by
  rw [turn] at dropped ⊢
  dsimp only at dropped ⊢
  split
  · rfl
  · rename_i pending
    rw [if_neg pending] at dropped
    have kept := process_written parse cfg remote handle ((c.buf ++ chunk).length + 1)
      { c with buf := c.buf ++ chunk }
    generalize process parse cfg remote handle ((c.buf ++ chunk).length + 1)
      { c with buf := c.buf ++ chunk } = r at dropped kept ⊢
    obtain ⟨c', ended⟩ := r
    cases ended with
    | none =>
        dsimp only at dropped
        split at dropped
        · cases dropped
        · cases dropped
    | some ended => exact kept dropped

/-- Two states of a connection differ by calls made and bytes written, all of
them answered if some condition holds and else not. -/
def Answers (cfg : Config) (handle : σ → HandlerCall → Handled σ) (c c' : Conn σ)
    (condition : Prop) : Prop :=
  ∃ calls bytes, c'.calls = c.calls ++ calls ∧ c'.written = c.written ++ bytes ∧
    (repliesTo cfg handle c.app calls <+: bytes ↔ condition)

/-- What was answered and written answers all its calls. -/
theorem After.answers {c c' : Conn σ} {units : List (Nat × Act)} (first : List (Nat × Act))
    (after : After cfg handle c c' units) (served : ∀ u ∈ first, Served u.2)
    (shape : units = first ∨ ∃ last, units = first ++ [last]) (before : c.out = [])
    (behind : c'.out = []) : Answers cfg handle c c' True := by
  obtain ⟨bytes, all, written, calls⟩ := after
  rw [before, behind, List.append_nil, List.append_nil] at written
  exact ⟨callsOf units, bytes, calls, written,
    iff_of_true ( repliesTo_prefix served shape all) trivial⟩

/-- Replies that were not written answer the calls only if there were none. -/
theorem After.answers_unwritten {c c' : Conn σ} {units : List (Nat × Act)}
    (after : After cfg handle c c' units) (served : ∀ u ∈ units, Served u.2)
    (unwritten : c'.written = c.written) : Answers cfg handle c c' (units = []) := by
  obtain ⟨bytes, all, -, calls⟩ := after
  refine ⟨_, [], calls, unwritten.trans (List.append_nil _).symm, ?_⟩
  rw [repliesTo_served served all, List.prefix_nil]
  constructor
  · intro none
    by_contra present
    exact answered_ne_nil present all none
  · rintro rfl
    have nothing : [] = bytes := congrArg Prod.snd (Option.some.inj all)
    exact nothing.symm

/-- What was answered and written comes in front of what follows. -/
theorem After.answers_then {c c' c'' : Conn σ} {units : List (Nat × Act)} {condition : Prop}
    (after : After cfg handle c c' units) (served : ∀ u ∈ units, Served u.2)
    (before : c.out = []) (behind : c'.out = []) (later : Answers cfg handle c' c'' condition) :
    Answers cfg handle c c'' condition := by
  obtain ⟨bytes, all, written, calls⟩ := after
  obtain ⟨calls', bytes', made, wrote, prompt⟩ := later
  rw [before, behind, List.append_nil, List.append_nil] at written
  refine ⟨callsOf units ++ calls', bytes ++ bytes', ?_, ?_, ?_⟩
  · rw [made, calls, List.append_assoc]
  · rw [wrote, written, List.append_assoc]
  · rw [repliesTo_append served all calls', List.prefix_append_right_inj]
    exact prompt

variable (parse cfg remote handle) in
/-- A connection between two reads answers every call from then on exactly when
no read brings a malformed head behind a complete request. -/
theorem serveUntil_answers (lawful : Lawful parse) (last : LastRead) {c : Conn σ} (idle : Idle c)
    (waits : c.buf = [] ∨ scan parse remote c.buf = .more) {reads : List Bytes}
    (full : ∀ chunk ∈ reads, chunk ≠ [])
    (returned : (serveUntil parse cfg remote handle last c reads).2 ≠ .died) :
    Answers cfg handle c (serveUntil parse cfg remote handle last c reads).1
      (Separate parse remote c.buf reads) := by
  have stable : Stable (scan parse remote) := stable_scan lawful
  induction reads generalizing c with
  | nil =>
      cases last with
      | error => exact ⟨[], [], (List.append_nil _).symm, (List.append_nil _).symm,
          iff_of_true List.nil_prefix trivial⟩
      | eof =>
          obtain ⟨-, after, out⟩ := turn_eof cfg handle idle waits
          exact after.answers [] (by simp) (Or.inl rfl) idle.out out
  | cons chunk reads ih =>
      have nonempty := full chunk List.mem_cons_self
      have spec := turn_spec parse cfg remote handle idle nonempty
      have silent := turn_written parse cfg remote handle c chunk
      obtain ⟨first, served, shape⟩ :=
        stable.cut_units (fun found => served_of_scan found) (c.buf ++ chunk)
      dsimp only at spec
      simp only [serveUntil, Separate] at returned ⊢
      generalize turn parse cfg remote handle c chunk = r at spec silent returned ⊢
      obtain ⟨c', ended⟩ := r
      rcases spec with ⟨died, -⟩ | ⟨after, turned⟩
      · cases died
        exact absurd rfl returned
      · rw [Turned] at turned
        cases ends : (cut (scan parse remote) (c.buf ++ chunk)).ending with
        | closed =>
            rw [ends] at turned
            obtain ⟨ended_some, out⟩ := turned
            obtain ⟨e, rfl⟩ : ∃ e, ended = some e := by
              rcases ended_some with refused | closed
              · exact ⟨_, refused⟩
              · exact ⟨_, closed⟩
            refine after.answers first served ?_ idle.out out
            rcases shape with same | ⟨-, same⟩
            · exact Or.inl same
            · exact Or.inr same
        | failed =>
            rw [ends] at turned
            obtain rfl : ended = some .dropped := turned
            exact after.answers_unwritten (served_units stable (by simp [ends])) (silent rfl)
        | waiting =>
            rw [ends] at turned
            obtain ⟨goes, idle', rest⟩ := turned
            cases goes
            change c'.buf = _ at rest
            have drained : c'.buf = [] ∨ scan parse remote c'.buf = .more :=
              Or.inr (rest ▸ stable.scan_rest ends)
            have later := ih idle' drained
              (fun chunk member => full chunk (List.mem_cons_of_mem _ member)) returned
            rw [rest] at later
            exact after.answers_then (served_units stable (by simp [ends])) idle.out idle'.out later

end Answers

section Runs

variable {σ : Type} {parse : Bytes → Parsed} (lawful : Lawful parse) (cfg : Config)
  (remote : Remote) (handle : σ → HandlerCall → Handled σ) (app : σ)

include lawful

/-- When a connection ends, the replies to all the calls that were made are
written, in their order, exactly when no read brings a malformed head behind a
complete request. -/
theorem requests_answered_iff (last : LastRead) {reads : List Bytes}
    (full : ∀ chunk ∈ reads, chunk ≠ [])
    (returned : (serveUntil parse cfg remote handle last (Conn.new app) reads).2 ≠ .died) :
    repliesTo cfg handle app
        (serveUntil parse cfg remote handle last (Conn.new app) reads).1.calls <+:
      (serveUntil parse cfg remote handle last (Conn.new app) reads).1.written ↔
      Separate parse remote [] reads := by
  obtain ⟨calls, bytes, made, wrote, prompt⟩ := serveUntil_answers parse cfg remote handle lawful
    last (idle_new app) (Or.inl rfl) full returned
  rw [made, wrote]
  exact prompt

end Runs

/-! ## A parser that refuses -/

/-- No head starts with a zero byte. -/
def strictParser (b : Bytes) : Parsed :=
  if b.head? = some 0 then .error else headParser b

theorem strictParser_complete {b : Bytes} {n : Nat} {req : Head}
    (found : strictParser b = .complete n req) :
    b.head? ≠ some 0 ∧ headParser b = .complete n req := by
  rw [strictParser] at found
  split at found
  · cases found
  · rename_i start
    exact ⟨start, found⟩

theorem lawful_strictParser : Lawful strictParser := by
  have front : ∀ (b rest : Bytes) (k : Nat), b ≠ [] → 0 < k → b.head? ≠ some 0 →
      (b.take k ++ rest).head? ≠ some 0 := by
    intro b rest k present positive start
    obtain ⟨x, b, rfl⟩ := List.exists_cons_of_ne_nil present
    obtain ⟨k, rfl⟩ := Nat.exists_eq_succ_of_ne_zero positive.ne'
    exact start
  constructor
  · intro b n req found
    exact lawful_headParser.inside (strictParser_complete found).2
  · intro b n req found rest
    obtain ⟨start, found⟩ := strictParser_complete found
    obtain ⟨positive, inside⟩ := lawful_headParser.inside found
    rw [strictParser, if_neg, lawful_headParser.extended found]
    exact front b rest n (List.ne_nil_of_length_pos (by omega)) positive start
  · intro b n req found k short
    obtain ⟨start, found⟩ := strictParser_complete found
    obtain ⟨positive, inside⟩ := lawful_headParser.inside found
    rw [strictParser, if_neg, lawful_headParser.awaited found k short]
    cases k with
    | zero => simp
    | succ k =>
        have taken := front b [] (k + 1) (List.ne_nil_of_length_pos (by omega)) k.succ_pos start
        rw [List.append_nil] at taken
        exact taken

/-- The connection that reads two requests and whatever stands behind them. -/
def servedStrictly (reads : List Bytes) : Conn World × End :=
  serveUntil strictParser openConfig ⟨"192.0.2.1", false⟩
    (handlerAt (oneUrl "" none) openConfig (get 1000 "/")) .eof (Conn.new World.memory) reads

/-- What comes of two requests with a byte behind them.  All of it is evaluated
together. -/
theorem twoRequests_followed :
    let reads : List Bytes := [twoRequests.flatMap Request.bytes, [0]]
    (servedStrictly reads).1.calls.length = 2 ∧ (∀ chunk ∈ reads, chunk ≠ []) ∧
      (servedStrictly reads).2 ≠ .died ∧
      Separate strictParser ⟨"192.0.2.1", false⟩ [] reads := by
  decide +kernel

theorem requests_answered_two :
    let stream := twoRequests.flatMap Request.bytes
    (servedStrictly [stream, [0]]).1.calls.length = 2 ∧
      repliesTo openConfig (handlerAt (oneUrl "" none) openConfig (get 1000 "/")) World.memory
          (servedStrictly [stream, [0]]).1.calls <+:
        (servedStrictly [stream, [0]]).1.written := by
  obtain ⟨two, full, returned, apart⟩ := twoRequests_followed
  refine ⟨two, ?_⟩
  rw [servedStrictly] at returned ⊢
  exact (requests_answered_iff lawful_strictParser openConfig ⟨"192.0.2.1", false⟩
    (handlerAt (oneUrl "" none) openConfig (get 1000 "/")) World.memory .eof full returned).mpr
    apart

/-- Two requests were handled, and nothing is answered because of the byte that
arrives with them. -/
theorem replies_dropped :
    let stream := twoRequests.flatMap Request.bytes
    Lawful strictParser ∧
      (servedStrictly [stream ++ [0]]).2 = .dropped ∧
      (servedStrictly [stream ++ [0]]).1.calls.map (fun c => (c.1.method, c.1.path)) =
        [("POST", "/api/shorten"), ("GET", "/api/metrics")] ∧
      (servedStrictly [stream ++ [0]]).1.written = [] ∧
      ¬ repliesTo openConfig (handlerAt (oneUrl "" none) openConfig (get 1000 "/")) World.memory
          (servedStrictly [stream ++ [0]]).1.calls <+:
        (servedStrictly [stream ++ [0]]).1.written :=
  ⟨lawful_strictParser, by decide +kernel⟩

end Shrt.Http
