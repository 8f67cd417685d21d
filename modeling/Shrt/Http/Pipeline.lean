import Mathlib.Data.List.Basic
import Shrt.Http.Connection

/-!
# Pipelined requests

What a connection does depends on the bytes that arrive and not on the reads
they arrive in.  Requests that follow each other are each answered once and in
order, as long as only those methods bring a body whose body is read.
-/

namespace Shrt.Http

open Shrt.Codec Shrt.Lib Shrt.Lib.Utf8 Shrt.Lib.Incremental
open Shrt.Store (World)

/-- The parser of heads: a complete head is found at the front whatever follows
it, and is waited for while it is not complete. -/
structure Lawful (parse : Bytes → Parsed) : Prop where
  inside : ∀ {b n req}, parse b = .complete n req → 0 < n ∧ n ≤ b.length
  extended : ∀ {b n req}, parse b = .complete n req →
    ∀ rest, parse (b.take n ++ rest) = .complete n req
  awaited : ∀ {b n req}, parse b = .complete n req →
    ∀ k < n, parse (b.take k) = .incomplete

section Lawful

variable {parse : Bytes → Parsed} (lawful : Lawful parse) {remote : Remote}

include lawful

theorem Lawful.append {b : Bytes} {n : Nat} {req : Head} (found : parse b = .complete n req)
    (more : Bytes) : parse (b ++ more) = .complete n req := by
  have split : b ++ more = b.take n ++ (b.drop n ++ more) := by
    rw [← List.append_assoc, List.take_append_drop]
  rw [split]
  exact lawful.extended found _

/-- The decision on a complete request stays when more arrives. -/
theorem scan_append {b : Bytes} {n : Nat} {req : Head} (found : parse b = .complete n req)
    (enough : n + bodyLength req ≤ b.length) (more : Bytes) :
    scan parse remote (b ++ more) = scan parse remote b := by
  have inside : n ≤ b.length := (lawful.inside found).2
  have body : ((b ++ more).drop n).take (bodyLength req) = (b.drop n).take (bodyLength req) := by
    rw [List.drop_append_of_le_length inside, List.take_append_of_le_length]
    rw [List.length_drop]
    omega
  have long : ¬ (b ++ more).length < n + bodyLength req := by
    rw [List.length_append]
    omega
  rw [scan_complete found, scan_complete (lawful.append found more), body,
    if_neg (Nat.not_lt.mpr enough), if_neg long]

/-- Units are found and refused for good. -/
theorem stable_scan : Stable (scan parse remote) := by
  constructor
  · intro b k v found
    obtain more | failed | ⟨n, req, parsed, ⟨refused, -⟩ | ⟨enough, call, unit | last⟩⟩ :=
      scan_cases parse remote b
    · rw [more] at found
      cases found
    · rw [failed] at found
      cases found
    · rw [refused] at found
      cases found
    · have whole := found
      rw [unit] at found
      cases found
      have positive := (lawful.inside parsed).1
      refine ⟨by omega, enough, fun more => ?_⟩
      rw [scan_append lawful parsed enough, whole]
    · rw [last] at found
      cases found
  · intro b k v found
    obtain more | failed | ⟨n, req, parsed, ⟨refused, still⟩ | ⟨enough, call, unit | last⟩⟩ :=
      scan_cases parse remote b
    · rw [more] at found
      cases found
    · rw [failed] at found
      cases found
    · rw [refused] at found
      cases found
      exact ⟨Nat.zero_le _, fun more => still _ (lawful.append parsed more)⟩
    · rw [unit] at found
      cases found
    · have whole := found
      rw [last] at found
      cases found
      refine ⟨enough, fun more => ?_⟩
      rw [scan_append lawful parsed enough, whole]

end Lawful

section Runs

variable {σ : Type} {parse : Bytes → Parsed} (lawful : Lawful parse) (cfg : Config)
  (remote : Remote) (handle : σ → HandlerCall → Handled σ) (app : σ)

include lawful

/-- What a connection did, by the units that its reads are cut into. -/
theorem handleConn_spec {reads : List Bytes} (full : ∀ chunk ∈ reads, chunk ≠ []) :
    let k := feed (scan parse remote) [] reads
    let r := handleConn parse cfg remote handle app reads
    (r.2 = .died ∧ Died cfg handle (Conn.new app) r.1 k.units) ∨
      (After cfg handle (Conn.new app) r.1 k.units ∧ r.2 ≠ .died ∧
        (r.2 = .dropped ↔ k.ending = .failed) ∧ (r.2 ≠ .dropped → r.1.out = [])) :=
  serveReads_spec cfg handle (stable_scan lawful) (idle_new app) (Or.inl rfl) full

/-- As long as no head is malformed and the calls return, the calls, the bytes
written and the store do not depend on the reads that a stream arrives in. -/
theorem handleConn_reads {first second : List Bytes} (same : first.flatten = second.flatten)
    (firstFull : ∀ chunk ∈ first, chunk ≠ []) (secondFull : ∀ chunk ∈ second, chunk ≠ [])
    (firstSound : (handleConn parse cfg remote handle app first).2 ≠ .dropped)
    (secondSound : (handleConn parse cfg remote handle app second).2 ≠ .dropped)
    (returns : (handleConn parse cfg remote handle app first).2 ≠ .died) :
    (handleConn parse cfg remote handle app first).1.calls =
        (handleConn parse cfg remote handle app second).1.calls ∧
      (handleConn parse cfg remote handle app first).1.written =
        (handleConn parse cfg remote handle app second).1.written ∧
      (handleConn parse cfg remote handle app first).1.app =
        (handleConn parse cfg remote handle app second).1.app ∧
      (handleConn parse cfg remote handle app second).2 ≠ .died := by
  obtain ⟨died, -⟩ | ⟨⟨bytes, answered, written, calls⟩, -, dropped, out⟩ :=
    handleConn_spec lawful cfg remote handle app firstFull
  · exact absurd died returns
  have stable : Stable (scan parse remote) := stable_scan lawful
  have sound : (feed (scan parse remote) [] first).ending ≠ .failed :=
    fun failed => firstSound (dropped.mpr failed)
  obtain ⟨-, none, -⟩ | ⟨⟨bytes', answered', written', calls'⟩, alive, dropped', out'⟩ :=
    handleConn_spec lawful cfg remote handle app secondFull
  · exact absurd none (answered_first answered (stable.feed_prefix_feed same secondFull sound))
  have sound' : (feed (scan parse remote) [] second).ending ≠ .failed :=
    fun failed => secondSound (dropped'.mpr failed)
  have units := stable.feed_congr same firstFull secondFull sound sound'
  rw [← units] at answered' calls'
  rw [out firstSound, List.append_nil] at written
  rw [out' secondSound, List.append_nil] at written'
  have both := answered.symm.trans answered'
  simp only [Option.some.injEq, Prod.mk.injEq] at both
  exact ⟨calls.trans calls'.symm, by rw [written, written', both.2], both.1, alive⟩

end Runs

/-! ## Rows of requests -/

/-- A request as it is sent: the bytes of its head, what they say, and its body. -/
structure Request where
  head : Bytes
  req : Head
  body : Bytes

namespace Request

def method (r : Request) : String :=
  r.req.method.getD "GET"

def path (r : Request) : String :=
  r.req.path.getD "/"

def bytes (r : Request) : Bytes :=
  r.head ++ r.body

def call (remote : Remote) (r : Request) : HandlerCall :=
  callOf remote r.req (r.body.take (bodyLength r.req))

/-- A request that the parser reads, of a connection that is kept alive, with
the length of its body in its head and within the limit. -/
structure WellFormed (parse : Bytes → Parsed) (r : Request) : Prop where
  parsed : parse r.head = .complete r.head.length r.req
  version : r.req.version = some 1
  alive : keepAlive r.req 1 = true
  length : contentLength r.req = r.body.length
  limit : r.body.length ≤ bodyLimit r.path

instance (parse : Bytes → Parsed) (r : Request) : Decidable (r.WellFormed parse) :=
  decidable_of_iff
    (parse r.head = .complete r.head.length r.req ∧ r.req.version = some 1 ∧
      keepAlive r.req 1 = true ∧ contentLength r.req = r.body.length ∧
      r.body.length ≤ bodyLimit r.path)
    ⟨fun ⟨parsed, version, alive, length, limit⟩ => ⟨parsed, version, alive, length, limit⟩,
      fun ⟨parsed, version, alive, length, limit⟩ => ⟨parsed, version, alive, length, limit⟩⟩

def size (r : Request) : Nat :=
  r.head.length + bodyLength r.req

theorem WellFormed.bodyLength_le {parse : Bytes → Parsed} {r : Request}
    (wellFormed : r.WellFormed parse) : bodyLength r.req ≤ r.body.length := by
  rw [bodyLength]
  split
  · exact wellFormed.length.le
  · exact Nat.zero_le _

/-- The whole request is consumed, unless its method has no body and it brings
one. -/
theorem WellFormed.size_eq_iff {parse : Bytes → Parsed} {r : Request}
    (wellFormed : r.WellFormed parse) :
    r.size = r.bytes.length ↔ (needsBody r.method = false → r.body = []) := by
  rw [size, bytes, List.length_append, Nat.add_left_cancel_iff, bodyLength, ← method]
  cases needsBody r.method with
  | true => simp [wellFormed.length]
  | false => simp [eq_comm]

variable {parse : Bytes → Parsed} (lawful : Lawful parse) (remote : Remote) {r : Request}
  (wellFormed : r.WellFormed parse)

include lawful wellFormed

/-- A request in front is waited for until it is there, then found. -/
theorem scan_front {rest buf more : Bytes} (start : r.bytes ++ rest = buf ++ more) :
    scan parse remote buf =
      if buf.length < r.size then .more else .unit r.size (.serve (r.call remote)) := by
  have whole : r.head ++ (r.body ++ rest) = buf ++ more := by
    rw [← start, bytes, List.append_assoc]
  rcases Nat.lt_or_ge buf.length r.head.length with short | long
  · have cut : buf = r.head.take buf.length := by
      have taken := congrArg (List.take buf.length) whole
      rw [List.take_append_of_le_length short.le, List.take_left] at taken
      exact taken.symm
    have parsed := lawful.awaited wellFormed.parsed buf.length short
    rw [← cut] at parsed
    have shorter : buf.length < r.size := by
      rw [size]
      omega
    rw [if_pos shorter, scan, parsed]
  · obtain ⟨tail, rfl⟩ : r.head <+: buf :=
      List.prefix_of_prefix_length_le ⟨_, whole⟩ (List.prefix_append buf more) long
    have parsed := lawful.append wellFormed.parsed tail
    have within : ¬ (needsBody (r.req.method.getD "GET") &&
        decide (bodyLimit (r.req.path.getD "/") < contentLength r.req)) = true := by
      have limit := wellFormed.limit
      rw [path] at limit
      rw [Bool.and_eq_true, decide_eq_true_eq, wellFormed.length]
      omega
    have alive : keepAlive r.req (r.req.version.getD 1) = true := by
      rw [wellFormed.version]
      exact wellFormed.alive
    rw [scan_complete parsed, if_neg within, if_pos alive, ← size]
    split
    · rfl
    · rename_i enough
      -- The body was sent right behind the head.
      have behind : tail ++ more = r.body ++ rest := by
        rw [List.append_assoc] at whole
        exact (List.append_cancel_left whole).symm
      have body : tail.take (bodyLength r.req) = r.body.take (bodyLength r.req) := by
        have taken := congrArg (List.take (bodyLength r.req)) behind
        rw [List.take_append_of_le_length wellFormed.bodyLength_le,
          List.take_append_of_le_length] at taken
        · exact taken
        · rw [List.length_append, size] at enough
          omega
      rw [List.drop_left, body, call]

end Request

section Requests

variable {σ : Type} {parse : Bytes → Parsed} (lawful : Lawful parse) (cfg : Config)
  (remote : Remote) (handle : σ → HandlerCall → Handled σ) (app : σ)

def unitsOf (requests : List Request) : List (Nat × Act) :=
  requests.map fun r => (r.size, .serve (r.call remote))

/-- Every request was handed over once and in order, with its method and path,
and with all its bytes. -/
def ServedInOrder (requests : List Request) (calls : List (HandlerCall × Nat)) : Prop :=
  calls.map (fun c => (c.1.method, c.1.path, c.2)) =
    requests.map fun r => (r.method, r.path, r.bytes.length)

instance (requests : List Request) (calls : List (HandlerCall × Nat)) :
    Decidable (ServedInOrder requests calls) :=
  inferInstanceAs (Decidable (_ = _))

theorem callsOf_unitsOf (requests : List Request) :
    callsOf (unitsOf remote requests) = requests.map fun r => (r.call remote, r.size) := by
  induction requests with
  | nil => rfl
  | cons r requests ih => exact congrArg ((r.call remote, r.size) :: ·) ih

theorem answered_unitsOf {requests : List Request}
    (returns : ∀ r ∈ requests, ∀ s, ∃ reply s', handle s (r.call remote) = .replied reply s')
    (s : σ) : answered cfg handle s (unitsOf remote requests) ≠ none := by
  induction requests generalizing s with
  | nil => simp [unitsOf, answered]
  | cons r requests ih =>
      obtain ⟨reply, s', replied⟩ := returns r List.mem_cons_self s
      have later := ih (fun r member => returns r (List.mem_cons_of_mem _ member)) s'
      simp only [unitsOf, List.map_cons, answered, replied]
      intro none
      exact later (Option.map_eq_none_iff.mp none)

include lawful

/-- Requests that are consumed whole are a row of units. -/
theorem row_requests {requests : List Request} (wellFormed : ∀ r ∈ requests, r.WellFormed parse)
    (whole : ∀ r ∈ requests, r.size = r.bytes.length) (empty : parse [] = .incomplete) :
    Row (scan parse remote) (requests.flatMap Request.bytes) (unitsOf remote requests) := by
  induction requests with
  | nil => exact .nil (by rw [scan, empty])
  | cons r requests ih =>
      have first := wellFormed r List.mem_cons_self
      have size := whole r List.mem_cons_self
      rw [List.flatMap_cons]
      refine .cons ?_ (fun buf more start => Request.scan_front lawful remote first start) ?_
      · rw [List.length_append, size]
        exact Nat.le_add_right _ _
      · rw [size, List.drop_left]
        exact ih (fun r member => wellFormed r (List.mem_cons_of_mem _ member))
          fun r member => whole r (List.mem_cons_of_mem _ member)

/-- If the requests were served in order, each was consumed whole. -/
theorem whole_of_served {requests : List Request}
    (wellFormed : ∀ r ∈ requests, r.WellFormed parse) {calls : List (HandlerCall × Nat)}
    (made : calls <+: callsOf (cut (scan parse remote) (requests.flatMap Request.bytes)).units)
    (served : ServedInOrder requests calls) : ∀ r ∈ requests, r.size = r.bytes.length := by
  induction requests generalizing calls with
  | nil =>
      intro r member
      cases member
  | cons r requests ih =>
      have stable : Stable (scan parse remote) := stable_scan lawful
      have first := wellFormed r List.mem_cons_self
      rw [List.flatMap_cons] at made
      have inside : r.size ≤ (r.bytes ++ requests.flatMap Request.bytes).length := by
        have fits := first.bodyLength_le
        rw [Request.size, Request.bytes, List.length_append, List.length_append]
        omega
      have found := Request.scan_front lawful remote first
        (List.append_nil (r.bytes ++ requests.flatMap Request.bytes)).symm
      rw [if_neg (Nat.not_lt.mpr inside)] at found
      rw [stable.cut_unit found] at made
      cases calls with
      | nil => cases served
      | cons c calls =>
          obtain ⟨same, made⟩ := List.cons_prefix_cons.mp made
          obtain ⟨here, later⟩ := List.cons_eq_cons.mp served
          have size : r.size = r.bytes.length := by
            rw [same] at here
            exact congrArg (fun p => p.2.2) here
          rw [size, List.drop_left] at made
          intro r' member
          rcases List.mem_cons.mp member with rfl | member
          · exact size
          · exact ih (fun r member => wellFormed r (List.mem_cons_of_mem _ member)) made later
              r' member

/-- Well-formed requests on one connection are each handed over once and in
order, with all their bytes, exactly when only those with a method whose body is
read bring one. -/
theorem requests_served_iff {requests : List Request}
    (wellFormed : ∀ r ∈ requests, r.WellFormed parse)
    (returns : ∀ r ∈ requests, ∀ s, ∃ reply s', handle s (r.call remote) = .replied reply s')
    {reads : List Bytes} (full : ∀ chunk ∈ reads, chunk ≠ [])
    (sent : reads.flatten = requests.flatMap Request.bytes) :
    ServedInOrder requests (handleConn parse cfg remote handle app reads).1.calls ↔
      ∀ r ∈ requests, needsBody r.method = false → r.body = [] := by
  have stable : Stable (scan parse remote) := stable_scan lawful
  have spec := handleConn_spec lawful cfg remote handle app full
  dsimp only at spec
  constructor
  · intro served
    have made : (handleConn parse cfg remote handle app reads).1.calls <+:
        callsOf (cut (scan parse remote) (requests.flatMap Request.bytes)).units := by
      have units := stable.feed_prefix [] reads
      rw [List.nil_append, sent] at units
      have calls := callsOf_first units
      obtain ⟨-, -, made, first, all⟩ | ⟨⟨-, -, -, all⟩, -⟩ := spec
      · rw [all]
        exact first.trans calls
      · rw [all]
        exact calls
    have whole := whole_of_served lawful remote wellFormed made served
    intro r member
    exact (wellFormed r member).size_eq_iff.mp (whole r member)
  · intro bodies
    have whole : ∀ r ∈ requests, r.size = r.bytes.length := fun r member =>
      (wellFormed r member).size_eq_iff.mpr (bodies r member)
    have units : (feed (scan parse remote) [] reads).units = unitsOf remote requests := by
      cases requests with
      | nil =>
          rw [Stable.eq_nil_of_flatten full sent]
          rfl
      | cons r requests =>
          have parsed := (wellFormed r List.mem_cons_self).parsed
          have empty : parse [] = .incomplete := lawful.awaited parsed 0 (lawful.inside parsed).1
          have row := row_requests lawful remote wellFormed whole empty
          rw [← sent] at row
          exact (stable.feed_row (by rw [scan, empty]) row).1
    rw [units] at spec
    obtain ⟨-, none, -⟩ | ⟨⟨-, -, -, calls⟩, -⟩ := spec
    · exact absurd none (answered_unitsOf cfg remote handle returns app)
    · rw [ServedInOrder, calls, callsOf_unitsOf, Conn.new, List.nil_append, List.map_map]
      refine List.map_congr_left fun r member => ?_
      rw [Function.comp_apply, whole r member]
      rfl

end Requests

/-! ## A parser -/

/-- The end of a head. -/
def blankLine : Bytes :=
  [CR, LF, CR, LF]

def headEnd : Bytes → Option Nat
  | [] => none
  | b :: rest =>
      if blankLine <+: b :: rest then some 4
      else (headEnd rest).map (· + 1)

theorem headEnd_blankLine (rest : Bytes) : headEnd (blankLine ++ rest) = some 4 := by
  change headEnd (CR :: ([LF, CR, LF] ++ rest)) = some 4
  rw [headEnd, if_pos]
  exact ⟨rest, rfl⟩

theorem headEnd_spec {b : Bytes} {n : Nat} (found : headEnd b = some n) :
    4 ≤ n ∧ n ≤ b.length ∧ (∀ rest, headEnd (b.take n ++ rest) = some n) ∧
      ∀ k < n, headEnd (b.take k) = none := by
  induction b generalizing n with
  | nil => cases found
  | cons x b ih =>
      rw [headEnd] at found
      split at found
      · rename_i start
        cases found
        obtain ⟨rest, whole⟩ := start
        rw [← whole]
        refine ⟨Nat.le_refl 4, ?_, headEnd_blankLine, ?_⟩
        · simp [blankLine]
        · intro k short
          rw [List.take_append_of_le_length (Nat.le_of_lt short)]
          revert k
          decide
      · rename_i later
        rw [Option.map_eq_some_iff] at found
        obtain ⟨m, found, rfl⟩ := found
        obtain ⟨four, inside, extended, awaited⟩ := ih found
        refine ⟨by omega, ?_, fun rest => ?_, fun k short => ?_⟩
        · rw [List.length_cons]
          omega
        · -- The four bytes in front lie before the end that was found.
          have front : ¬ blankLine <+: x :: (b.take m ++ rest) := by
            intro start
            have inFront : blankLine <+: x :: b.take m := by
              refine List.prefix_of_prefix_length_le start ⟨rest, rfl⟩ ?_
              rw [List.length_cons, List.length_take_of_le inside]
              exact Nat.le_succ_of_le four
            exact later (inFront.trans ((List.prefix_cons_inj x).mpr (List.take_prefix m b)))
          rw [List.take_succ_cons, List.cons_append, headEnd, if_neg front, extended]
          rfl
        · cases k with
          | zero => rfl
          | succ k =>
              have front : ¬ blankLine <+: x :: b.take k := fun start =>
                later (start.trans ((List.prefix_cons_inj x).mpr (List.take_prefix k b)))
              rw [List.take_succ_cons, headEnd, if_neg front, awaited k (by omega)]
              rfl

def readHeader (line : Bytes) : String × Bytes :=
  let parts := line.span (· ≠ 58)
  ((decode? parts.1).getD "", (parts.2.drop 1).dropWhile (· = 32))

def readHead (b : Bytes) : Head :=
  let words := (splitLines b).headI.splitOn 32
  { method := words[0]?.bind decode?
    path := words[1]?.bind decode?
    version := words[2]?.map fun w => if w = encode "HTTP/1.1" then 1 else 0
    headers := (((splitLines b).drop 1).takeWhile (· ≠ [])).map readHeader }

def headParser (b : Bytes) : Parsed :=
  match headEnd b with
  | some n => .complete n (readHead (b.take n))
  | none => .incomplete

theorem headEnd_of_headParser {b : Bytes} {n : Nat} {req : Head}
    (found : headParser b = .complete n req) : headEnd b = some n ∧ req = readHead (b.take n) := by
  rw [headParser] at found
  split at found
  · cases found
    exact ⟨by assumption, rfl⟩
  · cases found

theorem lawful_headParser : Lawful headParser := by
  constructor
  · intro b n req found
    obtain ⟨ends, -⟩ := headEnd_of_headParser found
    obtain ⟨four, inside, -⟩ := headEnd_spec ends
    exact ⟨by omega, inside⟩
  · intro b n req found rest
    obtain ⟨ends, rfl⟩ := headEnd_of_headParser found
    obtain ⟨-, inside, extended, -⟩ := headEnd_spec ends
    have front : (b.take n ++ rest).take n = b.take n := by
      rw [List.take_append_of_le_length (List.length_take_of_le inside).ge, List.take_take,
        Nat.min_self]
    simp only [headParser, extended, front]
  · intro b n req found k short
    obtain ⟨ends, -⟩ := headEnd_of_headParser found
    obtain ⟨-, -, -, awaited⟩ := headEnd_spec ends
    rw [headParser, awaited k short]

/-- `handle` on the store of one process, at one time. -/
def handlerAt (ext : Ext) (cfg : Config) (v : Visit) (w : World) (call : HandlerCall) :
    Handled World :=
  route ext cfg v.out (localOps v.env) w call.method call.path call.body call.admin call.client

def requestOf (head body : String) : Request :=
  ⟨encode head, readHead (encode head), encode body⟩

/-- A creation that is no JSON, then a look at the metrics. -/
def twoRequests : List Request :=
  [requestOf "POST /api/shorten HTTP/1.1\r\nContent-Length: 2\r\n\r\n" "no",
   requestOf "GET /api/metrics HTTP/1.1\r\ncontent-length: 0\r\n\r\n" ""]

def servedBy (w : World) (reads : List Bytes) : Conn World × End :=
  handleConn headParser openConfig ⟨"192.0.2.1", false⟩
    (handlerAt (oneUrl "" none) openConfig (get 1000 "/")) w reads

theorem twoRequests_return : ∀ r ∈ twoRequests, ∀ w, ∃ reply w',
    handlerAt (oneUrl "" none) openConfig (get 1000 "/") w (r.call ⟨"192.0.2.1", false⟩) =
      .replied reply w' := by
  have calls : twoRequests.map (Request.call ⟨"192.0.2.1", false⟩) =
      [⟨"POST", "/api/shorten", encode "no", "", "192.0.2.1"⟩,
       ⟨"GET", "/api/metrics", [], "", "192.0.2.1"⟩] := by
    decide +kernel
  intro r member w
  have call := List.mem_map_of_mem (f := Request.call ⟨"192.0.2.1", false⟩) member
  rw [calls, List.mem_cons, List.mem_singleton] at call
  rcases call with call | call
  · rw [call]
    exact ⟨_, _, rfl⟩
  · rw [call]
    exact ⟨_, _, rfl⟩

theorem flatten_cut (n : Nat) (stream : Bytes) :
    ([stream.take n, stream.drop n] : List Bytes).flatten = stream := by
  rw [List.flatten_cons, List.flatten_singleton, List.take_append_drop]

/-- What comes of the two requests, at once and cut in the first one.  All of it is
evaluated together. -/
theorem twoRequests_served :
    let stream := twoRequests.flatMap Request.bytes
    let whole := servedBy World.memory [stream]
    let split := servedBy World.memory [stream.take 30, stream.drop 30]
    ((∀ chunk ∈ ([stream] : List Bytes), chunk ≠ []) ∧
        ∀ chunk ∈ ([stream.take 30, stream.drop 30] : List Bytes), chunk ≠ []) ∧
      (whole.2 ≠ .dropped ∧ split.2 ≠ .dropped ∧ whole.2 ≠ .died ∧ whole.1.written ≠ []) ∧
      (∀ r ∈ twoRequests, r.WellFormed headParser) ∧
      ∀ r ∈ twoRequests, needsBody r.method = false → r.body = [] := by
  decide +kernel

theorem requests_served_two :
    let stream := twoRequests.flatMap Request.bytes
    ServedInOrder twoRequests (servedBy World.memory [stream.take 30, stream.drop 30]).1.calls := by
  obtain ⟨⟨-, full⟩, -, wellFormed, plain⟩ := twoRequests_served
  dsimp only
  rw [servedBy]
  have served := requests_served_iff lawful_headParser openConfig ⟨"192.0.2.1", false⟩
    (handlerAt (oneUrl "" none) openConfig (get 1000 "/")) World.memory wellFormed
    twoRequests_return full (flatten_cut 30 _)
  exact served.mpr plain

theorem handleConn_reads_two :
    let stream := twoRequests.flatMap Request.bytes
    (servedBy World.memory [stream]).1.written ≠ [] ∧
      (servedBy World.memory [stream]).1.written =
        (servedBy World.memory [stream.take 30, stream.drop 30]).1.written := by
  obtain ⟨⟨full, split⟩, ⟨sound, sound', returns, wrote⟩, -⟩ := twoRequests_served
  have same (stream : Bytes) : ([stream] : List Bytes).flatten =
      ([stream.take 30, stream.drop 30] : List Bytes).flatten := by
    rw [flatten_cut, List.flatten_singleton]
  refine ⟨wrote, ?_⟩
  rw [servedBy] at sound sound' returns
  rw [servedBy, servedBy]
  have agree := handleConn_reads lawful_headParser openConfig ⟨"192.0.2.1", false⟩
    (handlerAt (oneUrl "" none) openConfig (get 1000 "/")) World.memory (same _) full split sound
    sound' returns
  exact agree.2.1

/-- A request without a use for its body, and a body that is a request. -/
def nested : Request :=
  requestOf "GET /api/health HTTP/1.1\r\ncontent-length: 23\r\n\r\n" "GET /promo HTTP/1.1\r\n\r\n"

/-- The body of a request is answered as a request of its own. -/
theorem body_served_as_request :
    nested.WellFormed headParser ∧
      (servedBy World.memory [nested.bytes]).1.calls.map (fun c => (c.1.method, c.1.path, c.2)) =
        [("GET", "/api/health", 48), ("GET", "/promo", 23)] ∧
      ¬ ServedInOrder [nested] (servedBy World.memory [nested.bytes]).1.calls := by
  decide +kernel

end Shrt.Http
