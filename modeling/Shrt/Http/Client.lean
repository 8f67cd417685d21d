import Mathlib.Data.List.Basic
import Shrt.Http.Answered
import Shrt.Http.Redirect
import Shrt.Lib.Messages

/-!
# What a client reads

The bytes of a connection are replies in a row.  A client reads them one after the
other by their heads and lengths, so one reply that is not what its head says would
put it out of step with all the later ones.
-/

namespace Shrt.Http

open Shrt.Codec Shrt.Lib Shrt.Lib.Utf8 Shrt.Lib.Decimal Shrt.Lib.Incremental Shrt.Store

/-! ## The client -/

/-- What a client has of a reply. -/
structure Received where
  status : Nat
  location : Option Bytes
  ctype : Option Bytes
  body : Bytes
  deriving DecidableEq

def statusOf (start : Bytes) : Nat :=
  ((decode? ((start.drop 9).take 3)).bind fun s => readNat? s.toList).getD 0

/-- The replies that have no body. -/
def bodyless (start : Bytes) : Bool :=
  statusOf start / 100 == 1 || statusOf start == 204 || statusOf start == 304

def Received.of (m : Messages.Message) : Received where
  status := statusOf m.start
  location := Messages.value? m.fields (encode "location")
  ctype := Messages.value? m.fields (encode "content-type")
  body := m.body

/-- Read the reply to a request of some method: one to a `HEAD` has no body. -/
def readReply (method : String) : Messages.Incoming Received := do
  let m ← Messages.message fun start => method == "HEAD" || bodyless start
  return .of m

def readReplies : List String → Messages.Incoming (List Received)
  | [] => return []
  | method :: methods => do
      let r ← readReply method
      let rs ← readReplies methods
      return r :: rs

def received (r : Reply) : Received where
  status := r.status
  location := r.location.map fun target => Messages.trim (encode target)
  ctype := if r.location.isSome then none else some (encode (r.ctype.getD "application/json"))
  body := if r.location.isSome then [] else r.body

/-! ## The lines of a reply -/

def statuses : List Nat :=
  [200, 201, 204, 302, 400, 404, 409, 413, 429, 503]

def ctypes : List (Option String) :=
  [none, some "text/plain; version=0.0.4", some "text/html; charset=utf-8"]

/-- A reply that its head tells right: with a known status, without a line end in its
location, and without a body where none is expected. -/
structure Presentable (r : Reply) : Prop where
  status : r.status ∈ statuses
  ctype : r.ctype ∈ ctypes
  empty : r.status = 204 → r.body = []
  location : ∀ target, r.location = some target → r.status = 302 ∧ Clean (encode target)

def statusText (code : Nat) : Bytes :=
  (encode (statusLine code)).dropLast.dropLast

def replyLines (cfg : Config) (r : Reply) : List Bytes :=
  [encode "access-control-allow-origin: " ++ encode cfg.corsOrigin,
   encode "access-control-allow-methods: GET,POST,PATCH,DELETE,OPTIONS",
   encode "access-control-allow-headers: content-type",
   encode "access-control-max-age: 86400"] ++
    match r.location with
    | some target => [encode "location: " ++ encode target, encode "content-length: 0"]
    | none =>
        [encode "content-type: " ++ encode (r.ctype.getD "application/json"),
         encode "content-length: " ++ encode (toString r.body.length)]

theorem statusLine_eq {code : Nat} (known : code ∈ statuses) :
    encode (statusLine code) = statusText code ++ Messages.crlf ∧ 13 ∉ statusText code ∧
      statusOf (statusText code) = code := by
  revert code
  simp only [statuses, List.forall_mem_cons, List.not_mem_nil, false_implies, implies_true,
    and_true]
  decide +kernel

/-- The bytes of a reply, line by line. -/
theorem replyBytes_wire (cfg : Config) {r : Reply} (known : r.status ∈ statuses) :
    replyBytes cfg r = Messages.wire (statusText r.status) (replyLines cfg r) (received r).body := by
  have methods : encode "\r\naccess-control-allow-methods: GET,POST,PATCH,DELETE,OPTIONS\r\n" =
      Messages.crlf ++ encode "access-control-allow-methods: GET,POST,PATCH,DELETE,OPTIONS" ++
        Messages.crlf := by
    decide +kernel
  have rest : encode
      "access-control-allow-headers: content-type\r\naccess-control-max-age: 86400\r\n" =
      encode "access-control-allow-headers: content-type" ++ Messages.crlf ++
        encode "access-control-max-age: 86400" ++ Messages.crlf := by
    decide +kernel
  have none_long : encode "\r\ncontent-length: 0\r\n\r\n" =
      Messages.crlf ++ encode "content-length: 0" ++ Messages.crlf ++ Messages.crlf := by
    decide +kernel
  have long : encode "\r\ncontent-length: " = Messages.crlf ++ encode "content-length: " := by
    decide +kernel
  have close : encode "\r\n\r\n" = Messages.crlf ++ Messages.crlf := by decide +kernel
  rw [replyBytes, corsBlock, (statusLine_eq known).1, methods, rest, Messages.wire, replyLines,
    received]
  cases r.location with
  | some target => simp [none_long]
  | none => simp [long, close]

/-- The fields that a client reads. -/
theorem fields_replyLines (cfg : Config) (r : Reply) :
    (replyLines cfg r).map Messages.readField =
      [(encode "access-control-allow-origin", Messages.trim (encode cfg.corsOrigin)),
       (encode "access-control-allow-methods", encode "GET,POST,PATCH,DELETE,OPTIONS"),
       (encode "access-control-allow-headers", encode "content-type"),
       (encode "access-control-max-age", encode "86400")] ++
        match r.location with
        | some target =>
            [(encode "location", Messages.trim (encode target)),
             (encode "content-length", encode "0")]
        | none =>
            [(encode "content-type",
                Messages.trim (encode (r.ctype.getD "application/json"))),
             (encode "content-length", encode (toString r.body.length))] := by
  have named : ∀ name ∈ ["access-control-allow-origin", "location", "content-type",
      "content-length"], ∀ value : Bytes,
      Messages.readField (encode (name ++ ": ") ++ value) = (encode name, Messages.trim value) := by
    intro name among value
    have plain : 58 ∉ encode name ∧ (encode name).map Messages.lower = encode name ∧
        encode ": " = [58, 32] := by
      revert name
      simp only [List.forall_mem_cons, List.not_mem_nil, false_implies, implies_true, and_true]
      decide +kernel
    rw [encode_append, plain.2.2, List.append_assoc]
    exact (Messages.readField_line plain.1 value).trans (by rw [plain.2.1])
  have fixed : Messages.readField
        (encode "access-control-allow-methods: GET,POST,PATCH,DELETE,OPTIONS") =
        (encode "access-control-allow-methods", encode "GET,POST,PATCH,DELETE,OPTIONS") ∧
      Messages.readField (encode "access-control-allow-headers: content-type") =
        (encode "access-control-allow-headers", encode "content-type") ∧
      Messages.readField (encode "access-control-max-age: 86400") =
        (encode "access-control-max-age", encode "86400") ∧
      Messages.readField (encode "content-length: 0") =
        (encode "content-length", encode "0") := by
    decide +kernel
  have origin := named "access-control-allow-origin" (by simp) (encode cfg.corsOrigin)
  have length := named "content-length" (by simp) (encode (toString r.body.length))
  rw [Messages.trim_of_solid (Messages.solid_toString _)] at length
  have ctype := named "content-type" (by simp) (encode (r.ctype.getD "application/json"))
  rw [replyLines]
  cases r.location with
  | some target =>
      have location := named "location" (by simp) (encode target)
      simp only [List.map_append, List.map_cons, List.map_nil, fixed]
      exact congrArg₂ (fun a b => [a, _, _, _] ++ [b, _]) origin location
  | none =>
      simp only [List.map_append, List.map_cons, List.map_nil, fixed]
      rw [show encode "access-control-allow-origin: " ++ encode cfg.corsOrigin =
        encode ("access-control-allow-origin" ++ ": ") ++ encode cfg.corsOrigin from rfl, origin]
      exact congrArg₂ (fun a b => [_, _, _, _] ++ [a, b]) ctype length

/-- No two of the names are the same. -/
theorem names_apart :
    (encode "access-control-allow-origin" ≠ encode "location" ∧
      encode "access-control-allow-methods" ≠ encode "location" ∧
      encode "access-control-allow-headers" ≠ encode "location" ∧
      encode "access-control-max-age" ≠ encode "location" ∧
      encode "content-type" ≠ encode "location" ∧ encode "content-length" ≠ encode "location") ∧
    (encode "access-control-allow-origin" ≠ encode "content-type" ∧
      encode "access-control-allow-methods" ≠ encode "content-type" ∧
      encode "access-control-allow-headers" ≠ encode "content-type" ∧
      encode "access-control-max-age" ≠ encode "content-type" ∧
      encode "location" ≠ encode "content-type" ∧
      encode "content-length" ≠ encode "content-type") ∧
    (encode "access-control-allow-origin" ≠ encode "content-length" ∧
      encode "access-control-allow-methods" ≠ encode "content-length" ∧
      encode "access-control-allow-headers" ≠ encode "content-length" ∧
      encode "access-control-max-age" ≠ encode "content-length" ∧
      encode "location" ≠ encode "content-length" ∧
      encode "content-type" ≠ encode "content-length") := by
  decide +kernel

theorem value?_replyLines (cfg : Config) (r : Reply) :
    Messages.value? ((replyLines cfg r).map Messages.readField) (encode "location") =
        (received r).location ∧
      Messages.value? ((replyLines cfg r).map Messages.readField) (encode "content-type") =
        (r.location.elim (some (Messages.trim (encode (r.ctype.getD "application/json"))))
          fun _ => none) ∧
      Messages.value? ((replyLines cfg r).map Messages.readField) (encode "content-length") =
        some (encode (toString (received r).body.length)) := by
  obtain ⟨⟨l1, l2, l3, l4, l5, l6⟩, ⟨t1, t2, t3, t4, t5, t6⟩, ⟨c1, c2, c3, c4, c5, c6⟩⟩ :=
    names_apart
  have none_asked : ∀ name, Messages.value? [] name = none := fun _ => rfl
  rw [fields_replyLines, received]
  cases r.location with
  | some target =>
      simp only [List.cons_append, List.nil_append, Messages.value?_cons, l1, l2, l3, l4, t1, t2,
        t3, t4, t5, t6, c1, c2, c3, c4, c5, if_false, if_true, none_asked]
      refine ⟨rfl, rfl, ?_⟩
      rw [Option.isSome_some, if_pos rfl]
      rfl
  | none =>
      simp only [List.cons_append, List.nil_append, Messages.value?_cons, l1, l2, l3, l4, l5, l6,
        t1, t2, t3, t4, c1, c2, c3, c4, c6, if_false, if_true, none_asked]
      exact ⟨rfl, rfl, rfl⟩

theorem trim_ctype {ctype : Option String} (known : ctype ∈ ctypes) :
    Messages.trim (encode (ctype.getD "application/json")) =
        encode (ctype.getD "application/json") ∧
      13 ∉ encode (ctype.getD "application/json") := by
  revert ctype
  simp only [ctypes, List.forall_mem_cons, List.not_mem_nil, false_implies, implies_true, and_true]
  decide +kernel

theorem clean_replyLines {cfg : Config} (origin : Clean (encode cfg.corsOrigin)) {r : Reply}
    (presentable : Presentable r) : ∀ l ∈ replyLines cfg r, l ≠ [] ∧ 13 ∉ l := by
  have fixed : ∀ l ∈ [encode "access-control-allow-methods: GET,POST,PATCH,DELETE,OPTIONS",
      encode "access-control-allow-headers: content-type",
      encode "access-control-max-age: 86400", encode "content-length: 0"], l ≠ [] ∧ 13 ∉ l := by
    simp only [List.forall_mem_cons, List.not_mem_nil, false_implies, implies_true, and_true]
    decide +kernel
  have named : ∀ name ∈ [encode "access-control-allow-origin: ", encode "location: ",
      encode "content-type: ", encode "content-length: "], ∀ value : Bytes, 13 ∉ value →
      name ++ value ≠ [] ∧ 13 ∉ name ++ value := by
    have front : ∀ name ∈ [encode "access-control-allow-origin: ", encode "location: ",
        encode "content-type: ", encode "content-length: "], name ≠ [] ∧ 13 ∉ name := by
      simp only [List.forall_mem_cons, List.not_mem_nil, false_implies, implies_true, and_true]
      decide +kernel
    intro name among value plain
    obtain ⟨filled, clean⟩ := front name among
    rw [List.mem_append, not_or]
    exact ⟨fun nothing => filled (List.append_eq_nil_iff.mp nothing).1, clean, plain⟩
  have digits : 13 ∉ encode (toString r.body.length) := by
    intro among
    have solid := Messages.solid_toString r.body.length 13 among
    have room : r.body.length < 10 ^ (r.body.length + 1) :=
      Nat.lt_trans (Nat.lt_succ_self _) (Nat.lt_pow_self (by decide))
    rw [← writeDigits_eq_encode room (Nat.succ_pos _)] at among
    exact absurd (writeDigits_digit _ _ among).1 (by decide)
  intro l among
  rw [replyLines, List.mem_append] at among
  rcases among with first | last
  · simp only [List.mem_cons, List.not_mem_nil, or_false] at first
    rcases first with rfl | rfl | rfl | rfl
    · exact named _ (by simp) _ origin.1
    · exact fixed _ (by simp)
    · exact fixed _ (by simp)
    · exact fixed _ (by simp)
  · cases located : r.location with
    | some target =>
        rw [located] at last
        simp only [List.mem_cons, List.not_mem_nil, or_false] at last
        rcases last with rfl | rfl
        · exact named _ (by simp) _ (presentable.location target located).2.1
        · exact fixed _ (by simp)
    | none =>
        rw [located] at last
        simp only [List.mem_cons, List.not_mem_nil, or_false] at last
        rcases last with rfl | rfl
        · exact named _ (by simp) _ (trim_ctype presentable.ctype).2
        · exact named _ (by simp) _ digits

theorem only_empty : ∀ code ∈ statuses,
    (code / 100 == 1 || code == 204 || code == 304) = true → code = 204 := by
  decide

/-- A reply is read as itself, and nothing else with it. -/
theorem reads_reply {cfg : Config} (origin : Clean (encode cfg.corsOrigin)) {r : Reply}
    (presentable : Presentable r) {method : String} (whole : method ≠ "HEAD") :
    (readReply method).Reads (replyBytes cfg r) (received r) := by
  have expects : (fun start => method == "HEAD" || bodyless start) = bodyless := by
    funext start
    rw [beq_false_of_ne whole, Bool.false_or]
  obtain ⟨-, plain, status⟩ := statusLine_eq presentable.status
  obtain ⟨location, ctype, length⟩ := value?_replyLines cfg r
  have told : Messages.bodyLength bodyless (statusText r.status)
      ((replyLines cfg r).map Messages.readField) = (received r).body.length := by
    rw [Messages.bodyLength, length, Option.bind_some, Messages.readNat?_toString]
    split
    · rename_i none_expected
      rw [bodyless, status] at none_expected
      have empty : r.status = 204 := only_empty _ presentable.status none_expected
      rw [received, presentable.empty empty, ite_self]
      rfl
    · rfl
  have read := Messages.message_reads plain (clean_replyLines origin presentable) told
  rw [← replyBytes_wire cfg presentable.status] at read
  have same : Received.of ⟨statusText r.status, (replyLines cfg r).map Messages.readField,
      (received r).body⟩ = received r := by
    rw [Received.of, location, ctype, status, (trim_ctype presentable.ctype).1]
    cases located : r.location <;> simp [received, located]
  rw [readReply, expects]
  exact same ▸ read.map Received.of

/-! ## What the handler answers -/

/-- The reply has a known status and type, and `204` has no body. -/
def Known (r : Reply) : Prop :=
  r.status ∈ statuses ∧ r.ctype ∈ ctypes ∧ (r.status = 204 → r.body = [])

def AnswersKnown {σ : Type} (h : Handled σ) : Prop :=
  ∀ reply, h.reply? = some reply → Known reply

namespace AnswersKnown

variable {σ : Type} {ext : Ext} {cfg : Config} {out : Outside} {ops : Ops σ} {s : σ}

theorem of_known {reply : Reply} (known : Known reply) (s : σ) :
    AnswersKnown (.replied reply s) := by
  intro reply' same
  cases same
  exact known

theorem mk {status : Nat} {ctype : Option String} (location : Option String) (body : Bytes) (s : σ)
    (known : status ∈ statuses) (text : ctype ∈ ctypes) (full : status ≠ 204) :
    AnswersKnown (.replied ⟨status, location, body, ctype⟩ s) :=
  of_known ⟨known, text, fun empty => absurd empty full⟩ s

theorem new (status : Nat) (body : Bytes) (s : σ) (known : status ∈ statuses)
    (full : status ≠ 204) : AnswersKnown (.replied (Reply.new status body) s) :=
  mk _ _ s known (by decide) full

theorem shortenOne (p : ShortenReq) : AnswersKnown (Http.shortenOne ext cfg ops s p) := by
  rw [Http.shortenOne]
  split
  · exact new 400 _ _ (by decide) (by decide)
  split
  · exact new 400 _ _ (by decide) (by decide)
  split
  · exact new 400 _ _ (by decide) (by decide)
  split
  · exact new 400 _ _ (by decide) (by decide)
  dsimp only
  split
  · intro _ same
    cases same
  · exact new 409 _ _ (by decide) (by decide)
  · exact new 201 _ _ (by decide) (by decide)

theorem shortenBulk (p : BulkReq) : AnswersKnown (Http.shortenBulk cfg ops s p) := by
  rw [Http.shortenBulk]
  split
  · exact new 400 _ _ (by decide) (by decide)
  split
  · exact new 400 _ _ (by decide) (by decide)
  split
  · intro _ same
    cases same
  · exact new 201 _ _ (by decide) (by decide)

theorem routeGet (pathname query : String) :
    AnswersKnown (Http.routeGet ext cfg out ops s pathname query) := by
  rw [Http.routeGet]
  split
  · split
    · exact new 200 _ _ (by decide) (by decide)
    · exact new 503 _ _ (by decide) (by decide)
  split
  · exact new 200 _ _ (by decide) (by decide)
  split
  · exact mk _ _ _ (by decide) (by decide) (by decide)
  split
  · cases cfg.ui with
    | none => exact new 404 _ _ (by decide) (by decide)
    | some html => exact mk _ _ _ (by decide) (by decide) (by decide)
  split
  · exact new 200 _ _ (by decide) (by decide)
  split
  · rename_i code _
    cases ops.stats s code with
    | none => exact new 404 _ _ (by decide) (by decide)
    | some link => exact new 200 _ _ (by decide) (by decide)
  split
  · intro _ same
    cases same
  split
  · rename_i code _ _
    cases ops.resolve s code with
    | mk found s' =>
        cases found with
        | none => exact new 404 _ _ (by decide) (by decide)
        | some target => exact mk _ _ _ (by decide) (by decide) (by decide)
  · exact new 404 _ _ (by decide) (by decide)

theorem routePost (pathname : String) (body : Bytes) (client : String) :
    AnswersKnown (Http.routePost ext cfg out ops s pathname body client) := by
  rw [Http.routePost]
  split
  · split
    · exact new 400 _ _ (by decide) (by decide)
    split
    · exact new 429 _ _ (by decide) (by decide)
    · exact shortenOne _
  split
  · split
    · exact new 400 _ _ (by decide) (by decide)
    split
    · exact new 429 _ _ (by decide) (by decide)
    · exact shortenBulk _
  · exact new 404 _ _ (by decide) (by decide)

theorem mutated {done : Reply} (known : Known done) (result : MutResult × σ) :
    AnswersKnown (Http.mutated done result) := by
  rw [Http.mutated]
  cases result.1 with
  | ok => exact of_known known _
  | missing => exact new 404 _ _ (by decide) (by decide)
  | remote => exact new 409 _ _ (by decide) (by decide)

theorem routeAdmin (isDelete : Bool) (pathname : String) (body : Bytes) (token : String) :
    AnswersKnown (Http.routeAdmin ext cfg ops s isDelete pathname body token) := by
  rw [Http.routeAdmin]
  split
  · exact new 404 _ _ (by decide) (by decide)
  split
  · exact new 404 _ _ (by decide) (by decide)
  split
  · exact new 400 _ _ (by decide) (by decide)
  split
  · exact mutated ⟨by decide, by decide, fun _ => rfl⟩ _
  rw [routePatch]
  split
  · exact new 400 _ _ (by decide) (by decide)
  split
  · exact new 400 _ _ (by decide) (by decide)
  split
  · exact new 400 _ _ (by decide) (by decide)
  · exact mutated ⟨by decide, by decide, by simp [Reply.new]⟩ _

theorem route (method path : String) (body : Bytes) (token client : String) :
    AnswersKnown (Http.route ext cfg out ops s method path body token client) := by
  rw [Http.route]
  split
  · exact of_known ⟨by decide, by decide, fun _ => rfl⟩ _
  split
  · exact routeGet _ _
  split
  · exact routePost _ _ _
  split
  · exact routeAdmin _ _ _ _
  split
  · exact routeAdmin _ _ _ _
  · exact new 404 _ _ (by decide) (by decide)

end AnswersKnown

/-- `handle` on the store.  Every request has surroundings of its own; without any it
is not handled yet. -/
def handleNext (ext : Ext) (cfg : Config) (s : World × List (Env × Outside)) (call : HandlerCall) :
    Handled (World × List (Env × Outside)) :=
  match s.2 with
  | [] => .drawing
  | around :: later =>
      match route ext cfg around.2 (localOps around.1) s.1 call.method call.path call.body call.admin
          call.client with
      | .replied reply w => .replied reply (w, later)
      | .panicked => .panicked
      | .drawing => .drawing

/-- A store without siblings, with no line end in its urls. -/
def Tidy (s : World × List (Env × Outside)) : Prop :=
  s.1.Solitary ∧ UrlsMeet (fun url => Clean (encode url)) s.1

/-- The url that a call asks to store holds no line end. -/
def CleanCall (ext : Ext) (call : HandlerCall) : Prop :=
  ∀ url, askedUrl ext call.method call.path call.body = some url →
    isValidUrl ext url = true → Clean (encode url)

theorem presentable_handleNext {ext : Ext} {cfg : Config} {s s' : World × List (Env × Outside)}
    (tidy : Tidy s) {call : HandlerCall} (clean : CleanCall ext call) {reply : Reply}
    (replied : handleNext ext cfg s call = .replied reply s') : Presentable reply ∧ Tidy s' := by
  obtain ⟨w, arounds⟩ := s
  obtain ⟨solitary, meets⟩ := tidy
  cases arounds with
  | nil => cases replied
  | cons around later =>
      let v : Visit := ⟨around.1, around.2, call.method, call.path, call.body, call.admin, call.client⟩
      have solitary' := solitary_serve ext cfg solitary v
      have meets' := meets.effect solitary clean (fun _ ok => clean_of_okBulkUrl ok)
        (effect_serve ext cfg w v)
      simp only [handleNext] at replied
      cases handled : serve ext cfg w v with
      | panicked =>
          rw [show route ext cfg around.2 (localOps around.1) w call.method call.path call.body
            call.admin call.client = .panicked from handled] at replied
          cases replied
      | drawing =>
          rw [show route ext cfg around.2 (localOps around.1) w call.method call.path call.body
            call.admin call.client = .drawing from handled] at replied
          cases replied
      | replied reply' w' =>
          rw [show route ext cfg around.2 (localOps around.1) w call.method call.path call.body
            call.admin call.client = .replied reply' w' from handled] at replied
          cases replied
          rw [handled] at solitary' meets'
          have answer : (serve ext cfg w v).reply? = some reply := by rw [handled]; rfl
          obtain ⟨status, ctype, empty⟩ := AnswersKnown.route _ _ _ _ _ reply answer
          refine ⟨⟨status, ctype, empty, fun target located => ?_⟩, solitary', meets'⟩
          obtain ⟨same, code, resolved⟩ := Redirects.route _ _ _ _ _ reply target answer located
          obtain ⟨e, there, url⟩ := stored_of_resolve solitary resolved
          exact ⟨by rw [same]; rfl, url ▸ meets code e there⟩

/-! ## The replies of a connection -/

section Answers

variable {σ : Type} (handle : σ → HandlerCall → Handled σ)

/-- The replies that the handler gives to calls one after the other. -/
def answersTo : σ → List (HandlerCall × Nat) → List Reply
  | _, [] => []
  | s, (call, _) :: calls =>
      match handle s call with
      | .replied reply s => reply :: answersTo s calls
      | _ => []

variable {handle} {cfg : Config}

theorem repliesTo_eq (s : σ) (calls : List (HandlerCall × Nat)) :
    repliesTo cfg handle s calls = (answersTo handle s calls).flatMap (replyBytes cfg) := by
  induction calls generalizing s with
  | nil => rfl
  | cons call calls ih =>
      rw [repliesTo, answersTo]
      cases handle s call.1 with
      | panicked => rfl
      | drawing => rfl
      | replied reply s' => rw [List.flatMap_cons, ← ih]

/-- What was answered has a reply for every call, and a refusal at most behind them. -/
theorem answers_of_answered {units first : List (Nat × Act)} (served : ∀ u ∈ first, Served u.2)
    (shape : units = first ∨ ∃ last, units = first ++ [last]) {s : σ} {r : σ × Bytes}
    (all : answered cfg handle s units = some r) :
    (answersTo handle s (callsOf units)).length = (callsOf units).length ∧
      ∃ refusal, (refusal = [] ∨ refusal = [tooLarge]) ∧
        r.2 = (answersTo handle s (callsOf units) ++ refusal).flatMap (replyBytes cfg) := by
  have each : ∀ {units : List (Nat × Act)}, (∀ u ∈ units, Served u.2) → ∀ {s : σ} {r : σ × Bytes},
      answered cfg handle s units = some r →
      (answersTo handle s (callsOf units)).length = (callsOf units).length ∧
        r.2 = (answersTo handle s (callsOf units)).flatMap (replyBytes cfg) := by
    intro units served s r all
    refine ⟨?_, by rw [← repliesTo_eq, repliesTo_served served all]⟩
    induction units generalizing s r with
    | nil => rfl
    | cons u units ih =>
        obtain ⟨n, act⟩ := u
        obtain ⟨call, rfl⟩ := served _ List.mem_cons_self
        obtain ⟨reply, s', r', replied, later, -⟩ := answered_serve all
        have count := ih (fun u among => served u (List.mem_cons_of_mem _ among)) later
        have split : callsOf ((n, Act.serve call) :: units) = (call, n) :: callsOf units := rfl
        rw [split, answersTo, replied, List.length_cons, List.length_cons, count]
  rcases shape with rfl | ⟨⟨n, act⟩, rfl⟩
  · obtain ⟨count, bytes⟩ := each served all
    exact ⟨count, [], Or.inl rfl, by rw [bytes, List.append_nil]⟩
  · cases act with
    | serve call =>
        have served' : ∀ u ∈ first ++ [(n, Act.serve call)], Served u.2 := by
          intro u among
          rcases List.mem_append.mp among with early | last
          · exact served u early
          · cases List.mem_singleton.mp last
            exact ⟨call, rfl⟩
        obtain ⟨count, bytes⟩ := each served' all
        exact ⟨count, [], Or.inl rfl, by rw [bytes, List.append_nil]⟩
    | refuse =>
        rw [answered_append] at all
        obtain ⟨r', front, last⟩ := Option.bind_eq_some_iff.mp all
        cases last
        have none_called : callsOf (first ++ [(n, Act.refuse)]) = callsOf first := by
          rw [callsOf_append]
          exact List.append_nil _
        obtain ⟨count, bytes⟩ := each served front
        rw [none_called]
        refine ⟨count, [tooLarge], Or.inr rfl, ?_⟩
        rw [List.flatMap_append, ← bytes]
        simp

/-- What every answer meets, given what the states of the handler keep. -/
theorem answersTo_forall {P : Reply → Prop} {Good : σ → Prop} {calls : List (HandlerCall × Nat)}
    (keep : ∀ call ∈ calls, ∀ s, Good s → ∀ reply s', handle s call.1 = .replied reply s' →
      P reply ∧ Good s') {s : σ} (good : Good s) : ∀ reply ∈ answersTo handle s calls, P reply := by
  induction calls generalizing s with
  | nil =>
      intro reply among
      cases among
  | cons call calls ih =>
      intro reply among
      rw [answersTo] at among
      cases replied : handle s call.1 with
      | panicked =>
          rw [replied] at among
          cases among
      | drawing =>
          rw [replied] at among
          cases among
      | replied first s' =>
          rw [replied] at among
          obtain ⟨meets, good'⟩ := keep call List.mem_cons_self s good first s' replied
          rcases List.mem_cons.mp among with rfl | later
          · exact meets
          · exact ih (fun c member => keep c (List.mem_cons_of_mem _ member)) good' reply later

end Answers

theorem presentable_tooLarge : Presentable tooLarge where
  status := by decide
  ctype := by decide
  empty := by decide
  location := fun target located => by cases located

theorem readReplies_reads {cfg : Config} (origin : Clean (encode cfg.corsOrigin))
    {replies : List Reply} (presentable : ∀ r ∈ replies, Presentable r) {methods : List String}
    (whole : ∀ m ∈ methods, m ≠ "HEAD") (count : replies.length = methods.length) :
    (readReplies methods).Reads (replies.flatMap (replyBytes cfg)) (replies.map received) := by
  induction methods generalizing replies with
  | nil =>
      rw [List.eq_nil_of_length_eq_zero count]
      exact Pull.reads_pure []
  | cons method methods ih =>
      obtain ⟨r, later, rfl⟩ := List.exists_cons_of_length_eq_add_one count
      have first := reads_reply origin (presentable r List.mem_cons_self)
        (whole method List.mem_cons_self)
      have rest := ih (fun r' among => presentable r' (List.mem_cons_of_mem _ among))
        (fun m among => whole m (List.mem_cons_of_mem _ among)) (Nat.succ.inj count)
      exact first.bind (rest.map fun rs => received r :: rs)

/-- On a connection that ends in order the client reads one reply for each request that was
handled, in order, and it is the reply that the handler gave; behind them it reads the
refusal of a body that was too large, or nothing. -/
theorem client_reads_answers {parse : Bytes → Parsed} (lawful : Lawful parse) (remote : Remote)
    (ext : Ext) {cfg : Config} (origin : Clean (encode cfg.corsOrigin)) {w : World}
    {arounds : List (Env × Outside)} (tidy : Tidy (w, arounds)) {reads : List Bytes}
    (full : ∀ chunk ∈ reads, chunk ≠ []) :
    let r := handleConn parse cfg remote (handleNext ext cfg) (w, arounds) reads
    let answers := answersTo (handleNext ext cfg) (w, arounds) r.1.calls
    r.2 ≠ .died → r.2 ≠ .dropped →
      (∀ call ∈ r.1.calls, CleanCall ext call.1 ∧ call.1.method ≠ "HEAD") →
      answers.length = r.1.calls.length ∧
        ∃ rest, (readReplies (r.1.calls.map fun call => call.1.method)).run r.1.written =
            .ok (answers.map received, rest) ∧
          (rest = [] ∨ (readReply "POST").run rest = .ok (received tooLarge, [])) := by
  intro r answers returned kept plain
  have stable : Stable (scan parse remote) := stable_scan lawful
  obtain ⟨died, -⟩ | ⟨⟨bytes, all, written, calls⟩, -, dropped, out⟩ :=
    handleConn_spec lawful cfg remote (handleNext ext cfg) (w, arounds) full
  · exact absurd died returned
  have unfailed : (feed (scan parse remote) [] reads).ending ≠ .failed :=
    fun failed => kept (dropped.mpr failed)
  obtain ⟨first, served, shape⟩ : ∃ first : List (Nat × Act), (∀ u ∈ first, Served u.2) ∧
      ((feed (scan parse remote) [] reads).units = first ∨
        ∃ last, (feed (scan parse remote) [] reads).units = first ++ [last]) := by
    cases reads with
    | nil => exact ⟨[], by simp, Or.inl rfl⟩
    | cons chunk chunks =>
        rw [(stable.feed_eq_cut unfailed).1]
        obtain ⟨first, served, same | ⟨-, last⟩⟩ :=
          stable.cut_units (fun found => served_of_scan found) ([] ++ (chunk :: chunks).flatten)
        · exact ⟨first, served, Or.inl same⟩
        · exact ⟨first, served, Or.inr last⟩
  obtain ⟨count, refusal, refused, wrote⟩ := answers_of_answered served shape all
  have made : r.1.calls = callsOf (feed (scan parse remote) [] reads).units := calls
  have sent : r.1.written = bytes := by
    have silent : r.1.out = [] := out kept
    rw [silent, List.append_nil] at written
    exact written
  rw [← made] at count wrote
  dsimp only at wrote
  have presentable : ∀ reply ∈ answers, Presentable reply := by
    refine answersTo_forall (fun call among s good reply s' replied => ?_) tidy
    exact presentable_handleNext good (plain call among).1 replied
  refine ⟨count, refusal.flatMap (replyBytes cfg), ?_, ?_⟩
  · rw [sent, wrote, List.flatMap_append]
    have paired : answers.length = (r.1.calls.map fun call => call.1.method).length :=
      Eq.trans count (by rw [List.length_map])
    refine readReplies_reads origin presentable (fun m among => ?_) paired _
    obtain ⟨call, member, rfl⟩ := List.mem_map.mp among
    exact (plain call member).2
  · rcases refused with rfl | rfl
    · exact Or.inl rfl
    · right
      have whole : "POST" ≠ "HEAD" := by decide
      have read := reads_reply origin presentable_tooLarge whole []
      rwa [List.append_nil, ← List.flatMap_singleton (replyBytes cfg)] at read

def promoRequests : List Request :=
  [requestOf "POST /api/shorten HTTP/1.1\r\nContent-Length: 17\r\n\r\n" "https://a.example",
   requestOf "GET /promo HTTP/1.1\r\n\r\n" ""]

def promoReads : List Bytes :=
  [(promoRequests.flatMap Request.bytes).take 30, (promoRequests.flatMap Request.bytes).drop 30]

def promoArounds : List (Env × Outside) :=
  [((get 1000 "/").env, (get 1000 "/").out), ((get 1001 "/").env, (get 1001 "/").out)]

def promoServed : Conn (World × List (Env × Outside)) × End :=
  handleConn headParser openConfig ⟨"192.0.2.1", false⟩
    (handleNext (oneUrl "https://a.example" (some "promo")) openConfig)
    (World.memory, promoArounds) promoReads

theorem promoServed_spec :
    promoServed.2 = .closed ∧ promoServed.1.calls.length = 2 ∧
      (∀ chunk ∈ promoReads, chunk ≠ []) ∧
      ∀ call ∈ promoServed.1.calls,
        (∀ url ∈ askedUrl (oneUrl "https://a.example" (some "promo")) call.1.method call.1.path
          call.1.body, Clean (encode url)) ∧ call.1.method ≠ "HEAD" := by
  decide +kernel

theorem client_reads_answers_promo :
    promoServed.1.calls.length = 2 ∧
      ∃ (answers : List Reply) (rest : Bytes), answers.length = promoServed.1.calls.length ∧
        (readReplies (promoServed.1.calls.map fun call => call.1.method)).run promoServed.1.written =
          .ok (answers.map received, rest) := by
  obtain ⟨closed, two, full, plain⟩ := promoServed_spec
  have tidy : Tidy (World.memory, promoArounds) := ⟨Or.inr rfl, Empty.urlsMeet (Or.inr rfl) _⟩
  have origin : Clean (encode openConfig.corsOrigin) := by decide +kernel
  have returned : promoServed.2 ≠ .died ∧ promoServed.2 ≠ .dropped := by
    rw [closed]
    exact ⟨End.noConfusion, End.noConfusion⟩
  obtain ⟨count, rest, read, -⟩ := client_reads_answers lawful_headParser ⟨"192.0.2.1", false⟩
    (oneUrl "https://a.example" (some "promo")) origin tidy full returned.1 returned.2
    fun call among => ⟨fun url asked _ => (plain call among).1 url asked, (plain call among).2⟩
  exact ⟨two, _, rest, count, read⟩

end Shrt.Http
