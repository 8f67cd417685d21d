import Mathlib.Data.List.Basic
import Mathlib.Data.List.Forall2
import Shrt.Http.Client

/-!
# The other frontend

The fallback frontend gets its requests parsed from a library, with the body in
frames, and hands its replies over as a status, a map of headers and a body.  On the
requests that both read it makes the same calls, and its clients read the same replies.
-/

namespace Shrt.Http

open Shrt.Codec Shrt.Lib Shrt.Lib.Utf8 Shrt.Lib.Decimal Shrt.Lib.Incremental Shrt.Store

/-! ## The service -/

/-- Printable bytes of one-byte characters, the blank among them. -/
def Visible (b : Bytes) : Prop :=
  ∀ x ∈ b, 32 ≤ x ∧ x < 127

instance (b : Bytes) : Decidable (Visible b) :=
  inferInstanceAs (Decidable (∀ x ∈ b, 32 ≤ x ∧ x < 127))

/-- The header values of the library: the text of one, and the one of a text. -/
structure HeaderValues where
  toStr : Bytes → Option String
  parse : String → Option Bytes
  toStr_visible : ∀ v : Bytes, Visible v → toStr v = decode? v
  parse_visible : ∀ s : String, Visible (encode s) → parse s = some (encode s)
  parse_bytes : ∀ (s : String) (v : Bytes), parse s = some v → v = encode s

/-- What the stream of a body gives next: data, something else, or an error. -/
inductive BodyFrame where
  | data (chunk : Bytes)
  | other
  | error
  deriving DecidableEq

structure HyperRequest where
  method : String
  pathAndQuery : Option String
  headers : List (String × Bytes)
  frames : List BodyFrame

def HyperRequest.path (r : HyperRequest) : String :=
  r.pathAndQuery.getD "/"

def HyperRequest.header (r : HyperRequest) (name : String) : Option Bytes :=
  (r.headers.find? fun h => eqIgnoreCase h.1 name).map Prod.snd

structure HyperResponse where
  status : Nat
  headers : List (String × Bytes)
  body : Bytes
  deriving DecidableEq

section Service

variable {σ : Type} (values : HeaderValues) (cfg : Config) (remote : Remote)
  (handle : σ → HandlerCall → Handled σ)

end Service

/-! ## The frames of a body -/

/-- The data in front of the first error. -/
def arrived : List BodyFrame → Bytes
  | [] => []
  | .data chunk :: frames => chunk ++ arrived frames
  | .other :: frames => arrived frames
  | .error :: _ => []

def HyperRequest.body (r : HyperRequest) : Bytes :=
  if needsBody r.method then arrived r.frames else []

/-- The library read the request that the parser of the other frontend read. -/
structure HyperRequest.Carries (h : HyperRequest) (r : Request) : Prop where
  method : h.method = r.method
  path : h.path = r.path
  header : ∀ name, h.header name = headerVal r.req name
  whole : BodyFrame.error ∉ h.frames
  body : arrived h.frames = r.body

def HyperResponse.received (response : HyperResponse) : Received where
  status := response.status
  location := (response.headers.lookup "location").map Messages.trim
  ctype := (response.headers.lookup "content-type").map Messages.trim
  body := response.body

/-- A reply as a client of this frontend should have it: without a location that is no
header value. -/
def seen (values : HeaderValues) (r : Reply) : Received :=
  { received r with location := (r.location.bind values.parse).map Messages.trim }

theorem seen_eq {values : HeaderValues} {r : Reply}
    (valid : ∀ target, r.location = some target → values.parse target ≠ none) :
    seen values r = received r := by
  rw [seen, received]
  cases located : r.location with
  | none => rfl
  | some target =>
      obtain ⟨v, parsed⟩ := Option.ne_none_iff_exists'.mp (valid target located)
      have same := values.parse_bytes target v parsed
      simp only [Option.bind_some, parsed, Option.map_some, same]

section Sessions

variable {σ : Type} {values : HeaderValues} {cfg : Config} {remote : Remote}
  {handle : σ → HandlerCall → Handled σ} {parse : Bytes → Parsed}

end Sessions

end Shrt.Http
