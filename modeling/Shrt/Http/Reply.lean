import Mathlib.Data.List.Basic
import Shrt.Http.Local

/-!
# Replies on the wire

A reply is written as a status line, the fixed headers and its body; a redirect
as its location and an empty body.  A recipient reads the head line by line and
may end a line at a bare CR or LF too.  A redirect is read as the one reply that
was meant exactly when its target holds neither byte.
-/

namespace Shrt.Http

open Shrt.Codec Shrt.Lib Shrt.Lib.Utf8 Shrt.Store

def statusLine (code : Nat) : String :=
  match code with
  | 200 => "HTTP/1.1 200 OK\r\n"
  | 201 => "HTTP/1.1 201 Created\r\n"
  | 204 => "HTTP/1.1 204 No Content\r\n"
  | 302 => "HTTP/1.1 302 Found\r\n"
  | 400 => "HTTP/1.1 400 Bad Request\r\n"
  | 404 => "HTTP/1.1 404 Not Found\r\n"
  | 409 => "HTTP/1.1 409 Conflict\r\n"
  | 413 => "HTTP/1.1 413 Content Too Large\r\n"
  | 429 => "HTTP/1.1 429 Too Many Requests\r\n"
  | 503 => "HTTP/1.1 503 Service Unavailable\r\n"
  | _ => "HTTP/1.1 500 Internal Server Error\r\n"

def corsBlock (cfg : Config) : Bytes :=
  encode "access-control-allow-origin: " ++ encode cfg.corsOrigin ++
    encode "\r\naccess-control-allow-methods: GET,POST,PATCH,DELETE,OPTIONS\r\n" ++
    encode "access-control-allow-headers: content-type\r\naccess-control-max-age: 86400\r\n"

def replyBytes (cfg : Config) (r : Reply) : Bytes :=
  encode (statusLine r.status) ++ corsBlock cfg ++
    match r.location with
    | some loc => encode "location: " ++ encode loc ++ encode "\r\ncontent-length: 0\r\n\r\n"
    | none =>
        encode "content-type: " ++ encode (r.ctype.getD "application/json") ++
          encode "\r\ncontent-length: " ++ encode (toString r.body.length) ++ encode "\r\n\r\n" ++
          r.body

def writeReply (cfg : Config) (out : Bytes) (r : Reply) : Bytes :=
  out ++ replyBytes cfg r

/-! ## Reading the lines of a reply -/

def CR : UInt8 := 13

def LF : UInt8 := 10

/-- Neither CR nor LF. -/
def Clean (b : Bytes) : Prop :=
  CR ∉ b ∧ LF ∉ b

instance (b : Bytes) : Decidable (Clean b) :=
  inferInstanceAs (Decidable (_ ∧ _))

/-- The lines of a message.  A line ends at CR LF, at a CR or at an LF. -/
def splitLines : Bytes → List Bytes
  | [] => [[]]
  | [b] => if b = CR ∨ b = LF then [[], []] else [[b]]
  | b :: b' :: rest =>
      if b = CR ∧ b' = LF then [] :: splitLines rest
      else if b = CR ∨ b = LF then [] :: splitLines (b' :: rest)
      else (splitLines (b' :: rest)).modifyHead (b :: ·)

theorem splitLines_ne_nil (bs : Bytes) : splitLines bs ≠ [] := by
  fun_induction splitLines bs with
  | case1 => simp
  | case2 => simp
  | case3 => simp
  | case4 => simp
  | case5 => simp
  | case6 b b' rest _ _ ih => simpa using ih

/-- No line holds a line end. -/
theorem clean_of_mem_splitLines {bs line : Bytes} (member : line ∈ splitLines bs) : Clean line := by
  have empty : Clean [] := ⟨List.not_mem_nil, List.not_mem_nil⟩
  fun_induction splitLines bs generalizing line with
  | case1 =>
      cases List.mem_singleton.mp member
      exact empty
  | case2 b ends =>
      simp only [List.mem_cons, List.not_mem_nil, or_false, or_self] at member
      exact member ▸ empty
  | case3 b inside =>
      cases List.mem_singleton.mp member
      rw [not_or] at inside
      exact ⟨by simpa using Ne.symm inside.1, by simpa using Ne.symm inside.2⟩
  | case4 b b' rest _ ih =>
      rcases List.mem_cons.mp member with rfl | later
      · exact empty
      · exact ih later
  | case5 b b' rest _ _ ih =>
      rcases List.mem_cons.mp member with rfl | later
      · exact empty
      · exact ih later
  | case6 b b' rest _ inside ih =>
      cases lines : splitLines (b' :: rest) with
      | nil => exact absurd lines (splitLines_ne_nil _)
      | cons first others =>
          rw [lines] at member ih
          rcases List.mem_cons.mp member with rfl | later
          · obtain ⟨noCr, noLf⟩ := ih List.mem_cons_self
            rw [not_or] at inside
            exact ⟨by simp [Ne.symm inside.1, noCr], by simp [Ne.symm inside.2, noLf]⟩
          · exact ih (List.mem_cons_of_mem _ later)

/-- A clean line in front of a line end is read as it is. -/
theorem splitLines_line {line : Bytes} (clean : Clean line) (rest : Bytes) :
    splitLines (line ++ CR :: LF :: rest) = line :: splitLines rest := by
  induction line with
  | nil =>
      rw [List.nil_append, splitLines, if_pos ⟨rfl, rfl⟩]
  | cons b line ih =>
      obtain ⟨noCr, noLf⟩ := clean
      rw [List.mem_cons, not_or] at noCr noLf
      have inside : ¬ (b = CR ∨ b = LF) := by
        rintro (rfl | rfl)
        · exact noCr.1 rfl
        · exact noLf.1 rfl
      have read := ih ⟨noCr.2, noLf.2⟩
      cases line with
      | nil =>
          simp only [List.nil_append, List.cons_append] at read ⊢
          rw [splitLines, if_neg (fun both => inside (Or.inl both.1)), if_neg inside, read]
          rfl
      | cons b' line =>
          simp only [List.cons_append] at read ⊢
          rw [splitLines, if_neg (fun both => inside (Or.inl both.1)), if_neg inside, read]
          rfl

/-! ## Redirects -/

def redirect (target : String) : Reply :=
  ⟨302, some target, [], none⟩

/-- The lines that a redirect is meant to have: one head, closed by an empty
line, and nothing behind it. -/
def redirectLines (cfg : Config) (target : String) : List Bytes :=
  [encode "HTTP/1.1 302 Found",
   encode "access-control-allow-origin: " ++ encode cfg.corsOrigin,
   encode "access-control-allow-methods: GET,POST,PATCH,DELETE,OPTIONS",
   encode "access-control-allow-headers: content-type",
   encode "access-control-max-age: 86400",
   encode "location: " ++ encode target,
   encode "content-length: 0", [], []]

/-- The bytes of a redirect are read as exactly that one reply, and its
location holds no line end. -/
def OneReply (cfg : Config) (target : String) : Prop :=
  Clean (encode target) ∧
    splitLines (replyBytes cfg (redirect target)) = redirectLines cfg target

theorem Clean.append {first second : Bytes} (one : Clean first) (two : Clean second) :
    Clean (first ++ second) := by
  constructor
  · rw [List.mem_append, not_or]
    exact ⟨one.1, two.1⟩
  · rw [List.mem_append, not_or]
    exact ⟨one.2, two.2⟩

/-- The bytes of a redirect, line by line. -/
theorem replyBytes_redirect (cfg : Config) (target : String) :
    replyBytes cfg (redirect target) =
      encode "HTTP/1.1 302 Found" ++ CR :: LF ::
      ((encode "access-control-allow-origin: " ++ encode cfg.corsOrigin) ++ CR :: LF ::
      (encode "access-control-allow-methods: GET,POST,PATCH,DELETE,OPTIONS" ++ CR :: LF ::
      (encode "access-control-allow-headers: content-type" ++ CR :: LF ::
      (encode "access-control-max-age: 86400" ++ CR :: LF ::
      ((encode "location: " ++ encode target) ++ CR :: LF ::
      (encode "content-length: 0" ++ CR :: LF :: ([] ++ CR :: LF :: []))))))) := by
  have status : encode (statusLine 302) = encode "HTTP/1.1 302 Found" ++ [CR, LF] := by
    decide +kernel
  have methods : encode "\r\naccess-control-allow-methods: GET,POST,PATCH,DELETE,OPTIONS\r\n" =
      [CR, LF] ++ encode "access-control-allow-methods: GET,POST,PATCH,DELETE,OPTIONS" ++
        [CR, LF] := by
    decide +kernel
  have rest : encode
      "access-control-allow-headers: content-type\r\naccess-control-max-age: 86400\r\n" =
      encode "access-control-allow-headers: content-type" ++ [CR, LF] ++
        encode "access-control-max-age: 86400" ++ [CR, LF] := by
    decide +kernel
  have close : encode "\r\ncontent-length: 0\r\n\r\n" =
      [CR, LF] ++ encode "content-length: 0" ++ [CR, LF, CR, LF] := by
    decide +kernel
  simp only [replyBytes, redirect, corsBlock, status, methods, rest, close]
  simp

/-- A redirect is one reply exactly when its target holds no line end; the
configured origin must not hold one either. -/
theorem oneReply_iff (cfg : Config) (target : String) :
    OneReply cfg target ↔ Clean (encode target) ∧ Clean (encode cfg.corsOrigin) := by
  have fixed : Clean (encode "HTTP/1.1 302 Found") ∧
      Clean (encode "access-control-allow-origin: ") ∧
      Clean (encode "access-control-allow-methods: GET,POST,PATCH,DELETE,OPTIONS") ∧
      Clean (encode "access-control-allow-headers: content-type") ∧
      Clean (encode "access-control-max-age: 86400") ∧ Clean (encode "location: ") ∧
      Clean (encode "content-length: 0") ∧ Clean [] := by
    decide +kernel
  obtain ⟨status, origin, methods, headers, age, location, length, empty⟩ := fixed
  constructor
  · rintro ⟨target_clean, read⟩
    refine ⟨target_clean, ?_⟩
    have line : encode "access-control-allow-origin: " ++ encode cfg.corsOrigin ∈
        splitLines (replyBytes cfg (redirect target)) := by
      rw [read]
      simp [redirectLines]
    obtain ⟨noCr, noLf⟩ := clean_of_mem_splitLines line
    exact ⟨fun member => noCr (List.mem_append_right _ member),
      fun member => noLf (List.mem_append_right _ member)⟩
  · rintro ⟨target_clean, origin_clean⟩
    refine ⟨target_clean, ?_⟩
    rw [replyBytes_redirect, splitLines_line status, splitLines_line (origin.append origin_clean),
      splitLines_line methods, splitLines_line headers, splitLines_line age,
      splitLines_line (location.append target_clean), splitLines_line length,
      splitLines_line empty]
    rfl

end Shrt.Http
