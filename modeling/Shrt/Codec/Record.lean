import Mathlib.Data.List.Basic
import Shrt.Codec.RoundTrip

/-!
# Logs as lists of records

A record is what one line says.  A log of records is read back record by
record, also when other bytes follow it, so the byte level of a well-formed
file can be left behind.
-/

namespace Shrt.Codec

open Shrt.Lib.Utf8 Shrt.Lib.Framing

/-- The content of one line the program writes. -/
inductive Rec where
  | row (c u : String) (a e i n : Int64)
  | hit (c : String) (d i : Int64)
  | del (c : String)
  deriving DecidableEq, Repr

namespace Rec

def code : Rec → String
  | row c _ _ _ _ _ => c
  | hit c _ _ => c
  | del c => c

def line : Rec → Bytes
  | row c u a e i n => rowLine c u a e i n
  | hit c d i => hitLine c d i
  | del c => delLine c

def op : Rec → Op
  | row c u a e i n => { c := c, u := u, a := a, e := e, i := i, n := n, hasE := e ≠ 0 }
  | hit c d i => { h := c, d := d, i := i }
  | del c => { x := c }

def Ok (r : Rec) : Prop :=
  Plain r.code

/-- The record names this instance as its writer; a tombstone names none. -/
def Own (inst : Inst) : Rec → Prop
  | row _ _ _ _ i _ => i = inst.i64
  | hit _ _ i => i = inst.i64
  | del _ => True

end Rec

/-- What reading a record's line makes of the fields read before. -/
def Rec.onto (o : Op) : Rec → Op
  | row c u a e i n =>
      { o with
        c := c
        u := u
        a := a
        e := if e = 0 then o.e else e
        hasE := if e = 0 then o.hasE else true
        i := i
        n := n }
  | hit c d i => { o with h := c, d := d, i := i }
  | del c => { o with x := c }

theorem parse_line {r : Rec} (ok : r.Ok) (o : Op) : parse r.line o = some (r.onto o) := by
  have free : quote ∉ ([] : Bytes) := by simp
  cases r with
  | row c u a e i n => exact parse_rowLine free ok u a e i n o
  | hit c d i => exact parse_hitLine free ok d i o
  | del c => exact parse_delLine free ok o

theorem onto_empty (r : Rec) : r.onto {} = r.op := by
  cases r with
  | row c u a e i n => by_cases never : e = 0 <;> simp [Rec.onto, Rec.op, never]
  | hit c d i => rfl
  | del c => rfl

theorem onto_named {r : Rec} (ok : r.Ok) (o : Op) : (r.onto o).named = true := by
  have named : r.code ≠ "" := ok.nonempty
  cases r <;> simp [Op.named, Rec.onto, Rec.code] at named ⊢ <;> simp [named]

theorem parseOp_line {r : Rec} (ok : r.Ok) : parseOp r.line = some r.op := by
  rw [parseOp_eq, parse_line ok, ← onto_empty, Option.filter_some, onto_named ok]
  rfl

/-! ## Framing -/

theorem NL_not_mem_escByte (c : UInt8) : NL ∉ escByte c := by
  apply forall_byte (P := fun c => NL ∉ escByte c)
  decide +kernel

theorem NL_not_mem_esc (bs : Bytes) : NL ∉ bs.flatMap escByte := by
  simp only [List.mem_flatMap, not_exists, not_and]
  exact fun c _ => NL_not_mem_escByte c

theorem NL_not_mem_itoa (n : Int64) : NL ∉ itoa [] n :=
  fun h => (numberByte_spec (itoa_numberByte h)).2.2.2.1 rfl

theorem NL_not_mem_expiryText (e : Int64) : NL ∉ expiryText e := by
  unfold expiryText
  split
  · decide
  · exact NL_not_mem_itoa e

/-- No line holds a raw newline. -/
theorem NL_not_mem_line {r : Rec} (ok : r.Ok) : NL ∉ r.line := by
  have code : NL ∉ encode r.code := ok.not_mem (by decide)
  cases r with
  | row c u a e i n =>
      rw [Rec.line, rowLine_eq]
      have url := NL_not_mem_esc (encode u)
      have parts := And.intro (NL_not_mem_itoa a)
        (And.intro (NL_not_mem_expiryText e)
          (And.intro (NL_not_mem_itoa i) (NL_not_mem_itoa n)))
      simp only [Rec.code] at code
      simp +decide only [List.mem_cons, List.mem_append, code, url,
        parts, or_false]
  | hit c d i =>
      rw [Rec.line, hitLine_eq]
      have parts := And.intro (NL_not_mem_itoa d) (NL_not_mem_itoa i)
      simp only [Rec.code] at code
      simp +decide only [List.mem_cons, List.mem_append, code, parts,
        or_false]
  | del c =>
      rw [Rec.line, delLine_eq]
      simp only [Rec.code] at code
      simp +decide only [List.mem_cons, List.mem_append, code, or_false]

theorem line_ne_nil (r : Rec) : r.line ≠ [] := by
  cases r with
  | row => rw [Rec.line, rowLine_eq]; exact List.cons_ne_nil _ _
  | hit => rw [Rec.line, hitLine_eq]; exact List.cons_ne_nil _ _
  | del => rw [Rec.line, delLine_eq]; exact List.cons_ne_nil _ _

def AllOk (rs : List Rec) : Prop :=
  ∀ r ∈ rs, r.Ok

theorem AllOk.append {first second : List Rec} (hfirst : AllOk first)
    (hsecond : AllOk second) : AllOk (first ++ second) := by
  intro r hr
  rcases List.mem_append.mp hr with h | h
  · exact hfirst r h
  · exact hsecond r h

@[simp] theorem allOk_nil : AllOk [] := by
  intro r hr
  cases hr

def logBytes (rs : List Rec) : Bytes :=
  unlines NL (rs.map Rec.line)

@[simp] theorem logBytes_nil : logBytes [] = [] := rfl

theorem logBytes_cons (r : Rec) (rs : List Rec) :
    logBytes (r :: rs) = r.line ++ NL :: logBytes rs := by
  simp [logBytes]

theorem logBytes_append (first second : List Rec) :
    logBytes (first ++ second) = logBytes first ++ logBytes second := by
  simp [logBytes, unlines_append]

theorem logBytes_eq_nil {rs : List Rec} (empty : logBytes rs = []) : rs = [] := by
  cases rs with
  | nil => rfl
  | cons r rs =>
      rw [logBytes_cons] at empty
      simp at empty

theorem logBytes_singleton (r : Rec) : logBytes [r] = r.line ++ [NL] := by
  simp [logBytes]

/-- The operations that a reader of complete lines sees in some bytes. -/
def readOps (data : Bytes) : List Op :=
  (lines NL data).filterMap parseOp

theorem framed_lines {rs : List Rec} (ok : AllOk rs) :
    Framed NL (rs.map Rec.line) := by
  intro l hl
  obtain ⟨r, hr, rfl⟩ := List.mem_map.mp hl
  exact ⟨NL_not_mem_line (ok r hr), line_ne_nil r⟩

theorem filterMap_parseOp_lines {rs : List Rec} (ok : AllOk rs) :
    (rs.map Rec.line).filterMap parseOp = rs.map Rec.op := by
  induction rs with
  | nil => rfl
  | cons r rs ih =>
      have tail := ih (fun s hs => ok s (List.mem_cons_of_mem _ hs))
      rw [List.map_cons, List.filterMap_cons_some
        (parseOp_line (ok r List.mem_cons_self)), tail]
      rfl

/-- A log of records is read back in order, then what follows it. -/
theorem readOps_logBytes_append {rs : List Rec} (ok : AllOk rs) (data : Bytes) :
    readOps (logBytes rs ++ data) = rs.map Rec.op ++ readOps data := by
  rw [readOps, logBytes, lines_unlines_append (framed_lines ok),
    List.filterMap_append, filterMap_parseOp_lines ok]
  rfl

theorem readOps_logBytes {rs : List Rec} (ok : AllOk rs) :
    readOps (logBytes rs) = rs.map Rec.op := by
  have h := readOps_logBytes_append ok []
  simpa [readOps, lines, scan] using h

end Shrt.Codec
