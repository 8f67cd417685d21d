import Mathlib.Data.List.Basic
import Shrt.Kv.Resp

/-!
# A connection that ends inside a reply

The line reader returns what it has when the connection ends, and a number that
cannot be read has a default.  So a reply that is cut inside its first line is
often taken for a shorter one.  What a cut leaves unread is nothing, which is
why a cut inside an item of an array shows in the next item.
-/

namespace Shrt.Kv

open Shrt.Codec Shrt.Lib Shrt.Lib.Utf8 Shrt.Lib.Decimal Shrt.Lib.Resp2
open Shrt.Lib.Pull (Reads Fails Drains)

/-- Whether all lines of a reply are text. -/
def legible (reply : Reply) : Bool :=
  reply.lines.all fun line => (decode? line).isSome

mutual

/-- Whether the reader notices that only the first `k` bytes of a reply came. -/
def cutNoticed : Reply → Nat → Bool
  | _, 0 => true
  -- a line is as good as any of its beginnings, unless a character is cut
  | .simple line, k + 1 => (decode? ((line ++ [13]).take k)).isNone
  | .error line, k + 1 => (decode? ((line ++ [13]).take k)).isNone
  | .int _, _ + 1 => false
  -- without a digit there is no length, and no length stands for null
  | .bulk _, k + 1 => decide (0 < k)
  | .nullBulk, _ + 1 => false
  -- without a digit there is no count, and no count stands for zero
  | .arr items, k + 1 =>
      if k < (count items.length).length + 2 then decide (0 < k) && !items.isEmpty
      else itemsCutNoticed items (k - ((count items.length).length + 2))
  | .nullArr, _ + 1 => false

/-- Whether the reader notices that only the first `k` bytes of the items came. -/
def itemsCutNoticed : List Reply → Nat → Bool
  | [], _ => false
  | item :: items, k =>
      if k < item.wire.length then !items.isEmpty || cutNoticed item k
      else !legible item || itemsCutNoticed items (k - item.wire.length)

end

/-! ## Whole replies -/

theorem legible_cons (item : Reply) (items : List Reply) :
    (legible (.arr (item :: items)) = true) ↔
      legible item = true ∧ legible (.arr items) = true := by
  rw [legible, legible, legible, Reply.lines, linesOf, List.all_append, Bool.and_eq_true,
    Reply.lines]

theorem legible_of_mem {item : Reply} {items : List Reply} (good : legible (.arr items) = true)
    (among : item ∈ items) : legible item = true := by
  induction items with
  | nil => cases among
  | cons first items ih =>
      obtain ⟨here, later⟩ := (legible_cons first items).mp good
      rcases List.mem_cons.mp among with rfl | among
      · exact here
      · exact ih later among

/-- A legible reply is read exactly. -/
theorem exists_reads {reply : Reply} (wellFormed : reply.WellFormed)
    (good : legible reply = true) : ∃ v, readResp.Reads reply.wire v := by
  induction wellFormed with
  | simple cr lf =>
      obtain ⟨s, text⟩ := Option.isSome_iff_exists.mp (by simpa [legible, Reply.lines] using good)
      exact ⟨_, reads_simple text lf⟩
  | error cr lf =>
      obtain ⟨s, text⟩ := Option.isSome_iff_exists.mp (by simpa [legible, Reply.lines] using good)
      exact ⟨_, reads_error text lf⟩
  | int n => exact ⟨_, reads_int n⟩
  | bulk room => exact ⟨_, reads_bulk room⟩
  | nullBulk => exact ⟨_, reads_nullBulk⟩
  | arr room parts ih =>
      rename_i items
      have each : ∀ item, ∃ v, item ∈ items → readResp.Reads item.wire v := by
        intro item
        by_cases among : item ∈ items
        · obtain ⟨v, reads⟩ := ih item among (legible_of_mem good among)
          exact ⟨v, fun _ => reads⟩
        · exact ⟨.bulk none, fun inside => absurd inside among⟩
      choose val reads using each
      have whole := reads_arr room reads
      rw [Reply.wire, wires_eq_flatMap]
      exact ⟨_, whole⟩
  | nullArr => exact ⟨_, reads_nullArr⟩

/-- The items of an array, when one of them is not legible. -/
theorem times_fails_of_illegible {items : List Reply} (parts : ∀ item ∈ items, item.WellFormed)
    (fails : ∀ item ∈ items, legible item = false → ∀ rest, readResp.Fails Returned (item.wire ++ rest))
    (bad : legible (.arr items) = false) (rest : Bytes) :
    (Pull.times items.length readResp).Fails Returned (wires items ++ rest) := by
  induction items with
  | nil => cases bad
  | cons item items ih =>
      rw [wires, List.append_assoc, List.length_cons]
      by_cases good : legible item = true
      · obtain ⟨v, reads⟩ := exists_reads (parts item List.mem_cons_self) good
        have later : legible (.arr items) = false := by
          rw [Bool.eq_false_iff]
          intro later
          rw [(legible_cons item items).mpr ⟨good, later⟩] at bad
          cases bad
        rw [Pull.fails_times_behind_iff reads]
        exact ih (fun x among => parts x (List.mem_cons_of_mem item among))
          (fun x among => fails x (List.mem_cons_of_mem item among)) later
      · have here := fails item List.mem_cons_self (Bool.eq_false_iff.mpr good)
        exact (here _).bind _

/-- A reply with a line that is no text is an error, even when it is whole. -/
theorem fails_of_illegible {reply : Reply} (wellFormed : reply.WellFormed)
    (bad : legible reply = false) (rest : Bytes) : readResp.Fails Returned (reply.wire ++ rest) := by
  induction wellFormed generalizing rest with
  | simple cr lf =>
      rename_i line
      have noText : decode? line = none := by simpa [legible, Reply.lines] using bad
      rw [Reply.wire, frame, List.cons_append, Pull.fails_congr (readResp_simple _),
        Pull.fails_map_iff, List.append_assoc]
      exact readLine_fails noText lf rest
  | error cr lf =>
      rename_i line
      have noText : decode? line = none := by simpa [legible, Reply.lines] using bad
      rw [Reply.wire, frame, List.cons_append, Pull.fails_congr (readResp_err _),
        Pull.fails_map_iff, List.append_assoc]
      exact readLine_fails noText lf rest
  | int n => cases bad
  | bulk room => cases bad
  | nullBulk => cases bad
  | arr room parts ih =>
      rename_i items
      have items_fail := times_fails_of_illegible parts (fun x among dirty => ih x among dirty) bad rest
      have split : Reply.wire (.arr items) ++ rest =
          42 :: (count items.length ++ [13, 10] ++ (wires items ++ rest)) := by
        simp [Reply.wire, frame]
      have short : items.length < 2 ^ 63 := by omega
      rw [split, Pull.fails_congr (readResp_arr _),
        Pull.fails_bind_iff_of_ok (readLine_digits (fun _ => numberByte_count) _), count,
        parseI64?_writeDigits short, Option.getD_some, arrOf_ofInt room, Pull.fails_map_iff]
      exact items_fail
  | nullArr => cases bad

/-! ## Cuts inside a line -/

/-- On the input a reader leaves nothing unread and does not panic, and it notices a cut or
not. -/
structure CutAs {α : Type} (r : Incoming α) (input : Bytes) (noticed : Bool) : Prop where
  drains : r.Drains input
  returns : r.FailsOnly Returned input
  fails_iff : r.Fails Returned input ↔ noticed = true

theorem cutAs_of_fails {α : Type} {r : Incoming α} {input : Bytes}
    (fails : r.Fails Returned input) : CutAs r input true :=
  ⟨fails.drains, fails.failsOnly, iff_of_true fails rfl⟩

theorem cutAs_of_ok {α : Type} {r : Incoming α} {input : Bytes} {v : α}
    (read : r.run input = .ok (v, [])) : CutAs r input false := by
  refine ⟨fun w rest same => ?_, Pull.failsOnly_of_ok read,
    iff_of_false (Pull.not_fails_of_ok read) Bool.false_ne_true⟩
  rw [read] at same
  cases same
  rfl

theorem cutAs_congr {α : Type} {r : Incoming α} {other : Incoming α} {input image : Bytes}
    (same : r.run input = other.run image) (noticed : Bool) :
    CutAs r input noticed ↔ CutAs other image noticed := by
  constructor
  · rintro ⟨drains, returns, fails⟩
    exact ⟨(Pull.drains_congr same).mp drains, (Pull.failsOnly_congr same).mp returns,
      (Pull.fails_congr same).symm.trans fails⟩
  · rintro ⟨drains, returns, fails⟩
    exact ⟨(Pull.drains_congr same).mpr drains, (Pull.failsOnly_congr same).mpr returns,
      (Pull.fails_congr same).trans fails⟩

theorem newline_not_mem_cut {line : Bytes} (lf : 10 ∉ line) (k : Nat) :
    NL ∉ (line ++ [13]).take k := by
  intro among
  have whole := List.mem_of_mem_take among
  simp only [List.mem_append, List.mem_singleton] at whole
  rcases whole with inside | cr
  · exact lf inside
  · exact absurd cr (by decide)

/-- A line that is passed on is noticed to be cut when it is no text. -/
theorem cutAs_readLine {line : Bytes} (lf : 10 ∉ line) (wrap : String → Resp) (k : Nat) :
    CutAs (readLine >>= fun s => pure (wrap s)) ((line ++ [13]).take k)
      (decode? ((line ++ [13]).take k)).isNone := by
  have free := newline_not_mem_cut lf k
  cases text : decode? ((line ++ [13]).take k) with
  | none => exact cutAs_of_fails ((readLine_end_fails text free).bind _)
  | some s => exact cutAs_of_ok (Pull.run_bind_of_ok (readLine_end text free) _)

/-- A number that is cut is read as its first digits. -/
theorem readLine_cut_digits {digits : Bytes} (numeric : ∀ b ∈ digits, numberByte b = true)
    (k : Nat) : readLine.run ((digits ++ [13]).take k) =
      .ok (String.ofList ((digits.take k).map asciiChar), []) := by
  have free := newline_not_mem_cut (newline_not_mem_digits numeric) k
  by_cases inside : k ≤ digits.length
  · have part : ∀ b ∈ digits.take k, numberByte b = true :=
      fun b among => numeric b (List.mem_of_mem_take among)
    rw [List.take_append_of_le_length inside] at free ⊢
    rw [readLine_end (decode?_digits part) free, trimEnd_digits part]
  · have whole : (digits ++ [13]).take k = digits ++ [13] :=
      List.take_of_length_le (by rw [List.length_append, List.length_singleton]; omega)
    have decoded := decode?_concat (decode?_digits numeric) (show (13 : UInt8) < 128 by decide)
    rw [whole] at free ⊢
    rw [readLine_end decoded free, trimEnd_push (by decide), trimEnd_digits numeric,
      List.take_of_length_le (by omega)]

/-! ## Cuts of each kind of reply -/

/-- A number without its first digit is no number, a null without its first
digit is none either, and both have the default that stands for null. -/
theorem minusOne_cut (k : Nat) (default : Int64) :
    (parseI64? (String.ofList ((([45, 49] : Bytes).take k).map asciiChar))).getD default = default ∨
      (parseI64? (String.ofList ((([45, 49] : Bytes).take k).map asciiChar))).getD default = -1 := by
  have table : ∀ k < 2,
      parseI64? (String.ofList ((([45, 49] : Bytes).take k).map asciiChar)) = none := by
    decide +kernel
  by_cases short : k < 2
  · rw [table k short]
    exact Or.inl rfl
  · have whole : ([45, 49] : Bytes).length ≤ k := Nat.not_lt.mp short
    rw [List.take_of_length_le whole, parseI64?_minusOne]
    exact Or.inr rfl

theorem cutAs_int (n : Int64) (k : Nat) :
    CutAs readResp (58 :: (signed n ++ [13]).take k) false := by
  rw [cutAs_congr (readResp_int _), signed_eq_itoa]
  exact cutAs_of_ok (Pull.run_bind_of_ok (readLine_cut_digits (fun _ => itoa_numberByte) k) _)

theorem cutAs_nullBulk (k : Nat) : CutAs readResp (36 :: (([45, 49] : Bytes) ++ [13]).take k) false := by
  rw [cutAs_congr (readResp_bulk _)]
  have line := readLine_cut_digits numberByte_minusOne k
  have null : ∀ n : Int64, n = -1 ∨ n = -1 → (bulkOf n).run [] = .ok (.bulk none, []) := by
    rintro n (rfl | rfl) <;> rfl
  exact cutAs_of_ok ((Pull.run_bind_of_ok line _).trans (null _ (minusOne_cut k (-1))))

/-- Nothing is read of an array whose count is not positive. -/
theorem arrOf_run_nil {n : Int64} (none_counted : n.toInt ≤ 0) :
    (arrOf n).run [] = .ok (.arr [], []) := by
  have counted := Int.toNat_of_nonpos none_counted
  rw [arrOf_eq (counted ▸ Nat.two_pow_pos 58), counted]
  rfl

theorem cutAs_nullArr (k : Nat) : CutAs readResp (42 :: (([45, 49] : Bytes) ++ [13]).take k) false := by
  rw [cutAs_congr (readResp_arr _)]
  have line := readLine_cut_digits numberByte_minusOne k
  have none_counted : ∀ n : Int64, n = 0 ∨ n = -1 → n.toInt ≤ 0 := by
    rintro n (rfl | rfl) <;> decide
  exact cutAs_of_ok ((Pull.run_bind_of_ok line _).trans
    (arrOf_run_nil (none_counted _ (minusOne_cut k 0))))

theorem cutAs_bulk_line {data : Bytes} (room : data.length + 2 < 2 ^ 63) (k : Nat) :
    CutAs readResp (36 :: (count data.length ++ [13]).take k) (decide (0 < k)) := by
  rw [cutAs_congr (readResp_bulk _)]
  have line := readLine_cut_digits (fun _ => numberByte_count (n := data.length)) k
  by_cases some_left : 0 < k
  · have short : data.length < 2 ^ 63 := by omega
    obtain ⟨m, below, -, value⟩ := exists_parseI64?_take short some_left
    rw [decide_eq_true some_left]
    apply cutAs_of_fails
    rw [Pull.fails_bind_iff_of_ok line, count, value, Option.getD_some,
      bulkOf_ofInt (by omega), Pull.fails_map_iff]
    exact readExact_fails (by omega) (Nat.succ_pos _)
  · rw [decide_eq_false some_left]
    apply cutAs_of_ok (v := .bulk none)
    rw [Pull.run_bind_of_ok line, Nat.le_zero.mp (Nat.not_lt.mp some_left)]
    rfl

theorem cutAs_bulk_data {data : Bytes} (room : data.length + 2 < 2 ^ 63) {k : Nat}
    (short : k < data.length + 2) :
    CutAs readResp (frame 36 (count data.length) ((data ++ [13, 10]).take k)) true := by
  have header := readLine_digits (fun _ => numberByte_count (n := data.length))
    ((data ++ [13, 10]).take k)
  have split : frame 36 (count data.length) ((data ++ [13, 10]).take k) =
      36 :: (count data.length ++ [13, 10] ++ (data ++ [13, 10]).take k) := by
    simp [frame]
  have held : data.length < 2 ^ 63 := by omega
  apply cutAs_of_fails
  rw [split, Pull.fails_congr (readResp_bulk _), Pull.fails_bind_iff_of_ok header, count,
    parseI64?_writeDigits held, Option.getD_some, bulkOf_ofInt held, Pull.fails_map_iff]
  apply readExact_fails room
  rw [List.length_take]
  omega

theorem cutAs_arr_line {items : List Reply} (room : items.length < 2 ^ 58) (k : Nat) :
    CutAs readResp (42 :: (count items.length ++ [13]).take k)
      (decide (0 < k) && !items.isEmpty) := by
  rw [cutAs_congr (readResp_arr _)]
  have line := readLine_cut_digits (fun _ => numberByte_count (n := items.length)) k
  by_cases some_left : 0 < k
  · have short : items.length < 2 ^ 63 := by omega
    obtain ⟨m, below, positive, value⟩ := exists_parseI64?_take short some_left
    have few : m < 2 ^ 58 := by omega
    rw [decide_eq_true some_left, Bool.true_and]
    cases items with
    | nil =>
        apply cutAs_of_ok
        rw [Pull.run_bind_of_ok line, count, value, Option.getD_some]
        apply arrOf_run_nil
        rw [toInt_ofInt_small (by omega)]
        exact Int.natCast_le_zero.mpr (Nat.le_zero.mp below)
    | cons item items =>
        have asked := positive (Nat.succ_pos _)
        apply cutAs_of_fails
        rw [Pull.fails_bind_iff_of_ok line, count, value, Option.getD_some, arrOf_ofInt few,
          Pull.fails_map_iff]
        obtain ⟨later, rfl⟩ := Nat.exists_eq_succ_of_ne_zero (Nat.ne_of_gt asked)
        exact readResp_nil.bind _
  · rw [decide_eq_false some_left, Bool.false_and]
    apply cutAs_of_ok (v := .arr [])
    rw [Pull.run_bind_of_ok line, Nat.le_zero.mp (Nat.not_lt.mp some_left)]
    rfl

/-- A cut among items, when the cuts of each item are known. -/
theorem cutAs_items {items : List Reply} (parts : ∀ item ∈ items, item.WellFormed)
    (known : ∀ item ∈ items, ∀ k < item.wire.length,
      CutAs readResp (item.wire.take k) (cutNoticed item k))
    {k : Nat} (short : k < (wires items).length) :
    CutAs (Pull.times items.length readResp) ((wires items).take k) (itemsCutNoticed items k) := by
  induction items generalizing k with
  | nil => exact absurd short (Nat.not_lt_zero k)
  | cons item items ih =>
      rw [itemsCutNoticed, wires, List.length_cons]
      by_cases here : k < item.wire.length
      · obtain ⟨drains, returns, fails⟩ := known item List.mem_cons_self k here
        rw [if_pos here, List.take_append_of_le_length (Nat.le_of_lt here)]
        refine ⟨drains.times_succ readResp_nil _, returns.times_succ drains readResp_nil _, ?_⟩
        rw [Pull.fails_times_succ_iff drains returns readResp_nil, fails]
        cases items with
        | nil => simp
        | cons next items => simp
      · have split : k = item.wire.length + (k - item.wire.length) := by omega
        rw [wires, List.length_append] at short
        rw [if_neg here, split, List.take_length_add_append, Nat.add_sub_cancel_left]
        by_cases good : legible item = true
        · obtain ⟨v, reads⟩ := exists_reads (parts item List.mem_cons_self) good
          obtain ⟨drains, returns, fails⟩ := ih (fun x among => parts x (List.mem_cons_of_mem item among))
            (fun x among => known x (List.mem_cons_of_mem item among))
            (show k - item.wire.length < (wires items).length by omega)
          rw [good, Bool.not_true, Bool.false_or]
          exact ⟨drains.times_behind reads, returns.times_behind reads,
            (Pull.fails_times_behind_iff reads _ _).trans fails⟩
        · have bad := Bool.eq_false_iff.mpr good
          have never := fails_of_illegible (parts item List.mem_cons_self) bad
          rw [bad, Bool.not_false, Bool.true_or]
          exact cutAs_of_fails ((never _).bind _)

theorem cutAs_arr_items {items : List Reply} (room : items.length < 2 ^ 58) {k : Nat}
    {noticed : Bool}
    (cut : CutAs (Pull.times items.length readResp) ((wires items).take k) noticed) :
    CutAs readResp (frame 42 (count items.length) ((wires items).take k)) noticed := by
  obtain ⟨drains, returns, fails⟩ := cut
  have short : items.length < 2 ^ 63 := by omega
  have header := readLine_digits (fun _ => numberByte_count (n := items.length))
    ((wires items).take k)
  have split : frame 42 (count items.length) ((wires items).take k) =
      42 :: (count items.length ++ [13, 10] ++ (wires items).take k) := by
    simp [frame]
  have same : readResp.run (frame 42 (count items.length) ((wires items).take k)) =
      (Pull.times items.length readResp >>= fun items => pure (Resp.arr items)).run
        ((wires items).take k) := by
    rw [split, readResp_arr, Pull.run_bind_of_ok header, count, parseI64?_writeDigits short,
      Option.getD_some, arrOf_ofInt room]
  rw [cutAs_congr same]
  exact ⟨drains.bind fun items => Pull.drains_pure_nil _,
    returns.bind fun items rest _ => Pull.failsOnly_pure _ rest,
    (Pull.fails_map_iff _ _ _).trans fails⟩

/-! ## Every cut -/

/-- The cut of a frame falls before its tag, in its line or in its payload. -/
theorem cut_frame {P : Bytes → Nat → Prop} (tag : UInt8) (line payload : Bytes)
    (nothing : P [] 0)
    (in_line : ∀ k ≤ line.length + 1, P (tag :: (line ++ [13]).take k) (k + 1))
    (in_payload : ∀ k < payload.length,
      P (frame tag line (payload.take k)) (line.length + 3 + k))
    {k : Nat} (short : k < (frame tag line payload).length) :
    P ((frame tag line payload).take k) k := by
  rw [length_frame] at short
  cases k with
  | zero => exact nothing
  | succ k =>
      by_cases inside : k ≤ line.length + 1
      · rw [take_frame_line tag payload inside]
        exact in_line k inside
      · have split : k + 1 = line.length + 3 + (k - line.length - 2) := by omega
        rw [split, take_frame_payload]
        exact in_payload _ (by omega)

theorem cutAs_nothing : CutAs readResp [] true :=
  cutAs_of_fails readResp_nil

/-- What a cut of a reply leaves unread, and whether it is noticed. -/
theorem cutAs_reply {reply : Reply} (wellFormed : reply.WellFormed) {k : Nat}
    (short : k < reply.wire.length) :
    CutAs readResp (reply.wire.take k) (cutNoticed reply k) := by
  induction wellFormed generalizing k with
  | simple cr lf =>
      rename_i line
      refine cut_frame (P := fun part k => CutAs readResp part (cutNoticed (.simple line) k))
        43 line [] ?_ ?_ ?_ short
      · exact cutAs_nothing
      · intro k _
        rw [cutNoticed, cutAs_congr (readResp_simple _)]
        exact cutAs_readLine lf .simple k
      · exact fun k inside => absurd inside (Nat.not_lt_zero k)
  | error cr lf =>
      rename_i line
      refine cut_frame (P := fun part k => CutAs readResp part (cutNoticed (.error line) k))
        45 line [] ?_ ?_ ?_ short
      · exact cutAs_nothing
      · intro k _
        rw [cutNoticed, cutAs_congr (readResp_err _)]
        exact cutAs_readLine lf .err k
      · exact fun k inside => absurd inside (Nat.not_lt_zero k)
  | int n =>
      refine cut_frame (P := fun part k => CutAs readResp part (cutNoticed (.int n) k))
        58 (signed n) [] ?_ ?_ ?_ short
      · exact cutAs_nothing
      · exact fun k _ => cutAs_int n k
      · exact fun k inside => absurd inside (Nat.not_lt_zero k)
  | bulk room =>
      rename_i data
      refine cut_frame (P := fun part k => CutAs readResp part (cutNoticed (.bulk data) k))
        36 (count data.length) (data ++ [13, 10]) ?_ ?_ ?_ short
      · exact cutAs_nothing
      · exact fun k _ => cutAs_bulk_line room k
      · intro k inside
        rw [List.length_append] at inside
        have noticed : cutNoticed (.bulk data) ((count data.length).length + 3 + k) = true := by
          rw [Nat.add_right_comm, cutNoticed]
          exact decide_eq_true (by omega)
        rw [noticed]
        exact cutAs_bulk_data room inside
  | nullBulk =>
      refine cut_frame (P := fun part k => CutAs readResp part (cutNoticed .nullBulk k))
        36 [45, 49] [] ?_ ?_ ?_ short
      · exact cutAs_nothing
      · exact fun k _ => cutAs_nullBulk k
      · exact fun k inside => absurd inside (Nat.not_lt_zero k)
  | arr room parts ih =>
      rename_i items
      refine cut_frame (P := fun part k => CutAs readResp part (cutNoticed (.arr items) k))
        42 (count items.length) (wires items) ?_ ?_ ?_ short
      · exact cutAs_nothing
      · intro k inside
        rw [cutNoticed, if_pos (by omega)]
        exact cutAs_arr_line room k
      · intro k inside
        have noticed : cutNoticed (.arr items) ((count items.length).length + 3 + k) =
            itemsCutNoticed items k := by
          rw [Nat.add_right_comm, cutNoticed, if_neg (by omega)]
          congr 1
          omega
        rw [noticed]
        exact cutAs_arr_items room
          (cutAs_items parts (fun item among _ within => ih item among within) inside)
  | nullArr =>
      refine cut_frame (P := fun part k => CutAs readResp part (cutNoticed .nullArr k))
        42 [45, 49] [] ?_ ?_ ?_ short
      · exact cutAs_nothing
      · exact fun k _ => cutAs_nullArr k
      · exact fun k inside => absurd inside (Nat.not_lt_zero k)

/-- The reader returns an error exactly for the cuts that it notices. -/
theorem readResp_cut_fails_iff {reply : Reply} (wellFormed : reply.WellFormed) {k : Nat}
    (cut : k < reply.wire.length) :
    readResp.Fails Returned (reply.wire.take k) ↔ cutNoticed reply k = true :=
  (cutAs_reply wellFormed cut).fails_iff

theorem readResp_cut_fails_iff_bulk :
    readResp.Fails Returned ((Reply.arr [.int 5, .bulk [1, 2]]).wire.take 10) ↔
      cutNoticed (.arr [.int 5, .bulk [1, 2]]) 10 = true := by
  have parts : ∀ item ∈ [Reply.int 5, .bulk [1, 2]], item.WellFormed := by
    simp [Reply.WellFormed.int, Reply.WellFormed.bulk]
  exact readResp_cut_fails_iff (.arr (by decide) parts) (by decide +kernel)

/-- The count 123 is read as 12 when the connection ends behind its second digit. -/
theorem not_every_cut_fails :
    ¬ ∀ reply : Reply, reply.WellFormed → ∀ k < reply.wire.length,
      readResp.Fails Returned (reply.wire.take k) := by
  intro every
  have cut : (Reply.int 123).wire.take 3 = [58, 49, 50] := by decide +kernel
  have fails := every (.int 123) (.int 123) 3 (by decide +kernel)
  rw [cut] at fails
  have read : readResp.run [58, 49, 50] = .ok (.int 12, []) := rfl
  exact Pull.not_fails_of_ok read fails

end Shrt.Kv
