import Mathlib.Data.List.Basic
import Mathlib.Tactic.Linarith

/-!
# UTF-8 text as byte lists

`encode` gives the bytes of a string.  `decodeLossy` reads any byte list as
text: a well-formed character is decoded, a maximal ill-formed subsequence
becomes one replacement character.  On the encoding of a string both the
lossy and the strict decoder give the string back.
-/

namespace Shrt.Lib.Utf8

def encode (s : String) : List UInt8 :=
  s.toList.flatMap String.utf8EncodeChar

/-- The character whose encoding starts the byte list, if there is one. -/
def decodeChar? (b : List UInt8) : Option Char :=
  ByteArray.utf8DecodeChar? b.toByteArray 0

def isCont (b : UInt8) : Bool :=
  0x80 ≤ b && b ≤ 0xBF

def isLead4 (b : UInt8) : Bool :=
  0xF0 ≤ b && b ≤ 0xF4

/-- The second bytes that can follow the lead byte of three or four bytes. -/
def secondOk (b0 b1 : UInt8) : Bool :=
  (b0 == 0xE0 && 0xA0 ≤ b1 && b1 ≤ 0xBF) ||
  (0xE1 ≤ b0 && b0 ≤ 0xEC && isCont b1) ||
  (b0 == 0xED && 0x80 ≤ b1 && b1 ≤ 0x9F) ||
  (0xEE ≤ b0 && b0 ≤ 0xEF && isCont b1) ||
  (b0 == 0xF0 && 0x90 ≤ b1 && b1 ≤ 0xBF) ||
  (0xF1 ≤ b0 && b0 ≤ 0xF3 && isCont b1) ||
  (b0 == 0xF4 && 0x80 ≤ b1 && b1 ≤ 0x8F)

/-- Bytes of the maximal ill-formed subsequence in front of a byte list that
does not start with a character. -/
def badLength : List UInt8 → Nat
  | b0 :: b1 :: b2 :: _ =>
      if secondOk b0 b1 then (if isLead4 b0 && isCont b2 then 3 else 2) else 1
  | b0 :: b1 :: _ => if secondOk b0 b1 then 2 else 1
  | _ => 1

/-- Lossy decoding; the counter is the number of bytes that belong to the
character or the ill-formed subsequence already emitted. -/
def decodeLossyFrom : Nat → List UInt8 → List Char
  | _, [] => []
  | skip + 1, _ :: bs => decodeLossyFrom skip bs
  | 0, b :: bs =>
      match decodeChar? ((b :: bs).take 4) with
      | some c => c :: decodeLossyFrom (c.utf8Size - 1) bs
      | none => '\uFFFD' :: decodeLossyFrom (badLength (b :: bs) - 1) bs

/-- Decode with ill-formed input replaced. -/
def decodeLossy (b : List UInt8) : String :=
  String.ofList (decodeLossyFrom 0 b)

/-- Decode, refusing ill-formed input. -/
def decode? (b : List UInt8) : Option String :=
  if encode (decodeLossy b) = b then some (decodeLossy b) else none

@[simp] theorem decodeLossyFrom_append (done bs : List UInt8) :
    decodeLossyFrom done.length (done ++ bs) = decodeLossyFrom 0 bs := by
  induction done with
  | nil => rfl
  | cons b done ih => simpa [decodeLossyFrom] using ih

theorem decodeChar?_encode_append (c : Char) (bs : List UInt8) :
    decodeChar? (String.utf8EncodeChar c ++ bs) = some c := by
  rw [decodeChar?, List.toByteArray_append]
  exact ByteArray.utf8DecodeChar?_utf8EncodeChar_append

/-- The encoding of one character in front is decoded and consumed. -/
theorem decodeLossyFrom_encodeChar (c : Char) (bs : List UInt8) :
    decodeLossyFrom 0 (String.utf8EncodeChar c ++ bs) =
      c :: decodeLossyFrom 0 bs := by
  have size : (String.utf8EncodeChar c).length = c.utf8Size :=
    String.length_utf8EncodeChar c
  have bound := c.utf8Size_le_four
  have taken : (String.utf8EncodeChar c ++ bs).take 4 =
      String.utf8EncodeChar c ++ bs.take (4 - c.utf8Size) := by
    rw [List.take_append, List.take_of_length_le (by omega), size]
  have found : decodeChar? ((String.utf8EncodeChar c ++ bs).take 4) = some c := by
    rw [taken]
    exact decodeChar?_encode_append c _
  cases shape : String.utf8EncodeChar c with
  | nil =>
      have := c.utf8Size_pos
      simp [shape] at size
      omega
  | cons first more =>
      rw [shape] at found size
      simp only [List.cons_append] at found ⊢
      rw [decodeLossyFrom, found]
      simp only [List.length_cons] at size
      have consumed : c.utf8Size - 1 = more.length := by omega
      simp only [consumed, decodeLossyFrom_append]

theorem decodeLossyFrom_encode (cs : List Char) :
    decodeLossyFrom 0 (cs.flatMap String.utf8EncodeChar) = cs := by
  induction cs with
  | nil => rfl
  | cons c cs ih =>
      rw [List.flatMap_cons, decodeLossyFrom_encodeChar, ih]

/-- Decoding undoes encoding. -/
@[simp] theorem decodeLossy_encode (s : String) : decodeLossy (encode s) = s := by
  simp [decodeLossy, encode, decodeLossyFrom_encode]

@[simp] theorem decode?_encode (s : String) : decode? (encode s) = some s := by
  simp [decode?]

theorem encode_injective : Function.Injective encode := by
  intro s t same
  rw [← decodeLossy_encode s, same, decodeLossy_encode]

def asciiChar (b : UInt8) : Char :=
  Char.ofNat b.toNat

/-- A fact about every byte follows from its 256 numeric instances. -/
theorem forall_byte {P : UInt8 → Prop} (table : ∀ n < 256, P (UInt8.ofNat n))
    (b : UInt8) : P b := by
  have instance_b := table b.toNat b.toNat_lt
  rwa [UInt8.ofNat_toNat] at instance_b

theorem utf8EncodeChar_asciiChar {b : UInt8} (ascii : b < 128) :
    String.utf8EncodeChar (asciiChar b) = [b] := by
  revert ascii
  apply forall_byte (P := fun b =>
    b < 128 → String.utf8EncodeChar (asciiChar b) = [b])
  decide +kernel

/-- ASCII bytes are the encoding of their characters. -/
theorem encode_ascii {bs : List UInt8} (ascii : ∀ b ∈ bs, b < 128) :
    encode (String.ofList (bs.map asciiChar)) = bs := by
  induction bs with
  | nil => rfl
  | cons b bs ih =>
      have tail := ih (fun x hx => ascii x (List.mem_cons_of_mem _ hx))
      have first := utf8EncodeChar_asciiChar (ascii b List.mem_cons_self)
      simp only [encode, String.toList_ofList, List.map_cons,
        List.flatMap_cons] at tail ⊢
      rw [first, tail]
      rfl

theorem decode?_ascii {bs : List UInt8} (ascii : ∀ b ∈ bs, b < 128) :
    decode? bs = some (String.ofList (bs.map asciiChar)) := by
  have h := decode?_encode (String.ofList (bs.map asciiChar))
  rwa [encode_ascii ascii] at h

/-! ## ASCII among other bytes -/

/-- A byte below 128 stands for itself and never inside a longer character. -/
theorem utf8EncodeChar_of_mem {c : Char} {b : UInt8} (among : b ∈ String.utf8EncodeChar c)
    (ascii : b < 128) : String.utf8EncodeChar c = [b] := by
  have low : b.toNat < 128 := UInt8.lt_iff_toNat_lt.mp ascii
  revert among
  fun_cases String.utf8EncodeChar with
  | case1 =>
      intro among
      rw [List.mem_singleton.mp among]
  | _ =>
      intro among
      have value : b.toNat = b.toNat % 256 := (Nat.mod_eq_of_lt b.toNat_lt).symm
      simp only [List.mem_cons, List.not_mem_nil, or_false, ← UInt8.toNat_inj,
        UInt8.toNat_ofNat'] at among
      omega

theorem mem_encode_iff {s : String} {b : UInt8} (ascii : b < 128) :
    b ∈ encode s ↔ asciiChar b ∈ s.toList := by
  rw [encode, List.mem_flatMap]
  constructor
  · rintro ⟨c, among, inside⟩
    have alone := utf8EncodeChar_of_mem inside ascii
    have same : String.ofList [c] = String.ofList [asciiChar b] := by
      apply encode_injective
      simp [encode, alone, utf8EncodeChar_asciiChar ascii]
    have char := congrArg String.toList same
    simp only [String.toList_ofList, List.cons.injEq, and_true] at char
    exact char ▸ among
  · intro among
    refine ⟨asciiChar b, among, ?_⟩
    rw [utf8EncodeChar_asciiChar ascii]
    exact List.mem_singleton_self b

theorem encode_append (s t : String) : encode (s ++ t) = encode s ++ encode t := by
  rw [encode, String.toList_append, List.flatMap_append, encode, encode]

theorem decode?_eq_some_iff {bs : List UInt8} {s : String} :
    decode? bs = some s ↔ encode s = bs := by
  constructor
  · intro read
    rw [decode?] at read
    split at read
    · rename_i same
      rw [← Option.some.inj read]
      exact same
    · cases read
  · rintro rfl
    exact decode?_encode s

/-- Text stays text when an ASCII byte follows it. -/
theorem decode?_concat {bs : List UInt8} {s : String} (read : decode? bs = some s) {b : UInt8}
    (ascii : b < 128) : decode? (bs ++ [b]) = some (s.push (asciiChar b)) := by
  rw [decode?_eq_some_iff] at read ⊢
  rw [← read, encode, String.toList_push, List.flatMap_append, encode]
  simp [utf8EncodeChar_asciiChar ascii]

/-- What is no text does not become text by an ASCII byte. -/
theorem decode?_concat_none {bs : List UInt8} (bad : decode? bs = none) {b : UInt8}
    (ascii : b < 128) : decode? (bs ++ [b]) = none := by
  cases whole : decode? (bs ++ [b]) with
  | none => rfl
  | some s =>
      exfalso
      have bytes := decode?_eq_some_iff.mp whole
      rw [encode] at bytes
      rcases List.eq_nil_or_concat s.toList with empty | ⟨front, last, split⟩
      · rw [empty] at bytes
        simp at bytes
      · rw [split, List.concat_eq_append, List.flatMap_append, List.flatMap_singleton] at bytes
        have ends : b ∈ String.utf8EncodeChar last := by
          have final := congrArg List.getLast? bytes
          rw [List.getLast?_append_of_ne_nil _ String.utf8EncodeChar_ne_nil,
            List.getLast?_concat] at final
          exact List.mem_of_getLast? final
        rw [utf8EncodeChar_of_mem ends ascii, List.append_cancel_right_eq] at bytes
        have text : decode? bs = some (String.ofList front) := by
          rw [decode?_eq_some_iff, encode, String.toList_ofList, bytes]
        rw [bad] at text
        cases text

end Shrt.Lib.Utf8
