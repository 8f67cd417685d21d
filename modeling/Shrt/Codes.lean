import Mathlib.Data.List.Basic
import Mathlib.Data.Vector.Basic
import Shrt.Codec.LogLine

/-!
# Short codes

A generated code is the instance's alphabet byte followed by seven random
base62 bytes; an alias is any word of up to 64 letters, digits, underscores
and hyphens.  Both are plain words: no byte of theirs means anything to the
log's scanner.
-/

namespace Shrt

open Shrt.Lib.Utf8 Shrt.Codec

def ALPHABET : Bytes :=
  encode "0123456789abcdefghijklmnopqrstuvwxyzABCDEFGHIJKLMNOPQRSTUVWXYZ"

def CODE_LEN : Nat := 8

def MAX_INSTANCES : Nat := 62

def NUM_SHARDS : Nat := 256

/-- The instance ids that `LocalStore::new` accepts, below `MAX_INSTANCES`. -/
abbrev Inst := Fin 62

instance (priority := high) instNeZeroInstances : NeZero 62 := ⟨by decide⟩

instance (priority := high) instLawfulBEqInst : LawfulBEq Inst := instLawfulBEq

/-- The id as the `i32` kept in every entry. -/
def Inst.i32 (i : Inst) : Int32 := Int32.ofNat i.val

/-- The id as the `i64` written to every line. -/
def Inst.i64 (i : Inst) : Int64 := i.i32.toInt64

def codeByte (b : UInt8) : Bool :=
  (48 ≤ b && b ≤ 57) || (65 ≤ b && b ≤ 90) || (97 ≤ b && b ≤ 122) ||
    b == 95 || b == 45

/-- `code_ok`, the check of every alias. -/
def codeOk (s : String) : Bool :=
  s ≠ "" && (encode s).length ≤ 64 && (encode s).all codeByte

/-- An alias that passed `code_ok`. -/
abbrev Alias := { a : String // codeOk a = true }

/-- An alias for the histories in later modules. -/
def promo : Alias := ⟨"promo", by decide⟩

/-- One fill of the random buffer. -/
abbrev Suffix := Vector UInt8 7

/-- The bytes of a code over an alphabet: that of the instance, and one for each random
byte. -/
def drawnBytes (alphabet : Bytes) (i : Inst) (buf : Suffix) : Bytes :=
  alphabet.getD i.val 0 :: buf.toList.map fun b => alphabet.getD (b.toNat % MAX_INSTANCES) 0

def drawnCode (alphabet : Bytes) (i : Inst) (buf : Suffix) : String :=
  String.ofList ((drawnBytes alphabet i buf).map asciiChar)

def alphabetByte (b : UInt8) : UInt8 :=
  ALPHABET.getD (b.toNat % MAX_INSTANCES) 0

def randSuffix (buf : Suffix) : Bytes :=
  buf.toList.map alphabetByte

/-- The alphabet byte that marks the instance's codes. -/
def prefixByte (i : Inst) : UInt8 :=
  ALPHABET.getD i.val 0

def genCode (i : Inst) (buf : Suffix) : String :=
  drawnCode ALPHABET i buf

/-- `alpha_idx`: the position of a byte in the alphabet. -/
def alphaIdx (c : UInt8) : Option Inst :=
  (List.finRange MAX_INSTANCES).find? fun i => prefixByte i == c

/-- FNV-1a over the code's bytes, reduced to a shard number. -/
def shardOf (code : String) : Nat :=
  ((encode code).foldl (fun h b => (h ^^^ b.toUInt32) * 16777619)
    (2166136261 : UInt32)).toNat % NUM_SHARDS

theorem shardOf_lt (code : String) : shardOf code < NUM_SHARDS :=
  Nat.mod_lt _ (by decide)

/-! ## Plain words -/

/-- Every byte of the word is a code byte and there is at least one. -/
structure Plain (c : String) : Prop where
  nonempty : c ≠ ""
  bytes : ∀ b ∈ encode c, codeByte b = true

theorem Plain.of_codeOk {c : String} (ok : codeOk c = true) : Plain c := by
  simp only [codeOk, Bool.and_eq_true, decide_eq_true_eq, List.all_eq_true] at ok
  exact ⟨ok.1.1, ok.2⟩

/-- A byte that no code holds. -/
theorem Plain.not_mem {c : String} (plain : Plain c) {b : UInt8}
    (special : codeByte b = false) : b ∉ encode c := by
  intro member
  have := plain.bytes b member
  simp [special] at this

theorem codeByte_lt {b : UInt8} (h : codeByte b = true) : b < 128 := by
  revert h
  apply forall_byte (P := fun b => codeByte b = true → b < 128)
  decide +kernel

/-- An alphabet of 62 code bytes. -/
structure Spells (alphabet : Bytes) : Prop where
  long : alphabet.length = MAX_INSTANCES
  bytes : ∀ b ∈ alphabet, codeByte b = true

namespace Spells

variable {alphabet : Bytes}

theorem codeByte_drawnBytes (spells : Spells alphabet) (i : Inst) (buf : Suffix) :
    ∀ b ∈ drawnBytes alphabet i buf, codeByte b = true := by
  have there : ∀ n < MAX_INSTANCES, codeByte (alphabet.getD n 0) = true := by
    intro n below
    rw [List.getD_eq_getElem?_getD, List.getElem?_eq_getElem (spells.long.symm ▸ below)]
    exact spells.bytes _ (List.getElem_mem _)
  intro b member
  rcases List.mem_cons.mp member with rfl | member
  · exact there _ i.isLt
  · obtain ⟨r, -, rfl⟩ := List.mem_map.mp member
    exact there _ (Nat.mod_lt _ (by decide))

theorem encode_drawnCode (spells : Spells alphabet) (i : Inst) (buf : Suffix) :
    encode (drawnCode alphabet i buf) = drawnBytes alphabet i buf :=
  encode_ascii fun b member => codeByte_lt (spells.codeByte_drawnBytes i buf b member)

theorem plain_drawnCode (spells : Spells alphabet) (i : Inst) (buf : Suffix) :
    Plain (drawnCode alphabet i buf) := by
  constructor
  · intro empty
    have bytes := spells.encode_drawnCode i buf
    rw [empty] at bytes
    cases bytes
  · intro b member
    rw [spells.encode_drawnCode] at member
    exact spells.codeByte_drawnBytes i buf b member

end Spells

theorem spells_alphabet : Spells ALPHABET where
  long := by decide +kernel
  bytes := by decide +kernel

/-- The bytes of a generated code. -/
theorem encode_genCode (i : Inst) (buf : Suffix) :
    encode (genCode i buf) = prefixByte i :: randSuffix buf :=
  spells_alphabet.encode_drawnCode i buf

theorem plain_genCode (i : Inst) (buf : Suffix) : Plain (genCode i buf) :=
  spells_alphabet.plain_drawnCode i buf

theorem Inst.i64_toInt32 (i : Inst) : i.i64.toInt32 = i.i32 :=
  Int32.toInt32_toInt64 i.i32

theorem Inst.i32_injective : Function.Injective Inst.i32 := by
  have table : ∀ i j : Inst, i.i32 = j.i32 → i = j := by decide +kernel
  exact fun i j => table i j

theorem Inst.i64_eq_iff {i j : Inst} : i.i64 = j.i64 ↔ i = j := by
  constructor
  · intro h
    apply Inst.i32_injective
    rw [← i.i64_toInt32, h, j.i64_toInt32]
  · rintro rfl
    rfl

end Shrt
