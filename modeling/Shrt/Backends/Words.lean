import Mathlib.Data.List.Basic
import Mathlib.Data.List.Perm.Basic
import Mathlib.Logic.Function.Basic
import Shrt.Http.App
import Shrt.Kv.Cached

/-!
# What codes stand for

Under each code stands a word: a url and the time at which it expires.  The calls of
a store read and write such words, and nothing else takes one away but its expiry.
-/

namespace Shrt.Backends

open Shrt.Kv
open Shrt.Http (Ops)
open Shrt.Store (MutResult)
open Shrt.Store.Inner (expiry)

/-- A url and when it expires, 0 for never. -/
structure Word where
  u : String
  e : Int64

abbrev Words := String → Option Word

namespace Words

def put (ws : Words) (code : String) (w : Word) : Words :=
  Function.update ws code (some w)

def drop (ws : Words) (code : String) : Words :=
  Function.update ws code none

/-- Put one after the other. -/
def puts (ws : Words) (made : List (String × Word)) : Words :=
  made.foldl (fun ws m => ws.put m.1 m.2) ws

theorem puts_append (ws : Words) (made made' : List (String × Word)) :
    ws.puts (made ++ made') = (ws.puts made).puts made' :=
  List.foldl_append ..

end Words

/-- The words are the same but for some that are gone and past their expiry. -/
def Lapsed (now : Int64) (ws ws' : Words) : Prop :=
  ∀ c, Lapses (fun w : Word => past w.e now = true) (ws c) (ws' c)

namespace Lapsed

variable {now : Int64} {ws ws' ws'' : Words}

theorem refl (now : Int64) (ws : Words) : Lapsed now ws ws :=
  fun _ => Or.inl rfl

theorem trans (first : Lapsed now ws ws') (second : Lapsed now ws' ws'') : Lapsed now ws ws'' :=
  fun c => (first c).trans (second c)

/-- What is set under one code is there, and the other words lapse at most. -/
theorem set (lapsed : Lapsed now ws ws') {code : String} {v : Option Word} (here : ws'' code = v)
    (others : ∀ c, c ≠ code → Lapses (fun w : Word => past w.e now = true) (ws' c) (ws'' c)) :
    Lapsed now (Function.update ws code v) ws'' := by
  intro c
  by_cases same : c = code
  · subst same
    rw [Function.update_self]
    exact Or.inl here
  · rw [Function.update_of_ne same]
    exact (lapsed c).trans (others c same)

/-- A word that is shown is the one that was put. -/
theorem shown (lapsed : Lapsed now ws ws') {c : String} {w : Word} (there : ws' c = some w) :
    ws c = some w := by
  rcases lapsed c with same | ⟨gone, -⟩
  · exact same.symm.trans there
  · rw [gone] at there
    cases there

/-- A word is shown or past its expiry. -/
theorem missing (lapsed : Lapsed now ws ws') {c : String} {w : Word} (there : ws c = some w) :
    ws' c = some w ∨ past w.e now = true := by
  rcases lapsed c with same | ⟨-, w', was, old⟩
  · exact Or.inl (same.trans there)
  · rw [there] at was
    cases was
    exact Or.inr old

theorem puts (lapsed : Lapsed now ws ws') (made : List (String × Word)) :
    Lapsed now (ws.puts made) (ws'.puts made) := by
  induction made generalizing ws ws' with
  | nil => exact lapsed
  | cons m made ih =>
      refine ih (lapsed.set (Function.update_self ..) fun c other => Or.inl ?_)
      exact Function.update_of_ne other _ _

end Lapsed

/-- A lapse of a value is one of what is seen of it. -/
theorem lapses_map {α β : Type} {old : α → Prop} {old' : β → Prop} {f : α → β}
    (carries : ∀ a, old a → old' (f a)) {v v' : Option α} (lapses : Lapses old v v') :
    Lapses old' (v.map f) (v'.map f) := by
  rcases lapses with same | ⟨gone, a, was, gone_by⟩
  · exact Or.inl (congrArg (Option.map f) same)
  · exact Or.inr ⟨congrArg (Option.map f) gone, f a, congrArg (Option.map f) was, carries a gone_by⟩

/-- Words that were made for these codes and urls, in some order; their time to live counts
from moments of the call. -/
structure Makes (clock : Nat → Int64) (ttl : Int64) (rows : List (String × String))
    (made : List (String × Word)) : Prop where
  rows : (made.map fun m => (m.1, m.2.u)).Perm rows
  times : ∀ m ∈ made, ∃ t, m.2.e = expiry (clock t) ttl

/-- Words that are all made at one moment, in the order of the rows. -/
theorem Makes.at_once (clock : Nat → Int64) (ttl : Int64) (rows : List (String × String))
    (t : Nat) :
    Makes clock ttl rows (rows.map fun cu => (cu.1, ⟨cu.2, expiry (clock t) ttl⟩)) where
  rows := by
    rw [List.map_map]
    exact .of_eq (List.map_id rows)
  times m among := by
    obtain ⟨cu, -, rfl⟩ := List.mem_map.mp among
    exact ⟨t, rfl⟩

/-- A call that resolves a code answers the word that stands there. -/
def Reads (ws : Words) (clock : Nat → Int64) (code : String) : Option String → Prop
  | some u => ∃ e, ws code = some ⟨u, e⟩ ∧ past e (clock 0) = false
  | none => ∀ w, ws code = some w → ∃ t, past w.e (clock t) = true

end Shrt.Backends
