import Mathlib.Data.List.Basic
import Shrt.Http.Local
import Shrt.Lib.Slices

/-!
# The slices of the router

The router cuts its path at the first question mark, behind a prefix that it
has tested, and behind the first byte.  The first two cuts are always between
characters.  The third is not, and then the handler panics.
-/

namespace Shrt.Http

open Shrt.Codec Shrt.Lib Shrt.Lib.Slices
open Shrt.Store (World)

/-- A text starts with a character of one byte. -/
def StartsPlain (s : String) : Prop :=
  ∃ c cs, s.toList = c :: cs ∧ c.utf8Size = 1

/-- The path and the query are the slices around the first question mark. -/
theorem splitQuery_slices (path : String) :
    match findByte? '?' path.toList with
    | some i =>
        sliceTo? path i = some (splitQuery path).1 ∧
          sliceFrom? path (i + 1) = some (splitQuery path).2
    | none => splitQuery path = (path, "") := by
  rw [findByte?_eq, splitQuery, List.span_eq_takeWhile_dropWhile]
  have parts := List.takeWhile_append_dropWhile (p := fun c => decide (c ≠ '?')) (l := path.toList)
  by_cases query : '?' ∈ path.toList
  · rw [if_pos query]
    cases rest : path.toList.dropWhile fun c => decide (c ≠ '?') with
    | nil =>
        have none_left := List.dropWhile_eq_nil_iff.mp rest _ query
        simp at none_left
    | cons c cs =>
        have mark : c = '?' := by
          have stops := List.head?_dropWhile_not (fun c => decide (c ≠ '?')) path.toList
          rw [rest] at stops
          simpa using stops
        rw [rest, mark] at parts
        refine ⟨sliceTo?_of_append parts.symm, ?_⟩
        have behind : path.toList =
            (path.toList.takeWhile (fun c => decide (c ≠ '?')) ++ ['?']) ++ cs := by
          rw [List.append_assoc]
          exact parts.symm
        have length := sliceFrom?_of_append behind
        rw [utf8Length_append] at length
        exact length
  · rw [if_neg query]
    have all : ∀ c ∈ path.toList, decide (c ≠ '?') = true := by
      intro c member
      have differs : c ≠ '?' := fun same => query (same ▸ member)
      simpa using differs
    have whole : path.toList.takeWhile (fun c => decide (c ≠ '?')) = path.toList :=
      List.takeWhile_eq_self_iff.mpr all
    have rest : path.toList.dropWhile (fun c => decide (c ≠ '?')) = [] :=
      List.dropWhile_eq_nil_iff.mpr all
    simp only [whole, rest, List.drop_nil, String.ofList_toList]

/-- The slice behind a prefix that was tested. -/
theorem stripPrefix?_slice (lead s : String) :
    stripPrefix? lead s =
      if lead.toList.isPrefixOf s.toList then sliceFrom? s (utf8Length lead.toList) else none := by
  rw [stripPrefix?]
  split
  · rename_i starts
    obtain ⟨rest, whole⟩ := List.isPrefixOf_iff_prefix.mp starts
    rw [sliceFrom?_of_append whole.symm, ← whole, List.drop_left]
  · rfl

theorem tail?_slice (s : String) : tail? s = sliceFrom? s 1 :=
  (sliceFrom?_one s).symm

theorem tail?_isSome_iff (s : String) : (tail? s).isSome ↔ StartsPlain s := by
  rw [tail?, StartsPlain]
  cases s.toList with
  | nil => simp
  | cons c cs =>
      by_cases single : c.utf8Size = 1
      · simp [single]
      · simp [single]

section Routes

variable {σ : Type} {ext : Ext} {cfg : Config} {out : Outside} {ops : Ops σ} {s : σ}

theorem shortenOne_ne_panicked (p : ShortenReq) : shortenOne ext cfg ops s p ≠ .panicked := by
  rw [shortenOne]
  split
  · simp
  · split
    · simp
    split
    · simp
    split
    · simp
    · simp only
      generalize ops.shorten s _ _ _ = made
      cases made with
      | none => simp
      | some done =>
          obtain ⟨code, after⟩ := done
          cases code with
          | none => simp
          | some code => simp

theorem shortenBulk_ne_panicked (p : BulkReq) : shortenBulk cfg ops s p ≠ .panicked := by
  rw [shortenBulk]
  split
  · simp
  · split
    · simp
    split
    · simp
    · simp

theorem routePost_ne_panicked (pathname : String) (body : Bytes) (client : String) :
    routePost ext cfg out ops s pathname body client ≠ .panicked := by
  rw [routePost]
  split
  · split
    · simp
    split
    · simp
    · exact shortenOne_ne_panicked _
  split
  · split
    · simp
    split
    · simp
    · exact shortenBulk_ne_panicked _
  · simp

theorem routePatch_ne_panicked (code : String) (body : Bytes) :
    routePatch ext cfg ops s code body ≠ .panicked := by
  rw [routePatch]
  split
  · simp
  split
  · simp
  split
  · simp
  · simp [mutated]

theorem routeAdmin_ne_panicked (isDelete : Bool) (pathname : String) (body : Bytes)
    (token : String) : routeAdmin ext cfg ops s isDelete pathname body token ≠ .panicked := by
  rw [routeAdmin]
  split
  · simp
  split
  · simp
  split
  · simp
  split
  · simp [mutated]
  · exact routePatch_ne_panicked _ _

/-- Of the replies to `GET` only those behind the slice need it. -/
theorem routeGet_panicked_iff (pathname query : String) :
    routeGet ext cfg out ops s pathname query = .panicked ↔ ¬ StartsPlain pathname := by
  by_cases plain : StartsPlain pathname
  · have some_code := (tail?_isSome_iff pathname).mpr plain
    refine iff_of_false ?_ (not_not.mpr plain)
    rw [routeGet]
    split
    · simp
    split
    · simp
    split
    · simp
    split
    · simp
    split
    · simp [listLinks]
    split
    · simp
    split
    · rename_i no_code
      rw [no_code] at some_code
      cases some_code
    split
    · cases ops.resolve s _ with
      | mk target after =>
          cases target with
          | none => simp
          | some url => simp
    · simp
  · have no_code : tail? pathname = none :=
      Option.not_isSome_iff_eq_none.mp (mt (tail?_isSome_iff pathname).mp plain)
    have differs : ∀ {route : String}, (tail? route).isSome → pathname ≠ route := by
      rintro route starts rfl
      exact plain ((tail?_isSome_iff pathname).mp starts)
    have no_stats : stripPrefix? "/api/stats/" pathname = none := by
      rw [stripPrefix?, if_neg]
      intro starts
      obtain ⟨rest, whole⟩ := List.isPrefixOf_iff_prefix.mp starts
      exact plain ⟨'/', _, whole.symm, by decide⟩
    refine iff_of_true ?_ plain
    rw [routeGet, if_neg (differs (by decide)), if_neg (differs (by decide)),
      if_neg (differs (by decide)), if_neg (differs (by decide)), if_neg (differs (by decide)),
      no_stats, no_code]

/-- The router panics on exactly those `GET` requests whose path is empty, up to
the query, or starts with a character of more than one byte. -/
theorem route_panicked_iff (method path : String) (body : Bytes) (token client : String) :
    route ext cfg out ops s method path body token client = .panicked ↔
      method = "GET" ∧ ¬ StartsPlain (splitQuery path).1 := by
  rw [route]
  split
  · rename_i options
    subst options
    simp
  split
  · rename_i get
    rw [routeGet_panicked_iff]
    simp [get]
  · rename_i other
    have never : ∀ {h : Handled σ}, h ≠ .panicked → (h = .panicked ↔
        method = "GET" ∧ ¬ StartsPlain (splitQuery path).1) := by
      intro h smooth
      exact iff_of_false smooth fun both => other both.1
    split
    · exact never (routePost_ne_panicked _ _ _)
    split
    · exact never (routeAdmin_ne_panicked _ _ _ _)
    split
    · exact never (routeAdmin_ne_panicked _ _ _ _)
    · exact never (by simp)

/-- A request target that is only a query. -/
theorem route_panics_on_query :
    serve (oneUrl "" none) openConfig .memory (get 1000 "?x") = .panicked := by
  have empty : splitQuery "?x" = ("", "x") := by decide +kernel
  have starts : ¬ StartsPlain "" := by
    rw [← tail?_isSome_iff]
    decide
  simp only [serve, route, get, empty, String.reduceEq, if_true, if_false]
  exact (routeGet_panicked_iff _ _).mpr starts

end Routes

end Shrt.Http
