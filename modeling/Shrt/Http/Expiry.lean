import Mathlib.Data.List.Basic
import Mathlib.Data.Rat.Floor
import Shrt.Http.Local

/-!
# The time to live of public links

A request may ask for a time to live in milliseconds, which is truncated to a
whole number and capped.  A number between zero and one passes the check that it
is positive and is then truncated to zero, which the store takes for a link that
never expires.  The sum of the clock and the time to live may leave 64 bits.
-/

namespace Shrt.Http

open Shrt.Codec Shrt.Lib Shrt.Lib.Utf8 Shrt.Store

/-! ## Creations that are answered with 201 -/

/-- The time to live that a request gives its link. -/
def cappedTtl (cfg : Config) (p : ShortenReq) : Int64 :=
  match p.ttlMs with
  | some t => min (asI64 t) cfg.linkTtlMs
  | none => cfg.linkTtlMs

/-- A creation that passed its checks and gave its link a code. -/
structure Made {σ : Type} (ext : Ext) (cfg : Config) (ops : Ops σ) (s s' : σ) (p : ShortenReq)
    (url code : String) : Prop where
  asked : p.url = some url
  valid : isValidUrl ext url = true
  plain : ∀ a, p.aliasCode = some a → codeOk a = true
  positive : ∀ t, p.ttlMs = some t → 0 < t
  shortened : ops.shorten s url p.aliasCode (cappedTtl cfg p) = some (some code, s')

section Created

variable {σ : Type} {ext : Ext} {cfg : Config} {out : Outside} {ops : Ops σ} {s s' : σ}
variable {p : ShortenReq} {reply : Reply}

theorem made_of_shortenOne (answered : shortenOne ext cfg ops s p = .replied reply s')
    (accepted : reply.status = 201) :
    ∃ url code, Made ext cfg ops s s' p url code ∧ reply = created code := by
  rw [shortenOne] at answered
  cases asked : p.url with
  | none =>
      rw [asked] at answered
      cases answered
      cases accepted
  | some url =>
      rw [asked] at answered
      simp only at answered
      split at answered
      · cases answered
        cases accepted
      rename_i valid
      split at answered
      · cases answered
        cases accepted
      rename_i plain
      split at answered
      · cases answered
        cases accepted
      rename_i positive
      generalize shortened : ops.shorten s url p.aliasCode _ = made at answered
      cases made with
      | none => cases answered
      | some done =>
          obtain ⟨given, after⟩ := done
          cases given with
          | none =>
              cases answered
              cases accepted
          | some code =>
              cases answered
              refine ⟨url, code, ⟨asked, by simpa using valid, ?_, ?_, shortened⟩, rfl⟩
              · intro a given
                rw [given] at plain
                simpa using plain
              · intro t given
                rw [given] at positive
                simpa using positive

/-- What a `POST /api/shorten` that is answered with 201 did. -/
theorem made_of_route {path : String} {body : Bytes} {token client : String}
    (shorten : (splitQuery path).1 = "/api/shorten")
    (answered : route ext cfg out ops s "POST" path body token client = .replied reply s')
    (accepted : reply.status = 201) :
    ∃ p url code, ext.shortenReq body = some p ∧ Made ext cfg ops s s' p url code ∧
      reply = created code := by
  simp only [route, String.reduceEq, if_true, if_false, routePost, shorten] at answered
  split at answered
  · cases answered
    cases accepted
  · rename_i p decoded
    split at answered
    · cases answered
      cases accepted
    · obtain ⟨url, code, made, same⟩ := made_of_shortenOne answered accepted
      exact ⟨p, url, code, decoded, made, same⟩

end Created

/-! ## The link of the in-process store -/

/-- The entry of a link that was just created. -/
theorem lookup_shorten {env : Env} {w w' : World} {url code : String} {aliasCode : Option String}
    {ttl : Int64} (done : (localOps env).shorten w url aliasCode ttl = some (some code, w')) :
    w'.store.index.lookup code =
        some (w.store.newEntry url (env.clock 0) (Inner.expiry (env.clock 0) ttl)) ∧
      (∀ a, aliasCode = some a → code = a) := by
  obtain ⟨result, shortened, same⟩ := Option.map_eq_some_iff.mp done
  obtain ⟨code_eq, rfl⟩ := Prod.mk.inj same
  have stored : ∀ c, ((w.store.create w.dir c url (env.clock 0)
      (Inner.expiry (env.clock 0) ttl)).1.index).lookup c =
        some (w.store.newEntry url (env.clock 0) (Inner.expiry (env.clock 0) ttl)) := by
    intro c
    rw [Inner.create, index_logRaw, Map.lookup_insert_eq, if_pos rfl]
  cases aliasCode with
  | some a =>
      simp only [Inner.shorten] at shortened
      split at shortened
      · cases shortened
        cases code_eq
      · cases shortened
        cases code_eq
        exact ⟨stored _, fun a' given => Option.some.inj given⟩
  | none =>
      simp only [Inner.shorten, Option.map_eq_some_iff] at shortened
      obtain ⟨⟨c, rest⟩, -, rfl⟩ := shortened
      cases code_eq
      refine ⟨stored _, fun a' given => ?_⟩
      cases given

/-! ## Numbers -/

theorem toInt_asI64 {t : Num} (nonneg : 0 ≤ t) : (asI64 t).toInt = min ⌊t⌋ (2 ^ 63 - 1) := by
  have floor_nonneg : 0 ≤ ⌊t⌋ := Int.floor_nonneg.mpr nonneg
  have least : Int64.minValue.toInt = -2 ^ 63 := by decide
  have most : Int64.maxValue.toInt = 2 ^ 63 - 1 := by decide
  rw [asI64, if_neg (not_lt.mpr nonneg)]
  simp only [least, most]
  rw [if_neg (by omega)]
  split
  · rw [most]
    omega
  · rw [Int64.toInt_ofInt_of_le (by omega) (by omega)]
    omega

/-- A positive number is at least one exactly if its truncation is positive. -/
theorem asI64_pos_iff {t : Num} (positive : 0 < t) : 0 < asI64 t ↔ 1 ≤ t := by
  have floor_iff : (1 : ℤ) ≤ ⌊t⌋ ↔ 1 ≤ t := by
    rw [Int.le_floor]
    simp
  rw [Int64.lt_iff_toInt_lt, toInt_asI64 positive.le, ← floor_iff, Int64.toInt_zero]
  omega

/-- The request asks for no time to live, or for a whole millisecond at least. -/
def AsksForMillis (p : ShortenReq) : Prop :=
  ∀ t, p.ttlMs = some t → 1 ≤ t

theorem min_int64 (a b : Int64) : min a b = if a ≤ b then a else b := rfl

theorem cappedTtl_pos_iff {cfg : Config} {p : ShortenReq} (capped : 0 < cfg.linkTtlMs)
    (positive : ∀ t, p.ttlMs = some t → 0 < t) : 0 < cappedTtl cfg p ↔ AsksForMillis p := by
  rw [cappedTtl, AsksForMillis]
  cases asked : p.ttlMs with
  | none => simp [capped]
  | some t =>
      have truncated := asI64_pos_iff (positive t asked)
      have least : 0 < min (asI64 t) cfg.linkTtlMs ↔ 0 < asI64 t := by
        rw [min_int64]
        split
        · exact Iff.rfl
        · rename_i above
          exact iff_of_true capped (Int64.lt_trans capped (Int64.not_le.mp above))
      simp [least, truncated]

theorem cappedTtl_le (cfg : Config) (p : ShortenReq) : cappedTtl cfg p ≤ cfg.linkTtlMs := by
  rw [cappedTtl]
  split
  · rw [min_int64]
    split
    · assumption
    · exact Int64.le_refl _
  · exact Int64.le_refl _

/-- An expiry after the clock and at most `cap` later; zero is no expiry. -/
def LivesAtMost (cap now x : Int64) : Prop :=
  x ≠ 0 ∧ now.toInt < x.toInt ∧ x.toInt ≤ now.toInt + cap.toInt

/-- The expiry is the sum of the clock and the time to live. -/
def SumFits (now ttl : Int64) : Prop :=
  now.toInt + ttl.toInt < 2 ^ 63 ∧ now.toInt + ttl.toInt ≠ 0

theorem livesAtMost_expiry_iff {cap now ttl : Int64} (small : ttl ≤ cap) :
    LivesAtMost cap now (Inner.expiry now ttl) ↔ 0 < ttl ∧ SumFits now ttl := by
  have bound : ttl.toInt ≤ cap.toInt := Int64.le_iff_toInt_le.mp small
  by_cases positive : 0 < ttl
  · have ttl_pos : 0 < ttl.toInt := Int64.lt_iff_toInt_lt.mp positive
    have sum : (Inner.expiry now ttl).toInt = (now.toInt + ttl.toInt).bmod (2 ^ 64) := by
      rw [Inner.expiry, if_pos positive, Int64.toInt_add]
    have low := now.le_toInt
    have high := ttl.toInt_lt
    have zero_iff : Inner.expiry now ttl ≠ 0 ↔ (Inner.expiry now ttl).toInt ≠ 0 :=
      not_congr Int64.toInt_inj.symm
    rw [LivesAtMost, SumFits, zero_iff, sum, Int.bmod_def]
    simp only [positive, true_and]
    split
    · omega
    · omega
  · rw [Inner.expiry, if_neg positive]
    exact iff_of_false (fun lives => lives.1 rfl) fun both => positive both.1

/-! ## Public links -/

/-- A link that `POST /api/shorten` created lives at most the configured time
exactly if the request asked for no time to live or for a millisecond at least,
and the clock and the time to live add up to an expiry in range. -/
theorem public_link_expires_iff {ext : Ext} {cfg : Config} {out : Outside} {env : Env}
    {w w' : World} {path : String} {body : Bytes} {token client : String} {p : ShortenReq}
    {reply : Reply} (capped : 0 < cfg.linkTtlMs) (shorten : (splitQuery path).1 = "/api/shorten")
    (decoded : ext.shortenReq body = some p)
    (answered : route ext cfg out (localOps env) w "POST" path body token client =
      .replied reply w')
    (accepted : reply.status = 201) :
    ∃ code e, reply = created code ∧ w'.store.index.lookup code = some e ∧
      (LivesAtMost cfg.linkTtlMs (env.clock 0) e.e ↔
        AsksForMillis p ∧ SumFits (env.clock 0) (cappedTtl cfg p)) := by
  obtain ⟨p', url, code, decoded', made, reply_eq⟩ := made_of_route shorten answered accepted
  cases decoded.symm.trans decoded'
  refine ⟨code, _, reply_eq, (lookup_shorten made.shortened).1, ?_⟩
  rw [Inner.newEntry, livesAtMost_expiry_iff (cappedTtl_le cfg p),
    cappedTtl_pos_iff capped made.positive]

/-- The libraries of a request that asks for a time to live. -/
def askingTtl (t : Num) : Ext :=
  { oneUrl "https://a.example" (some "promo") with
    shortenReq := fun _ => some ⟨some "https://a.example", some "promo", some t⟩ }

/-- Two and a half seconds, under a cap of a day. -/
theorem public_link_expires_soon :
    ∃ w' code e, w'.store.index.lookup code = some e ∧
      (∃ reply, route (askingTtl 2500.5) openConfig (get 0 "").out (localOps (.at 1000 [])) .memory
        "POST" "/api/shorten" [] "" "" = .replied reply w' ∧ reply = created code) ∧
      (LivesAtMost 86400000 1000 e.e ↔
        AsksForMillis ⟨some "https://a.example", some "promo", some 2500.5⟩ ∧
          SumFits 1000 (cappedTtl openConfig ⟨some "https://a.example", some "promo",
            some 2500.5⟩)) := by
  have accepted : (route (askingTtl 2500.5) openConfig (get 0 "").out (localOps (.at 1000 []))
      .memory "POST" "/api/shorten" [] "" "").reply?.map Reply.status = some 201 := by
    decide +kernel
  cases answered : route (askingTtl 2500.5) openConfig (get 0 "").out (localOps (.at 1000 []))
      .memory "POST" "/api/shorten" [] "" "" with
  | panicked =>
      rw [answered] at accepted
      cases accepted
  | drawing =>
      rw [answered] at accepted
      cases accepted
  | replied reply w' =>
      rw [answered] at accepted
      obtain ⟨code, e, same, stored, bounds⟩ := public_link_expires_iff (by decide) (by decide) rfl
        answered (Option.some.inj accepted)
      exact ⟨w', code, e, stored, ⟨reply, rfl, same⟩, bounds⟩

/-- Half a millisecond is accepted, and the link never expires. -/
theorem half_millisecond_never_expires :
    (match route (askingTtl 0.5) openConfig (get 0 "").out (localOps (.at 1000 [])) .memory
        "POST" "/api/shorten" [] "" "" with
      | .replied reply w' => some (reply.status, (w'.store.index.lookup "promo").map Entry.e)
      | _ => none) = some (201, some 0) := by
  decide +kernel

end Shrt.Http
