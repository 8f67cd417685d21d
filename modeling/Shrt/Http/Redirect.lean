import Mathlib.Data.List.Basic
import Shrt.Http.Reply

/-!
# Stored urls in redirects

A redirect carries the url of an entry as it was stored.  Bulk urls are checked
for line ends before they are stored; the url of a single creation or of an
update is not.
-/

namespace Shrt.Http

open Shrt.Codec Shrt.Lib Shrt.Lib.Utf8 Shrt.Store

/-! ## Where a location comes from -/

/-- A reply with a location is the redirect of a resolve. -/
def Redirects {σ : Type} (ops : Ops σ) (s : σ) (h : Handled σ) : Prop :=
  ∀ reply target, h.reply? = some reply → reply.location = some target →
    reply = redirect target ∧ ∃ code, (ops.resolve s code).1 = some target

namespace Redirects

variable {σ : Type} {ext : Ext} {cfg : Config} {out : Outside} {ops : Ops σ} {s s' : σ}

theorem of_none {reply : Reply} (plain : reply.location = none) :
    Redirects ops s (.replied reply s') := by
  intro reply' target same located
  cases same
  rw [plain] at located
  cases located

theorem shortenOne (p : ShortenReq) : Redirects ops s (Http.shortenOne ext cfg ops s p) := by
  rw [Http.shortenOne]
  split
  · exact of_none rfl
  split
  · exact of_none rfl
  split
  · exact of_none rfl
  split
  · exact of_none rfl
  dsimp only
  split
  · intro _ _ same
    cases same
  · exact of_none rfl
  · exact of_none rfl

theorem shortenBulk (p : BulkReq) : Redirects ops s (Http.shortenBulk cfg ops s p) := by
  rw [Http.shortenBulk]
  split
  · exact of_none rfl
  split
  · exact of_none rfl
  split
  · intro _ _ same
    cases same
  · exact of_none rfl

theorem routeGet (pathname query : String) :
    Redirects ops s (Http.routeGet ext cfg out ops s pathname query) := by
  rw [Http.routeGet]
  split
  · refine of_none ?_
    split
    · rfl
    · rfl
  split
  · exact of_none rfl
  split
  · exact of_none rfl
  split
  · refine of_none ?_
    cases cfg.ui with
    | none => rfl
    | some html => rfl
  split
  · exact of_none rfl
  split
  · rename_i code _
    refine of_none ?_
    cases ops.stats s code with
    | none => rfl
    | some link => rfl
  split
  · intro _ _ same
    cases same
  split
  · rename_i code _ _
    cases looked : ops.resolve s code with
    | mk found s' =>
        cases found with
        | none => exact of_none rfl
        | some target =>
            intro reply target' same located
            cases same
            cases located
            exact ⟨rfl, code, by rw [looked]⟩
  · exact of_none rfl

theorem routePost (pathname : String) (body : Bytes) (client : String) :
    Redirects ops s (Http.routePost ext cfg out ops s pathname body client) := by
  rw [Http.routePost]
  split
  · split
    · exact of_none rfl
    split
    · exact of_none rfl
    · exact shortenOne _
  split
  · split
    · exact of_none rfl
    split
    · exact of_none rfl
    · exact shortenBulk _
  · exact of_none rfl

theorem mutated {done : Reply} (plain : done.location = none) (result : MutResult × σ) :
    Redirects ops s (Http.mutated done result) := by
  rw [Http.mutated]
  refine of_none ?_
  cases result.1 with
  | ok => exact plain
  | missing => rfl
  | remote => rfl

theorem routeAdmin (isDelete : Bool) (pathname : String) (body : Bytes) (token : String) :
    Redirects ops s (Http.routeAdmin ext cfg ops s isDelete pathname body token) := by
  rw [Http.routeAdmin]
  split
  · exact of_none rfl
  split
  · exact of_none rfl
  split
  · exact of_none rfl
  split
  · exact mutated rfl _
  rw [routePatch]
  split
  · exact of_none rfl
  split
  · exact of_none rfl
  split
  · exact of_none rfl
  · exact mutated rfl _

theorem route (method path : String) (body : Bytes) (token client : String) :
    Redirects ops s (Http.route ext cfg out ops s method path body token client) := by
  rw [Http.route]
  split
  · exact of_none rfl
  split
  · exact routeGet _ _
  split
  · exact routePost _ _ _
  split
  · exact routeAdmin _ _ _ _
  split
  · exact routeAdmin _ _ _ _
  · exact of_none rfl

end Redirects

/-! ## What is stored -/

/-- Every stored url has the property. -/
def UrlsMeet (P : String → Prop) (w : World) : Prop :=
  ∀ c e, w.store.index.lookup c = some e → P e.u

/-- Without a sibling a resolve changes no url. -/
theorem url_of_resolve {w : World} (solitary : w.Solitary) {env : Env} {code c : String} {e' : Entry}
    (found : (w.store.resolve env w.dir code).2.index.lookup c = some e') :
    ∃ e, w.store.index.lookup c = some e ∧ e'.u = e.u := by
  obtain ⟨s, dir⟩ := w
  have unchanged : s.index.lookup c = some e' → ∃ e, s.index.lookup c = some e ∧ e'.u = e.u :=
    fun there => ⟨e', there, rfl⟩
  rw [Inner.resolve] at found
  cases looked : s.index.lookup code with
  | some e =>
      simp only [looked] at found
      split at found
      · rw [Inner.bump] at found
        split at found
        · rw [Map.lookup_insert_eq] at found
          split at found
          · rename_i same
            cases found
            exact ⟨e, same ▸ looked, rfl⟩
          · exact unchanged found
        · exact unchanged found
      · exact unchanged found
  | none =>
      rcases solitary with ⟨snap, log, buf, sole, -⟩ | memory
      · have queue : s.aof = some ⟨logBytes buf⟩ := sole.queue
        obtain ⟨readers', lastPoll', -, read⟩ := sole.tailMissed env code
        simp only [looked, queue, read] at found
        exact unchanged found
      · have noLog : s.aof = none := memory
        simp only [looked, noLog] at found
        exact unchanged found

/-- A resolve answers the url of an entry. -/
theorem stored_of_resolve {w : World} (solitary : w.Solitary) {env : Env} {code target : String}
    (answer : (w.store.resolve env w.dir code).1 = some target) :
    ∃ e, w.store.index.lookup code = some e ∧ e.u = target := by
  obtain ⟨s, dir⟩ := w
  rw [Inner.resolve] at answer
  cases looked : s.index.lookup code with
  | some e =>
      simp only [looked] at answer
      split at answer
      · cases answer
        exact ⟨e, rfl, rfl⟩
      · cases answer
  | none =>
      rcases solitary with ⟨snap, log, buf, sole, -⟩ | memory
      · have queue : s.aof = some ⟨logBytes buf⟩ := sole.queue
        obtain ⟨readers', lastPoll', -, read⟩ := sole.tailMissed env code
        simp only [looked, queue, read] at answer
        cases answer
      · have noLog : s.aof = none := memory
        simp only [looked, noLog] at answer
        cases answer

theorem UrlsMeet.insert {P : String → Prop} {index : Index} {code : String} {e : Entry}
    (meets : ∀ c e, index.lookup c = some e → P e.u) (new : P e.u) :
    ∀ c e', (index.insert code e).lookup c = some e' → P e'.u := by
  intro c e' found
  rw [Map.lookup_insert_eq] at found
  split at found
  · cases found
    exact new
  · exact meets c e' found

/-- The loop of `shorten_many` stores the urls it is given. -/
theorem UrlsMeet.bulk {P : String → Prop} {inst : Inst} {now exp : Int64} {entry : String → Entry}
    (entries : ∀ url, (entry url).u = url) {items : List (String × Suffix)}
    {retries : List Suffix} {index index' : Index} {rows rows' : Bytes} {codes codes' : List String}
    (given : ∀ item ∈ items, P item.1) (meets : ∀ c e, index.lookup c = some e → P e.u)
    (done : Inner.bulk inst now exp entry items retries index rows codes =
      some (index', rows', codes')) : ∀ c e, index'.lookup c = some e → P e.u := by
  induction items generalizing retries index rows codes with
  | nil =>
      cases done
      exact meets
  | cons item items ih =>
      obtain ⟨url, buf⟩ := item
      rw [Inner.bulk, Option.bind_eq_some_iff] at done
      obtain ⟨fresh, -, done⟩ := done
      refine ih (fun item member => given item (List.mem_cons_of_mem _ member)) ?_ done
      refine UrlsMeet.insert meets ?_
      rw [entries url]
      exact given _ List.mem_cons_self

/-- A request stores only urls that it was given and that passed their check. -/
theorem UrlsMeet.effect {P : String → Prop} {ext : Ext} {cfg : Config} {env : Env} {token : String}
    {asked : Option String} {w w' : World} (solitary : w.Solitary)
    (one : ∀ url, asked = some url → isValidUrl ext url = true → P url)
    (many : ∀ url, okBulkUrl url = true → P url) (meets : UrlsMeet P w)
    (effect : Effect ext cfg (localOps env) token asked w w') : UrlsMeet P w' := by
  cases effect with
  | same => exact meets
  | resolve code =>
      intro c e' found
      obtain ⟨e, there, same⟩ := url_of_resolve solitary found
      rw [same]
      exact meets c e there
  | shorten url aliasCode ttl made given valid plain done =>
      obtain ⟨result, shortened, same⟩ := Option.map_eq_some_iff.mp done
      cases same
      have stored : ∀ code now exp, ∀ c e,
          (w.store.create w.dir code url now exp).1.index.lookup c = some e → P e.u := by
        intro code now exp
        rw [Inner.create, index_logRaw]
        exact UrlsMeet.insert meets (one url given valid)
      cases aliasCode with
      | some a =>
          simp only [Inner.shorten] at shortened
          split at shortened
          · cases shortened
            exact meets
          · cases shortened
            exact stored _ _ _
      | none =>
          simp only [Inner.shorten, Option.map_eq_some_iff] at shortened
          obtain ⟨fresh, -, rfl⟩ := shortened
          exact stored _ _ _
  | shortenMany urls ttl codes valid done =>
      obtain ⟨result, shortened, same⟩ := Option.map_eq_some_iff.mp done
      cases same
      rw [Inner.shortenMany] at shortened
      split at shortened
      · cases shortened
      · obtain ⟨⟨index', rows', codes'⟩, bulked, rfl⟩ := Option.map_eq_some_iff.mp shortened
        intro c e found
        simp only [index_logRaw] at found
        refine UrlsMeet.bulk (fun _ => rfl) (fun item member => ?_) meets bulked c e found
        exact many _ (valid _ (List.of_mem_zip member).1)
  | update code url ttl hasTtl admin given valid =>
      simp only [localOps, Inner.update]
      split
      · exact meets
      · split
        · exact meets
        · exact UrlsMeet.insert meets (one url given valid)
  | remove code admin =>
      simp only [localOps, Inner.remove]
      split
      · exact meets
      · split
        · exact meets
        · intro c e found
          simp only [Inner.logPush, Map.lookup_erase_eq] at found
          split at found
          · cases found
          · exact meets c e found

theorem UrlsMeet.serveAll {P : String → Prop} {ext : Ext} (cfg : Config) {visits : List Visit}
    (one : ∀ v ∈ visits, ∀ url, askedUrl ext v.method v.path v.body = some url →
      isValidUrl ext url = true → P url)
    (many : ∀ url, okBulkUrl url = true → P url) {w : World} (solitary : w.Solitary)
    (meets : UrlsMeet P w) : UrlsMeet P (Http.serveAll ext cfg w visits) := by
  induction visits generalizing w with
  | nil => exact meets
  | cons v visits ih =>
      refine ih (fun v' member => one v' (List.mem_cons_of_mem _ member))
        (solitary_serve ext cfg solitary v) ?_
      exact meets.effect solitary (one v List.mem_cons_self) many (effect_serve ext cfg w v)

theorem solitary_serveAll (ext : Ext) (cfg : Config) {w : World} (solitary : w.Solitary)
    (visits : List Visit) : (serveAll ext cfg w visits).Solitary := by
  induction visits generalizing w with
  | nil => exact solitary
  | cons v visits ih => exact ih (solitary_serve ext cfg solitary v)

/-- A bulk url holds no line end. -/
theorem clean_of_okBulkUrl {url : String} (ok : okBulkUrl url = true) : Clean (encode url) := by
  simp only [okBulkUrl, Bool.and_eq_true, Bool.not_eq_true', List.any_eq_false] at ok
  constructor
  · intro member
    exact ok.2 CR member (by decide)
  · intro member
    exact ok.2 LF member (by decide)

/-- The stores that requests start from. -/
def Empty (w : World) : Prop :=
  (∃ env inst, w = World.fresh env inst) ∨ w = World.memory

theorem Empty.reachable {w : World} (empty : Empty w) : w.Reachable := by
  rcases empty with ⟨env, inst, rfl⟩ | rfl
  · exact Or.inl ⟨env, inst, [], rfl⟩
  · exact Or.inr ⟨[], by simp, rfl⟩

theorem Empty.urlsMeet {w : World} (empty : Empty w) (P : String → Prop) : UrlsMeet P w := by
  intro c e found
  rcases empty with ⟨env, inst, rfl⟩ | rfl
  · have nothing : ∀ f, Dir.empty.read f = logBytes [] := fun _ => rfl
    obtain ⟨s', dir', opened, -, -, -, index'⟩ :=
      new_alone env allOk_nil (nothing (.snap inst)) (nothing (.log inst)) (fun _ _ => rfl) false
    rw [World.fresh, opened] at found
    simp [index', View.empty] at found
  · cases found

/-! ## Every redirect -/

/-- After any history of requests, a redirect carries a url as it is stored, and
is one reply exactly when that url and the configured origin hold no line end.
So it is as long as no accepted single creation or update brought a line end. -/
theorem redirects_one_reply (ext : Ext) (cfg : Config) {start : World} (empty : Empty start)
    (visits : List Visit) (v : Visit) {reply : Reply} {target : String}
    (answer : (serve ext cfg (serveAll ext cfg start visits) v).reply? = some reply)
    (located : reply.location = some target) :
    reply = redirect target ∧
      (∃ code e, (serveAll ext cfg start visits).store.index.lookup code = some e ∧ e.u = target) ∧
      (OneReply cfg target ↔ Clean (encode target) ∧ Clean (encode cfg.corsOrigin)) ∧
      ((∀ v' ∈ visits, ∀ url, askedUrl ext v'.method v'.path v'.body = some url →
          isValidUrl ext url = true → Clean (encode url)) →
        Clean (encode cfg.corsOrigin) → OneReply cfg target) := by
  have solitary := solitary_serveAll ext cfg empty.reachable.solitary visits
  obtain ⟨same, code, resolved⟩ := Redirects.route _ _ _ _ _ reply target answer located
  obtain ⟨e, there, url⟩ := stored_of_resolve solitary resolved
  refine ⟨same, ⟨code, e, there, url⟩, oneReply_iff cfg target, fun clean origin => ?_⟩
  have meets := UrlsMeet.serveAll cfg clean (fun _ ok => clean_of_okBulkUrl ok)
    empty.reachable.solitary (empty.urlsMeet _)
  exact (oneReply_iff cfg target).mpr ⟨url ▸ meets code e there, origin⟩

/-- Libraries that drop tabs and line ends from a url before they look at it,
and that decode one request body. -/
def droppingUrl (text url : String) : Ext where
  parseUrl raw :=
    if "https://a.example".toList.isPrefixOf
        (raw.toList.filter fun c => c ≠ '\t' && c ≠ '\n' && c ≠ '\r') then
      some ⟨"https", some "a.example"⟩
    else none
  formPairs _ := []
  shortenReq body := if body = encode text then some ⟨some url, some "promo", none⟩ else none
  bulkReq _ := none
  patchReq _ := none
  linksJson _ _ := []
  linkJson _ := []

/-- A creation with a request body. -/
def post (text : String) : Visit :=
  { get 1000 "/api/shorten" with method := "POST", body := encode text }

def plainText : String :=
  "\x7b\"url\":\"https://a.example/\",\"alias\":\"promo\"\x7d"

theorem redirects_one_reply_plain :
    let ext := droppingUrl plainText "https://a.example/"
    (serve ext openConfig (serveAll ext openConfig World.memory [post plainText])
        (get 1001 "/promo")).reply? = some (redirect "https://a.example/") ∧
      OneReply openConfig "https://a.example/" := by
  have answer : (serve (droppingUrl plainText "https://a.example/") openConfig
      (serveAll (droppingUrl plainText "https://a.example/") openConfig World.memory
        [post plainText]) (get 1001 "/promo")).reply? = some (redirect "https://a.example/") := by
    decide +kernel
  obtain ⟨-, -, one, -⟩ := redirects_one_reply _ openConfig (Or.inr rfl) [post plainText]
    (get 1001 "/promo") answer rfl
  exact ⟨answer, one.mpr (by decide +kernel)⟩

def splitText : String :=
  "\x7b\"url\":\"https://a.example/\\r\\nset-cookie: s=1\",\"alias\":\"promo\"\x7d"

def splitUrl : String :=
  "https://a.example/\r\nset-cookie: s=1"

/-- A url with a line end is accepted, and its redirect sets a cookie. -/
theorem redirect_adds_header :
    let ext := droppingUrl splitText splitUrl
    let w := serveAll ext openConfig World.memory [post splitText]
    (serve ext openConfig w (get 1001 "/promo")).reply? = some (redirect splitUrl) ∧
      ¬ OneReply openConfig splitUrl ∧
      encode "set-cookie: s=1" ∈ splitLines (replyBytes openConfig (redirect splitUrl)) := by
  refine ⟨by decide +kernel, fun one => ?_, by decide +kernel⟩
  exact absurd one.1 (by decide +kernel)

end Shrt.Http
