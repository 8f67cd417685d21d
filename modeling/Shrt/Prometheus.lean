import Mathlib.Data.List.Basic
import Shrt.Codec.Record
import Shrt.Metrics

/-!
# The counters and their page

The counters of the process besides the window of seconds, and the text that
`/metrics` answers with.  A scraper cuts the text at its lines, skips the comments, and
reads a metric, its labels and a number from each of the others.
-/

namespace Shrt

open Codec Lib Lib.Utf8 Lib.Decimal Lib.Framing

def OPS : List String :=
  ["redirect", "shorten", "shorten_bulk", "update", "delete", "list", "stats", "health",
    "metrics", "ui", "other"]

def CLASSES : List String := ["2xx", "3xx", "4xx", "5xx"]

/-- The counters that the page shows. -/
structure Counters where
  opCounts : Nat → Int64
  status : Nat → Int64
  cacheHit : Int64
  cacheMiss : Int64
  storeReads : Int64
  storeReadUs : Int64
  storeWrites : Int64
  limited : Int64
  linksTotal : Int64

namespace Counters

def zero : Counters := ⟨fun _ => 0, fun _ => 0, 0, 0, 0, 0, 0, 0, 0⟩

def countOp (c : Counters) (i : Nat) : Counters :=
  { c with opCounts := Function.update c.opCounts i (c.opCounts i + 1) }

def classOf (code : Nat) : Nat :=
  if 200 ≤ code ∧ code ≤ 299 then 0
  else if 300 ≤ code ∧ code ≤ 399 then 1
  else if 400 ≤ code ∧ code ≤ 499 then 2
  else 3

def countStatus (c : Counters) (code : Nat) : Counters :=
  { c with status := Function.update c.status (classOf code) (c.status (classOf code) + 1) }

def linksDelta (c : Counters) (n : Int64) : Counters :=
  { c with linksTotal := c.linksTotal + n }

def countLimited (c : Counters) : Counters :=
  { c with limited := c.limited + 1 }

end Counters

/-! ## The text -/

/-- A metric with its labels, and the value that it has. -/
structure Sample where
  metric : String
  labels : String
  value : Int64
  deriving DecidableEq, Repr

def pline (b : Bytes) (s : Sample) : Bytes :=
  let b := b ++ encode s.metric
  let b := if s.labels = "" then b else b ++ [123] ++ encode s.labels ++ [125]
  b ++ [32] ++ itoa [] s.value ++ [NL]

/-- The two comments in front of a metric. -/
def heading (b : Bytes) (metric help kind : String) : Bytes :=
  b ++ encode ("# HELP " ++ metric ++ " " ++ help ++ "\n") ++
    encode ("# TYPE " ++ metric ++ " " ++ kind ++ "\n")

def opSample (c : Counters) (i : Nat) (name : String) : Sample :=
  ⟨"shrt_requests_total", "op=\"" ++ name ++ "\"", c.opCounts i⟩

def classSample (c : Counters) (i : Nat) (cls : String) : Sample :=
  ⟨"shrt_responses_total", "class=\"" ++ cls ++ "\"", c.status i⟩

/-- `prometheus`, with the seconds since the start. -/
def prometheus (c : Counters) (uptime : Int64) : Bytes :=
  let b := heading [] "shrt_requests_total" "Requests by operation" "counter"
  let b := (OPS.mapIdx (opSample c)).foldl pline b
  let b := heading b "shrt_responses_total" "Responses by status class" "counter"
  let b := (CLASSES.mapIdx (classSample c)).foldl pline b
  let b := heading b "shrt_cache_lookups_total" "Local hot-cache lookups" "counter"
  let b := pline b ⟨"shrt_cache_lookups_total", "result=\"hit\"", c.cacheHit⟩
  let b := pline b ⟨"shrt_cache_lookups_total", "result=\"miss\"", c.cacheMiss⟩
  let b := heading b "shrt_store_reads_total" "Backing-store point reads (cache misses)" "counter"
  let b := pline b ⟨"shrt_store_reads_total", "", c.storeReads⟩
  let b := heading b "shrt_store_read_us_total" "Cumulative backing-store read latency (us)"
    "counter"
  let b := pline b ⟨"shrt_store_read_us_total", "", c.storeReadUs⟩
  let b := heading b "shrt_store_writes_total" "Backing-store writes" "counter"
  let b := pline b ⟨"shrt_store_writes_total", "", c.storeWrites⟩
  let b := heading b "shrt_rate_limited_total" "Requests rejected by the rate limiter" "counter"
  let b := pline b ⟨"shrt_rate_limited_total", "", c.limited⟩
  let b := heading b "shrt_links_total" "Live links created minus deleted" "gauge"
  let b := pline b ⟨"shrt_links_total", "", c.linksTotal⟩
  let b := heading b "shrt_uptime_seconds" "Process uptime" "gauge"
  pline b ⟨"shrt_uptime_seconds", "", uptime⟩

/-- What the page is meant to say. -/
def samples (c : Counters) (uptime : Int64) : List Sample :=
  OPS.mapIdx (opSample c) ++ CLASSES.mapIdx (classSample c) ++
    [⟨"shrt_cache_lookups_total", "result=\"hit\"", c.cacheHit⟩,
      ⟨"shrt_cache_lookups_total", "result=\"miss\"", c.cacheMiss⟩,
      ⟨"shrt_store_reads_total", "", c.storeReads⟩,
      ⟨"shrt_store_read_us_total", "", c.storeReadUs⟩,
      ⟨"shrt_store_writes_total", "", c.storeWrites⟩,
      ⟨"shrt_rate_limited_total", "", c.limited⟩,
      ⟨"shrt_links_total", "", c.linksTotal⟩,
      ⟨"shrt_uptime_seconds", "", uptime⟩]

/-! ## Reading it -/

def readValue (b : Bytes) : Option Int64 :=
  match b with
  | 32 :: digits => (decode? digits).bind parseI64?
  | _ => none

def readSample (line : Bytes) : Option Sample :=
  if line.head? = some 35 then none
  else
    let name := line.takeWhile fun b => b != 32 && b != 123
    let rest := line.dropWhile fun b => b != 32 && b != 123
    (decode? name).bind fun metric =>
      match rest with
      | 123 :: behind =>
          (decode? (behind.takeWhile (· != 125))).bind fun labels =>
            (readValue ((behind.dropWhile (· != 125)).drop 1)).map fun value =>
              ⟨metric, labels, value⟩
      | _ => (readValue rest).map fun value => ⟨metric, "", value⟩

def scrape (text : Bytes) : List Sample :=
  (lines NL text).filterMap readSample

/-! ## What is read -/

/-- Nothing in the names ends them or the line. -/
def plainNames (metric labels : String) : Bool :=
  ((encode metric).all fun b => b != 32 && b != 123 && b != 35 && b != NL) &&
    (encode labels).all fun b => b != 125 && b != NL

theorem readValue_itoa (n : Int64) : readValue (32 :: itoa [] n) = some n := by
  have ascii : ∀ b ∈ itoa [] n, b < 128 := fun b among =>
    (numberByte_spec (itoa_numberByte among)).2.2.2.2.1
  rw [readValue, decode?_ascii ascii]
  exact parseI64?_itoa n

def Sample.line (s : Sample) : Bytes :=
  (encode s.metric ++ if s.labels = "" then [] else 123 :: (encode s.labels ++ [125])) ++
    32 :: itoa [] s.value

theorem pline_eq (b : Bytes) (s : Sample) : pline b s = b ++ (s.line ++ [NL]) := by
  rw [pline, Sample.line]
  split
  · simp
  · simp

structure Sample.Plain (s : Sample) : Prop where
  metric : ∀ b ∈ encode s.metric, b ≠ 32 ∧ b ≠ 123 ∧ b ≠ 35 ∧ b ≠ NL
  labels : ∀ b ∈ encode s.labels, b ≠ 125 ∧ b ≠ NL

theorem Sample.Plain.of_names {metric labels : String} {value : Int64}
    (plain : plainNames metric labels = true) : Sample.Plain ⟨metric, labels, value⟩ := by
  rw [plainNames, Bool.and_eq_true, List.all_eq_true, List.all_eq_true] at plain
  constructor
  · intro b among
    simpa [and_assoc] using plain.1 b among
  · intro b among
    simpa using plain.2 b among

theorem Sample.Plain.line_free {s : Sample} (plain : s.Plain) : NL ∉ s.line := by
  rw [Sample.line]
  intro among
  rcases List.mem_append.mp among with names | value
  · rcases List.mem_append.mp names with metric | labels
    · exact (plain.metric NL metric).2.2.2 rfl
    · split at labels
      · cases labels
      · rcases List.mem_cons.mp labels with same | labels
        · cases same
        · rcases List.mem_append.mp labels with inside | closing
          · exact (plain.labels NL inside).2 rfl
          · cases List.mem_singleton.mp closing
  · rcases List.mem_cons.mp value with same | digits
    · cases same
    · exact NL_not_mem_itoa s.value digits

theorem Sample.line_ne_nil (s : Sample) : s.line ≠ [] := by
  rw [Sample.line]
  simp

theorem Sample.Plain.read {s : Sample} (plain : s.Plain) : readSample s.line = some s := by
  have named : ∀ b ∈ encode s.metric, (b != 32 && b != 123) = true := by
    intro b among
    obtain ⟨blank, brace, -⟩ := plain.metric b among
    rw [Bool.and_eq_true, bne_iff_ne, bne_iff_ne]
    exact ⟨blank, brace⟩
  have closing : 125 ∉ encode s.labels := fun among => (plain.labels 125 among).1 rfl
  have no_comment : s.line.head? ≠ some 35 := by
    rw [Sample.line]
    cases spelled : encode s.metric with
    | nil =>
        split
        · simp
        · simp
    | cons b bs =>
        have other := (plain.metric b (spelled ▸ List.mem_cons_self)).2.2.1
        simpa using other
  rw [readSample, if_neg no_comment, Sample.line]
  split
  · rename_i bare
    rw [List.append_nil, List.takeWhile_append_of_pos named, List.dropWhile_append_of_pos named]
    rw [List.takeWhile_cons_of_neg (by decide), List.dropWhile_cons_of_neg (by decide),
      List.append_nil]
    dsimp only
    rw [decode?_encode, Option.bind_some, readValue_itoa, Option.map_some, ← bare]
    rfl
  · rw [List.append_assoc, List.cons_append, List.append_assoc, List.singleton_append,
      List.takeWhile_append_of_pos named, List.dropWhile_append_of_pos named]
    rw [List.takeWhile_cons_of_neg (by decide), List.dropWhile_cons_of_neg (by decide),
      List.append_nil]
    dsimp only
    rw [decode?_encode, Option.bind_some]
    change Option.bind (decode?
      ((encode s.labels ++ 125 :: 32 :: itoa [] s.value).takeWhile (· != 125))) _ = _
    rw [takeWhile_ne_append closing, dropWhile_ne_append closing, decode?_encode,
      Option.bind_some, List.drop_one, List.tail_cons, readValue_itoa, Option.map_some]

/-- The text is whole lines, of which a scraper reads the samples. -/
def Page (b : Bytes) (read : List Sample) : Prop :=
  ∃ ls, Framed NL ls ∧ b = unlines NL ls ∧ ls.filterMap readSample = read

namespace Page

variable {b : Bytes} {read : List Sample}

theorem nil : Page [] [] :=
  ⟨[], by simp [Framed], rfl, rfl⟩

theorem scrape (page : Page b read) : Shrt.scrape b = read := by
  obtain ⟨ls, framed, rfl, rfl⟩ := page
  rw [Shrt.scrape, lines_unlines framed]

theorem line (page : Page b read) {line : Bytes} (free : NL ∉ line) (full : line ≠ []) :
    Page (b ++ (line ++ [NL])) (read ++ (readSample line).toList) := by
  obtain ⟨ls, framed, rfl, rfl⟩ := page
  refine ⟨ls ++ [line], ?_, ?_, ?_⟩
  · intro l among
    rcases List.mem_append.mp among with old | new
    · exact framed l old
    · cases List.mem_singleton.mp new
      exact ⟨free, full⟩
  · rw [unlines_append]
    simp
  · rw [List.filterMap_append]
    cases read : readSample line with
    | none => simp [read]
    | some s => simp [read]

theorem pline (page : Page b read) {s : Sample} (plain : s.Plain) :
    Page (Shrt.pline b s) (read ++ [s]) := by
  have added := page.line plain.line_free s.line_ne_nil
  rw [plain.read] at added
  rw [pline_eq]
  exact added

theorem plines (page : Page b read) (ss : List Sample) (plain : ∀ s ∈ ss, s.Plain) :
    Page (ss.foldl Shrt.pline b) (read ++ ss) := by
  induction ss generalizing b read with
  | nil =>
      rw [List.append_nil]
      exact page
  | cons s ss ih =>
      have rest := ih (page.pline (plain s List.mem_cons_self))
        fun s' among => plain s' (List.mem_cons_of_mem _ among)
      rw [List.append_assoc] at rest
      exact rest

/-- A comment is skipped. -/
theorem comment (page : Page b read) {words : Bytes} (free : NL ∉ words) :
    Page (b ++ (35 :: words ++ [NL])) read := by
  have whole : NL ∉ 35 :: words := by
    rw [List.mem_cons, not_or]
    exact ⟨by decide, free⟩
  have added := page.line whole (List.cons_ne_nil 35 words)
  have skipped : readSample (35 :: words) = none := if_pos List.head?_cons
  rw [skipped, Option.toList_none, List.append_nil] at added
  exact added

theorem heading (page : Page b read) {metric help kind : String}
    (free : NL ∉ encode metric ++ encode help ++ encode kind) :
    Page (Shrt.heading b metric help kind) read := by
  have helped : NL ∉ encode (" HELP " ++ metric ++ " " ++ help) := by
    simp only [encode_append, List.mem_append, not_or] at free ⊢
    exact ⟨⟨⟨by decide, free.1.1⟩, by decide⟩, free.1.2⟩
  have typed : NL ∉ encode (" TYPE " ++ metric ++ " " ++ kind) := by
    simp only [encode_append, List.mem_append, not_or] at free ⊢
    exact ⟨⟨⟨by decide, free.1.1⟩, by decide⟩, free.2⟩
  have both := (page.comment helped).comment typed
  rw [Shrt.heading]
  have first : encode ("# HELP " ++ metric ++ " " ++ help ++ "\n") =
      35 :: encode (" HELP " ++ metric ++ " " ++ help) ++ [NL] := by
    simp only [encode_append]
    rfl
  have second : encode ("# TYPE " ++ metric ++ " " ++ kind ++ "\n") =
      35 :: encode (" TYPE " ++ metric ++ " " ++ kind) ++ [NL] := by
    simp only [encode_append]
    rfl
  rw [first, second]
  exact both

end Page

theorem plain_opSample (c : Counters) : ∀ s ∈ OPS.mapIdx (opSample c), s.Plain := by
  intro s among
  obtain ⟨i, small, rfl⟩ := List.mem_mapIdx.mp among
  have names : OPS.all (fun name => plainNames "shrt_requests_total" ("op=\"" ++ name ++ "\"")) =
      true := by decide +kernel
  exact .of_names (List.all_eq_true.mp names _ (List.getElem_mem small))

theorem plain_classSample (c : Counters) : ∀ s ∈ CLASSES.mapIdx (classSample c), s.Plain := by
  intro s among
  obtain ⟨i, small, rfl⟩ := List.mem_mapIdx.mp among
  have names : CLASSES.all
      (fun cls => plainNames "shrt_responses_total" ("class=\"" ++ cls ++ "\"")) = true := by
    decide +kernel
  exact .of_names (List.all_eq_true.mp names _ (List.getElem_mem small))

/-- A scraper reads from the page what the counters are. -/
theorem scrape_prometheus (c : Counters) (uptime : Int64) :
    scrape (prometheus c uptime) = samples c uptime := by
  have page : Page (prometheus c uptime) _ :=
    Page.nil
      |>.heading (by decide +kernel) |>.plines _ (plain_opSample c)
      |>.heading (by decide +kernel) |>.plines _ (plain_classSample c)
      |>.heading (by decide +kernel) |>.pline (.of_names (by decide +kernel))
      |>.pline (.of_names (by decide +kernel))
      |>.heading (by decide +kernel) |>.pline (.of_names (by decide +kernel))
      |>.heading (by decide +kernel) |>.pline (.of_names (by decide +kernel))
      |>.heading (by decide +kernel) |>.pline (.of_names (by decide +kernel))
      |>.heading (by decide +kernel) |>.pline (.of_names (by decide +kernel))
      |>.heading (by decide +kernel) |>.pline (.of_names (by decide +kernel))
      |>.heading (by decide +kernel) |>.pline (.of_names (by decide +kernel))
  rw [page.scrape, samples]
  simp

end Shrt
