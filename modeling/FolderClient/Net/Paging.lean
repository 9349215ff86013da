import FolderClient.Net.Transport
import FolderClient.Wire.Namespace

namespace FolderClient.Net.Paging

open FolderClient.Core.Listing FolderClient.Core.Namespace
open FolderClient.Library.Results FolderClient.Net.Access FolderClient.Net.Transport
open FolderClient.Wire.Namespace

section Model

/-- A problem as the server writes it, and what the program makes of it. -/
structure ReadProblem where
  problem : Problem
  typ : String
  title : Option String
  detail : Option String
  isSecurityEvent : Bool

def wwwErrorStepUp : String := "insufficient_user_authentication"

/-- Whether header or problem ask for a stronger sign-in. -/
def stepUp (header : Option String) (problem : ReadProblem) : Bool :=
  (parameter header).lookup "error" = some wwwErrorStepUp ||
    problem.problem.kind = .authenticationTooWeak

variable {Row Page Listing α : Type} (readProblem : ℕ → List UInt8 → ReadProblem)

/-- The error branch of an answer without a success status. -/
def failure (raw : RawResponse) (what : String) : ApiResult α :=
  if raw.status = 304 then .unchanged (raw.headerAt "ETag")
  else if 300 ≤ raw.status ∧ raw.status < 400 then
    .networkError (.redirect what (raw.headerAt "Location"))
  else
    let problem := readProblem raw.status raw.body
    if stepUp (raw.headerAt "WWW-Authenticate") problem then .stepUpNeeded
    else if problem.isSecurityEvent then
      let reason := (problem.detail.or problem.title).getD problem.typ
      .securityAbort s!"The server reports a security event for {what}: {reason}"
    else .slotError problem.problem

/-- How many pages of a listing are fetched at most. -/
def maxPage : ℕ := 100

/-- What a listing read page by page consists of. -/
structure Pages (Row Page Listing : Type) where
  what : String
  url : String
  read : List UInt8 → Except String Page
  continuation : Page → Except String (Option String)
  items : Page → List Row
  empty : Listing
  pages : Listing → ℕ
  rows : Listing → List Row
  add : Listing → Option String → Page → Listing
  cut : Listing → Listing
  continuation_ne : ∀ page, continuation page ≠ .ok (some "")
  pages_empty : pages empty = 0
  rows_empty : rows empty = []
  pages_add : ∀ list etag page, pages (add list etag page) = pages list + 1
  rows_add : ∀ list etag page, rows (add list etag page) = rows list ++ items page
  rows_cut : ∀ list, rows (cut list) = rows list

namespace Pages

variable (m : Pages Row Page Listing)

/-- The request for a page; `If-None-Match` applies to the listing, not to the page. -/
def request (known : Option String) (first : Bool) (query : List (String × String)) : Request where
  method := "GET"
  url := m.url
  query := query
  binding := .session
  header := ("Accept", "application/json") ::
    (if first then known.map ("If-None-Match", ·) else none).toList
  body := .no
  longPoll := false

/-- What is made of an answer: a page together with the cursor to read on with, or the end. -/
def judge (answer : Except NetworkError RawResponse) :
    Except (ApiResult Listing) (RawResponse × Page × Option String) :=
  match answer with
  | .error error => .error (.networkError error)
  | .ok raw =>
    if raw.status ≠ 200 then .error (failure readProblem raw m.what)
    else
      match m.read raw.body with
      | .error reason => .error (.networkError (.unreadableResponse m.what reason))
      | .ok page =>
        match m.continuation page with
        | .error reason => .error (.networkError (.contractBreach reason))
        | .ok continuation => .ok (raw, page, continuation)

/-- The loop over the pages; `none` says that it has not ended after so many turns. -/
def loop (answers : ℕ → Except NetworkError RawResponse) (limit : ℕ) (known : Option String) :
    ℕ → Listing → Option String → List Request → Option (List Request × ApiResult Listing)
  | 0, _, _, _ => none
  | fuel + 1, list, cursor, requests =>
    match ListQuery.new cursor (some limit) with
    | .error error => some (requests, .networkError (.contractBreach error.display))
    | .ok query =>
      let requests := requests ++ [m.request known (m.pages list = 0) query.toQuery]
      match m.judge readProblem (answers (m.pages list)) with
      | .error result => some (requests, result)
      | .ok (raw, page, continuation) =>
        let list := m.add list (raw.headerAt "ETag") page
        match continuation with
        | some next =>
          if m.pages list < maxPage then loop answers limit known fuel list (some next) requests
          else some (requests, .success (m.cut list))
        | none => some (requests, .success list)

def run (answers : ℕ → Except NetworkError RawResponse) (query : ListQuery)
    (known : Option String) (fuel : ℕ) : Option (List Request × ApiResult Listing) :=
  m.loop readProblem answers query.limit known fuel m.empty query.cursor []

end Pages

/-- A completely read listing. -/
structure PagedList (Row : Type) where
  entries : List Row
  etag : Option String
  pages : ℕ
  limitReached : Bool

/-- The listing of baskets, archives, case files or searches, page by page. -/
def allPages (what url : String) (read : List UInt8 → Except String (Wire.Namespace.Page Row)) :
    Pages Row (Wire.Namespace.Page Row) (PagedList Row) where
  what := what
  url := url
  read := read
  continuation page := page.continuation.mapError PageError.display
  items page := page.items
  empty := ⟨[], none, 0, false⟩
  pages list := list.pages
  rows list := list.entries
  add list etag page := { list with
    entries := list.entries ++ page.items
    etag := if list.pages = 0 then etag else list.etag
    pages := list.pages + 1 }
  cut list := { list with limitReached := true }
  continuation_ne _ h := checkContinuation_ne_empty (mapError_eq_ok.mp h)
  pages_empty := rfl
  rows_empty := rfl
  pages_add _ _ _ := rfl
  rows_add _ _ _ := rfl
  rows_cut _ := rfl

/-- A completely read listing of documents together with its truncation. -/
structure DocumentList where
  rows : List DocumentItem
  etag : Option String
  pages : ℕ
  limitReached : Bool
  totalCapped : Bool
  displayLimit : UInt64
  refineUrl : Option String

/-- The listing of documents, page by page. -/
def listDocument (url : String) (read : List UInt8 → Except String DocumentPage) :
    Pages DocumentItem DocumentPage DocumentList where
  what := "the document listing"
  url := url
  read := read
  continuation page := page.continuation.mapError ListError.display
  items page := page.items
  empty := ⟨[], none, 0, false, false, 0, none⟩
  pages list := list.pages
  rows list := list.rows
  add list etag page := { list with
    rows := list.rows ++ page.items
    etag := if list.pages = 0 then etag else list.etag
    pages := list.pages + 1
    totalCapped := list.totalCapped || page.totalCapped
    displayLimit := page.displayLimit
    refineUrl := page.refineUrl.or list.refineUrl }
  cut list := { list with limitReached := true }
  continuation_ne _ h :=
    checkContinuation_ne_empty (continuation_eq_ok (mapError_eq_ok.mp h)).2
  pages_empty := rfl
  rows_empty := rfl
  pages_add _ _ _ := rfl
  rows_add _ _ _ := rfl
  rows_cut _ := rfl

end Model

section Course

variable {Row Page Listing : Type} {readProblem : ℕ → List UInt8 → ReadProblem}
  {m : Pages Row Page Listing} {answers : ℕ → Except NetworkError RawResponse}

namespace Pages

/-- The page and the cursor of an answer, where it has one that keeps the contract. -/
def pageOf (m : Pages Row Page Listing) (readProblem : ℕ → List UInt8 → ReadProblem)
    (answer : Except NetworkError RawResponse) : Option (RawResponse × Page × Option String) :=
  (m.judge readProblem answer).toOption

/-- The answer is a page that another one follows. -/
def Continues (m : Pages Row Page Listing) (readProblem : ℕ → List UInt8 → ReadProblem)
    (answer : Except NetworkError RawResponse) : Prop :=
  ∃ raw page next, m.judge readProblem answer = .ok (raw, page, some next)

/-- The listing after the first answers. -/
def gather (m : Pages Row Page Listing) (readProblem : ℕ → List UInt8 → ReadProblem)
    (answers : ℕ → Except NetworkError RawResponse) : ℕ → Listing
  | 0 => m.empty
  | n + 1 =>
    match m.judge readProblem (answers n) with
    | .ok (raw, page, _) => m.add (gather m readProblem answers n) (raw.headerAt "ETag") page
    | .error _ => gather m readProblem answers n

/-- The cursor of a request: that of the query, then the one the answer before has handed out. -/
def cursorAt (m : Pages Row Page Listing) (readProblem : ℕ → List UInt8 → ReadProblem)
    (answers : ℕ → Except NetworkError RawResponse) (query : ListQuery) : ℕ → Option String
  | 0 => query.cursor
  | n + 1 => (m.pageOf readProblem (answers n)).bind (·.2.2)

def requestAt (m : Pages Row Page Listing) (readProblem : ℕ → List UInt8 → ReadProblem)
    (answers : ℕ → Except NetworkError RawResponse) (query : ListQuery) (known : Option String)
    (n : ℕ) : Request :=
  m.request known (n = 0)
    (((m.cursorAt readProblem answers query n).map ("cursor", ·)).toList ++
      [("limit", toString query.limit)])

/-- The pages of the first answers. -/
def pagesTo (m : Pages Row Page Listing) (readProblem : ℕ → List UInt8 → ReadProblem)
    (answers : ℕ → Except NetworkError RawResponse) (n : ℕ) : List Page :=
  (List.range n).filterMap fun i ↦ (m.pageOf readProblem (answers i)).map (·.2.1)

/-- How reading ends, by the number of requests. -/
inductive Ends (m : Pages Row Page Listing) (readProblem : ℕ → List UInt8 → ReadProblem)
    (answers : ℕ → Except NetworkError RawResponse) : ℕ → ApiResult Listing → Prop
  | stopped {n result} (hn : n < maxPage) (hall : ∀ i < n, m.Continues readProblem (answers i))
      (h : m.judge readProblem (answers n) = .error result) : Ends m readProblem answers (n + 1) result
  | ended {n raw page} (hn : n < maxPage) (hall : ∀ i < n, m.Continues readProblem (answers i))
      (h : m.judge readProblem (answers n) = .ok (raw, page, none)) :
      Ends m readProblem answers (n + 1) (.success (m.gather readProblem answers (n + 1)))
  | limited (hall : ∀ i < maxPage, m.Continues readProblem (answers i)) :
      Ends m readProblem answers maxPage (.success (m.cut (m.gather readProblem answers maxPage)))

variable {n : ℕ} {raw : RawResponse} {page : Page} {cursor : Option String}

theorem gather_add (h : m.judge readProblem (answers n) = .ok (raw, page, cursor)) :
    m.gather readProblem answers (n + 1) =
      m.add (m.gather readProblem answers n) (raw.headerAt "ETag") page := by
  rw [gather, h]

theorem pages_gather (hall : ∀ i < n, m.Continues readProblem (answers i)) :
    m.pages (m.gather readProblem answers n) = n := by
  induction n with
  | zero => exact m.pages_empty
  | succ n ih =>
    obtain ⟨raw, page, next, h⟩ := hall n (Nat.lt_succ_self n)
    rw [gather_add h, m.pages_add, ih fun i hi ↦ hall i (Nat.lt_succ_of_lt hi)]

theorem pageOf_eq (h : m.judge readProblem (answers n) = .ok (raw, page, cursor)) :
    m.pageOf readProblem (answers n) = some (raw, page, cursor) := by
  rw [pageOf, h]
  rfl

theorem cursorAt_ne (query : ListQuery) : m.cursorAt readProblem answers query n ≠ some "" := by
  cases n with
  | zero => exact query.cursor_ne
  | succ n =>
    intro h
    rw [cursorAt, Option.bind_eq_some_iff] at h
    obtain ⟨⟨raw, page, cursor⟩, hpage, hcursor⟩ := h
    replace hcursor : cursor = some "" := hcursor
    have hjudge := ok_of_toOption hpage
    unfold judge at hjudge
    split at hjudge
    · cases hjudge
    · split at hjudge
      · cases hjudge
      · split at hjudge
        · cases hjudge
        · split at hjudge
          · cases hjudge
          · rename_i continuation hcontinuation
            obtain ⟨-, hrest⟩ := Prod.mk.inj (Except.ok.inj hjudge)
            obtain ⟨rfl, rfl⟩ := Prod.mk.inj hrest
            exact m.continuation_ne _ (hcursor ▸ hcontinuation)

theorem exists_query (query : ListQuery) (known : Option String) :
    ∃ q, ListQuery.new (m.cursorAt readProblem answers query n) (some query.limit) = .ok q ∧
      m.request known (n = 0) q.toQuery = m.requestAt readProblem answers query known n := by
  obtain ⟨q, hq, hcursor, hlimit⟩ := ListQuery.new_eq_ok
    (@cursorAt_ne _ _ _ readProblem m answers n query) query.limit_valid
  refine ⟨q, hq, ?_⟩
  rw [requestAt, ListQuery.toQuery, hcursor, hlimit]
  rfl

theorem requestAt_range (query : ListQuery) (known : Option String) :
    (List.range n).map (m.requestAt readProblem answers query known) ++
        [m.requestAt readProblem answers query known n] =
      (List.range (n + 1)).map (m.requestAt readProblem answers query known) := by
  rw [List.range_succ, List.map_append, List.map_singleton]

variable {limit : ℕ} {known : Option String} {list : Listing} {requests : List Request}
  {query : ListQuery} {result : ApiResult Listing}

theorem loop_stopped {q : ListQuery} {fuel : ℕ} (hpages : m.pages list = n)
    (hquery : ListQuery.new cursor (some limit) = .ok q)
    (h : m.judge readProblem (answers n) = .error result) :
    m.loop readProblem answers limit known (fuel + 1) list cursor requests =
      some (requests ++ [m.request known (n = 0) q.toQuery], result) := by
  rw [loop, hquery]
  dsimp only
  rw [hpages, h]

theorem loop_ended {q : ListQuery} {fuel : ℕ} (hpages : m.pages list = n)
    (hquery : ListQuery.new cursor (some limit) = .ok q)
    (h : m.judge readProblem (answers n) = .ok (raw, page, none)) :
    m.loop readProblem answers limit known (fuel + 1) list cursor requests =
      some (requests ++ [m.request known (n = 0) q.toQuery],
        .success (m.add list (raw.headerAt "ETag") page)) := by
  rw [loop, hquery]
  dsimp only
  rw [hpages, h]

theorem loop_continues {q : ListQuery} {fuel : ℕ} {next : String} (hpages : m.pages list = n)
    (hquery : ListQuery.new cursor (some limit) = .ok q)
    (h : m.judge readProblem (answers n) = .ok (raw, page, some next)) :
    m.loop readProblem answers limit known (fuel + 1) list cursor requests =
      if n + 1 < maxPage then
        m.loop readProblem answers limit known fuel (m.add list (raw.headerAt "ETag") page)
          (some next) (requests ++ [m.request known (n = 0) q.toQuery])
      else some (requests ++ [m.request known (n = 0) q.toQuery],
        .success (m.cut (m.add list (raw.headerAt "ETag") page))) := by
  rw [loop, hquery]
  dsimp only
  rw [hpages, h]
  dsimp only
  rw [m.pages_add, hpages]

theorem forall_continues_succ (hall : ∀ i < n, m.Continues readProblem (answers i))
    {next : String} (h : m.judge readProblem (answers n) = .ok (raw, page, some next)) :
    ∀ i < n + 1, m.Continues readProblem (answers i) := by
  intro i hi
  rcases Nat.lt_succ_iff_lt_or_eq.mp hi with hi | rfl
  · exact hall i hi
  · exact ⟨raw, page, next, h⟩

/-- Reading on after the first pages ends as it has to. -/
theorem loop_ends (query : ListQuery) (known : Option String) (k : ℕ) :
    ∀ n, n + (k + 1) = maxPage → (∀ i < n, m.Continues readProblem (answers i)) →
      ∃ count result, (∀ fuel, m.loop readProblem answers query.limit known (fuel + (k + 1))
          (m.gather readProblem answers n) (m.cursorAt readProblem answers query n)
          ((List.range n).map (m.requestAt readProblem answers query known)) =
          some ((List.range count).map (m.requestAt readProblem answers query known), result)) ∧
        m.Ends readProblem answers count result := by
  induction k with
  | zero =>
    intro n hn hall
    have hlast : n + 1 = maxPage := hn
    have hpages := pages_gather hall
    obtain ⟨q, hq, hrequest⟩ := @exists_query _ _ _ readProblem m answers n query
      known
    cases h : m.judge readProblem (answers n) with
    | error result =>
      refine ⟨n + 1, result, fun fuel ↦ ?_, .stopped (by omega) hall h⟩
      rw [Nat.zero_add, loop_stopped hpages hq h, hrequest, requestAt_range]
    | ok read =>
      obtain ⟨raw, page, _ | next⟩ := read
      · refine ⟨n + 1, _, fun fuel ↦ ?_, .ended (by omega) hall h⟩
        rw [Nat.zero_add, loop_ended hpages hq h, hrequest, requestAt_range, gather_add h]
      · refine ⟨maxPage, _, fun fuel ↦ ?_, .limited (hlast ▸ forall_continues_succ hall h)⟩
        rw [Nat.zero_add, loop_continues hpages hq h, hrequest, requestAt_range,
          if_neg (by omega), ← hlast, gather_add h]
  | succ k ih =>
    intro n hn hall
    have hpages := pages_gather hall
    obtain ⟨q, hq, hrequest⟩ := @exists_query _ _ _ readProblem m answers n query
      known
    cases h : m.judge readProblem (answers n) with
    | error result =>
      refine ⟨n + 1, result, fun fuel ↦ ?_, .stopped (by omega) hall h⟩
      rw [← Nat.add_assoc, loop_stopped hpages hq h, hrequest, requestAt_range]
    | ok read =>
      obtain ⟨raw, page, _ | next⟩ := read
      · refine ⟨n + 1, _, fun fuel ↦ ?_, .ended (by omega) hall h⟩
        rw [← Nat.add_assoc, loop_ended hpages hq h, hrequest, requestAt_range, gather_add h]
      · obtain ⟨count, result, hloop, hends⟩ := ih (n + 1) (by omega) (forall_continues_succ hall h)
        refine ⟨count, result, fun fuel ↦ ?_, hends⟩
        have hcursor : m.cursorAt readProblem answers query (n + 1) = some next := by
          rw [cursorAt, pageOf_eq h]
          rfl
        rw [← hloop fuel, ← Nat.add_assoc, loop_continues hpages hq h, hrequest, requestAt_range,
          if_pos (by omega), gather_add h, hcursor]

/-- Reading a listing ends after at most as many requests as there may be pages. -/
theorem run_ends (m : Pages Row Page Listing) (readProblem : ℕ → List UInt8 → ReadProblem)
    (answers : ℕ → Except NetworkError RawResponse) (query : ListQuery) (known : Option String) :
    ∃ count result, (∀ fuel, m.run readProblem answers query known (fuel + maxPage) =
        some ((List.range count).map (m.requestAt readProblem answers query known), result)) ∧
      m.Ends readProblem answers count result :=
  loop_ends query known (maxPage - 1) 0 rfl fun _ h ↦ absurd h (Nat.not_lt_zero _)

theorem pagesTo_succ (h : m.judge readProblem (answers n) = .ok (raw, page, cursor)) :
    m.pagesTo readProblem answers (n + 1) = m.pagesTo readProblem answers n ++ [page] := by
  rw [pagesTo, pagesTo, List.range_succ, List.filterMap_append, List.filterMap_cons,
    List.filterMap_nil, pageOf_eq h]
  rfl

theorem length_pagesTo (hall : ∀ i < n, m.Continues readProblem (answers i)) :
    (m.pagesTo readProblem answers n).length = n := by
  induction n with
  | zero => rfl
  | succ n ih =>
    obtain ⟨raw, page, next, h⟩ := hall n (Nat.lt_succ_self n)
    rw [pagesTo_succ h, List.length_append, List.length_singleton,
      ih fun i hi ↦ hall i (Nat.lt_succ_of_lt hi)]

theorem rows_gather (hall : ∀ i < n, m.Continues readProblem (answers i)) :
    m.rows (m.gather readProblem answers n) =
      (m.pagesTo readProblem answers n).flatMap m.items := by
  induction n with
  | zero => exact m.rows_empty
  | succ n ih =>
    obtain ⟨raw, page, next, h⟩ := hall n (Nat.lt_succ_self n)
    rw [pagesTo_succ h, gather_add h, m.rows_add, ih fun i hi ↦ hall i (Nat.lt_succ_of_lt hi),
      List.flatMap_append, List.flatMap_singleton]

/-- An answer that says that nothing has changed. -/
def Is304 (answer : Except NetworkError RawResponse) : Prop :=
  ∃ raw, answer = .ok raw ∧ raw.status = 304

theorem failure_eq_unchanged {what : String} {etag : Option String}
    (h : failure readProblem raw what = (.unchanged etag : ApiResult Listing)) :
    raw.status = 304 := by
  by_contra hne
  rw [failure, if_neg hne] at h
  split at h
  · cases h
  · dsimp only at h
    split at h
    · cases h
    · split at h
      · cases h
      · cases h

/-- Nothing but a 304 makes a listing unchanged. -/
theorem judge_eq_unchanged {answer : Except NetworkError RawResponse} :
    (∃ etag, m.judge readProblem answer = .error (.unchanged etag)) ↔ Is304 answer := by
  constructor
  · rintro ⟨etag, h⟩
    unfold judge at h
    split at h
    · cases h
    · rename_i raw
      split at h
      · exact ⟨raw, rfl, failure_eq_unchanged (Except.error.inj h)⟩
      · split at h
        · cases h
        · split at h
          · cases h
          · cases h
  · rintro ⟨raw, rfl, h⟩
    have hne : raw.status ≠ 200 := by omega
    refine ⟨raw.headerAt "ETag", ?_⟩
    rw [judge, if_pos hne, failure, if_pos h]

theorem failure_ne_success {what : String} : failure readProblem raw what ≠ .success list := by
  intro h
  rw [failure] at h
  split at h
  · cases h
  · split at h
    · cases h
    · dsimp only at h
      split at h
      · cases h
      · split at h
        · cases h
        · cases h

/-- An answer that ends the reading is no success. -/
theorem judge_ne_success {answer : Except NetworkError RawResponse} :
    m.judge readProblem answer ≠ .error (.success list) := by
  intro h
  unfold judge at h
  split at h
  · cases h
  · split at h
    · exact failure_ne_success (Except.error.inj h)
    · split at h
      · cases h
      · split at h
        · cases h
        · cases h

/-- What reading a listing page by page owes: few requests, of which only the first one is
conditional and every further one hands back the cursor of the page before; the rows of all pages in
their order; and that nothing has changed is said by the first answer alone. -/
structure Paged (m : Pages Row Page Listing) (readProblem : ℕ → List UInt8 → ReadProblem)
    (answers : ℕ → Except NetworkError RawResponse) (known : Option String)
    (requests : List Request) (result : ApiResult Listing) : Prop where
  few : requests.length ≤ maxPage
  conditional : ∀ i request, requests[i]? = some request →
    request.header.lookup "If-None-Match" = if i = 0 then known else none
  chained : ∀ i request, requests[i + 1]? = some request → ∃ raw page next,
    m.judge readProblem (answers i) = .ok (raw, page, some next) ∧
      ("cursor", next) ∈ request.query
  whole : ∀ list, result = .success list →
    (m.pagesTo readProblem answers requests.length).length = requests.length ∧
      m.rows list = (m.pagesTo readProblem answers requests.length).flatMap m.items
  unchanged : ∀ etag, result = .unchanged etag → requests.length = 1 ∧ Is304 (answers 0)

/-- Every answer asked for after the first one is no 304. -/
def Uninterrupted (m : Pages Row Page Listing) (readProblem : ℕ → List UInt8 → ReadProblem)
    (answers : ℕ → Except NetworkError RawResponse) : Prop :=
  ∀ n, 0 < n → n < maxPage → (∀ i < n, m.Continues readProblem (answers i)) → ¬ Is304 (answers n)

theorem lookup_requestAt (query : ListQuery) (known : Option String) (i : ℕ) :
    (m.requestAt readProblem answers query known i).header.lookup "If-None-Match" =
      if i = 0 then known else none := by
  rw [requestAt, request]
  cases known with
  | none => cases i <;> rfl
  | some etag => cases i <;> rfl

theorem Ends.continues {count : ℕ} (h : m.Ends readProblem answers count result) :
    count ≤ maxPage ∧ ∀ i, i + 1 < count → m.Continues readProblem (answers i) := by
  cases h with
  | stopped hn hall h => exact ⟨hn, fun i hi ↦ hall i (Nat.lt_of_succ_lt_succ hi)⟩
  | ended hn hall h => exact ⟨hn, fun i hi ↦ hall i (Nat.lt_of_succ_lt_succ hi)⟩
  | limited hall => exact ⟨le_rfl, fun i hi ↦ hall i (Nat.lt_of_succ_lt hi)⟩

/-- What the answer that ends the reading makes of it. -/
def outcome (m : Pages Row Page Listing) (readProblem : ℕ → List UInt8 → ReadProblem)
    (answers : ℕ → Except NetworkError RawResponse) (n : ℕ) : ApiResult Listing :=
  match m.judge readProblem (answers n) with
  | .error result => result
  | .ok _ => .success (m.gather readProblem answers (n + 1))

/-- Reading ends at the first answer that is no page to read on from, or at the page limit. -/
theorem Ends.last {count : ℕ} (h : m.Ends readProblem answers count result) :
    (∃ n, count = n + 1 ∧ n < maxPage ∧ (∀ i < n, m.Continues readProblem (answers i)) ∧
        ¬ m.Continues readProblem (answers n) ∧ result = m.outcome readProblem answers n) ∨
      count = maxPage ∧ (∀ i < maxPage, m.Continues readProblem (answers i)) ∧
        result = .success (m.cut (m.gather readProblem answers maxPage)) := by
  cases h with
  | @stopped n _ hn hall h =>
    refine .inl ⟨n, rfl, hn, hall, ?_, ?_⟩
    · rintro ⟨raw, page, next, hpage⟩
      rw [h] at hpage
      cases hpage
    · rw [outcome, h]
  | @ended n _ _ hn hall h =>
    refine .inl ⟨n, rfl, hn, hall, ?_, ?_⟩
    · rintro ⟨raw, page, next, hpage⟩
      rw [h] at hpage
      cases hpage
    · rw [outcome, h]
  | limited hall => exact .inr ⟨rfl, hall, rfl⟩

theorem Ends.unique {count count' : ℕ} {result' : ApiResult Listing}
    (h : m.Ends readProblem answers count result) (h' : m.Ends readProblem answers count' result') :
    count = count' ∧ result = result' := by
  rcases h.last with ⟨n, rfl, hn, hall, hnot, rfl⟩ | ⟨rfl, hall, rfl⟩ <;>
    rcases h'.last with ⟨n', rfl, hn', hall', hnot', rfl⟩ | ⟨rfl, hall', rfl⟩
  · rcases Nat.lt_trichotomy n n' with hlt | rfl | hlt
    · exact absurd (hall' n hlt) hnot
    · exact ⟨rfl, rfl⟩
    · exact absurd (hall n' hlt) hnot'
  · exact absurd (hall' n hn) hnot
  · exact absurd (hall n' hn') hnot'
  · exact ⟨rfl, rfl⟩

/-- A listing that was read holds the rows of all pages that were asked for. -/
theorem Ends.whole {count : ℕ} (h : m.Ends readProblem answers count (.success list)) :
    (m.pagesTo readProblem answers count).length = count ∧
      m.rows list = (m.pagesTo readProblem answers count).flatMap m.items := by
  generalize hresult : ApiResult.success list = result at h
  cases h with
  | stopped hn hall hjudge => exact absurd (hresult ▸ hjudge) judge_ne_success
  | @ended n raw page hn hall hjudge =>
    obtain rfl := ApiResult.success.inj hresult
    rw [pagesTo_succ hjudge, gather_add hjudge, m.rows_add, rows_gather hall, List.length_append,
      length_pagesTo hall, List.flatMap_append, List.flatMap_singleton]
    exact ⟨rfl, rfl⟩
  | limited hall =>
    obtain rfl := ApiResult.success.inj hresult
    rw [m.rows_cut]
    exact ⟨length_pagesTo hall, rows_gather hall⟩

theorem eq_of_getElem?_map_range {β : Type} {f : ℕ → β} {count i : ℕ} {b : β}
    (h : ((List.range count).map f)[i]? = some b) : i < count ∧ b = f i := by
  obtain ⟨hi, hb⟩ := List.getElem?_eq_some_iff.mp h
  rw [List.length_map, List.length_range] at hi
  rw [List.getElem_map, List.getElem_range] at hb
  exact ⟨hi, hb.symm⟩

theorem paged_iff (query : ListQuery) (known : Option String) {count : ℕ}
    (h : m.Ends readProblem answers count result) :
    m.Paged readProblem answers known
        ((List.range count).map (m.requestAt readProblem answers query known)) result ↔
      m.Uninterrupted readProblem answers := by
  have hlength : ((List.range count).map
      (m.requestAt readProblem answers query known)).length = count := by
    rw [List.length_map, List.length_range]
  constructor
  · intro hpaged n hpos hn hall h304
    obtain ⟨etag, hjudge⟩ := (@judge_eq_unchanged _ _ _ readProblem m _).mpr h304
    obtain ⟨hcount, hresult⟩ := h.unique (.stopped hn hall hjudge)
    have hone := (hpaged.unchanged etag hresult).1
    omega
  · intro hquiet
    exact
      { few := hlength.trans_le h.continues.1
        conditional := by
          intro i request hrequest
          rw [(eq_of_getElem?_map_range hrequest).2]
          exact lookup_requestAt query known i
        chained := by
          intro i request hrequest
          obtain ⟨hi, rfl⟩ := eq_of_getElem?_map_range hrequest
          obtain ⟨raw, page, next, hpage⟩ := h.continues.2 i hi
          have hcursor : m.cursorAt readProblem answers query (i + 1) = some next := by
            rw [cursorAt, pageOf_eq hpage]
            rfl
          refine ⟨raw, page, next, hpage, ?_⟩
          rw [requestAt, hcursor]
          exact List.mem_cons_self
        whole := by
          rw [hlength]
          exact fun list hlist ↦ (hlist ▸ h).whole
        unchanged := by
          intro etag hetag
          rw [hlength]
          subst hetag
          cases h with
          | @stopped n _ hn hall hjudge =>
            have h304 := judge_eq_unchanged.mp ⟨etag, hjudge⟩
            obtain rfl : n = 0 := by
              by_contra hne
              exact hquiet n (Nat.pos_of_ne_zero hne) hn hall h304
            exact ⟨rfl, h304⟩ }

end Pages

end Course

section Documents

open Pages

variable {readProblem : ℕ → List UInt8 → ReadProblem} {url : String}
  {read : List UInt8 → Except String DocumentPage}
  {answers : ℕ → Except NetworkError RawResponse} {known : Option String}
  {result : ApiResult DocumentList}

/-- What a listing of documents owes besides: a page over its own limit breaks the contract, and
what is returned keeps to every limit the server has stated. -/
structure Limited (url : String) (read : List UInt8 → Except String DocumentPage)
    (readProblem : ℕ → List UInt8 → ReadProblem) (answers : ℕ → Except NetworkError RawResponse)
    (count : ℕ) (result : ApiResult DocumentList) : Prop where
  breach : ∀ i < count, ∀ raw page, answers i = .ok raw → raw.status = 200 →
    read raw.body = .ok page → page.displayLimit.toNat < page.items.length →
    ∃ reason, result = .networkError (.contractBreach reason)
  within : ∀ list, result = .success list →
    ∀ page ∈ (listDocument url read).pagesTo readProblem answers count,
      list.rows.length ≤ page.displayLimit.toNat

/-- Where the pages come to an end, or to the page limit, they hold together no more documents than
any of them states. -/
def Fitting (url : String) (read : List UInt8 → Except String DocumentPage)
    (readProblem : ℕ → List UInt8 → ReadProblem)
    (answers : ℕ → Except NetworkError RawResponse) : Prop :=
  ∀ n < maxPage, (∀ i < n, (listDocument url read).Continues readProblem (answers i)) →
    ∀ raw page cursor, (listDocument url read).judge readProblem (answers n) =
        .ok (raw, page, cursor) → cursor = none ∨ n + 1 = maxPage →
      ∀ p ∈ (listDocument url read).pagesTo readProblem answers (n + 1),
        (((listDocument url read).pagesTo readProblem answers (n + 1)).map
          (·.items.length)).sum ≤ p.displayLimit.toNat

theorem judge_page {answer : Except NetworkError RawResponse} {raw : RawResponse}
    {page : DocumentPage} {cursor : Option String} (h : answer = .ok raw)
    (hstatus : raw.status = 200) (hread : read raw.body = .ok page)
    (hcontinuation : page.continuation = .ok cursor) :
    (listDocument url read).judge readProblem answer = .ok (raw, page, cursor) := by
  subst h
  have hm : (listDocument url read).read raw.body = .ok page := hread
  have hc : (listDocument url read).continuation page = .ok cursor :=
    mapError_eq_ok.mpr hcontinuation
  rw [judge, if_neg (not_not.mpr hstatus), hm]
  dsimp only
  rw [hc]

theorem judge_of_over {answer : Except NetworkError RawResponse} {raw : RawResponse}
    {page : DocumentPage} (h : answer = .ok raw) (hstatus : raw.status = 200)
    (hread : read raw.body = .ok page) (hover : page.displayLimit.toNat < page.items.length) :
    ∃ reason, (listDocument url read).judge readProblem answer =
      .error (.networkError (.contractBreach reason)) := by
  have hcontinuation : page.continuation =
      .error (.overLimit page.items.length page.displayLimit) := by
    rw [DocumentPage.continuation, if_pos hover]
    rfl
  refine ⟨(ListError.overLimit page.items.length page.displayLimit).display, ?_⟩
  subst h
  have hm : (listDocument url read).read raw.body = .ok page := hread
  have hc : (listDocument url read).continuation page =
      .error (ListError.overLimit page.items.length page.displayLimit).display := by
    change page.continuation.mapError ListError.display = _
    rw [hcontinuation]
    rfl
  rw [judge, if_neg (not_not.mpr hstatus), hm]
  dsimp only
  rw [hc]

/-- Reading ends where the pages do, or at the page limit. -/
theorem Pages.Ends.of_success {Row Page Listing : Type} {m : Pages Row Page Listing}
    {count : ℕ} {list : Listing} (h : m.Ends readProblem answers count (.success list)) :
    ∃ n raw page cursor, count = n + 1 ∧ n < maxPage ∧
      (∀ i < n, m.Continues readProblem (answers i)) ∧
      m.judge readProblem (answers n) = .ok (raw, page, cursor) ∧
      (cursor = none ∨ n + 1 = maxPage) := by
  generalize hresult : ApiResult.success list = result at h
  cases h with
  | stopped hn hall hjudge => exact absurd (hresult ▸ hjudge) judge_ne_success
  | @ended n raw page hn hall hjudge =>
    exact ⟨n, raw, page, none, rfl, hn, hall, hjudge, .inl rfl⟩
  | limited hall =>
    obtain ⟨raw, page, next, hjudge⟩ := hall (maxPage - 1) (by decide)
    exact ⟨maxPage - 1, raw, page, some next, rfl, by decide,
      fun i hi ↦ hall i (Nat.lt_of_lt_of_le hi (Nat.sub_le _ _)), hjudge, .inr rfl⟩

theorem length_rows {count : ℕ} {list : DocumentList}
    (h : (listDocument url read).Ends readProblem answers count (.success list)) :
    list.rows.length =
      (((listDocument url read).pagesTo readProblem answers count).map (·.items.length)).sum :=
  (congrArg List.length h.whole.2).trans List.length_flatMap

theorem limited_iff {count : ℕ}
    (h : (listDocument url read).Ends readProblem answers count result) :
    Limited url read readProblem answers count result ↔ Fitting url read readProblem answers := by
  constructor
  · intro hlimited n hn hall raw page cursor hjudge hlast p hp
    obtain ⟨list, hends⟩ : ∃ list, (listDocument url read).Ends readProblem answers (n + 1)
        (.success list) := by
      cases cursor with
      | none => exact ⟨_, .ended hn hall hjudge⟩
      | some next =>
        obtain hend : n + 1 = maxPage := by simpa using hlast
        rw [hend]
        exact ⟨_, .limited (hend ▸ forall_continues_succ hall hjudge)⟩
    obtain ⟨rfl, rfl⟩ := h.unique hends
    rw [← length_rows hends]
    exact hlimited.within list rfl p hp
  · intro hfitting
    constructor
    · intro i hi raw page hanswer hstatus hread hover
      obtain ⟨reason, hjudge⟩ := @judge_of_over readProblem url _ _ _ _ hanswer
        hstatus hread hover
      have hnot : ¬ (listDocument url read).Continues readProblem (answers i) := by
        rintro ⟨raw', page', next, hpage⟩
        rw [hjudge] at hpage
        cases hpage
      obtain ⟨hcount, hbefore⟩ := h.continues
      have hlast : count = i + 1 := by
        by_contra hne
        exact hnot (hbefore i (by omega))
      have hends : (listDocument url read).Ends readProblem answers (i + 1)
          (.networkError (.contractBreach reason)) :=
        .stopped (by omega) (fun j hj ↦ hbefore j (by omega)) hjudge
      exact ⟨reason, (h.unique hends).2⟩
    · intro list hlist p hp
      subst hlist
      obtain ⟨n, raw, page, cursor, rfl, hn, hall, hjudge, hlast⟩ := Ends.of_success h
      rw [length_rows h]
      exact hfitting n hn hall raw page cursor hjudge hlast p hp

/-- Listings are read page by page as they should, but for a 304 that comes after the first page,
and for documents that are more than the server's limit only on all pages together. -/
theorem paging_exact (readProblem : ℕ → List UInt8 → ReadProblem)
    (answers : ℕ → Except NetworkError RawResponse) (query : ListQuery) (known : Option String) :
    (∀ (Row : Type) (what url : String)
      (read : List UInt8 → Except String (Wire.Namespace.Page Row)),
      ∃ requests result, (∀ fuel, (allPages what url read).run readProblem answers query known
          (fuel + maxPage) = some (requests, result)) ∧
        ((allPages what url read).Paged readProblem answers known requests result ↔
          (allPages what url read).Uninterrupted readProblem answers)) ∧
    ∀ (url : String) (read : List UInt8 → Except String DocumentPage),
      ∃ requests result, (∀ fuel, (listDocument url read).run readProblem answers query known
          (fuel + maxPage) = some (requests, result)) ∧
        ((listDocument url read).Paged readProblem answers known requests result ∧
            Limited url read readProblem answers requests.length result ↔
          (listDocument url read).Uninterrupted readProblem answers ∧
            Fitting url read readProblem answers) := by
  constructor
  · intro Row what url read
    obtain ⟨count, result, hrun, hends⟩ :=
      run_ends (allPages what url read) readProblem answers query known
    exact ⟨_, result, hrun, paged_iff query known hends⟩
  · intro url read
    obtain ⟨count, result, hrun, hends⟩ :=
      run_ends (listDocument url read) readProblem answers query known
    refine ⟨_, result, hrun, ?_⟩
    rw [paged_iff query known hends, List.length_map, List.length_range, limited_iff hends]

/-- The page of one document as the server writes it. -/
def receiptText (digit : Char) (cursor : String) : String :=
  "\x7b\"items\":[\x7b\"documentId\":\"doc_0000000000000000000000000" ++ digit.toString ++
    "\",\"title\":\"Receipt\",\"mediaType\":\"application/pdf\",\"size\":1,\"sha256\":\"sha256:" ++
    String.ofList (List.replicate 64 '0') ++ "\",\"version\":\"1\"," ++
    "\"createdAt\":\"1970-01-01T00:00:00Z\",\"updatedAt\":\"1970-01-01T00:00:00Z\"\x7d]," ++
    cursor ++ ",\"totalCapped\":false,\"displayLimit\":1,\"refineUrl\":null\x7d"

def receipt (n : Fin (2 ^ 128)) : DocumentItem :=
  ⟨⟨n⟩, "Receipt", "application/pdf", 1, ⟨0⟩, "1", .null, .null⟩

def firstText : String := receiptText '1' "\"nextCursor\":\"c\",\"hasMore\":true"

def secondText : String := receiptText '2' "\"nextCursor\":null,\"hasMore\":false"

def readReceipts (bytes : List UInt8) : Except String DocumentPage :=
  if bytes = Library.Texts.utf8 firstText then .ok ⟨[receipt 1], some "c", true, false, 1, none⟩
  else if bytes = Library.Texts.utf8 secondText then .ok ⟨[receipt 2], none, false, false, 1, none⟩
  else .error "expected value"

def raw (status : ℕ) (text : String) : RawResponse :=
  ⟨status, fun _ ↦ none, Library.Texts.utf8 text⟩

/-- Two pages of one document each, the second one possibly answered as unchanged. -/
def twoPages (unchanged : Bool) : ℕ → Except NetworkError RawResponse
  | 0 => .ok (raw 200 firstText)
  | _ => .ok (if unchanged then raw 304 "" else raw 200 secondText)

def noProblem : ℕ → List UInt8 → ReadProblem := fun status _ ↦
  ⟨⟨some status, .other "about:blank", "about:blank"⟩, "about:blank", none, none, false⟩

theorem status_raw (status : ℕ) (text : String) : (raw status text).status = status := rfl

theorem body_raw (status : ℕ) (text : String) :
    (raw status text).body = Library.Texts.utf8 text := rfl

theorem readReceipts_first : readReceipts (raw 200 firstText).body =
    .ok ⟨[receipt 1], some "c", true, false, 1, none⟩ := by
  rw [body_raw, readReceipts, if_pos rfl]

theorem readReceipts_second : readReceipts (raw 200 secondText).body =
    .ok ⟨[receipt 2], none, false, false, 1, none⟩ := by
  have hne : Library.Texts.utf8 secondText ≠ Library.Texts.utf8 firstText := fun h ↦
    absurd (Library.Texts.utf8_injective h) (by decide +kernel)
  rw [body_raw, readReceipts, if_neg hne, if_pos rfl]

theorem judge_first (unchanged : Bool) :
    (listDocument "https://api.example" readReceipts).judge noProblem (twoPages unchanged 0) =
      .ok (raw 200 firstText, ⟨[receipt 1], some "c", true, false, 1, none⟩, some "c") := by
  have hanswer : twoPages unchanged 0 = .ok (raw 200 firstText) := by rw [twoPages]
  exact judge_page hanswer (status_raw _ _) readReceipts_first (by decide)

theorem judge_second :
    (listDocument "https://api.example" readReceipts).judge noProblem (twoPages false 1) =
      .ok (raw 200 secondText, ⟨[receipt 2], none, false, false, 1, none⟩, none) := by
  have hanswer : twoPages false 1 = .ok (raw 200 secondText) := by
    rw [twoPages, if_neg Bool.false_ne_true]
    exact Nat.one_ne_zero
  exact judge_page hanswer (status_raw _ _) readReceipts_second (by decide)

theorem is304_second : Is304 (twoPages true 1) :=
  ⟨raw 304 "", rfl, status_raw _ _⟩

theorem continues_first (unchanged : Bool) : ∀ i < 1,
    (listDocument "https://api.example" readReceipts).Continues noProblem
      (twoPages unchanged i) := by
  intro i hi
  obtain rfl : i = 0 := Nat.lt_one_iff.mp hi
  exact ⟨_, _, _, judge_first unchanged⟩

/-- A 304 to the second page passes for an unchanged listing, and two pages of one document each
are taken over at a limit of one. -/
theorem paging_contradicted :
    (¬ ∀ answers query known requests result,
      (∀ fuel, (listDocument "https://api.example" readReceipts).run noProblem answers query known
        (fuel + maxPage) = some (requests, result)) →
      (listDocument "https://api.example" readReceipts).Paged noProblem answers known requests
        result) ∧
    ¬ ∀ answers query known requests result,
      (∀ fuel, (listDocument "https://api.example" readReceipts).run noProblem answers query known
        (fuel + maxPage) = some (requests, result)) →
      Limited "https://api.example" readReceipts noProblem answers requests.length result := by
  constructor
  · intro h
    obtain ⟨count, result, hrun, hends⟩ := run_ends (listDocument "https://api.example" readReceipts)
      noProblem (twoPages true) ⟨none, none, by decide, by decide⟩ none
    have hpaged := h _ _ _ _ _ hrun
    obtain ⟨etag, hjudge⟩ := (@judge_eq_unchanged _ _ _ noProblem
      (listDocument "https://api.example" readReceipts) _).mpr is304_second
    obtain ⟨rfl, rfl⟩ := hends.unique (.stopped (by decide) (continues_first true) hjudge)
    exact absurd (hpaged.unchanged etag rfl).1 (by decide)
  · intro h
    obtain ⟨count, result, hrun, hends⟩ := run_ends (listDocument "https://api.example" readReceipts)
      noProblem (twoPages false) ⟨none, none, by decide, by decide⟩ none
    have hlimited := h _ _ _ _ _ hrun
    rw [List.length_map, List.length_range] at hlimited
    obtain ⟨rfl, rfl⟩ := hends.unique (.ended (by decide) (continues_first false) judge_second)
    have hpages : (listDocument "https://api.example" readReceipts).pagesTo noProblem
        (twoPages false) 2 = [⟨[receipt 1], some "c", true, false, 1, none⟩,
          ⟨[receipt 2], none, false, false, 1, none⟩] := by
      rw [pagesTo_succ judge_second, pagesTo_succ (judge_first false)]
      rfl
    have hle := hlimited.within _ rfl _ (hpages ▸ List.mem_cons_self)
    rw [length_rows hends, hpages] at hle
    exact absurd hle (by decide)

end Documents

end FolderClient.Net.Paging
