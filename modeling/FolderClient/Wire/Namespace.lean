import FolderClient.Core.IdentifierText
import FolderClient.Core.Listing
import FolderClient.Library.Results

namespace FolderClient.Wire.Namespace

open FolderClient.Core.Namespace FolderClient.Core.Listing FolderClient.Library.Results

section Pages

/-- Why a page cannot be continued. -/
inductive PageError
  | moreWithoutCursor
  | emptyCursor
  | cursorWithoutMore
deriving DecidableEq

def PageError.display : PageError → String
  | moreWithoutCursor => "the page reports further entries but names no `nextCursor`; the listing " ++
    "would be incomplete (03 §6.0.8)"
  | emptyCursor => "the page reports further entries with an empty `nextCursor` (03 §6.0.8)"
  | cursorWithoutMore => "the page reports `hasMore: false` and names a `nextCursor` all the " ++
    "same; the contradiction is not guessed (proposal §7.1)"

/-- The cursor to read on with, where a page says that there is more. -/
def checkContinuation (hasMore : Bool) (nextCursor : Option String) :
    Except PageError (Option String) :=
  match hasMore, nextCursor with
  | true, none => .error .moreWithoutCursor
  | true, some cursor => if cursor = "" then .error .emptyCursor else .ok (some cursor)
  | false, some _ => .error .cursorWithoutMore
  | false, none => .ok none

theorem checkContinuation_ne_empty {hasMore : Bool} {nextCursor : Option String}
    (h : checkContinuation hasMore nextCursor = .ok (some "")) : False := by
  unfold checkContinuation at h
  split at h
  · cases h
  · split at h
    · cases h
    · rename_i cursor hne
      exact hne (Option.some.inj (Except.ok.inj h))
  · cases h
  · cases h

structure Page (Row : Type) where
  items : List Row
  nextCursor : Option String
  hasMore : Bool

def Page.continuation {Row : Type} (page : Page Row) : Except PageError (Option String) :=
  checkContinuation page.hasMore page.nextCursor

end Pages

section Listings

/-- Why a version does not become a strong ETag. -/
inductive EtagError
  | empty
  | character (version : String) (character : Char)
deriving DecidableEq

def EtagError.display : EtagError → String
  | empty => "an empty version marker yields no ETag"
  | character version c =>
    s!"the version marker `{version}` carries `{c}`; an ETag allows only visible " ++
      "characters without quotation marks (RFC 9110 §8.8.3)"

def strongEtag (version : String) : Except EtagError String :=
  if version = "" then .error .empty
  else
    match version.toList.find? fun c ↦ !(c = '!' || '#' ≤ c && c ≤ '~') with
    | some c => .error (.character version c)
    | none => .ok ("\"" ++ version ++ "\"")

/-- Why a listing is not adopted. -/
inductive ListError
  | page (error : PageError)
  | limit (limit : ℕ)
  | emptyCursor
  | version (document : DocumentIdentifier) (reason : EtagError)
  | overLimit (delivered : ℕ) (limit : UInt64)
deriving DecidableEq

def limitDefault : ℕ := 200

def limitMax : ℕ := 1000

def ListError.display : ListError → String
  | page error => error.display
  | limit n => s!"limit {n} lies outside 1 to {limitMax} (03 §6.0.8)"
  | emptyCursor => "an empty cursor is no cursor; the first page is fetched without `cursor`"
  | version document reason =>
    s!"the document {Core.IdentifierText.display .document document} carries an unusable " ++
      s!"version marker: {reason.display}"
  | overLimit delivered n =>
    s!"the page delivers {delivered} documents at a display limit of {n}"

/-- The query of a listing: a cursor that is one, and a limit the server takes. -/
structure ListQuery where
  cursor : Option String
  limit? : Option ℕ
  cursor_ne : cursor ≠ some ""
  limit_mem : ∀ limit ∈ limit?, 1 ≤ limit ∧ limit ≤ limitMax

namespace ListQuery

def new (cursor : Option String) (limit? : Option ℕ) : Except ListError ListQuery :=
  if hlimit : ∀ limit ∈ limit?, 1 ≤ limit ∧ limit ≤ limitMax then
    if hcursor : cursor = some "" then .error .emptyCursor
    else .ok ⟨cursor, limit?, hcursor, hlimit⟩
  else .error (.limit (limit?.getD 0))

def toQuery (query : ListQuery) : List (String × String) :=
  (query.cursor.map ("cursor", ·)).toList ++ (query.limit?.map (("limit", toString ·))).toList

/-- The limit that counts. -/
def limit (query : ListQuery) : ℕ := query.limit?.getD limitDefault

theorem limit_valid (query : ListQuery) : 1 ≤ query.limit ∧ query.limit ≤ limitMax := by
  rw [limit]
  cases h : query.limit? with
  | none => decide
  | some l => exact query.limit_mem l h

/-- A cursor that is one and a limit in force make a query. -/
theorem new_eq_ok {cursor : Option String} {l : ℕ} (hcursor : cursor ≠ some "")
    (hlimit : 1 ≤ l ∧ l ≤ limitMax) : ∃ query, new cursor (some l) = .ok query ∧
      query.cursor = cursor ∧ query.limit? = some l := by
  have hall : ∀ n ∈ some l, 1 ≤ n ∧ n ≤ limitMax := fun n hn ↦ Option.some.inj hn ▸ hlimit
  rw [new, dif_pos hall, dif_neg hcursor]
  exact ⟨_, rfl, rfl, rfl⟩

end ListQuery

/-- A page of documents. -/
structure DocumentPage where
  items : List DocumentItem
  nextCursor : Option String
  hasMore : Bool
  totalCapped : Bool
  displayLimit : UInt64
  refineUrl : Option String

/-- The strong ETag of the content. -/
def etag (row : DocumentItem) : Except ListError String :=
  (strongEtag row.version).mapError (.version row.document)

/-- The cursor to read on with, after the whole page has been checked. -/
def DocumentPage.continuation (page : DocumentPage) : Except ListError (Option String) := do
  if page.displayLimit.toNat < page.items.length then
    throw (.overLimit page.items.length page.displayLimit)
  let _ ← page.items.mapM etag
  (checkContinuation page.hasMore page.nextCursor).mapError .page

/-- A page of documents that can be read on from keeps to its own limit. -/
theorem continuation_eq_ok {page : DocumentPage} {cursor : Option String}
    (h : page.continuation = .ok cursor) : page.items.length ≤ page.displayLimit.toNat ∧
      checkContinuation page.hasMore page.nextCursor = .ok cursor := by
  rw [DocumentPage.continuation, ite_throw_eq_ok, bind_eq_ok] at h
  obtain ⟨hlimit, etags, -, h⟩ := h
  exact ⟨Nat.not_lt.mp hlimit, mapError_eq_ok.mp h⟩

end Listings

end FolderClient.Wire.Namespace
