import FolderClient.Engine.Session

namespace FolderClient.Engine.Reconcile

open FolderClient.Net.Access
open FolderClient.Core.Namespace FolderClient.Core.Changes FolderClient.Library.Json
open FolderClient.Library.Programs FolderClient.Storage.Basic FolderClient.Engine.Port
open FolderClient.Engine.Session
open FolderClient.Engine.Port.ReconcileRequest (call)

/-- A listing as far as its pages have been read. -/
structure Listing where
  rows : List Value
  etag : Option String
  pages : ℕ
  limitReached : Bool
  totalCapped : Bool
  displayLimit : UInt64
  refineUrl : Option String

namespace Listing

def empty : Listing := ⟨[], none, 0, false, false, 0, none⟩

/-- The strong ETag is that of the first page; once truncated, always truncated. -/
def add (list : Listing) (page : Page) : Listing where
  rows := list.rows ++ page.items
  etag := if list.pages = 0 then page.etag else list.etag
  pages := list.pages + 1
  limitReached := list.limitReached
  totalCapped := list.totalCapped || page.totalCapped
  displayLimit := page.displayLimit
  refineUrl := page.refineUrl.or list.refineUrl

def truncation (list : Listing) : Option TruncationState :=
  if list.totalCapped || list.limitReached then
    some
      ⟨if list.totalCapped then list.displayLimit else UInt64.ofNat list.rows.length,
        list.refineUrl⟩
  else none

end Listing

/-- How many pages of a listing are fetched at most. -/
def maxPage : ℕ := 100

/-- Reads the pages of a listing, at most `n` more of them; only the request for the first page
carries the known ETag. The tokens are those the pages were asked for with. -/
def readPages (container : Container) (knownEtag : Option String) :
    ℕ → Listing → Option String → List TokenResponse →
      ReconcileActivity (ApiResult Listing × List TokenResponse)
  | 0, list, _, tokens => return (.success { list with limitReached := true }, tokens)
  | n + 1, list, cursor, tokens => do
    let (result, token) ←
      call (.listPage container cursor (if list.pages = 0 then knownEtag else none))
    let tokens := tokens ++ token.toList
    match result with
    | .success page =>
      match page.continuation with
      | none => return (.success (list.add page), tokens)
      | some next => readPages container knownEtag n (list.add page) (some next) tokens
    | .unchanged etag => return (.unchanged etag, tokens)
    | .slotError problem => return (.slotError problem, tokens)
    | .stepUpNeeded => return (.stepUpNeeded, tokens)
    | .securityAbort notice => return (.securityAbort notice, tokens)
    | .networkError error => return (.networkError error, tokens)

/-- Passes the journal entries on to the file system, if one is registered. -/
def registerWithPlatform (journal : List JournalEntry) : ReconcileActivity Unit := do
  if ← call (.session .fileSystem) then
    let _ ← call (.reportChange (journal.map (·.change)))

/-- Writes a listing onwards and reports the difference to the platform. -/
def adopt (container : Container) (entries : List Entry) (etag : Option String)
    (truncation : Option TruncationState) (tokens : List TokenResponse) : ReconcileFallible Unit := do
  let time ← call (.session .now)
  let journal ← store (call (.replaceContainer container entries ⟨etag, time, truncation⟩ tokens))
  if journal.isEmpty then
    return
  registerWithPlatform journal

/-- The listing has not changed: only the state is confirmed. -/
def confirmed (container : Container) (etag : Option String) (tokens : List TokenResponse) :
    ReconcileFallible Unit := do
  let before := (← store (call (.containerState container))).bind (·.truncation)
  let etag : Option String ← match etag with
    | some e => pure (some e)
    | none => do
      let stored ← call (.containerState container)
      pure (stored.toOption.join.bind (·.etag))
  let time ← call (.session .now)
  store (call (.updateContainerState container ⟨etag, time, before⟩ tokens))

def listingName : Container → String
  | .baskets => "the basket listing"
  | .archives => "the archive listing"
  | .archive _ => "the case-file listing"
  | .searches => "the search listing"
  | _ => "the document listing"

/-- The containers whose listing may be truncated. -/
def holdsDocuments : Container → Bool
  | .case _ _ | .search _ => true
  | _ => false

variable (setting : Setting)

/-- The entries built from a listing. -/
def entriesOf (container : Container) (list : Listing) : List Entry :=
  setting.entries container list.rows (if holdsDocuments container then list.truncation else none)

/-- The one fetch without a retry. -/
def fetchAndAdopt (container : Container) : ReconcileFallible Unit := do
  let knownEtag := (← store (call (.containerState container))).bind (·.etag)
  match container with
  | .root => adopt .root setting.rootEntries none none []
  | .basket b => adopt (.basket b) [] none none []
  | container => do
    let (result, tokens) ← readPages container knownEtag maxPage .empty none []
    match result with
    | .unchanged etag => confirmed container etag tokens
    | result =>
      let list ← raise (result.valueFrom (listingName container))
      adopt container (entriesOf setting container list) list.etag
        (if holdsDocuments container then list.truncation else none) tokens

/-- Fetches the listing of a container; after a rejected token exactly one second attempt. -/
def reconcileContainer (container : Container) : ReconcileFallible Unit := do
  if ← ofSession (ensureForToken setting) then
    match ← attempt (fetchAndAdopt setting container) with
    | .error (.sessionExpired _) =>
      if ← ofSession (forceRefresh setting) then
        fetchAndAdopt setting container
    | outcome => raise outcome

/-- Sets the connection in the signed-in state, without changing anything else. -/
def setConnected (connected : Bool) : ReconcileActivity Unit := do
  match ← call (.session .state) with
  | .signedIn displayName tenant since _ =>
    call (.session (.setState (.signedIn displayName tenant since connected) none))
  | _ => return

/-- Reconciles the whole namespace: the root, the fixed containers, whatever was fetched. -/
def reconcileEverything : ReconcileFallible Unit := do
  if ← ofSession (ensureForToken setting) then
    adopt .root setting.rootEntries none none []
    let baskets ← attempt (reconcileContainer setting .baskets)
    let archives ← attempt (reconcileContainer setting .archives)
    let searches ← attempt (reconcileContainer setting .searches)
    let opened ← store (call .alreadyFetched)
    let joined ← attempt (ExceptT.mk (call (.joinReconciles opened)))
    let result := firstError [baskets, archives, searches, joined]
    setConnected result.isOk
    raise result

/-- Makes sure a container is known and fetched, from top to bottom; `n` bounds the levels. -/
def fetchIfNeeded : ℕ → Container → ReconcileFallible Unit
  | 0, _ => return
  | n + 1, container => do
    if (← store (call (.containerState container))).isSome then
      return
    if let some parent := container.parent then
      if (← store (call (.containerState parent))).isNone then
        fetchIfNeeded n parent
    reconcileContainer setting container

end FolderClient.Engine.Reconcile
