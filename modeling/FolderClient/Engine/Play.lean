import FolderClient.Crypto.RevocationRuns
import FolderClient.Engine.System

namespace FolderClient.Engine.Play

open FolderClient.Net.Access
open FolderClient.Core.Namespace FolderClient.Core.Delivery FolderClient.Library.Json
open FolderClient.Library.Programs FolderClient.Library.Pools FolderClient.Storage.Basic
open FolderClient.Storage.Delivery FolderClient.Wire.Delivery FolderClient.Crypto.Jws
open FolderClient.Engine.Port FolderClient.Engine.System FolderClient.Engine.Transfers

/-- The answers of everything around the engine. -/
structure Surroundings where
  now : Timestamp := .null
  fileSystem : Bool := false
  page : ApiResult Page := .networkError (.connection "server" "away")
  exchange : Except NetworkError TokenStep := .error (.connection "server" "away")
  login : ApiResult DeviceLogin := .networkError (.connection "server" "away")
  waited : ApiResult LoginOutcome := .networkError (.connection "server" "away")
  deviceToken : ApiResult String := .networkError (.connection "server" "away")
  registered : ApiResult (Option Value) := .networkError (.connection "server" "away")
  serverKey : ApiResult Value := .networkError (.connection "server" "away")
  collected : ApiResult DeliveryPage := .networkError (.connection "server" "away")
  accepted : ApiResult AcknowledgementOutcome := .networkError (.connection "server" "away")
  deviceStatus : ApiResult (Option UInt64) := .networkError (.connection "server" "away")
  code : Option String := none
  stream : ApiResult Stream := .networkError (.connection "server" "away")
  cancelled : Bool := false
  sink : Except String Unit := .ok ()
  localState : Except PlatformError LocalState := .ok {}
  dehydrated : Except PlatformError Unit := .ok ()
  removed : Except PlatformError Unit := .ok ()

/-- The answer of a store that never fails. -/
def answered {α : Type} (w : World) (f : History → History)
    (operation : Except StoreError (α × Store)) : Except StoreError α × World :=
  match operation with
  | .ok (a, s) => (.ok a, { w.noting f with store := s })
  | .error e => (.error e, w)

theorem stored_of_answered {α : Type} {w w' : World} {f : History → History}
    {operation : Except StoreError (α × Store)} {a : Except StoreError α}
    (h : answered w f operation = (a, w')) : w.StoredNoting f False operation a w' := by
  unfold answered at h
  cases operation with
  | ok x =>
    obtain ⟨rfl, rfl⟩ := Prod.mk.inj h
    exact .inr ⟨rfl, rfl⟩
  | error e =>
    obtain ⟨rfl, rfl⟩ := Prod.mk.inj h
    exact .inr ⟨rfl, rfl⟩

def exchanged (w : World) (text : String) :
    Except NetworkError TokenStep → Except NetworkError TokenStep
  | .ok (.issued token) => .ok (.issued
    { token with
      begun := w.history.signOuts, key := w.memory.sessionKey, redeemed := some text })
  | other => other

def beginningLogin (w : World) : ApiResult DeviceLogin → ApiResult DeviceLogin
  | .success login => .success { login with begun := w.history.signOuts }
  | other => other

def issued (w : World) (login : DeviceLogin) : ApiResult LoginOutcome → ApiResult LoginOutcome
  | .success (.issued token) => .success (.issued
    { token with begun := login.begun, key := w.memory.sessionKey, redeemed := none })
  | other => other

def asked (w : World) (container : Container) (cursor : Option String) (page : ApiResult Page) :
    World :=
  match page with
  | .success page => w.noting fun h ↦
      { h with pages := h.pages ++ [⟨container, cursor, page, w.memory.userToken⟩] }
  | _ => w

variable (setting : Setting) (i : ℕ) (e : Surroundings)

def respondSession : (r : SessionRequest) → World → Option (SessionAnswer r × World)
  | .setting key, w => some (answered w id (.ok (w.store.settingOf key, w.store)))
  | .setSetting key value, w => some (answered w id (unit (w.store.setSetting key.text value)))
  | .session, w => some (answered w id (.ok (w.store.session, w.store)))
  | .setSession session _, w =>
    some (answered w (.signedIn session.account) (.ok ((), w.store.setSession session)))
  | .stopSession, w => some (answered w id (.ok ((), w.store.stopSession setting.device)))
  | .emptyNamespace, w =>
    some (answered w (fun h ↦ { h with written := [] })
      ((w.store.emptyNamespace).map fun x ↦ ((), x.2)))
  | .refreshToken, w => some (.ok w.refreshToken, w)
  | .setRefreshToken text token, w => some (.ok (), w.withRefreshToken text token.key)
  | .newSessionKey, w =>
    some (.ok (), w.withNewKey.withMemory fun m ↦ { m with sessionKey := w.history.keys })
  | .forgetSession, w => some (.ok (), w.forgotten none none)
  | .setUserToken token, w =>
    some ((), (w.withMemory fun m ↦ { m with userToken := some token }).noting (.takeOver token))
  | .hasUserToken, w => some (w.memory.userToken.isSome, w)
  | .setDeviceToken text, w =>
    some ((), w.withMemory fun m ↦ { m with deviceToken := some text })
  | .tokenExpiry, w => some (w.memory.tokenExpiry, w)
  | .setTokenExpiry expiry, w =>
    some ((), w.withMemory fun m ↦ { m with tokenExpiry := expiry })
  | .state, w => some (w.memory.state, w)
  | .setState state _, w => some ((), w.withMemory fun m ↦ { m with state := state })
  | .clearBegins, w =>
    some ((), w.withMemory fun m ↦ { m with clearing := i :: m.clearing })
  | .signOutCompleted, w =>
    some ((), (w.withMemory fun m ↦
        { m with state := .signedOut, clearing := m.clearing.erase i }).noting
      fun h ↦ { h with signOuts := h.signOuts + 1 })
  | .isStopped, w => some (w.memory.stopped, w)
  | .lockLogin, w =>
    if w.memory.lock = none then some ((), w.withMemory fun m ↦ { m with lock := some i }) else none
  | .unlockLogin, w => some ((), w.withMemory fun m ↦ { m with lock := none })
  | .enrollmentCode, w => some (e.code, w)
  | .now, w => some (e.now, w)
  | .registerDevice _, w => some (e.registered, w)
  | .fetchDeviceToken, w => some (e.deviceToken, w)
  | .fetchServerKey, w => some (e.serverKey, w)
  | .exchangeRefreshToken text, w =>
    some (Net.Access.refreshToken (exchanged w text e.exchange),
      w.noting (.present text (exchanged w text e.exchange)))
  | .startDeviceLogin, w => some (beginningLogin w e.login, w)
  | .waitOnToken login, w => some (issued w login e.waited, w)
  | .revoke _, w => some (true, w)
  | .fileSystem, w => some (e.fileSystem, w)
  | .clearEverything, w | .placeReady _ _, w => some (.ok (), w)

def respondReconcile : (r : ReconcileRequest) → World → Option (ReconcileAnswer r × World)
  | .session request, w => respondSession setting i e request w
  | .containerState container, w =>
    some (answered w id (.ok (w.store.containerStateOf container, w.store)))
  | .alreadyFetched, w => some (answered w id (.ok (w.store.alreadyFetched, w.store)))
  | .listPage container cursor _, w =>
    some ((e.page, w.memory.userToken), asked w container cursor e.page)
  | .replaceContainer container entries state tokens, w =>
    some (answered w (.write ⟨container, entries, state, tokens, false⟩)
      (w.store.replaceContainer setting.unicode container entries state))
  | .updateContainerState container state tokens, w =>
    some (answered w (.write ⟨container, [], state, tokens, true⟩)
      (unit (w.store.updateContainerState container state)))
  | .reportChange _, w => some (.ok (), w)
  | .joinReconciles _, w => some (.ok (), w)

def respondCommand : (r : CommandRequest) → World → Option (CommandAnswer r × World)
  | .reconcile request, w => respondReconcile setting i e request w
  | .placements document, w =>
    some (answered w id (.ok (w.store.placements document, w.store)))
  | .removeDocumentEverywhere document now, w =>
    some (answered w id (w.store.removeDocumentEverywhere document now))
  | .redact document, w => some (answered w id (.ok ((), (w.store.redact document).2)))
  | .spawnReconciles _, w => some ((), w)
  | .platformState entry, w =>
    some (e.localState, w.noting (.release (releases entry [] e.localState)))
  | .platformDehydrate entry _, w =>
    some (e.dehydrated, w.noting (.release (releases entry [.dehydrated entry] e.dehydrated)))
  | .platformRemove entry, w =>
    some (e.removed, w.noting (.release (releases entry [.removed entry] e.removed)))
  | .runBegins command order, w =>
    some ((), w.noting (.runBegins (placesOf w.store order) command order))

/-- How a delivery goes on: the whole buffer is written at once, and read as far as a chunk. -/
def respondHandling : (r : SourceRequest) → Handling → SourceAnswer r × Handling
  | .begins identifier, _ => ((), { identifier := some identifier })
  | .children _, h => (.ok [], h)
  | .entry _, h => (.ok none, { h with details := none })
  | .located _, h => (.ok none, h)
  | .containerState _, h => (.ok none, h)
  | .acquireLoad, h | .stagingFile, h | .flushScratch, h => (.ok (), h)
  | .cancelled, h => (e.cancelled, h)
  | .progress _ _, h | .appendLog _, h | .answered _, h => ((), h)
  | .createScratch, h => (.ok (), { h with scratch := some [], position := 0 })
  | .loadContent _ _, h => (e.stream, { h with loads := h.loads + 1 })
  | .writeScratch buffer, h =>
    if (h.scratch.getD []).length + buffer.length ≤ maxFile then
      (.ok buffer.length, { h with scratch := h.scratch.map (· ++ buffer.take buffer.length) })
    else (.error "the file is too long", h)
  | .openScratch, h => (.ok (), { h with position := 0 })
  | .readScratch, h =>
    match h.scratch with
    | some bytes =>
      (.ok ((bytes.drop h.position).take chunk),
        { h with position := h.position + ((bytes.drop h.position).take chunk).length })
    | none => (.error "no scratch file", h)
  | .removeScratch, h => ((), { h with scratch := none })
  | .write offset data, h => (e.sink, { h with handed := h.handed ++ [(offset, data)] })

def respondSource : (r : SourceRequest) → World → Option (SourceAnswer r × World)
  | .children container, w =>
    match w.store.children container with
    | .ok entries => some (.ok entries, w.noting (.showing container entries))
    | .error error => some (.error error, w)
  | .entry identifier, w =>
    some (.ok (w.store.entryOf identifier),
      w.withHandling i { w.handling i with details := (w.store.entryOf identifier).bind (·.file) })
  | .located container, w =>
    some (answered w id (.ok (w.store.entryOf (.container container), w.store)))
  | .containerState container, w =>
    some (answered w id (.ok (w.store.containerStateOf container, w.store)))
  | .appendLog entry, w =>
    some ((), (answered w id (w.store.appendLog (w.store.session.bind (·.account)) entry)).2)
  | .answered _, w => some ((), w.leaveHandling i)
  | r, w =>
    some ((respondHandling e r (w.handling i)).1,
      w.withHandling i (respondHandling e r (w.handling i)).2)

/-- The answer to a request, where it can be served. -/
def respond : (r : Request) → World → Option (Answer r × World)
  | .command request, w => respondCommand setting i e request w
  | .source request, w => respondSource i e request w
  | .setCursor value, w =>
    some (answered w .cursorStored (unit (w.store.setSetting settingCursor value)))
  | .deleteCursor, w => some (answered w id (.ok (w.store.deleteSetting settingCursor)))
  | .openAcknowledgement, w =>
    some (answered w id (.ok (w.store.openAcknowledgement, w.store)))
  | .acceptCommand command received, w =>
    some (answered w id (.ok (w.store.acceptCommand command received)))
  | .setOutcome command outcome, w =>
    some (answered w id (unit (w.store.setOutcome command outcome)))
  | .markAcknowledged command, w =>
    some (answered w id (unit (w.store.markAcknowledged command)))
  | .hasDeviceToken, w => some (w.memory.deviceToken.isSome, w)
  | .idempotencyKey, w => some (.ok (), w)
  | .deviceStatus, w => some (e.deviceStatus, w)
  | .deliveryCollect _ _, w => some (e.collected, w)
  | .acknowledge command _, w =>
    some (e.accepted, w.noting fun h ↦ { h with acknowledged := h.acknowledged ++ [command] })

theorem respondSession_serves {r : SessionRequest} {w w' : World} {a : SessionAnswer r}
    (h : respondSession setting i e r w = some (a, w')) :
    serveSession setting False i r w a w' := by
  cases r with
  | setting | session | setSetting | setSession | stopSession | emptyNamespace =>
    exact stored_of_answered (Option.some.inj h)
  | lockLogin =>
    simp only [respondSession] at h
    split at h
    · obtain ⟨rfl, rfl⟩ := Prod.mk.inj (Option.some.inj h)
      exact ⟨‹_›, rfl⟩
    · cases h
  | exchangeRefreshToken text =>
    obtain ⟨rfl, rfl⟩ := Prod.mk.inj (Option.some.inj h)
    refine ⟨exchanged w text e.exchange, rfl, fun token ht ↦ ?_, rfl⟩
    unfold exchanged at ht
    split at ht
    · cases ht
      exact ⟨rfl, rfl, rfl⟩
    · rename_i hne
      exact (hne _ ht).elim
  | startDeviceLogin =>
    obtain ⟨rfl, rfl⟩ := Prod.mk.inj (Option.some.inj h)
    refine ⟨fun login ht ↦ ?_, rfl⟩
    cases he : e.login with
    | success t => rw [he] at ht; cases ht; rfl
    | _ => rw [he] at ht; cases ht
  | waitOnToken login =>
    obtain ⟨rfl, rfl⟩ := Prod.mk.inj (Option.some.inj h)
    refine ⟨fun token ht ↦ ?_, rfl⟩
    cases he : e.waited with
    | success t =>
      rw [he] at ht
      cases t with
      | issued t => cases ht; exact ⟨rfl, rfl, rfl⟩
      | _ => cases ht
    | _ => rw [he] at ht; cases ht
  | refreshToken =>
    obtain ⟨rfl, rfl⟩ := Prod.mk.inj (Option.some.inj h)
    exact ⟨.inl rfl, rfl⟩
  | setRefreshToken | newSessionKey | forgetSession =>
    obtain ⟨rfl, rfl⟩ := Prod.mk.inj (Option.some.inj h)
    exact .inl ⟨rfl, rfl⟩
  | hasUserToken | tokenExpiry | state | isStopped =>
    obtain ⟨rfl, rfl⟩ := Prod.mk.inj (Option.some.inj h)
    exact ⟨rfl, rfl⟩
  | _ =>
    obtain ⟨rfl, rfl⟩ := Prod.mk.inj (Option.some.inj h)
    exact rfl

theorem respondReconcile_serves {r : ReconcileRequest} {w w' : World} {a : ReconcileAnswer r}
    (h : respondReconcile setting i e r w = some (a, w')) :
    serveReconcile setting False i r w a w' := by
  cases r with
  | session request => exact respondSession_serves setting i e h
  | containerState | alreadyFetched | replaceContainer | updateContainerState =>
    exact stored_of_answered (Option.some.inj h)
  | listPage container cursor etag =>
    obtain ⟨rfl, rfl⟩ := Prod.mk.inj (Option.some.inj h)
    refine ⟨rfl, ?_⟩
    cases he : e.page <;> rfl
  | reportChange | joinReconciles =>
    obtain ⟨rfl, rfl⟩ := Prod.mk.inj (Option.some.inj h)
    exact rfl

theorem respondCommand_serves {r : CommandRequest} {w w' : World} {a : CommandAnswer r}
    (h : respondCommand setting i e r w = some (a, w')) :
    serveCommand setting False i r w a w' := by
  cases r with
  | reconcile request => exact respondReconcile_serves setting i e h
  | placements | removeDocumentEverywhere | redact =>
    exact stored_of_answered (Option.some.inj h)
  | _ =>
    obtain ⟨rfl, rfl⟩ := Prod.mk.inj (Option.some.inj h)
    exact rfl

theorem respondHandling_serves (r : SourceRequest) (h : Handling) :
    serveHandling r h (respondHandling e r h).1 (respondHandling e r h).2 := by
  cases r with
  | createScratch | openScratch => exact .inl ⟨rfl, rfl⟩
  | writeScratch buffer =>
    simp only [respondHandling]
    split
    · exact .inl ⟨buffer.length, rfl, le_refl _, ‹_›, rfl⟩
    · exact .inr ⟨⟨_, rfl⟩, rfl⟩
  | removeScratch => exact .inl rfl
  | readScratch =>
    cases hs : h.scratch with
    | none =>
      simp only [respondHandling, hs]
      exact .inr ⟨⟨_, rfl⟩, rfl⟩
    | some bytes =>
      simp only [respondHandling, hs]
      refine .inl ⟨_, (bytes.drop h.position).drop chunk, rfl, ?_, ?_, ?_, by rw [hs]⟩
      · rw [hs, List.take_append_drop]
        rfl
      · exact List.length_take_le _ _
      · intro hd
        obtain hc | hd := List.take_eq_nil_iff.mp hd
        · exact absurd hc (by decide)
        · rw [hd, List.drop_nil]
  | _ => rfl

theorem respondSource_serves {r : SourceRequest} {w w' : World} {a : SourceAnswer r}
    (h : respondSource i e r w = some (a, w')) : serveSource False i r w a w' := by
  cases r with
  | children container =>
    simp only [respondSource] at h
    refine .inr ?_
    cases hc : w.store.children container with
    | ok entries =>
      rw [hc] at h
      obtain ⟨rfl, rfl⟩ := Prod.mk.inj (Option.some.inj h)
      exact ⟨rfl, rfl⟩
    | error error =>
      rw [hc] at h
      obtain ⟨rfl, rfl⟩ := Prod.mk.inj (Option.some.inj h)
      exact ⟨rfl, rfl⟩
  | entry identifier =>
    obtain ⟨rfl, rfl⟩ := Prod.mk.inj (Option.some.inj h)
    exact ⟨.inr ⟨rfl, rfl⟩, rfl⟩
  | located | containerState => exact stored_of_answered (Option.some.inj h)
  | appendLog entry =>
    obtain ⟨-, rfl⟩ := Prod.mk.inj (Option.some.inj h)
    exact ⟨_, stored_of_answered rfl⟩
  | answered result =>
    obtain ⟨-, rfl⟩ := Prod.mk.inj (Option.some.inj h)
    exact rfl
  | _ =>
    obtain ⟨rfl, rfl⟩ := Prod.mk.inj (Option.some.inj h)
    exact ⟨_, respondHandling_serves e _ _, rfl⟩

theorem respond_serves {r : Request} {w w' : World} {a : Answer r}
    (h : respond setting i e r w = some (a, w')) : serve setting False i r w a w' := by
  cases r with
  | command request => exact respondCommand_serves setting i e h
  | source request => exact respondSource_serves i e h
  | setCursor | deleteCursor | openAcknowledgement | acceptCommand | setOutcome
  | markAcknowledged =>
    exact stored_of_answered (Option.some.inj h)
  | hasDeviceToken =>
    obtain ⟨rfl, rfl⟩ := Prod.mk.inj (Option.some.inj h)
    exact ⟨rfl, rfl⟩
  | _ =>
    obtain ⟨rfl, rfl⟩ := Prod.mk.inj (Option.some.inj h)
    exact rfl

/-- A move of the engine, the answers that may come chosen. -/
inductive Move
  | start (i : ℕ) (job : Job)
  | ask (i : ℕ) (e : Surroundings)
  | finish (i : ℕ)
  | abort (i : ℕ)
  | restart (fingerprint : String)
  | stop

instance (job : Job) (w : World) : Decidable (job.mayStart i w) :=
  match job with
  | .channel _ _ _ => inferInstanceAs (Decidable (i = 0 ∧ w.memory.stopped = false))
  | .signIn | .signOut | .reconcile _ | .reconcileEverything | .children _ | .content _ _
  | .ensureForToken | .forceRefresh => inferInstanceAs (Decidable (i ≠ 0))

/-- The pool after a move, where the move can be made. -/
def move (c : Activities) : Move → Option Activities
  | .start i job =>
    if (c.running i).isNone ∧ job.mayStart i c.state then
      some ⟨c.state, Function.update c.running i (some (job.program setting))⟩
    else none
  | .ask i e =>
    match c.running i with
    | some (.ask r next) =>
      (respond setting i e r c.state).map fun x ↦
        ⟨x.2, Function.update c.running i (some (next x.1))⟩
    | _ => none
  | .finish i =>
    match c.running i with
    | some (.done ()) => some ⟨ended i c.state, Function.update c.running i none⟩
    | _ => none
  | .abort i =>
    match c.running i with
    | some _ =>
      if c.state.memory.stopped = true then
        some ⟨aborted i c.state, Function.update c.running i none⟩
      else none
    | none => none
  | .restart fingerprint => some ⟨c.state.restart fingerprint, fun _ ↦ none⟩
  | .stop => some ⟨stopped c.state, c.running⟩

def play (c : Activities) (moves : List Move) : Option Activities := moves.foldlM (move setting) c

variable {setting}

theorem step_of_move {c c' : Activities} {m : Move} (h : move setting c m = some c') :
    (rules setting False {}).Step c c' := by
  cases m with
  | start i job =>
    rw [move] at h
    split at h
    · rename_i hs
      obtain rfl := Option.some.inj h
      exact .start (Option.isNone_iff_eq_none.mp hs.1) ⟨job, rfl, hs.2⟩
    · cases h
  | ask i e =>
    rw [move] at h
    split at h
    · rename_i r next hrun
      obtain ⟨⟨a, w⟩, hx, rfl⟩ := Option.map_eq_some_iff.mp h
      exact .ask hrun ⟨respond_serves setting i e hx, trivial⟩
    · cases h
  | finish i =>
    rw [move] at h
    split at h
    · rename_i hrun
      obtain rfl := Option.some.inj h
      exact .finish hrun rfl
    · cases h
  | abort i =>
    rw [move] at h
    split at h
    · rename_i hrun
      split at h
      · rename_i hstopped
        obtain rfl := Option.some.inj h
        exact .abort hrun ⟨⟨hstopped, trivial⟩, rfl⟩
      · cases h
    · cases h
  | restart fingerprint =>
    obtain rfl := Option.some.inj h
    exact .restart ⟨trivial, fingerprint, rfl⟩
  | stop =>
    obtain rfl := Option.some.inj h
    exact .outside ⟨trivial, rfl⟩

theorem runs_of_play {c c' : Activities} {moves : List Move} (hc : Runs setting False {} c)
    (h : play setting c moves = some c') : Runs setting False {} c' := by
  induction moves generalizing c with
  | nil =>
    obtain rfl := Option.some.inj h
    exact hc
  | cons m moves ih =>
    rw [play, List.foldlM_cons] at h
    obtain ⟨c₁, hm, h⟩ := Option.bind_eq_some_iff.mp h
    exact ih (.step hc (step_of_move hm)) h

section Allowing

variable (setting) (allows : ℕ → (r : Request) → World → Answer r → World → Bool)

/-- Moves in which every request is one that is allowed where it is made, as it is answered. -/
def moveIf (c : Activities) : Move → Option Activities
  | .ask i e =>
    match c.running i with
    | some (.ask r next) =>
      ((respond setting i e r c.state).filter fun x ↦ allows i r c.state x.1 x.2).map fun x ↦
        ⟨x.2, Function.update c.running i (some (next x.1))⟩
    | _ => none
  | .start i job => move setting c (.start i job)
  | .finish i => move setting c (.finish i)
  | .abort _ | .restart _ | .stop => none

def playIf (c : Activities) (moves : List Move) : Option Activities :=
  moves.foldlM (moveIf setting allows) c

variable {setting allows} {condition : Condition}

theorem step_of_moveIf {c c' : Activities} {m : Move}
    (hallow : ∀ i r a w', allows i r c.state a w' = true → condition.serve i r c.state a w')
    (h : moveIf setting allows c m = some c') : (rules setting False condition).Step c c' := by
  cases m with
  | start i job =>
    rw [moveIf, move] at h
    split at h
    · rename_i hs
      obtain rfl := Option.some.inj h
      exact .start (Option.isNone_iff_eq_none.mp hs.1) ⟨job, rfl, hs.2⟩
    · cases h
  | ask i e =>
    rw [moveIf] at h
    split at h
    · rename_i r next hrun
      obtain ⟨⟨a, w⟩, hx, rfl⟩ := Option.map_eq_some_iff.mp h
      obtain ⟨hx, hr⟩ := Option.filter_eq_some_iff.mp hx
      exact .ask hrun ⟨respond_serves setting i e hx, hallow i r a w hr⟩
    · cases h
  | finish i =>
    rw [moveIf, move] at h
    split at h
    · rename_i hrun
      obtain rfl := Option.some.inj h
      exact .finish hrun rfl
    · cases h
  | abort | restart | stop => cases h

theorem runs_of_playIf {c c' : Activities} {moves : List Move}
    (hallow : ∀ i r w a w', allows i r w a w' = true → condition.serve i r w a w')
    (hc : Runs setting False condition c) (h : playIf setting allows c moves = some c') :
    Runs setting False condition c' := by
  induction moves generalizing c with
  | nil =>
    obtain rfl := Option.some.inj h
    exact hc
  | cons m moves ih =>
    rw [playIf, List.foldlM_cons] at h
    obtain ⟨c₁, hm, h⟩ := Option.bind_eq_some_iff.mp h
    exact ih (.step hc (step_of_moveIf (fun i r ↦ hallow i r c.state) hm)) h

end Allowing

section Beside

variable {γ : Type} (setting) (note : ℕ → (r : Request) → Answer r → World → γ → γ)
  (allows : ℕ → Request → World × γ → Bool)

/-- Moves with a record beside the state, in which every request is one that is allowed. -/
def moveBeside (c : Pool Request Answer (World × γ)) : Move → Option (Pool Request Answer (World × γ))
  | .ask i e =>
    match c.running i with
    | some (.ask r next) =>
      if allows i r c.state then
        (respond setting i e r c.state.1).map fun x ↦
          ⟨(x.2, note i r x.1 c.state.1 c.state.2), Function.update c.running i (some (next x.1))⟩
      else none
    | _ => none
  | .start i job => (move setting ⟨c.state.1, c.running⟩ (.start i job)).map fun c' ↦
      ⟨(c'.state, c.state.2), c'.running⟩
  | .finish i => (move setting ⟨c.state.1, c.running⟩ (.finish i)).map fun c' ↦
      ⟨(c'.state, c.state.2), c'.running⟩
  | .abort _ | .restart _ | .stop => none

def playBeside (c : Pool Request Answer (World × γ)) (moves : List Move) :
    Option (Pool Request Answer (World × γ)) :=
  moves.foldlM (moveBeside setting note allows) c

variable {setting note allows} {drifts : γ → γ → Prop} {heeds : ℕ → Request → World × γ → Prop}
  {first : World × γ → Prop}

theorem step_of_moveBeside {c c' : Pool Request Answer (World × γ)} {m : Move}
    (hallow : ∀ i r s, allows i r s = true → heeds i r s)
    (h : moveBeside setting note allows c m = some c') :
    ((rules setting False {}).beside note drifts heeds).Step c c' := by
  cases m with
  | start i job =>
    obtain ⟨c₁, hm, rfl⟩ := Option.map_eq_some_iff.mp h
    rw [move] at hm
    split at hm
    · rename_i hs
      obtain rfl := Option.some.inj hm
      exact .start (Option.isNone_iff_eq_none.mp hs.1) ⟨job, rfl, hs.2⟩
    · cases hm
  | ask i e =>
    rw [moveBeside] at h
    split at h
    · rename_i r next hrun
      split at h
      · rename_i ha
        obtain ⟨⟨a, w⟩, hx, rfl⟩ := Option.map_eq_some_iff.mp h
        exact .ask hrun ⟨⟨⟨respond_serves setting i e hx, trivial⟩, rfl⟩, hallow i r _ ha⟩
      · cases h
    · cases h
  | finish i =>
    obtain ⟨c₁, hm, rfl⟩ := Option.map_eq_some_iff.mp h
    rw [move] at hm
    split at hm
    · rename_i hrun
      obtain rfl := Option.some.inj hm
      exact .finish hrun ⟨rfl, rfl⟩
    · cases hm
  | abort | restart | stop => cases h

theorem runs_of_playBeside {c c' : Pool Request Answer (World × γ)} {moves : List Move}
    (hallow : ∀ i r s, allows i r s = true → heeds i r s)
    (hc : ((rules setting False {}).beside note drifts heeds).Run first c)
    (h : playBeside setting note allows c moves = some c') :
    ((rules setting False {}).beside note drifts heeds).Run first c' := by
  induction moves generalizing c with
  | nil =>
    obtain rfl := Option.some.inj h
    exact hc
  | cons m moves ih =>
    rw [playBeside, List.foldlM_cons] at h
    obtain ⟨c₁, hm, h⟩ := Option.bind_eq_some_iff.mp h
    exact ih (.step hc (step_of_moveBeside hallow hm)) h

end Beside

/-- The beginning of every run that is played. -/
def freshEngine (setting : Setting) : Activities :=
  ⟨.setUp setting.device 0 1000, fun _ ↦ none⟩

theorem runs_freshEngine {condition : Condition} :
    Runs setting False condition (freshEngine setting) :=
  .first ⟨0, 1000, rfl⟩

/-- Several requests of one activity under the same surroundings. -/
def asks (n i : ℕ) (e : Surroundings) : List Move := List.replicate n (.ask i e)

section Plain

/-- Names of one row each; the identifier is the length of the name. -/
def plainEntry (container : Container) (name : String) : Option Entry :=
  let n := Fin.ofNat (2 ^ 128) name.length
  match container with
  | .baskets => some ⟨.container (.basket ⟨n⟩), name, .folder⟩
  | .archives => some ⟨.container (.archive ⟨n⟩), name, .folder⟩
  | .searches => some ⟨.container (.search ⟨n⟩), name, .folder⟩
  | .search s =>
    some ⟨.document (.search s) ⟨n⟩, name, .file ⟨1, some ⟨0⟩, "1", .null, .null, "text/plain"⟩⟩
  | _ => none

/-- A workstation whose listings consist of names, with a checksum that is the sum. -/
def plainSetting (prims : Primitives) (readJson : String → Option Value) : Setting where
  prims := prims
  unicode := ⟨id, id⟩
  device := ⟨1⟩
  language := .de
  texts := ⟨fun _ ↦ "read me", fun _ _ ↦ ""⟩
  writeJson _ := ""
  readJson := readJson
  sha256 bytes := ⟨BitVec.ofNat 256 (bytes.map UInt8.toNat).sum⟩
  describe _ := ""
  entries container rows _ := rows.filterMap fun row ↦ row.asStr.bind (plainEntry container)

def plainPage (names : List String) (etag : String) : ApiResult Page :=
  .success ⟨names.map .string, none, some etag, false, 100, none⟩

def plain : Setting := plainSetting Crypto.RevocationRuns.plainPrimitives fun _ ↦ none

/-- Surroundings in which whoever signs in succeeds. -/
def welcoming (page : ApiResult Page) : Surroundings where
  page := page
  code := some "code"
  registered := .success none
  deviceToken := .success "device"
  login := .success ⟨.ok "https://login", 0⟩
  waited := .success (.issued ⟨"access", 100000, some "refresh", none, 0, 0, none⟩)

/-- An activity from its start to its end, asking `n` times. -/
def whole (n i : ℕ) (job : Job) (e : Surroundings) : List Move :=
  .start i job :: asks n i e ++ [.finish i]

end Plain

section Anchored

open FolderClient.Core.IdentifierText FolderClient.Crypto.Anchoring FolderClient.Crypto.RevocationRuns

/-- The keys of a server, as the enrolment answer brings them. -/
def serverKeys : Value :=
  .object
    [("keySetVersion", .number (.posInt 1)), ("issuer", .string "issuer"),
      ("tenantId", .string "tenant"), ("trustAnchors", .array [trustAnchor.raw]),
      ("signingKeys", .array [signingKey.raw])]

def confirmedKeys : KeySet plainPrimitives where
  keySetVersion := 1
  issuer := "issuer"
  tenantId := "tenant"
  anchorState := .confirmed
  anchors := [trustAnchor]
  signatureSigningKey := [signingKey]
  revoke := []
  pendingAnchors := []
  generatedAt := none
  refreshAfter := none
  nextRotationAt := none

/-- A workstation whose stored key set is always the confirmed one. -/
def anchored : Setting :=
  { plainSetting plainPrimitives fun _ ↦ some confirmedKeys.asStorage with
    writeJson := fun _ ↦ "keys" }

/-- A command for the workstation, signed by its server. -/
def signedCommand (number : Fin (2 ^ 128)) (kind : String) (payload : Value) : Value :=
  .object
    [("commandId", .string (display .command ⟨number⟩)), ("deviceId", .string (display .device ⟨1⟩)),
      ("kind", .string kind), ("issuedAt", .string "1970-01-01T00:00:00Z"), ("payload", payload),
      ("serverSignature", .string "DK..yK")]

/-- The erasure of a document. -/
def erasure (number : Fin (2 ^ 128)) (document : DocumentIdentifier) : Value :=
  signedCommand number "DEHYDRATE" (.object
    [("documentIds", .array [.string (display .document document)]), ("reason", .string "ERASURE")])

/-- Surroundings in which whoever signs in succeeds, and the server delivers commands. -/
def delivering (page : ApiResult Page) (items : List Value) : Surroundings :=
  { welcoming page with
    registered := .success (some serverKeys)
    collected := .success ⟨items, "next"⟩ }

end Anchored

end FolderClient.Engine.Play
