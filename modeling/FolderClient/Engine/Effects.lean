import FolderClient.Engine.Port
import FolderClient.Storage.TreeRuns

namespace FolderClient.Engine.Effects

open FolderClient.Core.Namespace FolderClient.Core.Changes FolderClient.Library.Results
open FolderClient.Storage.Basic FolderClient.Storage.Delivery FolderClient.Storage.Effects
open FolderClient.Storage.Tree FolderClient.Storage.Runs FolderClient.Storage.TreeRuns
open FolderClient.Engine.Port FolderClient.Engine.Transfers FolderClient.Library.Tables

section Stores

variable {α : Type} {f : History → History} {fails : Prop} {w w' : World}
  {operation : Except StoreError (α × Store)} {a : Except StoreError α}

/-- A call to the store fails and changes nothing, or is the operation. -/
theorem storedNoting_cases (h : w.StoredNoting f fails operation a w') :
    (w' = w ∧ ∃ e, a = .error e) ∨
      ∃ b s, operation = .ok (b, s) ∧ a = .ok b ∧ w' = { w.noting f with store := s } := by
  obtain ⟨-, ha, hw⟩ | h := h
  · exact .inl ⟨hw, _, ha⟩
  · cases operation with
    | error e => exact .inl ⟨h.2, e, h.1⟩
    | ok x => exact .inr ⟨x.1, x.2, rfl, h.1, h.2⟩

theorem read_cases {b : α} (h : w.Stored fails (.ok (b, w.store)) a w') :
    w' = w ∧ ((∃ e, a = .error e) ∨ a = .ok b) := by
  obtain ⟨hw, he⟩ | ⟨b', s, hop, ha, hw⟩ := storedNoting_cases h
  · exact ⟨hw, .inl he⟩
  · cases hop
    exact ⟨hw, .inr ha⟩

theorem unit_eq_ok {r : Except StoreError Store} {x : Unit} {s : Store}
    (h : unit r = .ok (x, s)) : r = .ok s := by
  cases r with
  | error e => cases h
  | ok s' => cases h; rfl

end Stores

/-- What a request does to the store when it succeeds. -/
def sessionEffect (setting : Setting) : SessionRequest → Store → Except StoreError Store
  | .setSetting key value, s => s.setSetting key.text value
  | .setSession session _, s => .ok (s.setSession session)
  | .stopSession, s => .ok (s.stopSession setting.device)
  | .emptyNamespace, s => s.emptyNamespace.map Prod.snd
  | _, s => .ok s

def reconcileEffect (setting : Setting) : ReconcileRequest → Store → Except StoreError Store
  | .session request, s => sessionEffect setting request s
  | .replaceContainer container entries state _, s =>
    (s.replaceContainer setting.unicode container entries state).map Prod.snd
  | .updateContainerState container state _, s => s.updateContainerState container state
  | _, s => .ok s

def commandEffect (setting : Setting) : CommandRequest → Store → Except StoreError Store
  | .reconcile request, s => reconcileEffect setting request s
  | .removeDocumentEverywhere document now, s =>
    (s.removeDocumentEverywhere document now).map Prod.snd
  | .redact document, s => .ok (s.redact document).2
  | _, s => .ok s

/-- The row that a call of the platform appends, if any. -/
def sourceEffect : SourceRequest → Store → Except StoreError Store
  | .appendLog entry, s => (s.appendLog (s.session.bind (·.account)) entry).map Prod.snd
  | _, s => .ok s

def effect (setting : Setting) : Request → Store → Except StoreError Store
  | .command request, s => commandEffect setting request s
  | .source request, s => sourceEffect request s
  | .setCursor value, s => s.setSetting settingCursor value
  | .deleteCursor, s => .ok (s.deleteSetting settingCursor).2
  | .acceptCommand command received, s => .ok (s.acceptCommand command received).2
  | .setOutcome command outcome, s => s.setOutcome command outcome
  | .markAcknowledged command, s => s.markAcknowledged command
  | _, s => .ok s

variable {setting : Setting} {fails : Prop} {i : ℕ} {w w' : World}

theorem store_serveSession {r : SessionRequest} {a : SessionAnswer r}
    (h : serveSession setting fails i r w a w') :
    w'.store = w.store ∨ sessionEffect setting r w.store = .ok w'.store := by
  cases r with
  | setting key => exact .inl (congrArg World.store (read_cases h).1)
  | session => exact .inl (congrArg World.store (read_cases h).1)
  | setSetting key value =>
    obtain ⟨rfl, -⟩ | ⟨b, s, hop, -, rfl⟩ := storedNoting_cases h
    · exact .inl rfl
    · exact .inr (unit_eq_ok hop)
  | setSession session token =>
    simp only [serveSession] at h
    obtain ⟨rfl, -⟩ | ⟨b, s, hop, -, rfl⟩ := storedNoting_cases h
    · exact .inl rfl
    · cases hop
      exact .inr rfl
  | stopSession =>
    simp only [serveSession] at h
    obtain ⟨rfl, -⟩ | ⟨b, s, hop, -, rfl⟩ := storedNoting_cases h
    · exact .inl rfl
    · cases hop
      exact .inr rfl
  | emptyNamespace =>
    obtain ⟨rfl, -⟩ | ⟨b, s, hop, -, rfl⟩ := storedNoting_cases h
    · exact .inl rfl
    · cases hs : w.store.emptyNamespace with
      | error e => rw [hs] at hop; cases hop
      | ok x =>
        rw [hs] at hop
        cases hop
        exact .inr (by rw [sessionEffect, hs]; rfl)
  | setRefreshToken text token =>
    obtain ⟨-, rfl⟩ | ⟨-, rfl | rfl⟩ := h <;> exact .inl rfl
  | newSessionKey =>
    obtain ⟨-, rfl⟩ | ⟨-, rfl | rfl⟩ := h <;> exact .inl rfl
  | forgetSession =>
    obtain ⟨-, rfl⟩ | ⟨-, key, refresh, -, -, rfl⟩ := h <;> exact .inl rfl
  | exchangeRefreshToken text =>
    obtain ⟨attempt, -, -, rfl⟩ := h
    exact .inl rfl
  | setUserToken | setDeviceToken | setTokenExpiry | setState | clearBegins | signOutCompleted
  | unlockLogin | enrollmentCode | now | registerDevice | fetchDeviceToken | fetchServerKey
  | revoke | fileSystem | clearEverything | placeReady =>
    simp only [serveSession] at h
    subst h
    exact .inl rfl
  | refreshToken | hasUserToken | tokenExpiry | state | isStopped | lockLogin | startDeviceLogin
  | waitOnToken =>
    obtain ⟨-, rfl⟩ := h
    exact .inl rfl

theorem store_serveReconcile {r : ReconcileRequest} {a : ReconcileAnswer r}
    (h : serveReconcile setting fails i r w a w') :
    w'.store = w.store ∨ reconcileEffect setting r w.store = .ok w'.store := by
  cases r with
  | session request => exact store_serveSession h
  | containerState container => exact .inl (congrArg World.store (read_cases h).1)
  | alreadyFetched => exact .inl (congrArg World.store (read_cases h).1)
  | listPage container cursor etag =>
    obtain ⟨-, h⟩ := h
    split at h <;> subst h <;> exact .inl rfl
  | replaceContainer container entries state tokens =>
    obtain ⟨rfl, -⟩ | ⟨b, s, hop, -, rfl⟩ := storedNoting_cases h
    · exact .inl rfl
    · exact .inr (by rw [reconcileEffect, hop]; rfl)
  | updateContainerState container state tokens =>
    obtain ⟨rfl, -⟩ | ⟨b, s, hop, -, rfl⟩ := storedNoting_cases h
    · exact .inl rfl
    · exact .inr (unit_eq_ok hop)
  | reportChange | joinReconciles =>
    simp only [serveReconcile] at h
    exact .inl (congrArg World.store h)

theorem store_serveCommand {r : CommandRequest} {a : CommandAnswer r}
    (h : serveCommand setting fails i r w a w') :
    w'.store = w.store ∨ commandEffect setting r w.store = .ok w'.store := by
  cases r with
  | reconcile request => exact store_serveReconcile h
  | removeDocumentEverywhere document now =>
    simp only [serveCommand] at h
    obtain ⟨rfl, -⟩ | ⟨b, s, hop, -, rfl⟩ := storedNoting_cases h
    · exact .inl rfl
    · exact .inr (by rw [commandEffect, hop]; rfl)
  | placements => exact .inl (congrArg World.store (read_cases h).1)
  | redact document =>
    simp only [serveCommand] at h
    obtain ⟨rfl, -⟩ | ⟨b, s, hop, -, rfl⟩ := storedNoting_cases h
    · exact .inl rfl
    · cases hop
      exact .inr rfl
  | platformState | platformDehydrate | platformRemove | runBegins | spawnReconciles =>
    simp only [serveCommand] at h
    subst h
    exact .inl rfl

theorem store_serveSource {r : SourceRequest} {a : SourceAnswer r}
    (h : serveSource fails i r w a w') :
    w'.store = w.store ∨ sourceEffect r w.store = .ok w'.store := by
  cases r with
  | children container =>
    obtain ⟨-, -, rfl⟩ | h := h
    · exact .inl rfl
    · split at h <;> obtain ⟨-, rfl⟩ := h <;> exact .inl rfl
  | entry identifier =>
    obtain ⟨-, rfl⟩ := h
    exact .inl rfl
  | located | containerState => exact .inl (congrArg World.store (read_cases h).1)
  | appendLog entry =>
    obtain ⟨b, h⟩ := h
    obtain ⟨rfl, -⟩ | ⟨b, s, hop, -, rfl⟩ := storedNoting_cases h
    · exact .inl rfl
    · exact .inr (by rw [sourceEffect, hop]; rfl)
  | answered result =>
    obtain rfl := h
    exact .inl rfl
  | _ =>
    obtain ⟨g, -, rfl⟩ := h
    exact .inl rfl

theorem store_serve {r : Request} {a : Answer r} (h : serve setting fails i r w a w') :
    w'.store = w.store ∨ effect setting r w.store = .ok w'.store := by
  cases r with
  | command request => exact store_serveCommand h
  | source request => exact store_serveSource h
  | setCursor value =>
    simp only [serve] at h
    obtain ⟨rfl, -⟩ | ⟨b, s, hop, -, rfl⟩ := storedNoting_cases h
    · exact .inl rfl
    · exact .inr (unit_eq_ok hop)
  | deleteCursor =>
    simp only [serve] at h
    obtain ⟨rfl, -⟩ | ⟨b, s, hop, -, rfl⟩ := storedNoting_cases h
    · exact .inl rfl
    · exact .inr (by rw [effect, Except.ok.inj hop])
  | acceptCommand command received =>
    simp only [serve] at h
    obtain ⟨rfl, -⟩ | ⟨b, s, hop, -, rfl⟩ := storedNoting_cases h
    · exact .inl rfl
    · exact .inr (by rw [effect, Except.ok.inj hop])
  | setOutcome command outcome =>
    simp only [serve] at h
    obtain ⟨rfl, -⟩ | ⟨b, s, hop, -, rfl⟩ := storedNoting_cases h
    · exact .inl rfl
    · exact .inr (unit_eq_ok hop)
  | markAcknowledged command =>
    simp only [serve] at h
    obtain ⟨rfl, -⟩ | ⟨b, s, hop, -, rfl⟩ := storedNoting_cases h
    · exact .inl rfl
    · exact .inr (unit_eq_ok hop)
  | openAcknowledgement => exact .inl (congrArg World.store (read_cases h).1)
  | hasDeviceToken => exact .inl (congrArg World.store h.2)
  | acknowledge | idempotencyKey | deviceStatus | deliveryCollect =>
    simp only [serve] at h
    subst h
    exact .inl rfl

section Frames

variable {s s' : Store}

theorem delivery_setSetting {key value : String} (h : s.setSetting key value = .ok s') :
    s'.delivery = s.delivery := by
  unfold Store.setSetting at h
  rw [ite_error_eq_ok] at h
  obtain rfl := Except.ok.inj h.2
  rfl

/-- What only the delivery channel writes in the store. -/
def SameChannel (s s' : Store) : Prop :=
  s'.delivery = s.delivery ∧ s'.settingOf settingCursor = s.settingOf settingCursor

theorem SameChannel.of_onlyNamespace (h : OnlyNamespace s s') : SameChannel s s' := by
  unfold OnlyNamespace at h
  rw [h]
  exact ⟨rfl, rfl⟩

theorem sameChannel_sessionEffect {r : SessionRequest}
    (h : sessionEffect setting r s = .ok s') : SameChannel s s' := by
  cases r with
  | setSetting key value =>
    refine ⟨delivery_setSetting h, (Store.settingOf_setSetting h).trans (if_neg ?_)⟩
    cases key <;> decide
  | setSession session token =>
    obtain rfl := Except.ok.inj h
    exact ⟨rfl, rfl⟩
  | stopSession =>
    obtain rfl := Except.ok.inj h
    unfold Store.stopSession
    split <;> exact ⟨rfl, rfl⟩
  | emptyNamespace =>
    cases hs : s.emptyNamespace with
    | error e => rw [sessionEffect, hs] at h; cases h
    | ok x =>
      rw [sessionEffect, hs] at h
      obtain rfl := Except.ok.inj h
      obtain ⟨-, hx⟩ := emptyNamespace_eq_ok hs
      rw [hx]
      exact ⟨rfl, rfl⟩
  | _ =>
    obtain rfl := Except.ok.inj h
    exact ⟨rfl, rfl⟩

theorem sameChannel_reconcileEffect {r : ReconcileRequest}
    (h : reconcileEffect setting r s = .ok s') : SameChannel s s' := by
  cases r with
  | session request => exact sameChannel_sessionEffect h
  | replaceContainer container entries state tokens =>
    cases hs : s.replaceContainer setting.unicode container entries state with
    | error e => rw [reconcileEffect, hs] at h; cases h
    | ok x =>
      rw [reconcileEffect, hs] at h
      obtain rfl := Except.ok.inj h
      exact .of_onlyNamespace (onlyNamespace_replaceContainer hs)
  | updateContainerState container state tokens =>
    obtain ⟨-, rfl⟩ := updateContainerState_eq_ok h
    exact ⟨rfl, rfl⟩
  | _ =>
    obtain rfl := Except.ok.inj h
    exact ⟨rfl, rfl⟩

theorem sameChannel_commandEffect {r : CommandRequest}
    (h : commandEffect setting r s = .ok s') : SameChannel s s' := by
  cases r with
  | reconcile request => exact sameChannel_reconcileEffect h
  | removeDocumentEverywhere document now =>
    cases hs : s.removeDocumentEverywhere document now with
    | error e => rw [commandEffect, hs] at h; cases h
    | ok x =>
      rw [commandEffect, hs] at h
      obtain rfl := Except.ok.inj h
      rw [(removeDocumentEverywhere_eq_ok hs).2.1]
      exact ⟨rfl, rfl⟩
  | _ =>
    obtain rfl := Except.ok.inj h
    exact ⟨rfl, rfl⟩

/-- What a command does leaves the rows of commands and the cursor alone. -/
theorem sameChannel_serveCommand {r : CommandRequest} {a : CommandAnswer r}
    (h : serveCommand setting fails i r w a w') : SameChannel w.store w'.store := by
  obtain hs | hs := store_serveCommand h
  · rw [hs]
    exact ⟨rfl, rfl⟩
  · exact sameChannel_commandEffect hs

end Frames

section Namespaces

variable {s s' : Store}

/-- The operation of the namespace behind a request. -/
def operationOf : Request → Option Operation
  | .command (.reconcile (.replaceContainer container entries state _)) =>
    some (.replaceContainer container entries state)
  | .command (.reconcile (.updateContainerState container state _)) =>
    some (.updateContainerState container state)
  | .command (.removeDocumentEverywhere document now) =>
    some (.removeDocumentEverywhere document now)
  | .command (.reconcile (.session .emptyNamespace)) => some .emptyNamespace
  | _ => none

/-- The listings, their states, the journal and the tombstones stand as they stood. -/
structure SameNamespace (s s' : Store) : Prop where
  entry : s'.entry = s.entry
  containerState : s'.containerState = s.containerState
  journal : s'.journal = s.journal
  erased : s'.erased = s.erased

theorem SameNamespace.refl (s : Store) : SameNamespace s s := ⟨rfl, rfl, rfl, rfl⟩

theorem sameNamespace_setSetting {key value : String} (h : s.setSetting key value = .ok s') :
    SameNamespace s s' := by
  unfold Store.setSetting at h
  rw [ite_error_eq_ok] at h
  obtain rfl := Except.ok.inj h.2
  exact ⟨rfl, rfl, rfl, rfl⟩

theorem sameNamespace_sessionEffect {r : SessionRequest} (hr : r ≠ .emptyNamespace)
    (h : sessionEffect setting r s = .ok s') : SameNamespace s s' := by
  cases r with
  | setSetting key value => exact sameNamespace_setSetting h
  | stopSession =>
    obtain rfl := Except.ok.inj h
    unfold Store.stopSession
    split <;> exact ⟨rfl, rfl, rfl, rfl⟩
  | emptyNamespace => exact absurd rfl hr
  | _ =>
    obtain rfl := Except.ok.inj h
    exact ⟨rfl, rfl, rfl, rfl⟩

theorem map_snd_eq_ok {α β : Type} {r : Except StoreError (α × β)} {b : β}
    (h : r.map Prod.snd = .ok b) : ∃ a, r = .ok (a, b) := by
  cases r with
  | error e => cases h
  | ok x => exact ⟨x.1, congrArg Except.ok (Prod.ext rfl (Except.ok.inj h))⟩

theorem sameNamespace_sourceEffect {r : SourceRequest} (h : sourceEffect r s = .ok s') :
    SameNamespace s s' := by
  cases r with
  | appendLog entry =>
    obtain ⟨out, h⟩ := map_snd_eq_ok h
    unfold Store.appendLog at h
    rw [ite_error_eq_ok] at h
    obtain ⟨-, rfl⟩ := Prod.mk.inj (Except.ok.inj h.2)
    exact ⟨rfl, rfl, rfl, rfl⟩
  | _ =>
    obtain rfl := Except.ok.inj h
    exact .refl s

theorem sameNamespace_channelEffect {r : Request} (hr : ∀ q, r ≠ .command q)
    (h : effect setting r s = .ok s') : SameNamespace s s' := by
  cases r with
  | command request => exact absurd rfl (hr request)
  | source request => exact sameNamespace_sourceEffect h
  | setCursor value => exact sameNamespace_setSetting h
  | acceptCommand command received =>
    obtain rfl := Except.ok.inj h
    unfold Store.acceptCommand
    cases s.commandState command with
    | none => exact ⟨rfl, rfl, rfl, rfl⟩
    | some row =>
      dsimp only
      split <;> exact ⟨rfl, rfl, rfl, rfl⟩
  | setOutcome command outcome =>
    obtain ⟨row, -, -, rfl⟩ := Store.setOutcome_eq_ok h
    exact ⟨rfl, rfl, rfl, rfl⟩
  | markAcknowledged command =>
    obtain ⟨row, outcome, -, -, rfl⟩ := Store.markAcknowledged_eq_ok h
    exact ⟨rfl, rfl, rfl, rfl⟩
  | _ =>
    obtain rfl := Except.ok.inj h
    exact ⟨rfl, rfl, rfl, rfl⟩

theorem sameNamespace_of_operationOf {r : Request} (hr : operationOf r = none)
    (h : effect setting r s = .ok s') : SameNamespace s s' := by
  cases r with
  | command request =>
    cases request with
    | reconcile request =>
      cases request with
      | session request => exact sameNamespace_sessionEffect (by rintro rfl; cases hr) h
      | replaceContainer | updateContainerState => cases hr
      | _ =>
        obtain rfl := Except.ok.inj h
        exact .refl s
    | removeDocumentEverywhere => cases hr
    | redact document =>
      obtain rfl := Except.ok.inj h
      exact ⟨rfl, rfl, rfl, rfl⟩
    | _ =>
      obtain rfl := Except.ok.inj h
      exact .refl s
  | _ => exact sameNamespace_channelEffect (by intro q hq; cases hq) h

/-- A request that writes the namespace performs its operation. -/
theorem performed_of_operationOf {r : Request} {operation : Operation} (ht : Rooted s)
    (hr : operationOf r = some operation) (h : effect setting r s = .ok s') :
    ∃ out, Performed setting.unicode s operation (out, s') := by
  unfold operationOf at hr
  split at hr
  · obtain rfl := Option.some.inj hr
    obtain ⟨out, h⟩ := map_snd_eq_ok h
    obtain ⟨gone, rfl, hreplaced⟩ := replaceContainer_eq_ok ht h
    exact ⟨_, .replaceContainer gone hreplaced⟩
  · obtain rfl := Option.some.inj hr
    obtain ⟨hk, rfl⟩ := updateContainerState_eq_ok h
    exact ⟨_, .updateContainerState hk⟩
  · obtain rfl := Option.some.inj hr
    obtain ⟨out, h⟩ := map_snd_eq_ok h
    obtain ⟨rfl, hs, ha⟩ := removeDocumentEverywhere_eq_ok h
    exact ⟨_, .removeDocumentEverywhere hs ha⟩
  · obtain rfl := Option.some.inj hr
    obtain ⟨new, h⟩ := map_snd_eq_ok h
    obtain ⟨rfl, rfl⟩ := emptyNamespace_eq_ok h
    exact ⟨_, .emptyNamespace⟩
  · cases hr

theorem SameNamespace.wellFormed {unicode : Unicode} (hw : WellFormed unicode s)
    (h : SameNamespace s s') : WellFormed unicode s' := by
  have hknown : ∀ c, s'.containerKnown c = s.containerKnown c := by
    intro c
    rw [Store.containerKnown, h.entry]
    rfl
  refine ⟨⟨?_, ?_, ?_, ?_⟩, ?_⟩
  · rw [h.entry]
    exact hw.rooted.placed
  · rw [h.entry]
    exact hw.rooted.document
  · intro r hr
    rw [h.entry] at hr
    rw [hknown]
    exact hw.rooted.known r hr
  · intro r hr
    rw [h.containerState] at hr
    rw [hknown]
    exact hw.rooted.stateKnown r hr
  · rw [h.entry]
    exact hw.names

/-- Whatever is asked for, the tree stays well formed. -/
theorem wellFormed_serve {r : Request} {a : Answer r}
    (hw : WellFormed setting.unicode w.store) (hserve : serve setting fails i r w a w') :
    WellFormed setting.unicode w'.store := by
  obtain hs | hs := store_serve hserve
  · rw [hs]
    exact hw
  · cases hop : operationOf r with
    | none => exact (sameNamespace_of_operationOf hop hs).wellFormed hw
    | some operation =>
      obtain ⟨out, hperformed⟩ := performed_of_operationOf hw.rooted hop hs
      exact wellFormed_performed hw hperformed

end Namespaces

section Histories

/-- What a request notes in the history when it succeeds. -/
def sessionNotes : SessionRequest → History → History
  | .setSession session _, h => h.signedIn session.account
  | .emptyNamespace, h => { h with written := [] }
  | .signOutCompleted, h => { h with signOuts := h.signOuts + 1 }
  | .setRefreshToken text token, h =>
    { h with refreshKey := some token.key, vaulted := h.vaulted ++ [text] }
  | .newSessionKey, h => { h with keys := h.keys + 1 }
  | .setUserToken token, h => h.takeOver token
  | .exchangeRefreshToken text, h => { h with exposed := h.exposed ++ [text] }
  | _, h => h

def reconcileNotes : (r : ReconcileRequest) → ReconcileAnswer r → History → History
  | .session request, _, h => sessionNotes request h
  | .listPage container cursor _, (.success page, token), h =>
    { h with pages := h.pages ++ [⟨container, cursor, page, token⟩] }
  | .replaceContainer container entries state tokens, _, h =>
    h.write ⟨container, entries, state, tokens, false⟩
  | .updateContainerState container state tokens, _, h =>
    h.write ⟨container, [], state, tokens, true⟩
  | _, _, h => h

def commandNotes (s : Store) : (r : CommandRequest) → CommandAnswer r → History → History
  | .reconcile request, a, h => reconcileNotes request a h
  | .platformState entry, a, h => h.release (releases entry [] a)
  | .platformDehydrate entry _, a, h => h.release (releases entry [.dehydrated entry] a)
  | .platformRemove entry, a, h => h.release (releases entry [.removed entry] a)
  | .runBegins command order, _, h => h.runBegins (placesOf s order) command order
  | _, _, h => h

def sourceNotes : (r : SourceRequest) → SourceAnswer r → History → History
  | .children container, .ok entries, h => h.showing container entries
  | _, _, h => h

def notes (s : Store) : (r : Request) → Answer r → History → History
  | .command request, a, h => commandNotes s request a h
  | .source request, a, h => sourceNotes request a h
  | .setCursor _, _, h => h.cursorStored
  | .acknowledge command _, _, h => { h with acknowledged := h.acknowledged ++ [command] }
  | _, _, h => h

theorem history_storedNoting {α : Type} {f : History → History}
    {operation : Except StoreError (α × Store)} {a : Except StoreError α}
    (h : w.StoredNoting f fails operation a w') :
    w'.history = w.history ∨ w'.history = f w.history := by
  obtain ⟨rfl, -⟩ | ⟨b, s, -, -, rfl⟩ := storedNoting_cases h
  · exact .inl rfl
  · exact .inr rfl

theorem history_serveSession {r : SessionRequest} {a : SessionAnswer r}
    (h : serveSession setting fails i r w a w') :
    w'.history = w.history ∨ w'.history = sessionNotes r w.history := by
  cases r with
  | setting | session | setSetting | stopSession | setSession | emptyNamespace =>
    simp only [serveSession, World.Stored] at h
    exact history_storedNoting h
  | setRefreshToken | newSessionKey =>
    obtain ⟨-, rfl⟩ | ⟨-, rfl | rfl⟩ := h
    · exact .inr rfl
    · exact .inl rfl
    · exact .inr rfl
  | forgetSession =>
    obtain ⟨-, rfl⟩ | ⟨-, key, refresh, -, -, rfl⟩ := h <;> exact .inl rfl
  | exchangeRefreshToken text =>
    obtain ⟨attempt, -, -, rfl⟩ := h
    change History.present text attempt w.history = _ ∨ History.present text attempt w.history = _
    unfold History.present
    split
    · exact .inr rfl
    · exact .inl rfl
  | signOutCompleted | setUserToken =>
    obtain rfl := h
    exact .inr rfl
  | setDeviceToken | setTokenExpiry | setState | clearBegins | unlockLogin | enrollmentCode
  | now | registerDevice | fetchDeviceToken | fetchServerKey | revoke | fileSystem
  | clearEverything | placeReady =>
    simp only [serveSession] at h
    subst h
    exact .inl rfl
  | refreshToken | hasUserToken | tokenExpiry | state | isStopped | lockLogin | startDeviceLogin
  | waitOnToken =>
    obtain ⟨-, rfl⟩ := h
    exact .inl rfl

theorem history_serveReconcile {r : ReconcileRequest} {a : ReconcileAnswer r}
    (h : serveReconcile setting fails i r w a w') :
    w'.history = w.history ∨ w'.history = reconcileNotes r a w.history := by
  cases r with
  | session request => exact history_serveSession h
  | containerState | alreadyFetched | replaceContainer | updateContainerState =>
    simp only [serveReconcile, World.Stored] at h
    exact history_storedNoting h
  | listPage container cursor etag =>
    obtain ⟨result, token⟩ := a
    obtain ⟨-, h⟩ := h
    cases result with
    | success page =>
      obtain rfl := h
      exact .inr rfl
    | _ =>
      obtain rfl := h
      exact .inl rfl
  | reportChange | joinReconciles =>
    simp only [serveReconcile] at h
    exact .inl (congrArg World.history h)

theorem history_serveSource {r : SourceRequest} {a : SourceAnswer r}
    (h : serveSource fails i r w a w') :
    w'.history = w.history ∨ w'.history = sourceNotes r a w.history := by
  cases r with
  | children container =>
    obtain ⟨-, -, rfl⟩ | h := h
    · exact .inl rfl
    · split at h <;> obtain ⟨rfl, rfl⟩ := h
      · exact .inr rfl
      · exact .inl rfl
  | entry identifier =>
    obtain ⟨-, rfl⟩ := h
    exact .inl rfl
  | located | containerState => exact .inl (congrArg World.history (read_cases h).1)
  | appendLog entry =>
    obtain ⟨b, h⟩ := h
    exact history_storedNoting h
  | answered result =>
    obtain rfl := h
    exact .inl rfl
  | _ =>
    obtain ⟨g, -, rfl⟩ := h
    exact .inl rfl

theorem history_serve {r : Request} {a : Answer r} (h : serve setting fails i r w a w') :
    w'.history = w.history ∨ w'.history = notes w.store r a w.history := by
  cases r with
  | command request =>
    cases request with
    | reconcile request => exact history_serveReconcile h
    | placements | removeDocumentEverywhere | redact =>
      simp only [serve, serveCommand, World.Stored] at h
      exact history_storedNoting h
    | platformState | platformDehydrate | platformRemove | runBegins =>
      simp only [serve, serveCommand] at h
      subst h
      exact .inr rfl
    | spawnReconciles =>
      simp only [serve, serveCommand] at h
      exact .inl (congrArg World.history h)
  | source request => exact history_serveSource h
  | setCursor | deleteCursor | openAcknowledgement | acceptCommand | setOutcome
  | markAcknowledged =>
    simp only [serve, World.Stored] at h
    exact history_storedNoting h
  | hasDeviceToken => exact .inl (congrArg World.history h.2)
  | acknowledge =>
    simp only [serve] at h
    subst h
    exact .inr rfl
  | idempotencyKey | deviceStatus | deliveryCollect =>
    simp only [serve] at h
    exact .inl (congrArg World.history h)

theorem pages_runBegins (h : History) (places : List EntryIdentifier)
    (command : CommandIdentifier) (order : Core.Delivery.Command) :
    (h.runBegins places command order).pages = h.pages := by
  unfold History.runBegins
  split <;> rfl

/-- The pages answered remain. -/
theorem pages_serve {r : Request} {a : Answer r} (h : serve setting fails i r w a w') :
    w.history.pages ⊆ w'.history.pages := by
  obtain hh | hh := history_serve h
  · rw [hh]
    exact List.Subset.refl _
  · rw [hh]
    unfold notes commandNotes reconcileNotes sessionNotes
    split
    · split
      · split
        · split <;> exact List.Subset.refl _
        · exact List.subset_append_left _ _
        all_goals exact List.Subset.refl _
      · exact List.Subset.refl _
      · exact List.Subset.refl _
      · exact List.Subset.refl _
      · rw [pages_runBegins]
        exact List.Subset.refl _
      · exact List.Subset.refl _
    · unfold sourceNotes
      split <;> exact List.Subset.refl _
    all_goals exact List.Subset.refl _

/-- The first runs are those that stood, and that of a command that never ran. -/
theorem firstRuns_serve {r : Request} {a : Answer r} (h : serve setting fails i r w a w') :
    w'.history.firstRuns = w.history.firstRuns ∨
      ∃ command order, r = .command (.runBegins command order) ∧
        (∀ f ∈ w.history.firstRuns, f.command ≠ command) ∧
        w'.history.firstRuns = w.history.firstRuns ++
          [⟨command, order, placesOf w.store order⟩] := by
  obtain hh | hh := history_serve h
  · exact .inl (congrArg History.firstRuns hh)
  rw [hh]
  unfold notes commandNotes reconcileNotes sessionNotes
  split
  · split
    · refine .inl ?_
      split
      · split <;> rfl
      all_goals rfl
    · exact .inl rfl
    · exact .inl rfl
    · exact .inl rfl
    · rename_i command order _
      change (History.runBegins _ _ _ _).firstRuns = _ ∨ _
      unfold History.runBegins
      split
      · exact .inl rfl
      · rename_i hany
        refine .inr ⟨command, order, rfl, fun f hf he ↦ hany ?_, rfl⟩
        exact List.any_eq_true.mpr ⟨f, hf, decide_eq_true he⟩
    · exact .inl rfl
  · unfold sourceNotes
    split <;> exact .inl rfl
  all_goals exact .inl rfl

/-- What only the delivery channel notes. -/
def SameCommands (h h' : History) : Prop :=
  h'.acknowledged = h.acknowledged ∧ h'.inHand = h.inHand ∧ h'.firstRuns = h.firstRuns ∧
    h'.running = h.running ∧ h'.released = h.released

theorem SameCommands.refl (h : History) : SameCommands h h := ⟨rfl, rfl, rfl, rfl, rfl⟩

theorem sameCommands_sessionNotes (r : SessionRequest) (h : History) :
    SameCommands h (sessionNotes r h) := by
  unfold sessionNotes
  split <;> exact .refl _

theorem sameCommands_serveReconcile {r : ReconcileRequest} {a : ReconcileAnswer r}
    (h : serveReconcile setting fails i r w a w') : SameCommands w.history w'.history := by
  obtain hh | hh := history_serveReconcile h
  · rw [hh]
    exact .refl _
  · rw [hh]
    unfold reconcileNotes
    split
    · exact sameCommands_sessionNotes _ _
    all_goals exact .refl _

end Histories

section Handlings

/-- The deliveries stand, and what they left behind. -/
def SameDeliveries (w w' : World) : Prop := w'.handling = w.handling ∧ w'.left = w.left

theorem sameDeliveries_storedNoting {α : Type} {f : History → History}
    {operation : Except StoreError (α × Store)} {a : Except StoreError α}
    (h : w.StoredNoting f fails operation a w') : SameDeliveries w w' := by
  obtain ⟨rfl, -⟩ | ⟨b, s, -, -, rfl⟩ := storedNoting_cases h <;> exact ⟨rfl, rfl⟩

theorem handling_storedNoting {α : Type} {f : History → History}
    {operation : Except StoreError (α × Store)} {a : Except StoreError α}
    (h : w.StoredNoting f fails operation a w') : w'.handling = w.handling :=
  (sameDeliveries_storedNoting h).1

theorem sameDeliveries_serveSession {r : SessionRequest} {a : SessionAnswer r}
    (h : serveSession setting fails i r w a w') : SameDeliveries w w' := by
  cases r with
  | setting | session | setSetting | stopSession | setSession | emptyNamespace =>
    simp only [serveSession, World.Stored] at h
    exact sameDeliveries_storedNoting h
  | setRefreshToken | newSessionKey =>
    obtain ⟨-, rfl⟩ | ⟨-, rfl | rfl⟩ := h <;> exact ⟨rfl, rfl⟩
  | forgetSession =>
    obtain ⟨-, rfl⟩ | ⟨-, key, refresh, -, -, rfl⟩ := h <;> exact ⟨rfl, rfl⟩
  | exchangeRefreshToken text =>
    obtain ⟨attempt, -, -, rfl⟩ := h
    exact ⟨rfl, rfl⟩
  | refreshToken | hasUserToken | tokenExpiry | state | isStopped | lockLogin | startDeviceLogin
  | waitOnToken =>
    obtain ⟨-, rfl⟩ := h
    exact ⟨rfl, rfl⟩
  | _ =>
    obtain rfl := h
    exact ⟨rfl, rfl⟩

theorem sameDeliveries_serveReconcile {r : ReconcileRequest} {a : ReconcileAnswer r}
    (h : serveReconcile setting fails i r w a w') : SameDeliveries w w' := by
  cases r with
  | session request => exact sameDeliveries_serveSession h
  | containerState | alreadyFetched | replaceContainer | updateContainerState =>
    simp only [serveReconcile, World.Stored] at h
    exact sameDeliveries_storedNoting h
  | listPage container cursor etag =>
    obtain ⟨-, h⟩ := h
    split at h <;> (obtain rfl := h; exact ⟨rfl, rfl⟩)
  | reportChange | joinReconciles =>
    simp only [serveReconcile] at h
    rw [h]
    exact ⟨rfl, rfl⟩

theorem sameDeliveries_serveCommand {r : CommandRequest} {a : CommandAnswer r}
    (h : serveCommand setting fails i r w a w') : SameDeliveries w w' := by
  cases r with
  | reconcile request => exact sameDeliveries_serveReconcile h
  | placements | removeDocumentEverywhere | redact =>
    simp only [serveCommand, World.Stored] at h
    exact sameDeliveries_storedNoting h
  | _ =>
    obtain rfl := h
    exact ⟨rfl, rfl⟩

/-- Only a call of the platform moves a delivery. -/
theorem sameDeliveries_serve {r : Request} {a : Answer r} (hr : ∀ q, r ≠ .source q)
    (h : serve setting fails i r w a w') : SameDeliveries w w' := by
  cases r with
  | command request => exact sameDeliveries_serveCommand h
  | source request => exact absurd rfl (hr request)
  | setCursor | deleteCursor | openAcknowledgement | acceptCommand | setOutcome
  | markAcknowledged =>
    simp only [serve, World.Stored] at h
    exact sameDeliveries_storedNoting h
  | hasDeviceToken =>
    rw [h.2]
    exact ⟨rfl, rfl⟩
  | _ =>
    obtain rfl := h
    exact ⟨rfl, rfl⟩

theorem handling_serve {r : Request} {a : Answer r} (hr : ∀ q, r ≠ .source q)
    (h : serve setting fails i r w a w') : w'.handling = w.handling :=
  (sameDeliveries_serve hr h).1

/-- Only an answered delivery leaves something behind. -/
theorem left_serveSource {r : SourceRequest} {a : SourceAnswer r}
    (hr : ∀ result, r ≠ .answered result) (h : serveSource fails i r w a w') :
    w'.left = w.left := by
  cases r with
  | children container =>
    obtain ⟨-, -, rfl⟩ | h := h
    · rfl
    · split at h <;> obtain ⟨-, rfl⟩ := h <;> rfl
  | entry identifier =>
    obtain ⟨-, rfl⟩ := h
    rfl
  | located | containerState => rw [(read_cases h).1]
  | appendLog entry =>
    obtain ⟨b, h⟩ := h
    exact (sameDeliveries_storedNoting h).2
  | answered result => exact absurd rfl (hr result)
  | _ =>
    obtain ⟨g, -, rfl⟩ := h
    rfl

/-- A call of the platform moves no other delivery. -/
theorem handling_serveSource {r : SourceRequest} {a : SourceAnswer r} {j : ℕ} (hj : j ≠ i)
    (h : serveSource fails i r w a w') : w'.handling j = w.handling j := by
  cases r with
  | children container =>
    obtain ⟨-, -, rfl⟩ | h := h
    · rfl
    · split at h <;> obtain ⟨-, rfl⟩ := h <;> rfl
  | entry identifier =>
    obtain ⟨-, rfl⟩ := h
    exact Function.update_of_ne hj _ _
  | located | containerState => rw [(read_cases h).1]
  | appendLog entry =>
    obtain ⟨b, h⟩ := h
    exact congrFun (handling_storedNoting h) j
  | answered result =>
    obtain rfl := h
    exact Function.update_of_ne hj _ _
  | _ =>
    obtain ⟨g, -, rfl⟩ := h
    exact Function.update_of_ne hj _ _

end Handlings

section Outcomes

/-- The outcome recorded for a command. -/
def recordedOutcome (s : Store) (command : CommandIdentifier) : Option Core.Delivery.CommandOutcome :=
  (s.commandState command).bind (·.outcome)

theorem recordedOutcome_of_delivery {s s' : Store} (h : s'.delivery = s.delivery)
    (command : CommandIdentifier) : recordedOutcome s' command = recordedOutcome s command := by
  rw [recordedOutcome, recordedOutcome, Store.commandState, Store.commandState, h]

theorem recordedOutcome_writeCommand (s : Store) (row : CommandState) (command : CommandIdentifier) :
    recordedOutcome (s.writeCommand row) command =
      if command = row.command then row.outcome else recordedOutcome s command := by
  rw [recordedOutcome, Store.commandState_writeCommand]
  split <;> rfl

theorem recordedOutcome_acceptCommand {s : Store} {command other : CommandIdentifier}
    {received : Timestamp} {outcome : Core.Delivery.CommandOutcome}
    (h : recordedOutcome (s.acceptCommand other received).2 command = some outcome) :
    recordedOutcome s command = some outcome := by
  unfold Store.acceptCommand at h
  split at h
  · rw [recordedOutcome_writeCommand] at h
    split at h
    · cases h
    · exact h
  · split at h
    · exact h
    · rw [recordedOutcome_writeCommand] at h
      split at h
      · cases h
      · exact h
    · exact h

/-- An outcome is one recorded before, or the one recorded now. -/
theorem outcome_serve {r : Request} {a : Answer r} {command : CommandIdentifier}
    {outcome : Core.Delivery.CommandOutcome} (h : serve setting fails i r w a w')
    (ho : recordedOutcome w'.store command = some outcome) :
    recordedOutcome w.store command = some outcome ∨ r = .setOutcome command outcome := by
  obtain hs | hs := store_serve h
  · rw [hs] at ho
    exact .inl ho
  cases r with
  | command r =>
    rw [recordedOutcome_of_delivery (sameChannel_commandEffect hs).1] at ho
    exact .inl ho
  | source r =>
    have hsame : w'.store.delivery = w.store.delivery := by
      cases r with
      | appendLog entry =>
        obtain ⟨n, hs⟩ := map_snd_eq_ok hs
        unfold Store.appendLog at hs
        rw [ite_error_eq_ok] at hs
        obtain ⟨-, hs⟩ := Prod.mk.inj (Except.ok.inj hs.2)
        rw [← hs]
        rfl
      | _ => rw [← Except.ok.inj hs]
    rw [recordedOutcome_of_delivery hsame] at ho
    exact .inl ho
  | setCursor value =>
    rw [recordedOutcome_of_delivery (delivery_setSetting hs)] at ho
    exact .inl ho
  | acceptCommand other received =>
    rw [← Except.ok.inj hs] at ho
    exact .inl (recordedOutcome_acceptCommand ho)
  | setOutcome other recorded =>
    obtain ⟨row, -, -, hs⟩ := Store.setOutcome_eq_ok hs
    rw [hs, recordedOutcome_writeCommand] at ho
    split at ho
    · rename_i hc
      obtain rfl := Option.some.inj ho
      exact .inr (by rw [hc])
    · exact .inl ho
  | markAcknowledged other =>
    obtain ⟨row, recorded, hrow, hrecorded, hs⟩ := Store.markAcknowledged_eq_ok hs
    rw [hs, recordedOutcome_writeCommand] at ho
    split at ho
    · rename_i hc
      rw [recordedOutcome, show command = other from hc, hrow, Option.bind_some, hrecorded]
      exact .inl ho
    · exact .inl ho
  | _ =>
    rw [← Except.ok.inj hs] at ho
    exact .inl ho

end Outcomes

end FolderClient.Engine.Effects
