import FolderClient.Engine.System

namespace FolderClient.Engine.Orderly

open FolderClient.Net.Access
open FolderClient.Core.Namespace FolderClient.Core.Delivery FolderClient.Core.Log
open FolderClient.Library.Json FolderClient.Engine.Hydration FolderClient.Engine.Transfers
open FolderClient.Library.Programs FolderClient.Library.Programs.Program
open FolderClient.Library.Programs.Contract
open FolderClient.Storage.Basic FolderClient.Storage.Delivery FolderClient.Wire.Delivery
open FolderClient.Engine.Port FolderClient.Engine.Session FolderClient.Engine.Reconcile
open FolderClient.Engine.Commands FolderClient.Engine.Channel FolderClient.Engine.System

/-- The requests of the session that are made outside its own steps. -/
def HarmlessSession : SessionRequest → Prop
  | .setting _ | .setSetting _ _ | .setDeviceToken _ | .state
  | .setState (.signedIn _ _ _ _) none | .isStopped | .now | .fetchDeviceToken
  | .fetchServerKey | .fileSystem => True
  | _ => False

def HarmlessReconcile : ReconcileRequest → Prop
  | .session request => HarmlessSession request
  | .replaceContainer _ _ _ _ => False
  | _ => True

/-- The requests of the platform that belong to no delivery. -/
def HarmlessSource : SourceRequest → Prop
  | .children _ | .containerState _ => True
  | _ => False

/-- The requests of a delivery between its entry and its row in the usage log. -/
def Streams : SourceRequest → Prop
  | .begins _ | .children _ | .entry _ | .located _ | .containerState _ | .appendLog _
  | .answered _ => False
  | _ => True

def Harmless : Request → Prop
  | .command (.reconcile request) => HarmlessReconcile request
  | .source request => HarmlessSource request
  | .setOutcome _ _ => False
  | _ => True

/-- The confirmations of a listing. -/
def Confirms : Request → Prop
  | .command (.reconcile (.updateContainerState _ _ _)) => True
  | _ => False

section Parts

variable {σ : Type} (C : Contract Request Answer σ)

abbrev commands : Contract CommandRequest CommandAnswer σ := C.part .command

abbrev reconciles : Contract ReconcileRequest ReconcileAnswer σ := (commands C).part .reconcile

abbrev sessions : Contract SessionRequest SessionAnswer σ := (reconciles C).part .session

end Parts

/-- What has to be in order for everything the engine runs to be: the harmless requests outside
the fetch of a listing, the steps of the session, and the fetch. -/
structure Orderly {σ : Type} (setting : Setting) (C : Contract Request Answer σ) : Prop where
  harmless : ∀ r w, Harmless r → ¬ Confirms r → C.ok r w
  ensureForToken : (sessions C).Fine (ensureForToken setting).run
  forceRefresh : (sessions C).Fine (forceRefresh setting).run
  signIn : (sessions C).Fine (signIn setting).run
  signOut : (sessions C).Fine (signOut setting).run
  clearAfterSignOut : (sessions C).Fine (clearAfterSignOut setting).run
  root : (reconciles C).Fine (adopt .root setting.rootEntries none none []).run
  fetchAndAdopt : ∀ container, (reconciles C).Fine (fetchAndAdopt setting container).run

section Asked

variable {R : Type} {A : R → Type} {α : Type} {kind : R → Prop}

theorem asks_store {p : Program R A (Except StoreError α)} (h : p.Asks kind) :
    (store p).run.Asks kind :=
  asks_bind h fun _ ↦ trivial

theorem asks_vault {p : Program R A (Except VaultError α)} (h : p.Asks kind) :
    (vault p).run.Asks kind :=
  asks_bind h fun _ ↦ trivial

variable {σ : Type} {C : Contract R A σ}

theorem fine_store {p : Program R A (Except StoreError α)} (h : C.Fine p) :
    C.Fine (store p).run :=
  fine_bind h fun _ ↦ fine_done _

theorem fine_attempt {p : Fallible R A α} (h : C.Fine p.run) : C.Fine (attempt p).run :=
  fine_bind h fun _ ↦ fine_done _

theorem sound_raise_bind {β : Type} {r : Except EngineError α} {f : α → Fallible R A β}
    {Q : Except EngineError β → σ → Prop} {w : σ}
    (h : ∀ a, r = .ok a → C.Sound (f a).run Q w) (he : ∀ e, r = .error e → Q (.error e) w) :
    C.Sound (raise r >>= f).run Q w := by
  cases r with
  | ok a => exact h a rfl
  | error e => exact he e rfl

theorem fine_raise (r : Except EngineError α) : C.Fine (raise r : Fallible R A α).run :=
  fine_done _

end Asked

section Fetches

theorem asks_registerWithPlatform (journal : List Core.Changes.JournalEntry) :
    (registerWithPlatform journal).Asks HarmlessReconcile := by
  refine asks_bind (asks_call trivial) fun fileSystem ↦ ?_
  split
  · exact asks_bind (asks_call trivial) fun _ ↦ trivial
  · trivial

theorem asks_confirmed (container : Container) (etag : Option String)
    (tokens : List TokenResponse) :
    (confirmed container etag tokens).run.Asks HarmlessReconcile := by
  have hwrite : ∀ (before : Option TruncationState) (etag : Option String),
      (do let time ← ReconcileRequest.call (.session .now)
          store (ReconcileRequest.call
            (.updateContainerState container ⟨etag, time, before⟩ tokens)) :
        ReconcileFallible Unit).run.Asks HarmlessReconcile := by
    intro before etag
    refine asks_fallible_bind (asks_lift (asks_call trivial)) fun time ↦ ?_
    exact asks_store (asks_call trivial)
  refine asks_fallible_bind (asks_store (asks_call trivial)) fun before ↦ ?_
  cases etag with
  | some etag => exact hwrite _ _
  | none => exact asks_fallible_bind (asks_lift (asks_call trivial)) fun stored ↦ hwrite _ _

theorem asks_readPages (container : Container) (known : Option String) (n : ℕ)
    (list : Listing) (cursor : Option String) (tokens : List TokenResponse) :
    (readPages container known n list cursor tokens).Asks HarmlessReconcile := by
  induction n generalizing list cursor tokens with
  | zero => trivial
  | succ n ih =>
    refine asks_bind (asks_call trivial) fun x ↦ ?_
    obtain ⟨result, token⟩ := x
    cases result with
    | success page =>
      dsimp only
      split
      · trivial
      · exact ih _ _ _
    | _ => trivial

/-- The requests of the fetch of a listing, its write included. -/
def Fetching : ReconcileRequest → Prop
  | .session request => HarmlessSession request
  | _ => True

theorem fetching_of_harmless (r : ReconcileRequest) (h : HarmlessReconcile r) : Fetching r := by
  cases r with
  | session request => exact h
  | _ => trivial

theorem fetching_adopt (container : Container) (entries : List Entry) (etag : Option String)
    (truncation : Option TruncationState) (tokens : List TokenResponse) :
    (adopt container entries etag truncation tokens).run.Asks Fetching := by
  refine asks_fallible_bind (asks_lift (asks_call trivial)) fun time ↦ ?_
  refine asks_fallible_bind (asks_store (asks_call trivial)) fun journal ↦ ?_
  change (if journal.isEmpty = true then pure () else registerWithPlatform journal :
    ReconcileFallible Unit).run.Asks Fetching
  split
  · trivial
  · exact asks_lift ((asks_registerWithPlatform journal).mono fetching_of_harmless)

theorem fetching_fetchAndAdopt (setting : Setting) (container : Container) :
    (fetchAndAdopt setting container).run.Asks Fetching := by
  refine asks_fallible_bind (asks_store (asks_call trivial)) fun before ↦ ?_
  split
  · exact fetching_adopt _ _ _ _ _
  · exact fetching_adopt _ _ _ _ _
  · refine asks_fallible_bind (asks_lift
      ((asks_readPages container _ _ _ _ _).mono fetching_of_harmless)) fun x ↦ ?_
    obtain ⟨result, tokens⟩ := x
    have hadopt : (do
        let list ← raise (result.valueFrom (listingName container))
        adopt container (entriesOf setting container list) list.etag
          (if holdsDocuments container then list.truncation else none) tokens :
        ReconcileFallible Unit).run.Asks Fetching :=
      asks_fallible_bind trivial fun list ↦ fetching_adopt _ _ _ _ _
    cases result with
    | unchanged etag => exact (asks_confirmed container etag tokens).mono fetching_of_harmless
    | _ => exact hadopt

end Fetches

section Settings

variable {setting : Setting} {kind : SessionRequest → Prop}

theorem asks_readKeySet (h : ∀ key, kind (.setting key)) :
    (readKeySet setting).run.Asks kind := by
  refine asks_fallible_bind (asks_store (asks_call (h _))) fun text ↦ ?_
  split
  · trivial
  · split <;> trivial

theorem asks_writeKeySet (h : ∀ value, kind (.setSetting .keySet value))
    (set : Crypto.Anchoring.KeySet setting.prims) : (writeKeySet setting set).run.Asks kind :=
  asks_store (asks_call (h _))

theorem asks_reconcileKeys (h : ∀ key, kind (.setting key))
    (hw : ∀ value, kind (.setSetting .keySet value)) (hf : kind .fetchServerKey) :
    (reconcileKeys setting).run.Asks kind := by
  refine asks_fallible_bind (asks_lift (asks_call hf)) fun answer ↦ ?_
  refine asks_fallible_bind trivial fun value ↦ ?_
  refine asks_fallible_bind trivial fun offer ↦ ?_
  refine asks_fallible_bind (asks_readKeySet h) fun set ↦ ?_
  exact asks_fallible_bind trivial fun adoption ↦ asks_writeKeySet hw _

end Settings

variable {σ : Type} {setting : Setting} {C : Contract Request Answer σ}

theorem fine_internally {α : Type} {what : String} {p : Activity (Except String α)}
    (h : C.Fine p) : C.Fine (internally what p).run :=
  fine_bind h fun _ ↦ fine_done _

theorem fine_outcome {α : Type} {p : Delivery α} (h : C.Fine p.run) : C.Fine (outcome p).run :=
  fine_bind h fun _ ↦ fine_done _

theorem fine_session {α : Type} {p : SessionFallible α} (h : (sessions C).Fine p.run) :
    C.Fine (Hydration.session p) :=
  fine_embed (fine_embed (fine_embed h))

theorem fine_ofSession {α : Type} {p : SessionFallible α} (h : (sessions C).Fine p.run) :
    (reconciles C).Fine (ofSession p).run :=
  fine_embed h

variable (O : Orderly setting C)

include O

section Reconciles

theorem fine_harmless {r : ReconcileRequest} (h : HarmlessReconcile r)
    (hr : ¬ Confirms (.command (.reconcile r))) :
    (reconciles C).Fine (ReconcileRequest.call r) :=
  fine_call fun w ↦ O.harmless _ w h hr

theorem fine_reconcileContainer (container : Container) :
    (reconciles C).Fine (reconcileContainer setting container).run := by
  refine fine_fallible_bind (fine_embed O.ensureForToken) fun signedIn ↦ ?_
  split
  · refine fine_fallible_bind (fine_attempt (O.fetchAndAdopt container)) fun outcome ↦ ?_
    split
    · refine fine_fallible_bind (fine_embed O.forceRefresh) fun renewed ↦ ?_
      split
      · exact O.fetchAndAdopt container
      · exact fine_done _
    · exact fine_done _
  · exact fine_done _

theorem fine_setConnected (b : Bool) : (reconciles C).Fine (setConnected b) := by
  refine fine_bind (fine_harmless O trivial id) fun state ↦ ?_
  split
  · exact fine_harmless O trivial id
  · exact fine_done _

theorem fine_reconcileEverything :
    (reconciles C).Fine (reconcileEverything setting).run := by
  refine fine_fallible_bind (fine_embed O.ensureForToken) fun signedIn ↦ ?_
  split
  · refine fine_fallible_bind O.root fun _ ↦ ?_
    refine fine_fallible_bind (fine_attempt (fine_reconcileContainer O _)) fun baskets ↦ ?_
    refine fine_fallible_bind (fine_attempt (fine_reconcileContainer O _)) fun archives ↦ ?_
    refine fine_fallible_bind (fine_attempt (fine_reconcileContainer O _)) fun searches ↦ ?_
    refine fine_fallible_bind (fine_store (fine_harmless O trivial id)) fun opened ↦ ?_
    refine fine_fallible_bind (fine_attempt (fine_harmless O trivial id)) fun joined ↦ ?_
    exact fine_fallible_bind (fine_lift (fine_setConnected O _)) fun _ ↦ fine_done _
  · exact fine_done _

theorem fine_fetchIfNeeded (n : ℕ) (container : Container) :
    (reconciles C).Fine (fetchIfNeeded setting n container).run := by
  induction n generalizing container with
  | zero => exact fine_done _
  | succ n ih =>
    refine fine_fallible_bind (fine_store (fine_harmless O trivial id)) fun state ↦ ?_
    split
    · exact fine_done _
    · dsimp only
      split
      · refine fine_fallible_bind (fine_store (fine_harmless O trivial id)) fun above ↦ ?_
        split
        · exact fine_fallible_bind (ih _) fun _ ↦ fine_reconcileContainer O _
        · exact fine_reconcileContainer O _
      · exact fine_reconcileContainer O _

end Reconciles

section Commands

theorem fine_command {r : CommandRequest} (h : Harmless (.command r))
    (hr : ¬ Confirms (.command r)) : (commands C).Fine (CommandRequest.call r) :=
  fine_call fun w ↦ O.harmless _ w h hr

theorem fine_registerWithPlatform (journal : List Core.Changes.JournalEntry) :
    (reconciles C).Fine (registerWithPlatform journal) := by
  refine fine_bind (fine_harmless O trivial id) fun fileSystem ↦ ?_
  split
  · exact fine_bind (fine_harmless O trivial id) fun _ ↦ fine_done _
  · exact fine_done _

theorem fine_removeLocation (action : Actions) (location : EntryIdentifier)
    (situation : DehydrateSituation) :
    (commands C).Fine (removeLocation action location situation) := by
  unfold removeLocation
  split
  · refine fine_bind (fine_command O trivial id) fun removed ↦ ?_
    split <;> exact fine_done _
  · exact fine_done _

theorem fine_giveLocationFree (reason : Reason) (situation : DehydrateSituation)
    (location : EntryIdentifier) :
    (commands C).Fine (giveLocationFree reason situation location) := by
  refine fine_bind (fine_command O trivial id) fun state ↦ ?_
  split
  · exact fine_done _
  · dsimp only
    split
    · refine fine_bind (fine_command O trivial id) fun dehydrated ↦ ?_
      split <;> exact fine_removeLocation O _ _ _
    · exact fine_removeLocation O _ _ _

theorem fine_giveLocationsFree (fileSystem : Bool) (reason : Reason)
    (locations : List EntryIdentifier) (situation : DehydrateSituation) :
    (commands C).Fine (giveLocationsFree fileSystem reason locations situation) := by
  induction locations generalizing situation with
  | nil => exact fine_done _
  | cons location rest ih =>
    rw [giveLocationsFree]
    split
    · exact fine_bind (fine_giveLocationFree O _ _ _) fun _ ↦ ih _
    · exact ih _

theorem fine_forgetDocument (reason : Reason) (document : DocumentIdentifier)
    (situation : DehydrateSituation) :
    (commands C).Fine (forgetDocument reason document situation) := by
  unfold forgetDocument
  split
  · refine fine_bind (fine_command O trivial id) fun time ↦ ?_
    refine fine_bind (fine_command O trivial id) fun removed ↦ ?_
    split
    · exact fine_bind (fine_embed (fine_registerWithPlatform O _)) fun _ ↦ fine_done _
    · exact fine_done _
  · exact fine_done _

theorem fine_redactLog (reason : Reason) (document : DocumentIdentifier)
    (situation : DehydrateSituation) :
    (commands C).Fine (redactLog reason document situation) := by
  unfold redactLog
  split
  · refine fine_bind (fine_command O trivial id) fun redacted ↦ ?_
    split <;> exact fine_done _
  · exact fine_done _

theorem fine_dehydrateDocument (fileSystem : Bool) (reason : Reason)
    (situation : DehydrateSituation) (document : DocumentIdentifier) :
    (commands C).Fine (dehydrateDocument fileSystem reason situation document) := by
  refine fine_bind (fine_command O trivial id) fun locations ↦ ?_
  split
  · exact fine_done _
  · refine fine_bind (fine_giveLocationsFree O _ _ _ _) fun situation ↦ ?_
    exact fine_bind (fine_forgetDocument O _ _ _) fun situation ↦ fine_redactLog O _ _ _

theorem fine_dehydrateEach (fileSystem : Bool) (reason : Reason)
    (documents : List DocumentIdentifier) (situation : DehydrateSituation) :
    (commands C).Fine (dehydrateEach fileSystem reason documents situation) := by
  induction documents generalizing situation with
  | nil => exact fine_done _
  | cons document rest ih =>
    exact fine_bind (fine_dehydrateDocument O _ _ _ _) fun situation ↦ ih situation

theorem fine_dehydrate (documents : List DocumentIdentifier) (reason : Reason) :
    (commands C).Fine (dehydrate documents reason) := by
  refine fine_bind (fine_command O trivial id) fun fileSystem ↦ ?_
  refine fine_bind (fine_dehydrateEach O _ _ _ _) fun situation ↦ ?_
  exact fine_bind (fine_command O trivial id) fun _ ↦ fine_done _

theorem fine_sessionOf {α : Type} {p : SessionFallible α} {kind : SessionRequest → Prop}
    (hp : p.run.Asks kind) (hk : ∀ r, kind r → HarmlessSession r) :
    (commands C).Fine (ofReconcile (ofSession p)) :=
  fine_embed (fine_embed (fine_of_asks hp fun r w hr ↦ O.harmless _ w (hk r hr) id))

theorem fine_runFrom (identifier : CommandIdentifier) (command : Command) :
    (commands C).Fine (runFrom setting identifier command) := by
  refine fine_bind (fine_command O trivial id) fun _ ↦ ?_
  cases command with
  | dehydrate documents reason => exact fine_dehydrate O documents reason
  | reconcile container =>
    cases container with
    | none =>
      exact fine_bind (fine_embed (fine_reconcileEverything O)) fun _ ↦ fine_done _
    | some container =>
      exact fine_bind (fine_embed (fine_reconcileContainer O container)) fun _ ↦ fine_done _
  | signOut => exact fine_bind (fine_embed (fine_embed O.clearAfterSignOut)) fun _ ↦ fine_done _
  | refreshKeys =>
    have hkeys : (reconcileKeys setting).run.Asks HarmlessSession :=
      asks_reconcileKeys (fun _ ↦ trivial) (fun _ ↦ trivial) trivial
    exact fine_bind (fine_sessionOf O hkeys fun _ h ↦ h) fun _ ↦ fine_done _

theorem fine_judge (envelope : CommandEnvelope) (rate : RateLimit) :
    (commands C).Fine (judge setting envelope rate) := by
  have hkeys : (readKeySet setting).run.Asks HarmlessSession := asks_readKeySet fun _ ↦ trivial
  refine fine_bind (fine_sessionOf O hkeys fun _ h ↦ h) fun set ↦ ?_
  split
  · exact fine_done _
  · split
    · exact fine_done _
    · split
      · exact fine_done _
      · refine fine_bind (fine_command O trivial id) fun time ↦ ?_
        split
        · exact fine_done _
        · exact fine_bind (fine_runFrom O _ _) fun _ ↦ fine_done _

end Commands

section Channel

theorem fine_request {r : Request} (h : Harmless r) (hr : ¬ Confirms r) :
    C.Fine (Request.call r) :=
  fine_call fun w ↦ O.harmless r w h hr

theorem fine_askDeviceToken : C.Fine askDeviceToken.run := by
  refine fine_fallible_bind (fine_store (fine_request O trivial id)) fun enrolled ↦ ?_
  split
  · exact fine_done _
  · refine fine_fallible_bind (fine_lift (fine_request O trivial id)) fun result ↦ ?_
    split
    · exact fine_done _
    · refine fine_fallible_bind (fine_done _) fun text ↦ ?_
      exact fine_fallible_bind (fine_lift (fine_request O trivial id)) fun _ ↦ fine_done _

theorem fine_fetchDeviceToken (force : Bool) : C.Fine (Channel.fetchDeviceToken force).run := by
  cases force with
  | true => exact fine_askDeviceToken O
  | false =>
    refine fine_fallible_bind (fine_lift (fine_request O trivial id)) fun has ↦ ?_
    split
    · exact fine_done _
    · exact fine_askDeviceToken O

theorem fine_acknowledge (command : CommandIdentifier) (outcome : CommandOutcome) :
    C.Fine (acknowledge command outcome) := by
  refine fine_bind (fine_fetchDeviceToken O false) fun token ↦ ?_
  split
  · refine fine_bind (fine_request O trivial id) fun key ↦ ?_
    split
    · refine fine_bind (fine_request O trivial id) fun answer ↦ ?_
      split
      · exact fine_bind (fine_request O trivial id) fun _ ↦ fine_done _
      · exact fine_done _
    · exact fine_done _
  · exact fine_done _

/-- The acknowledgement is in order wherever the outcome may be recorded. -/
theorem sound_complete {command : CommandIdentifier} {outcome : CommandOutcome} {w : σ}
    (h : C.ok (.setOutcome command outcome) w) :
    C.Sound (complete command outcome) (fun _ _ ↦ True) w := by
  refine Sound.fine_bind (Q := fun _ _ ↦ True) ⟨h, fun _ _ _ _ _ ↦ trivial⟩ fun recorded ↦ ?_
  split
  · exact fine_acknowledge O command outcome
  · exact fine_done _

theorem fine_acknowledgeEach (states : List CommandState) : C.Fine (acknowledgeEach states) := by
  induction states with
  | nil => exact fine_done _
  | cons state rest ih =>
    rw [acknowledgeEach]
    split
    · exact fine_bind (fine_acknowledge O _ _) fun _ ↦ ih
    · exact ih

theorem fine_collectPage (wait : ℕ) (cursor : Option String) :
    C.Fine (collectPage wait cursor).run := by
  refine fine_fallible_bind (fine_lift (fine_request O trivial id)) fun result ↦ ?_
  split
  · exact fine_done _
  · refine fine_fallible_bind (fine_fetchDeviceToken O true) fun token ↦ ?_
    split
    · exact fine_fallible_bind (fine_lift (fine_request O trivial id)) fun _ ↦ fine_done _
    · exact fine_done _
  · dsimp only
    split
    · exact fine_fallible_bind (fine_store (fine_request O trivial id)) fun _ ↦ fine_done _
    · exact fine_done _
  · exact fine_done _

theorem fine_fetchPage (wait : ℕ) : C.Fine (fetchPage wait).run := by
  refine fine_fallible_bind (fine_store (fine_request O trivial id)) fun cursor ↦ ?_
  split
  · exact fine_done _
  · exact fine_collectPage O wait cursor

/-- An entry of the page, the outcome of what is executed being recorded in order. -/
theorem fine_processJudged (hrejected : ∀ command w, C.ok (.setOutcome command .rejected) w)
    (hjudged : ∀ envelope rate w, (commands C).Sound (judge setting envelope rate)
      (fun x w' ↦ C.ok (.setOutcome envelope.commandId x.1) w') w)
    (value : Value) (rate : RateLimit) : C.Fine (process setting value rate) := by
  rw [process]
  split
  · exact fine_done _
  · exact fine_bind (fun w ↦ sound_complete O (hrejected _ w)) fun _ ↦ fine_done _
  · rename_i envelope _
    refine fine_bind (fine_request O trivial id) fun time ↦ ?_
    refine fine_bind (fine_request O trivial id) fun acceptance ↦ ?_
    split
    · exact fine_done _
    · dsimp only
      split
      · exact fine_bind (fine_acknowledge O _ _) fun _ ↦ fine_done _
      · exact fine_done _
    · intro w
      refine sound_bind.mpr (sound_mono ?_ (sound_embed.mpr (hjudged envelope rate w)))
      exact fun x w hok ↦ (sound_complete O hok).fine_bind fun _ ↦ fine_done _

theorem fine_process (houtcome : ∀ command outcome w, C.ok (.setOutcome command outcome) w)
    (value : Value) (rate : RateLimit) : C.Fine (process setting value rate) :=
  fine_processJudged O (fun _ w ↦ houtcome _ _ w) (fun envelope rate w ↦
    sound_mono (fun _ w _ ↦ houtcome _ _ w) (fine_judge O envelope rate w)) value rate

variable (hp : ∀ value rate, C.Fine (process setting value rate))

include hp

theorem fine_processEach (values : List Value) (rate : RateLimit) :
    C.Fine (processEach setting values rate) := by
  induction values generalizing rate with
  | nil => exact fine_done _
  | cons value rest ih =>
    refine fine_bind (fine_request O trivial id) fun stopped ↦ ?_
    split
    · exact fine_done _
    · exact fine_bind (hp value rate) fun rate ↦ ih rate

omit hp in
theorem fine_askWaitTime : C.Fine askWaitTime := by
  refine fine_bind (fine_request O trivial id) fun status ↦ ?_
  split <;> exact fine_done _

theorem fine_aRound (rate : RateLimit) (wait : Option ℕ) :
    C.Fine (aRound setting rate wait).run := by
  have hpage : ∀ page : DeliveryPage, C.Fine (workOff setting rate page).run := by
    intro page
    unfold workOff
    split
    · refine fine_fallible_bind (fine_store (fine_request O trivial id)) fun _ ↦ ?_
      exact fine_lift (fine_processEach O hp _ _)
    · exact fine_lift (fine_processEach O hp _ _)
  refine fine_fallible_bind (fine_fetchDeviceToken O false) fun token ↦ ?_
  split
  · refine fine_fallible_bind ?_ fun _ ↦ ?_
    · refine fine_fallible_bind (fine_store (fine_request O trivial id)) fun opened ↦ ?_
      exact fine_lift (fine_acknowledgeEach O opened)
    · refine fine_fallible_bind (fine_lift ?_) fun wait ↦ ?_
      · cases wait with
        | none => exact fine_askWaitTime O
        | some wait => exact fine_done _
      · refine fine_fallible_bind (fine_fetchPage O wait) fun page ↦ ?_
        exact fine_fallible_bind (hpage page) fun _ ↦ fine_done _
  · exact fine_done _

theorem fine_channel (rate : RateLimit) (wait : Option ℕ) (disturbed : Bool) :
    C.Fine (channel setting rate wait disturbed) := by
  have hconnected : ∀ b, C.Fine (connected b) := fun b ↦
    fine_embed (fine_embed (fine_setConnected O b))
  refine fine_bind (fine_aRound O hp rate wait) fun result ↦ ?_
  split
  · split
    · exact hconnected true
    · exact fine_done _
  · split
    · exact hconnected false
    · exact fine_done _
  · exact fine_done _

end Channel

section Sources

theorem fine_children (container : Container) :
    C.Fine (Source.children setting container).run := by
  have hread : C.Fine (Source.readChildren setting container).run := by
    refine fine_fallible_bind (fine_lift (fine_request O trivial id)) fun answer ↦ ?_
    split
    · exact fine_done _
    · split <;> exact fine_done _
    · exact fine_done _
  refine fine_fallible_bind (fine_lift (fine_request O trivial id)) fun stopped ↦ ?_
  split
  · exact fine_done _
  · refine fine_fallible_bind (fine_lift (fine_request O trivial id)) fun answer ↦ ?_
    refine fine_fallible_bind (fine_done _) fun state ↦ ?_
    split
    · refine fine_fallible_bind (fine_lift ?_) fun fetched ↦ ?_
      · exact fine_embed (fine_embed (fine_fetchIfNeeded O _ container))
      · exact fine_fallible_bind (fine_done _) fun _ ↦ hread
    · refine fine_fallible_bind (fine_lift (fine_request O trivial id)) fun time ↦ ?_
      dsimp only
      split
      · exact fine_fallible_bind (fine_lift (fine_request O trivial id)) fun _ ↦ hread
      · exact hread

variable (hs : ∀ r w, Streams r → C.ok (.source r) w)

include hs

omit O in
theorem fine_stream {r : SourceRequest} (h : Streams r) : C.Fine (callSource r) :=
  fine_call fun w ↦ hs r w h

theorem fine_writeAll (n : ℕ) (buffer : List UInt8) (sink : Hydration.CountingSink) :
    C.Fine (Hydration.writeAll n buffer sink) := by
  induction n generalizing buffer sink with
  | zero => cases buffer <;> exact fine_done _
  | succ n ih =>
    cases buffer with
    | nil => exact fine_done _
    | cons b buffer =>
      refine fine_bind (fine_stream hs trivial) fun cancelled ↦ ?_
      split
      · exact fine_done _
      · refine fine_bind (fine_stream hs trivial) fun answer ↦ ?_
        split
        · exact fine_done _
        · refine fine_bind (fine_stream hs trivial) fun _ ↦ ?_
          split
          · exact fine_done _
          · exact ih _ _

theorem fine_readChunks (length : ℕ) (broken : Option String) (chunks : List (List UInt8))
    (written : ℕ) (sink : Hydration.CountingSink) :
    C.Fine (Hydration.readChunks length broken chunks written sink) := by
  induction chunks generalizing written sink with
  | nil => exact fine_done _
  | cons chunk rest ih =>
    rw [Hydration.readChunks]
    split
    · exact fine_done _
    · refine fine_bind (fine_writeAll O hs _ _ _) fun answer ↦ ?_
      split
      · exact fine_done _
      · exact ih _ _

theorem fine_streamInFile (identifier : EntryIdentifier) (row : DocumentRow)
    (request : ContentRequest) :
    C.Fine (Hydration.streamInFile setting identifier row request).run := by
  refine fine_fallible_bind (fine_internally (fine_stream hs trivial)) fun _ ↦ ?_
  refine fine_fallible_bind (fine_lift ?_) fun result ↦ ?_
  · unfold Hydration.loadContent
    split
    · exact fine_done _
    · refine fine_bind (fine_stream hs trivial) fun answer ↦ ?_
      split
      iterate 5 exact fine_done _
      split
      · exact fine_done _
      · split
        · exact fine_done _
        · refine fine_bind (fine_bind (fine_readChunks O hs _ _ _ _ _) fun body ↦ ?_) fun loaded ↦ ?_
          · split
            · exact fine_done _
            · refine fine_bind (fine_stream hs trivial) fun flushed ↦ ?_
              split
              · exact fine_done _
              · split <;> exact fine_done _
          · split <;> exact fine_done _
  · split
    · refine fine_fallible_bind (fine_internally (fine_stream hs trivial)) fun _ ↦ ?_
      split
      · exact fine_done _
      · split <;> exact fine_done _
    · exact fine_done _

theorem fine_handOver (n offset : ℕ) : C.Fine (Hydration.handOver n offset).run := by
  induction n generalizing offset with
  | zero => exact fine_done _
  | succ n ih =>
    refine fine_fallible_bind (fine_lift (fine_stream hs trivial)) fun cancelled ↦ ?_
    split
    · exact fine_done _
    · refine fine_fallible_bind (fine_internally (fine_stream hs trivial)) fun data ↦ ?_
      split
      · exact fine_done _
      · refine fine_fallible_bind (fine_lift (fine_stream hs trivial)) fun written ↦ ?_
        split
        · exact fine_done _
        · exact ih _

theorem fine_loadAndCheck (entry : Entry) (details : FileDetails) (document : DocumentIdentifier)
    (expected : Sha256Value) (request : ContentRequest) :
    C.Fine (Hydration.loadAndCheck setting entry details document expected request).run := by
  refine fine_fallible_bind (fine_lift (fine_session O.ensureForToken)) fun answer ↦ ?_
  refine fine_fallible_bind (fine_done _) fun signedIn ↦ ?_
  split
  · exact fine_done _
  · refine fine_fallible_bind (fine_internally (fine_stream hs trivial)) fun _ ↦ ?_
    refine fine_fallible_bind (fine_lift (fine_stream hs trivial)) fun cancelled ↦ ?_
    split
    · exact fine_done _
    · refine fine_fallible_bind (fine_internally (fine_stream hs trivial)) fun _ ↦ ?_
      refine fine_fallible_bind (fine_outcome (fine_streamInFile O hs _ _ _)) fun first ↦ ?_
      refine fine_fallible_bind ?_ fun result ↦ ?_
      · unfold Hydration.secondAttempt
        split
        · refine fine_outcome (fine_fallible_bind (fine_lift (fine_session O.forceRefresh)) ?_)
          intro renewed
          split
          · exact fine_fallible_bind (fine_lift (fine_stream hs trivial)) fun _ ↦
              fine_streamInFile O hs _ _ _
          · exact fine_done _
        · exact fine_done _
      · split
        · exact fine_fallible_bind (fine_lift (fine_stream hs trivial)) fun _ ↦ fine_done _
        · refine fine_fallible_bind (fine_outcome ?_) fun handover ↦ ?_
          · exact fine_fallible_bind (fine_internally (fine_stream hs trivial)) fun _ ↦
              fine_handOver O hs _ _
          · refine fine_fallible_bind (fine_lift (fine_stream hs trivial)) fun _ ↦ ?_
            exact fine_fallible_bind (fine_done _) fun _ ↦ fine_done _

end Sources

section Deliveries

variable (hs : ∀ r w, C.ok (.source r) w)

include hs

omit O in
theorem fine_source (r : SourceRequest) : C.Fine (callSource r) := fine_call (hs r)

theorem fine_appendLog (kind : LogKind) (entry : Entry) (location : Location)
    (document : DocumentIdentifier) (detail : Option String) :
    C.Fine (Hydration.appendLog kind entry location document detail) := by
  refine fine_bind (fine_source hs _) fun located ↦ ?_
  refine fine_bind (fine_request O trivial id) fun time ↦ ?_
  split
  · exact fine_source hs _
  · exact fine_done _

theorem fine_loadDocument (identifier : EntryIdentifier) (location : Location)
    (document : DocumentIdentifier) (request : ContentRequest) :
    C.Fine (Hydration.loadDocument setting identifier location document request).run := by
  refine fine_fallible_bind (fine_lift (fine_source hs _)) fun answer ↦ ?_
  refine fine_fallible_bind (fine_done _) fun found ↦ ?_
  split
  · exact fine_done _
  · split
    · exact fine_done _
    · split
      · exact fine_done _
      · refine fine_fallible_bind (fine_outcome
          (fine_loadAndCheck O (fun r w _ ↦ hs r w) _ _ _ _ _)) fun result ↦ ?_
        dsimp only
        split
        · exact fine_fallible_bind (fine_lift (fine_appendLog O hs _ _ _ _ _)) fun _ ↦ fine_done _
        · exact fine_fallible_bind (fine_lift (fine_appendLog O hs _ _ _ _ _)) fun _ ↦ fine_done _

omit O in
theorem fine_hint (location : Container) (kind : HintKind) :
    C.Fine (Hydration.hint setting location kind).run := by
  refine fine_fallible_bind ?_ fun text ↦ ?_
  · cases kind with
    | readMe => exact fine_done _
    | truncated =>
      refine fine_fallible_bind (fine_lift (fine_source hs _)) fun answer ↦ ?_
      exact fine_fallible_bind (fine_done _) fun _ ↦ fine_done _
  · refine fine_fallible_bind (fine_lift (fine_source hs _)) fun _ ↦ ?_
    refine fine_fallible_bind (fine_lift (fine_source hs _)) fun written ↦ ?_
    split <;> exact fine_done _

theorem fine_content (identifier : EntryIdentifier) (request : ContentRequest) :
    C.Fine (Hydration.content setting identifier request) := by
  have hhydrate : C.Fine (Hydration.hydrate setting identifier request).run := by
    cases identifier with
    | container c => exact fine_done _
    | document location document => exact fine_loadDocument O hs _ _ _ _
    | hint location kind => exact fine_hint hs _ _
  refine fine_bind (fine_source hs _) fun _ ↦ ?_
  refine fine_bind (fine_request O trivial id) fun stopped ↦ ?_
  split
  · exact fine_source hs _
  · exact fine_bind hhydrate fun _ ↦ fine_source hs _

end Deliveries

/-- Everything the engine runs is in order, the entries of a page and deliveries provided. -/
theorem fine_program (hp : ∀ value rate, C.Fine (process setting value rate)) (hd : ∀ identifier request,
    C.Fine (Hydration.content setting identifier request)) (job : Job) :
    C.Fine (job.program setting) := by
  cases job with
  | channel rate wait disturbed => exact fine_channel O hp rate wait disturbed
  | signIn =>
    refine fine_bind (fine_embed (fine_embed ?_)) fun _ ↦ fine_done _
    exact fine_fallible_bind (fine_embed O.signIn) fun _ ↦ fine_reconcileEverything O
  | signOut => exact fine_bind (fine_embed (fine_embed (fine_embed O.signOut))) fun _ ↦ fine_done _
  | reconcile container =>
    exact fine_bind (fine_embed (fine_embed (fine_reconcileContainer O container))) fun _ ↦
      fine_done _
  | reconcileEverything =>
    exact fine_bind (fine_embed (fine_embed (fine_reconcileEverything O))) fun _ ↦ fine_done _
  | children container => exact fine_bind (fine_children O container) fun _ ↦ fine_done _
  | content identifier request => exact hd identifier request
  | ensureForToken =>
    exact fine_bind (fine_embed (fine_embed (fine_embed O.ensureForToken))) fun _ ↦ fine_done _
  | forceRefresh =>
    exact fine_bind (fine_embed (fine_embed (fine_embed O.forceRefresh))) fun _ ↦ fine_done _

end FolderClient.Engine.Orderly
