import FolderClient.Engine.Locking
import FolderClient.Engine.Play
import FolderClient.Library.Transcripts

namespace FolderClient.Engine.AuthenticRuns

open FolderClient.Net.Access
open FolderClient.Core.Namespace FolderClient.Core.Delivery FolderClient.Library.Json
open FolderClient.Library.Programs FolderClient.Library.Programs.Program
open FolderClient.Library.Programs.Contract FolderClient.Library.Pools
open FolderClient.Library.Transcripts FolderClient.Library.Results
open FolderClient.Crypto.Anchoring FolderClient.Storage.Basic FolderClient.Storage.Delivery
open FolderClient.Wire.Delivery FolderClient.Engine.Port FolderClient.Engine.Session
open FolderClient.Engine.Reconcile FolderClient.Engine.Commands FolderClient.Engine.Channel
open FolderClient.Engine.System FolderClient.Engine.Effects FolderClient.Engine.Orderly
open FolderClient.Engine.Locking (sessionOf eq_of_sessionOf sameSession_serve)

/-- What a turn of the channel has asked for, and the answers it got. -/
abbrev Transcript := List (Exchange Request Answer)

/-- The session stands as it stood, in the store, in the vault and as it is shown. -/
structure SessionKept (w w' : World) : Prop where
  session : w'.store.session = w.store.session
  refreshToken : w'.refreshToken = w.refreshToken
  sessionKey : w'.sessionKey = w.sessionKey
  memoryKey : w'.memory.sessionKey = w.memory.sessionKey
  userToken : w'.memory.userToken = w.memory.userToken
  tokenExpiry : w'.memory.tokenExpiry = w.memory.tokenExpiry
  state : w'.memory.state = w.memory.state

def CallsPlatform : Request → Prop
  | .command (.platformState _) | .command (.platformDehydrate _ _)
  | .command (.platformRemove _) | .command (.reconcile (.reportChange _))
  | .command (.reconcile (.session .clearEverything))
  | .command (.reconcile (.session (.placeReady _ _))) => True
  | _ => False

/-- An outcome that says that a command was executed is recorded. -/
def Records : Request → Prop
  | .setOutcome _ outcome => outcome ≠ .rejected ∧ outcome ≠ .failed
  | _ => False

/-- A request does what only a command may do. -/
def Acts (r : Request) (w w' : World) : Prop :=
  CallsPlatform r ∨ ¬ SameNamespace w.store w'.store ∨ ¬ SessionKept w w' ∨ Records r

/-- What a turn says about the connection when it ends. -/
def FlagsConnection (r : Request) : Prop :=
  ∃ displayName tenant since connected, r = .command (.reconcile (.session
    (.setState (.signedIn displayName tenant since connected) none)))

/-- The requests that every turn may make. -/
def Idle : Request → Prop
  | .command (.reconcile (.session (.setting _))) | .command (.reconcile (.session .state))
  | .command (.reconcile (.session (.setDeviceToken _)))
  | .command (.reconcile (.session .isStopped)) | .command (.reconcile (.session .now))
  | .command (.reconcile (.session .fetchDeviceToken)) => True
  | .command _ | .source _ => False
  | .setOutcome _ outcome => outcome = .rejected ∨ outcome = .failed
  | _ => True

section Idle

variable {setting : Setting} {fails : Prop} {i : ℕ} {w w' : World}

theorem SessionKept.refl (w : World) : SessionKept w w := ⟨rfl, rfl, rfl, rfl, rfl, rfl, rfl⟩

theorem sessionKept_of_idle {r : Request} {a : Answer r} (hr : Idle r)
    (h : serve setting fails i r w a w') : SessionKept w w' := by
  cases hs : sessionOf r with
  | none =>
    have hsame := sameSession_serve hs h
    exact ⟨hsame.session, hsame.refreshToken, hsame.sessionKey, by rw [hsame.memory],
      by rw [hsame.memory], by rw [hsame.memory], by rw [hsame.memory]⟩
  | some q =>
    obtain rfl := eq_of_sessionOf hs
    cases q with
    | setting key =>
      simp only [Port.serve, serveCommand, serveReconcile, serveSession] at h
      rw [(read_cases h).1]
      exact .refl w
    | state | isStopped =>
      rw [show w' = w from h.2]
      exact .refl w
    | now | fetchDeviceToken =>
      rw [show w' = w from h]
      exact .refl w
    | setDeviceToken text =>
      obtain rfl := h
      exact ⟨rfl, rfl, rfl, rfl, rfl, rfl, rfl⟩
    | _ => cases hr

theorem operationOf_of_idle {r : Request} (hr : Idle r) : operationOf r = none := by
  unfold operationOf
  split
  · cases hr
  · cases hr
  · cases hr
  · cases hr
  · rfl

theorem sameNamespace_of_idle {r : Request} {a : Answer r} (hr : Idle r)
    (h : serve setting fails i r w a w') : SameNamespace w.store w'.store := by
  obtain hs | hs := store_serve h
  · rw [hs]
    exact .refl _
  · exact sameNamespace_of_operationOf (operationOf_of_idle hr) hs

theorem not_callsPlatform_of_idle {r : Request} (hr : Idle r) : ¬ CallsPlatform r := by
  intro h
  unfold CallsPlatform at h
  split at h
  · cases hr
  · cases hr
  · cases hr
  · cases hr
  · cases hr
  · cases hr
  · exact h

/-- Whatever acts is no request that every turn may make. -/
theorem not_idle_of_acts {r : Request} {a : Answer r} (hact : Acts r w w')
    (h : serve setting fails i r w a w') : ¬ Idle r := by
  intro hr
  obtain hact | hact | hact | hact := hact
  · exact not_callsPlatform_of_idle hr hact
  · exact hact (sameNamespace_of_idle hr h)
  · exact hact (sessionKept_of_idle hr h)
  · unfold Records at hact
    split at hact
    · obtain rfl | rfl := hr
      · exact hact.1 rfl
      · exact hact.2 rfl
    · exact hact

end Idle

/-- The set is the one stored when it was read. -/
def KeySetRead (setting : Setting) (set : KeySet setting.prims) (t : Transcript) : Prop :=
  ∃ text value, ⟨.command (.reconcile (.session (.setting SettingKey.keySet.text))),
      .ok (some text)⟩ ∈ t ∧
    setting.readJson text = some value ∧ KeySet.fromStorage value = .ok set

/-- The raw value has passed every check: the signature against a confirmed set in which an anchor
still applies, the device, the catalogue, the documents, and the rate limit. -/
def Authentic (setting : Setting) (value : Value) (rate : RateLimit) (t : Transcript) : Prop :=
  ∃ envelope, CommandEnvelope.fromValue value = .ok envelope ∧
    (∃ set, KeySetRead setting set t ∧ checkCommandSignature value set = .ok () ∧
      set.anchorState = .confirmed ∧ ∃ anchor ∈ set.anchors, set.anchorApplies anchor.kid = true) ∧
    envelope.deviceId = setting.device ∧
    (∃ kind command, envelope.catalogueKind = some kind ∧
      CommandEnvelope.translate kind envelope.payload = .ok command ∧
      ∀ documents reason, command = .dehydrate documents reason →
        1 ≤ documents.length ∧ documents.length ≤ 500 ∧ documents.Nodup) ∧
    ∃ time, ⟨.command (.reconcile (.session .now)), time⟩ ∈ t ∧
      (rate.take time.unixMillis).1 = true

section Checks

variable {setting : Setting} {value : Value} {rate : RateLimit} {t t' : Transcript}

theorem KeySetRead.mono {set : KeySet setting.prims} (h : KeySetRead setting set t)
    (ht : t ⊆ t') : KeySetRead setting set t' := by
  obtain ⟨text, value, hm, h⟩ := h
  exact ⟨text, value, ht hm, h⟩

theorem Authentic.mono (h : Authentic setting value rate t) (ht : t ⊆ t') :
    Authentic setting value rate t' := by
  obtain ⟨envelope, hvalue, ⟨set, hread, hset⟩, hdevice, hcommand, time, hm, hrate⟩ := h
  exact ⟨envelope, hvalue, ⟨set, hread.mono ht, hset⟩, hdevice, hcommand, time, ht hm, hrate⟩

theorem nodup_of_duplicate {seen documents : List DocumentIdentifier}
    (h : duplicate seen documents = none) :
    documents.Nodup ∧ ∀ d ∈ documents, d ∉ seen := by
  induction documents generalizing seen with
  | nil => exact ⟨.nil, fun d hd ↦ nomatch hd⟩
  | cons d rest ih =>
    rw [duplicate] at h
    split at h
    · cases h
    · rename_i hs
      obtain ⟨hn, hseen⟩ := ih h
      refine ⟨List.nodup_cons.mpr ⟨fun hd ↦ hseen d hd List.mem_cons_self, hn⟩, ?_⟩
      intro d' hd'
      obtain rfl | hd' := List.mem_cons.mp hd'
      · exact hs
      · exact fun hm ↦ hseen d' hd' (List.mem_cons_of_mem _ hm)

theorem documents_of_translate {kind : CommandKind} {payload : Value} {command : Command}
    (h : CommandEnvelope.translate kind payload = .ok command) (hc : check command = .ok ())
    {documents : List DocumentIdentifier} {reason : Reason}
    (hd : command = .dehydrate documents reason) :
    1 ≤ documents.length ∧ documents.length ≤ 500 ∧ documents.Nodup := by
  subst hd
  simp only [check] at hc
  split at hc
  · cases hc
  · rename_i hempty
    split at hc
    · cases hc
    · rename_i hmany
      refine ⟨?_, ?_, ?_⟩
      · rw [List.isEmpty_iff] at hempty
        exact List.length_pos_iff.mpr hempty
      · simp only [maxDocumentsPerCommand] at hmany
        omega
      · cases kind with
        | dehydrate =>
          simp only [CommandEnvelope.translate] at h
          split at h
          · cases h
          · split at h
            · cases h
            · rename_i hdup
              obtain ⟨rfl, -⟩ := Command.dehydrate.inj (Except.ok.inj h)
              exact (nodup_of_duplicate hdup).1
        | reconcile =>
          simp only [CommandEnvelope.translate] at h
          split at h
          · cases h
          · cases h
          · split at h <;> cases h
        | signOut | refreshKeys =>
          simp only [CommandEnvelope.translate] at h
          split at h <;> cases h

/-- What the strict translation has checked. -/
theorem command_eq_ok {envelope : CommandEnvelope} {device : DeviceIdentifier}
    {command : Command} (h : envelope.command device = .ok command) :
    envelope.deviceId = device ∧ ∃ kind, envelope.catalogueKind = some kind ∧
      CommandEnvelope.translate kind envelope.payload = .ok command ∧
      check command = .ok () := by
  unfold CommandEnvelope.command at h
  rw [ite_throw_eq_ok, ite_throw_eq_ok] at h
  obtain ⟨hdevice, -, h⟩ := h
  refine ⟨not_not.mp hdevice, ?_⟩
  split at h
  · cases h
  · rename_i kind hkind
    obtain ⟨command', htranslate, h⟩ := bind_eq_ok.mp h
    obtain ⟨_, hcheck, h⟩ := bind_eq_ok.mp h
    obtain rfl := Except.ok.inj h
    refine ⟨kind, hkind, htranslate, ?_⟩
    cases hc : check command' with
    | ok _ => rfl
    | error e =>
      rw [hc] at hcheck
      cases hcheck

theorem carries_of_checked {prims : Crypto.Jws.Primitives} {command : Value} {set : KeySet prims}
    (h : checkCommandSignature command set = .ok ()) : set.carries = true := by
  unfold checkCommandSignature at h
  rw [ite_throw_eq_ok] at h
  exact not_not.mp h.1

/-- The raw members of an envelope are those of the value it was read from. -/
theorem raw_of_fromValue {envelope : CommandEnvelope}
    (h : CommandEnvelope.fromValue value = .ok envelope) : value = .object envelope.raw := by
  unfold CommandEnvelope.fromValue at h
  split at h
  · cases h
  · rename_i raw hobject
    split at h
    · cases h
    · rename_i commandId _
      have hraw : envelope.raw = raw := by
        cases hrest : readRest raw commandId with
        | error e =>
          rw [hrest] at h
          cases h
        | ok envelope' =>
          rw [hrest] at h
          obtain rfl := Except.ok.inj h
          unfold readRest at hrest
          obtain ⟨_, -, hrest⟩ := bind_eq_ok.mp hrest
          obtain ⟨_, -, hrest⟩ := bind_eq_ok.mp hrest
          obtain ⟨_, -, hrest⟩ := bind_eq_ok.mp hrest
          split at hrest
          · cases hrest
          · obtain ⟨_, -, hrest⟩ := bind_eq_ok.mp hrest
            rw [← Except.ok.inj hrest]
      rw [hraw]
      cases value with
      | object members => rw [Option.some.inj hobject]
      | _ => cases hobject

end Checks

section Asked

/-- The requests by which a turn gets ready to collect its page. -/
def Polls : Request → Prop
  | .command (.reconcile (.session (.setting _)))
  | .command (.reconcile (.session (.setDeviceToken _)))
  | .command (.reconcile (.session .fetchDeviceToken)) => True
  | .command _ | .source _ | .setCursor _ | .deleteCursor | .acceptCommand _ _
  | .setOutcome _ _ => False
  | _ => True

theorem idle_of_polls (r : Request) (h : Polls r) : Idle r := by
  cases r with
  | command r =>
    cases r with
    | reconcile r =>
      cases r with
      | session r => cases r <;> trivial
      | _ => exact h.elim
    | _ => exact h.elim
  | source | setCursor | deleteCursor | acceptCommand | setOutcome => exact h.elim
  | _ => trivial

theorem asks_askDeviceToken : askDeviceToken.run.Asks Polls := by
  refine asks_fallible_bind (asks_store (asks_call trivial)) fun enrolled ↦ ?_
  split
  · trivial
  · refine asks_fallible_bind (asks_lift (asks_call trivial)) fun result ↦ ?_
    split
    · trivial
    · refine asks_fallible_bind trivial fun text ↦ ?_
      exact asks_fallible_bind (asks_lift (asks_call trivial)) fun _ ↦ trivial

theorem asks_fetchDeviceToken (force : Bool) : (Channel.fetchDeviceToken force).run.Asks Polls := by
  cases force with
  | true => exact asks_askDeviceToken
  | false =>
    refine asks_fallible_bind (asks_lift (asks_call trivial)) fun has ↦ ?_
    split
    · trivial
    · exact asks_askDeviceToken

theorem asks_acknowledge (command : CommandIdentifier) (outcome : CommandOutcome) :
    (acknowledge command outcome).Asks Polls := by
  refine asks_bind (asks_fetchDeviceToken false) fun token ↦ ?_
  split
  · refine asks_bind (asks_call trivial) fun key ↦ ?_
    split
    · refine asks_bind (asks_call trivial) fun answer ↦ ?_
      split
      · exact asks_bind (asks_call trivial) fun _ ↦ trivial
      · trivial
    · trivial
  · trivial

theorem asks_complete (command : CommandIdentifier) {outcome : CommandOutcome}
    (h : outcome = .rejected ∨ outcome = .failed) : (complete command outcome).Asks Idle := by
  refine asks_bind (asks_call h) fun recorded ↦ ?_
  split
  · exact (asks_acknowledge command outcome).mono idle_of_polls
  · trivial

theorem asks_acknowledgeEach (states : List CommandState) :
    (acknowledgeEach states).Asks Polls := by
  induction states with
  | nil => trivial
  | cons state rest ih =>
    rw [acknowledgeEach]
    split
    · exact asks_bind (asks_acknowledge _ _) fun _ ↦ ih
    · exact ih

theorem asks_emptyOutbox : emptyOutbox.run.Asks Polls :=
  asks_fallible_bind (asks_store (asks_call trivial)) fun states ↦
    asks_lift (asks_acknowledgeEach states)

theorem asks_chosenWait (wait : Option ℕ) : (chosenWait wait).Asks Polls := by
  cases wait with
  | some wait => trivial
  | none =>
    refine asks_bind (asks_call trivial) fun status ↦ ?_
    split <;> trivial

theorem asks_collectPage (wait : ℕ) (cursor : Option String) :
    (collectPage wait cursor).run.Asks Idle := by
  refine asks_fallible_bind (asks_lift (asks_call trivial)) fun result ↦ ?_
  split
  · trivial
  · refine asks_fallible_bind ((asks_fetchDeviceToken true).mono idle_of_polls) fun token ↦ ?_
    split
    · exact asks_fallible_bind (asks_lift (asks_call trivial)) fun _ ↦ trivial
    · trivial
  · dsimp only
    split
    · exact asks_fallible_bind (asks_store (asks_call trivial)) fun _ ↦ trivial
    · trivial
  · trivial

theorem asks_fetchPage (wait : ℕ) : (fetchPage wait).run.Asks Idle := by
  refine asks_fallible_bind (asks_store (asks_call trivial)) fun cursor ↦ ?_
  split
  · trivial
  · exact asks_collectPage wait cursor

theorem asks_connected (b : Bool) :
    (connected b).Asks fun r ↦ Idle r ∨ FlagsConnection r := by
  refine asks_bind (asks_call (.inl trivial)) fun state ↦ ?_
  cases state with
  | signedIn displayName tenant since flag =>
    exact asks_call (.inr ⟨displayName, tenant, since, b, rfl⟩)
  | _ => trivial

end Asked

section Items

variable {setting : Setting} {value : Value} {rate : RateLimit} {t : Transcript}

/-- Only for an authentic command are requests made that not every turn may make; the outcome
recorded is that of the command. -/
def Allowed (setting : Setting) (value : Value) (rate : RateLimit) (r : Request)
    (t : Transcript) : Prop :=
  ¬ Idle r → Authentic setting value rate t ∧
    ∀ command outcome, r = .setOutcome command outcome → commandOf value = some command

/-- The contract of the processing of an item. -/
abbrev item (setting : Setting) (value : Value) (rate : RateLimit) :
    Contract Request Answer Transcript :=
  transcripts (Allowed setting value rate)

theorem fine_of_idle {α : Type} {p : Activity α} (h : p.Asks Idle) :
    (item setting value rate).Fine p :=
  fine_of_asks h fun _ _ hr hn ↦ absurd hr hn

theorem subset_of_served {r : Request} {a : Answer r} {t' t'' : Transcript}
    (hs : t' = t ++ [⟨r, a⟩]) (hr : t'' = t') : t ⊆ t'' := by
  rw [hr, hs]
  exact List.subset_append_left _ _

theorem mem_of_served {r : Request} {a : Answer r} {t' t'' : Transcript}
    (hs : t' = t ++ [⟨r, a⟩]) (hr : t'' = t') : ⟨r, a⟩ ∈ t'' := by
  rw [hr, hs]
  exact List.mem_append_right _ List.mem_cons_self

/-- The key set of the setting's value. -/
def keySetOf (setting : Setting) : Option Value → SessionFallible (KeySet setting.prims)
  | none => raise (.error (.internal "the stored key set is not JSON"))
  | some value => crypto (KeySet.fromStorage value)

theorem sound_readKeySet :
    (sessions (item setting value rate)).Sound (readKeySet setting).run
      (fun x t' ↦ ∀ set, x = .ok set → set = .empty ∨ KeySetRead setting set t') t := by
  refine sound_fallible_bind ⟨fun hn ↦ absurd trivial hn, fun answer t' t'' hs hr ↦ ?_⟩
  cases answer with
  | error e => exact fun set hx ↦ (by cases hx)
  | ok answer =>
    cases answer with
    | none =>
      intro set hx
      exact .inl (Except.ok.inj hx).symm
    | some text =>
      have hm := mem_of_served hs hr
      change (sessions (item setting value rate)).Sound
        (keySetOf setting (setting.readJson text)).run _ t''
      cases hjson : setting.readJson text with
      | none => exact fun set hx ↦ (by cases hx)
      | some v =>
        intro set hx
        refine .inr ⟨text, v, hm, hjson, ?_⟩
        cases hset : (KeySet.fromStorage v : Except _ (KeySet setting.prims)) with
        | error e =>
          rw [hset] at hx
          cases hx
        | ok set' =>
          rw [hset] at hx
          rw [← Except.ok.inj hx]

/-- A command is executed only once it has passed every check. -/
theorem sound_judge {envelope : CommandEnvelope}
    (hvalue : CommandEnvelope.fromValue value = .ok envelope) :
    (commands (item setting value rate)).Sound (judge setting envelope rate)
      (fun x t' ↦ (x.1 = .rejected ∨ x.1 = .failed) ∨ Authentic setting value rate t') t := by
  refine sound_bind.mpr (sound_mono ?_ (sound_embed.mpr (sound_embed.mpr sound_readKeySet)))
  intro read t₁ hread
  cases read with
  | error e => exact .inl (.inr rfl)
  | ok set =>
    dsimp only
    cases hsignature : checkCommandSignature (.object envelope.raw) set with
    | error e => exact .inl (.inl rfl)
    | ok _ =>
      dsimp only
      cases hcommand : envelope.command setting.device with
      | error e => exact .inl (.inl rfl)
      | ok command =>
        dsimp only
        refine sound_call_bind (fun hn ↦ absurd trivial hn) fun time t₂ t₃ hs hr ↦ ?_
        cases htake : rate.take time.unixMillis with
        | mk granted rate' =>
          cases granted with
          | false => exact .inl (.inr rfl)
          | true =>
            have hcarries := carries_of_checked hsignature
            have hset : KeySetRead setting set t₁ := by
              refine (hread set rfl).resolve_left fun hempty ↦ ?_
              rw [hempty] at hcarries
              cases hcarries
            have hcarried := Bool.and_eq_true_iff.mp hcarries
            obtain ⟨hdevice, kind, hkind, htranslate, hcheck⟩ := command_eq_ok hcommand
            have hauthentic : Authentic setting value rate t₃ := by
              refine ⟨envelope, hvalue, ⟨set, hset.mono (subset_of_served hs hr), ?_,
                of_decide_eq_true hcarried.1, List.any_eq_true.mp hcarried.2⟩, hdevice,
                ⟨kind, command, hkind, htranslate, fun _ _ hd ↦
                  documents_of_translate htranslate hcheck hd⟩,
                time, mem_of_served hs hr, by rw [htake]⟩
              rw [raw_of_fromValue hvalue]
              exact hsignature
            have hrun : (commands (item setting value rate)).Sound
                (runFrom setting envelope.commandId command)
                (fun _ t' ↦ Authentic setting value rate t') t₃ := by
              refine sound_of_all ?_ ?_ hauthentic
              · intro r t' ha
                refine ⟨fun _ ↦ ⟨ha, fun _ _ he ↦ nomatch he⟩, fun a t'' hs' ↦ ?_⟩
                exact ha.mono (subset_of_served hs' rfl)
              · intro t' t'' ha hr'
                rw [show t'' = t' from hr']
                exact ha
            exact sound_bind.mpr (sound_mono (fun _ _ ha ↦ .inr ha) hrun)

theorem sound_process : (item setting value rate).Sound (process setting value rate)
    (fun _ _ ↦ True) t := by
  rw [process]
  split
  · trivial
  · exact fine_bind (fine_of_idle (asks_complete _ (.inl rfl))) (fun _ ↦ fine_done _) t
  · rename_i envelope hvalue
    refine fine_bind (fine_call fun _ hn ↦ absurd trivial hn) (fun time ↦ ?_) t
    refine fine_bind (fine_call fun _ hn ↦ absurd trivial hn) fun acceptance ↦ ?_
    split
    · exact fine_done _
    · dsimp only
      split
      · exact fine_bind (fine_of_idle ((asks_acknowledge _ _).mono idle_of_polls)) fun _ ↦
          fine_done _
      · exact fine_done _
    · intro t
      refine sound_bind.mpr (sound_mono ?_ (sound_embed.mpr (sound_judge hvalue)))
      intro x t' hx
      have hcomplete : (item setting value rate).Sound (complete envelope.commandId x.1)
          (fun _ _ ↦ True) t' := by
        refine sound_call_bind (fun hn ↦ ?_) fun recorded t₁ t₂ _ _ ↦ ?_
        · refine ⟨hx.resolve_left hn, fun command outcome he ↦ ?_⟩
          obtain ⟨rfl, -⟩ := Request.setOutcome.inj he
          rw [commandOf, hvalue]
        · split
          · exact fine_of_idle ((asks_acknowledge _ _).mono idle_of_polls) t₂
          · trivial
      exact sound_bind.mpr (sound_mono (fun _ _ _ ↦ trivial) hcomplete)

/-- What the processing of an item asks for beyond what every turn may, it asks for an authentic
command. -/
theorem authentic_of_reaches {r : Request} {inner : Answer r → Activity RateLimit}
    (h : Reaches (process setting value rate) t (.ask r inner)) (hr : ¬ Idle r) :
    Authentic setting value rate t ∧
      ∀ command outcome, r = .setOutcome command outcome → commandOf value = some command :=
  ok_of_reaches (t := []) sound_process h hr

end Items

section Turns

variable {setting : Setting} {r : Request} {t t₁ t₂ : Transcript} {α β : Type}
  {O O' : Value → Transcript → Prop}

/-- The activity has come to the processing of an item, which then asks `r`. -/
def Located (setting : Setting) (origin : Value → Transcript → Prop) (p : Activity α)
    (t : Transcript) (r : Request) (next : Answer r → Activity α) : Prop :=
  ∃ value rate before during inner rest, t = before ++ during ∧ origin value before ∧
    Reaches p before (process setting value rate >>= rest) ∧
    Reaches (process setting value rate) during (.ask r inner) ∧ next = fun a ↦ inner a >>= rest

theorem Located.bind {p : Activity α} {next : Answer r → Activity α}
    (h : Located setting O p t r next) (f : α → Activity β) :
    Located setting O (p >>= f) t r fun a ↦ next a >>= f := by
  obtain ⟨value, rate, before, during, inner, rest, ht, ho, hp, hi, rfl⟩ := h
  refine ⟨value, rate, before, during, inner, fun x ↦ rest x >>= f, ht, ho, ?_, hi, ?_⟩
  · rw [← bind_assoc]
    exact hp.bind f
  · funext a
    exact bind_assoc _ _ _

theorem Located.after {p : Activity α} {f : α → Activity β} {a : α}
    {next : Answer r → Activity β} (hp : Reaches p t₁ (.done a))
    (h : Located setting O (f a) t₂ r next)
    (ho : ∀ value before, O value before → O' value (t₁ ++ before)) :
    Located setting O' (p >>= f) (t₁ ++ t₂) r next := by
  obtain ⟨value, rate, before, during, inner, rest, rfl, hv, hf, hi, hn⟩ := h
  refine ⟨value, rate, t₁ ++ before, during, inner, rest, (List.append_assoc _ _ _).symm,
    ho value before hv, ?_, hi, hn⟩
  exact (hp.bind f).trans hf

/-- The same after a step whose error ends the function. -/
theorem Located.past {p : Fallible Request Answer α} {f : α → Fallible Request Answer β} {a : α}
    {next : Answer r → Activity (Except EngineError β)} (hp : Reaches p.run t₁ (.done (.ok a)))
    (h : Located setting O (f a).run t₂ r next)
    (ho : ∀ value before, O value before → O' value (t₁ ++ before)) :
    Located setting O' (p >>= f).run (t₁ ++ t₂) r next :=
  Located.after (f := ExceptT.bindCont f) hp h ho

theorem located_processEach (items : List Value) (rate : RateLimit)
    {next : Answer r → Activity Unit} (hr : ¬ Idle r)
    (h : Reaches (processEach setting items rate) t (.ask r next)) :
    Located setting (fun value _ ↦ value ∈ items) (processEach setting items rate) t r next := by
  induction items generalizing rate t with
  | nil => cases h
  | cons value rest ih =>
    rw [processEach] at h ⊢
    have hask : (callSession .isStopped).Asks Idle := asks_call trivial
    obtain ⟨stopped, t₁, t₂, rfl, hstopped, h⟩ := reaches_past hask hr h
    refine Located.after (O := fun v _ ↦ v ∈ value :: rest) hstopped ?_ fun v b hv ↦ hv
    cases stopped with
    | true => cases h
    | false =>
      change Reaches (process setting value rate >>= processEach setting rest) t₂ _ at h
      obtain ⟨p', hp', heq⟩ | ⟨rate', t₃, t₄, rfl, hprocess, h⟩ := reaches_bind_cases h
      · cases p' with
        | ask r' inner =>
          obtain ⟨rfl, hnext⟩ := Program.ask.inj heq
          exact ⟨value, rate, [], t₂, inner, processEach setting rest, rfl, List.mem_cons_self,
            .now _, hp', eq_of_heq hnext⟩
        | done rate' =>
          have hrest : Reaches (processEach setting rest rate') [] (.ask r next) := by
            rw [show Program.ask r next = processEach setting rest rate' from heq]
            exact .now _
          have hlocated : Located setting (fun v _ ↦ v ∈ value :: rest)
              (process setting value rate >>= processEach setting rest) (t₂ ++ []) r next :=
            (ih rate' hrest).after hp' fun v _ hv ↦ List.mem_cons_of_mem value hv
          rwa [List.append_nil] at hlocated
      · exact (ih rate' h).after hprocess fun v _ hv ↦ List.mem_cons_of_mem value hv

/-- The item stands on a page that the server has delivered. -/
def Delivered (value : Value) (before : Transcript) : Prop :=
  ∃ wait cursor page, ⟨.deliveryCollect wait cursor, .success page⟩ ∈ before ∧
    value ∈ page.items

theorem Delivered.mono {value : Value} (h : Delivered value t₁) (ht : t₁ ⊆ t₂) :
    Delivered value t₂ := by
  obtain ⟨wait, cursor, page, hm, hv⟩ := h
  exact ⟨wait, cursor, page, ht hm, hv⟩

/-- The contract of which nothing is asked. -/
abbrev collecting : Contract Request Answer Transcript := transcripts fun _ _ ↦ True

theorem sound_collectPage (wait : ℕ) (cursor : Option String) :
    collecting.Sound (collectPage wait cursor).run
      (fun x t ↦ ∀ page, x = .ok page → ∀ value ∈ page.items, Delivered value t) t := by
  have hpage : ∀ {t t' t'' : Transcript} {result : ApiResult DeliveryPage},
      t' = t ++ [⟨.deliveryCollect wait cursor, result⟩] → t'' = t' → ∀ page,
        result.valueFrom "the delivery channel" = .ok page → ∀ value ∈ page.items,
          Delivered value t'' := by
    intro t t' t'' result hs hr page hp value hv
    rw [ApiResult.valueFrom_eq_ok hp] at hs
    exact ⟨wait, cursor, page, mem_of_served hs hr, hv⟩
  refine sound_lift_bind trivial fun result t' t'' hs hr ↦ ?_
  cases hvalue : result.valueFrom "the delivery channel" with
  | ok page =>
    intro page' hp
    obtain rfl := Except.ok.inj hp
    exact hpage hs hr page hvalue
  | error e =>
    cases e with
    | sessionExpired text =>
      refine sound_fallible_bind (sound_mono ?_ (fine_of_all (fun _ _ ↦ trivial) _ t''))
      intro x t₃ _
      cases x with
      | error e => exact fun page hp ↦ nomatch hp
      | ok renewed =>
        cases renewed with
        | false =>
          intro page hp
          obtain rfl := Except.ok.inj hp
          exact fun value hv ↦ nomatch hv
        | true =>
          refine sound_lift_bind trivial fun result t₄ t₅ hs hr ↦ ?_
          exact fun page hp ↦ hpage hs hr page hp
    | refused reason =>
      dsimp only
      split
      · refine sound_fallible_bind (sound_mono ?_ (fine_of_all (fun _ _ ↦ trivial) _ t''))
        intro x t₃ _
        cases x <;> exact fun page hp ↦ nomatch hp
      · exact fun page hp ↦ nomatch hp
    | _ => exact fun page hp ↦ nomatch hp

theorem delivered_of_fetchPage {wait : ℕ} {page : DeliveryPage}
    (h : Reaches (fetchPage wait).run t (.done (.ok page))) :
    ∀ value ∈ page.items, Delivered value t := by
  have hsound : collecting.Sound (fetchPage wait).run
      (fun x t ↦ ∀ page, x = .ok page → ∀ value ∈ page.items, Delivered value t) [] := by
    refine sound_fallible_bind (sound_mono ?_ (fine_of_all (fun _ _ ↦ trivial) _ []))
    intro x t' _
    cases x with
    | error e => exact fun page hp ↦ nomatch hp
    | ok cursor =>
      dsimp only
      split
      · exact fun page hp ↦ nomatch hp
      · exact sound_collectPage wait cursor
  exact result_of_reaches (t := []) hsound h page rfl

theorem located_workOff (rate : RateLimit) (page : DeliveryPage)
    {next : Answer r → Activity (Except EngineError Unit)} (hr : ¬ Idle r)
    (h : Reaches (workOff setting rate page).run t (.ask r next)) :
    Located setting (fun value _ ↦ value ∈ page.items) (workOff setting rate page).run t r next := by
  have hitems : ∀ {t : Transcript} {next : Answer r → Activity (Except EngineError Unit)},
      Reaches (liftM (processEach setting page.items rate) : Fallible Request Answer Unit).run t
        (.ask r next) → Located setting (fun value _ ↦ value ∈ page.items)
          (liftM (processEach setting page.items rate) : Fallible Request Answer Unit).run t r
          next := by
    intro t next h
    have hdone : ∀ u : Unit, (Program.done (.ok u) :
        Activity (Except EngineError Unit)).Asks Idle := fun _ ↦ trivial
    obtain ⟨inner, hinner, rfl⟩ := reaches_within hdone hr h
    exact (located_processEach page.items rate hr hinner).bind _
  unfold workOff at h ⊢
  split at h
  · rename_i hne
    rw [if_pos hne]
    have hset : (store (Request.call (.setCursor page.nextCursor))).run.Asks Idle :=
      asks_store (asks_call trivial)
    obtain ⟨u, t₁, t₂, rfl, hstored, h⟩ := reaches_past_fallible hset hr h
    exact Located.past hstored (hitems h) fun _ _ hv ↦ hv
  · rename_i hne
    rw [if_neg hne]
    exact hitems h

theorem located_aRound (rate : RateLimit) (wait : Option ℕ)
    {next : Answer r → Activity (Except EngineError Bool)} (hr : ¬ Idle r)
    (h : Reaches (aRound setting rate wait).run t (.ask r next)) :
    Located setting Delivered (aRound setting rate wait).run t r next := by
  unfold aRound at h ⊢
  obtain ⟨token, t₁, t₂, rfl, htoken, h⟩ :=
    reaches_past_fallible ((asks_fetchDeviceToken false).mono idle_of_polls) hr h
  refine Located.past (O := Delivered) htoken ?_ fun value before hv ↦ ?_
  · cases token with
    | false => cases h
    | true =>
      obtain ⟨u, t₃, t₄, rfl, houtbox, h⟩ := reaches_past_fallible
        (asks_emptyOutbox.mono idle_of_polls) hr h
      refine Located.past (O := Delivered) houtbox ?_ fun value before hv ↦ ?_
      · obtain ⟨wait', t₅, t₆, rfl, hwait, h⟩ :=
          reaches_past_fallible (asks_lift ((asks_chosenWait wait).mono idle_of_polls)) hr h
        refine Located.past (O := Delivered) hwait ?_ fun value before hv ↦ ?_
        · obtain ⟨page, t₇, t₈, rfl, hpage, h⟩ :=
            reaches_past_fallible (asks_fetchPage wait') hr h
          refine Located.past (O := fun value _ ↦ value ∈ page.items) hpage ?_
            fun value before hv ↦ ?_
          · have hdone : ∀ x : Except EngineError Unit, (ExceptT.bindCont
                (fun _ ↦ (return true : Fallible Request Answer Bool)) x).Asks Idle := by
              intro x
              cases x <;> trivial
            obtain ⟨inner, hinner, rfl⟩ := reaches_within hdone hr h
            exact (located_workOff rate page hr hinner).bind _
          · exact (delivered_of_fetchPage hpage value hv).mono (List.subset_append_left _ _)
        · exact hv.mono (List.subset_append_right _ _)
      · exact hv.mono (List.subset_append_right _ _)
  · exact hv.mono (List.subset_append_right _ _)

/-- The end of a turn, which reports how the connection stands. -/
def flagged (disturbed : Bool) : Except EngineError Bool → Activity Unit
  | .ok _ => if disturbed then connected true else pure ()
  | .error (.noNetwork _) => if ¬ disturbed then connected false else pure ()
  | .error _ => pure ()

/-- What a turn of the channel asks for beyond what every turn may, it asks for while it processes
an item of a page delivered to it. -/
theorem located_of_turn (rate : RateLimit) (wait : Option ℕ) (disturbed : Bool)
    {next : Answer r → Activity Unit} (hr : ¬ Idle r) (hflag : ¬ FlagsConnection r)
    (h : Reaches (channel setting rate wait disturbed) t (.ask r next)) :
    Located setting Delivered (channel setting rate wait disturbed) t r next := by
  have hend : ∀ x, (flagged disturbed x).Asks fun r ↦ Idle r ∨ FlagsConnection r := by
    intro x
    unfold flagged
    split
    · split
      · exact asks_connected true
      · trivial
    · split
      · exact asks_connected false
      · trivial
    · trivial
  obtain ⟨inner, hinner, rfl⟩ := reaches_within hend (not_or.mpr ⟨hr, hflag⟩) h
  exact (located_aRound rate wait hr hinner).bind _

end Turns

/-- A request that was served to a turn of the channel in a run. -/
def Served (setting : Setting) (fails : Prop) (condition : Condition)
    (x : Exchange Request Answer) : Prop :=
  ∃ c w', Runs setting fails condition c ∧ serve setting fails 0 x.1 c.state x.2 w'

/-- In every run, a turn of the channel calls the platform, changes the namespace or the session or
records an outcome of its own only while it processes an item of a page delivered to it that has
passed every check, and the outcome is recorded for the command of that item; for any other item
nothing of this is done. Only the flag of the connection is set when a turn ends. -/
theorem authentic_of_run {setting : Setting} {fails : Prop} {condition : Condition}
    {c : Activities} {r : Request} {next : Answer r → Activity Unit} {a : Answer r} {w' : World}
    (h : Runs setting fails condition c) (hrun : c.running 0 = some (.ask r next))
    (hserve : serve setting fails 0 r c.state a w') (hact : Acts r c.state w') :
    (FlagsConnection r ∨ ∃ rate wait disturbed t,
      Reaches (channel setting rate wait disturbed) t (.ask r next) ∧
      (∀ x ∈ t, Served setting fails condition x) ∧
      Located setting Delivered (channel setting rate wait disturbed) t r next) ∧
    ∀ value rate during inner, Reaches (process setting value rate) during (.ask r inner) →
      Authentic setting value rate during ∧
        ∀ command outcome, r = .setOutcome command outcome → commandOf value = some command := by
  have hr := not_idle_of_acts hact hserve
  refine ⟨?_, fun value rate during inner hreach ↦ authentic_of_reaches hreach hr⟩
  by_cases hflag : FlagsConnection r
  · exact .inl hflag
  · obtain ⟨p, t, ⟨w, job, rfl, hplace⟩, hreach, hserved⟩ := exists_reaches h hrun
    cases job with
    | channel rate wait disturbed =>
      refine .inr ⟨rate, wait, disturbed, t, hreach, fun x hx ↦ ?_,
        located_of_turn _ _ _ hr hflag hreach⟩
      obtain ⟨c', w₁, hc', hs⟩ := hserved x hx
      exact ⟨c', w₁, hc', hs.1⟩
    | _ => exact absurd rfl hplace

section Played

open FolderClient.Engine.Play

/-- Somebody signs in; the server orders an erasure, which is carried out but not yet recorded. -/
def carriedOut : List Move :=
  whole 65 1 .signIn (delivering (plainPage ["x"] "L") []) ++
    .start 0 (.channel ⟨[]⟩ (some 1) false) ::
      asks 18 0 (delivering (plainPage ["x"] "L") [erasure 1 ⟨2⟩])

def isRecording (c : Activities) : Bool :=
  match c.running 0 with
  | some (.ask (.setOutcome _ .applied) _) => true
  | _ => false

theorem exists_recording {c : Activities} (h : isRecording c = true) : ∃ command next,
    c.running 0 = some (.ask (.setOutcome command .applied) next) := by
  unfold isRecording at h
  split at h
  · exact ⟨_, _, ‹_›⟩
  · cases h

/-- The outcome of the erasure is recorded while the erasure is processed. -/
theorem located_carriedOut : ∃ (c : Activities) (command : CommandIdentifier)
    (next : Except StoreError Unit → Activity Unit), Runs anchored False {} c ∧
    c.running 0 = some (.ask (.setOutcome command .applied) next) ∧
    ∃ rate wait disturbed t, Located anchored Delivered
      (channel anchored rate wait disturbed) t (.setOutcome command .applied) next := by
  obtain ⟨c, hplay, hrecording⟩ := (Option.any_eq_true isRecording
    (play anchored (freshEngine anchored) carriedOut)).mp (by decide +kernel)
  obtain ⟨command, next, hrunning⟩ := exists_recording hrecording
  have hrun : Runs anchored False {} c := runs_of_play runs_freshEngine hplay
  obtain ⟨a, w', hserve⟩ : ∃ a w', serve anchored False 0 (.setOutcome command .applied)
      c.state a w' := ⟨_, _, respond_serves anchored 0 {} rfl⟩
  have hact : Acts (.setOutcome command .applied) c.state w' :=
    .inr (.inr (.inr ⟨by decide, by decide⟩))
  obtain ⟨⟨_, _, _, _, hflag⟩ | ⟨rate, wait, disturbed, t, -, -, hlocated⟩, -⟩ :=
    authentic_of_run hrun hrunning hserve hact
  · cases hflag
  · exact ⟨c, command, next, hrun, hrunning, rate, wait, disturbed, t, hlocated⟩

end Played

end FolderClient.Engine.AuthenticRuns
