import FolderClient.Engine.AuthenticRuns
import FolderClient.Engine.Turns

namespace FolderClient.Engine.CursorRuns

open FolderClient.Core.Namespace FolderClient.Core.Delivery FolderClient.Core.Log
open FolderClient.Engine.AuthenticRuns (Polls asks_fetchDeviceToken asks_acknowledge
  asks_emptyOutbox asks_chosenWait)
open FolderClient.Engine.Channel FolderClient.Engine.Commands FolderClient.Engine.Effects
open FolderClient.Engine.Locking (sameSession_serve)
open FolderClient.Engine.Orderly FolderClient.Engine.Port FolderClient.Engine.Reconcile
open FolderClient.Engine.System FolderClient.Engine.Turns FolderClient.Library.Json
open FolderClient.Library.Pools FolderClient.Library.Programs FolderClient.Library.Programs.Program
open FolderClient.Library.Programs.Contract FolderClient.Library.Results FolderClient.Net.Access
open FolderClient.Storage.Basic FolderClient.Storage.Delivery FolderClient.Wire.Delivery

/-- The commands in the order in which the server delivers them, and how many of them lie before a
cursor. -/
structure Feed where
  queue : ℕ → Value
  position : String → ℕ

namespace Feed

/-- How many commands lie before what is asked for with a cursor, or without one. -/
def before (feed : Feed) (cursor : Option String) : ℕ := cursor.elim 0 feed.position

end Feed

/-- The store has a row for the command. -/
def Accepted (s : Store) (command : CommandIdentifier) : Prop :=
  (s.commandState command).isSome = true

/-- The server delivers commands after the cursor it is given; before the next cursor it leaves out
none but what the device has accepted. -/
structure Delivers (feed : Feed) (s : Store) (cursor : Option String) (page : DeliveryPage) :
    Prop where
  after : ∀ value ∈ page.items, ∃ k, feed.before cursor ≤ k ∧ feed.queue k = value
  whole : page.nextCursor ≠ "" → ∀ k, feed.before cursor ≤ k →
    k < feed.position page.nextCursor → ∀ command, commandOf (feed.queue k) = some command →
      feed.queue k ∈ page.items ∨ Accepted s command

/-- The cursor that is kept. -/
def cursorOf (w : World) : Option String := w.store.settingOf settingCursor

/-- A command that is not accepted does not lie before the cursor that is kept. -/
def NotLost (feed : Feed) (w : World) : Prop :=
  ∀ k command, commandOf (feed.queue k) = some command →
    Accepted w.store command ∨ feed.before (cursorOf w) ≤ k

def Serving (feed : Feed) : (r : Request) → World → Answer r → Prop
  | .deliveryCollect _ cursor, w, .success page => Delivers feed w.store cursor page
  | _, _, _ => True

/-- Only the server keeps to its part. -/
def serving (feed : Feed) : Condition where
  serve _ r w a _ := Serving feed r w a

/-- A page with a cursor can be read, its cursor is not stored after the stop, and what stands on it
is accepted. -/
def Careful : (r : Request) → World → Answer r → Prop
  | .deliveryCollect _ _, _, .success page => page.nextCursor ≠ "" →
    ∀ value ∈ page.items, ∀ command, commandOf value = some command →
      ∃ envelope, CommandEnvelope.fromValue value = .ok envelope
  | .setCursor _, w, .ok _ => w.memory.stopped = false
  | .acceptCommand _ _, w, a => w.history.inHand = true → ∃ acceptance, a = .ok acceptance
  | _, _, _ => True

/-- Besides, nothing ends while a page whose cursor is stored is in hand. -/
def careful (feed : Feed) : Condition where
  serve _ r w a _ := Serving feed r w a ∧ Careful r w a
  abort i w := i = 0 → w.history.inHand = false
  restart w := w.history.inHand = false
  stop w := w.history.inHand = false

section Steps

variable {setting : Setting} {fails : Prop} {i : ℕ} {feed : Feed} {w w' w'' : World}

/-- What is accepted stays so, and the turn of the channel stands where it stood. -/
structure Goes (w w' : World) : Prop where
  accepted : ∀ command, Accepted w.store command → Accepted w'.store command
  cursor : cursorOf w' = cursorOf w
  inHand : w'.history.inHand = w.history.inHand
  stopped : w.history.inHand = true → w'.memory.stopped = w.memory.stopped

theorem Goes.refl (w : World) : Goes w w := ⟨fun _ h ↦ h, rfl, rfl, fun _ ↦ rfl⟩

theorem Goes.trans (h : Goes w w') (h' : Goes w' w'') : Goes w w'' :=
  ⟨fun command hc ↦ h'.accepted command (h.accepted command hc), h'.cursor.trans h.cursor,
    h'.inHand.trans h.inHand, fun hhand ↦
      (h'.stopped (h.inHand.trans hhand)).trans (h.stopped hhand)⟩

theorem accepted_writeCommand {s : Store} {row : CommandState} {command : CommandIdentifier}
    (h : Accepted s command) : Accepted (s.writeCommand row) command := by
  rw [Accepted, Store.commandState_writeCommand]
  split
  · rfl
  · exact h

theorem accepted_of_delivery {s s' : Store} {command : CommandIdentifier}
    (h : s'.delivery = s.delivery) (hc : Accepted s command) : Accepted s' command := by
  rw [Accepted, Store.commandState, h]
  exact hc

/-- No row of a command is ever taken away. -/
theorem accepted_effect {r : Request} {s s' : Store} {command : CommandIdentifier}
    (h : effect setting r s = .ok s') (hc : Accepted s command) : Accepted s' command := by
  cases r with
  | command r => exact accepted_of_delivery (sameChannel_commandEffect h).1 hc
  | source r =>
    refine accepted_of_delivery ?_ hc
    cases r with
    | appendLog entry =>
      obtain ⟨out, h⟩ := map_snd_eq_ok h
      unfold Store.appendLog at h
      rw [ite_error_eq_ok] at h
      obtain ⟨-, rfl⟩ := Prod.mk.inj (Except.ok.inj h.2)
      rfl
    | _ =>
      obtain rfl := Except.ok.inj h
      rfl
  | setCursor value => exact accepted_of_delivery (delivery_setSetting h) hc
  | deleteCursor =>
    obtain rfl := Except.ok.inj h
    exact hc
  | acceptCommand other received =>
    obtain rfl := Except.ok.inj h
    unfold Store.acceptCommand
    split
    · exact accepted_writeCommand hc
    · split
      · exact hc
      · exact accepted_writeCommand hc
      · exact hc
  | setOutcome other outcome =>
    obtain ⟨row, -, -, rfl⟩ := Store.setOutcome_eq_ok h
    exact accepted_writeCommand hc
  | markAcknowledged other =>
    obtain ⟨row, outcome, -, -, rfl⟩ := Store.markAcknowledged_eq_ok h
    exact accepted_writeCommand hc
  | _ =>
    obtain rfl := Except.ok.inj h
    exact hc

theorem cursor_effect {r : Request} {s s' : Store} (hset : ∀ value, r ≠ .setCursor value)
    (hdelete : r ≠ .deleteCursor) (h : effect setting r s = .ok s') :
    s'.settingOf settingCursor = s.settingOf settingCursor := by
  cases r with
  | command r => exact (sameChannel_commandEffect h).2
  | source r =>
    cases r with
    | appendLog entry =>
      obtain ⟨out, h⟩ := map_snd_eq_ok h
      unfold Store.appendLog at h
      rw [ite_error_eq_ok] at h
      obtain ⟨-, rfl⟩ := Prod.mk.inj (Except.ok.inj h.2)
      rfl
    | _ =>
      obtain rfl := Except.ok.inj h
      rfl
  | setCursor value => exact absurd rfl (hset value)
  | deleteCursor => exact absurd rfl hdelete
  | acceptCommand other received =>
    obtain rfl := Except.ok.inj h
    unfold Store.acceptCommand
    split
    · rfl
    · split <;> rfl
  | setOutcome other outcome =>
    obtain ⟨row, -, -, rfl⟩ := Store.setOutcome_eq_ok h
    rfl
  | markAcknowledged other =>
    obtain ⟨row, outcome, -, -, rfl⟩ := Store.markAcknowledged_eq_ok h
    rfl
  | _ =>
    obtain rfl := Except.ok.inj h
    rfl

theorem stopped_serve {r : Request} {a : Answer r} (h : serve setting fails i r w a w') :
    w'.memory.stopped = w.memory.stopped := by
  cases hr : Locking.sessionOf r with
  | none => rw [(sameSession_serve hr h).memory]
  | some q =>
    obtain rfl := Locking.eq_of_sessionOf hr
    have h : serveSession setting fails i q w a w' := h
    cases q with
    | setting | session => rw [(read_cases h).1]
    | setSetting | setSession | stopSession | emptyNamespace =>
      simp only [serveSession, World.Stored] at h
      obtain ⟨rfl, -⟩ | ⟨b, s, -, -, rfl⟩ := storedNoting_cases h <;> rfl
    | setRefreshToken | newSessionKey => obtain ⟨-, rfl⟩ | ⟨-, rfl | rfl⟩ := h <;> rfl
    | forgetSession => obtain ⟨-, rfl⟩ | ⟨-, key, refresh, -, -, rfl⟩ := h <;> rfl
    | exchangeRefreshToken text =>
      obtain ⟨attempt, -, -, rfl⟩ := h
      rfl
    | setUserToken | setDeviceToken | setTokenExpiry | setState | clearBegins | signOutCompleted
    | unlockLogin | enrollmentCode | now | registerDevice | fetchDeviceToken | fetchServerKey
    | revoke | fileSystem | clearEverything | placeReady =>
      simp only [serveSession] at h
      subst h
      rfl
    | refreshToken | hasUserToken | tokenExpiry | state | isStopped | lockLogin | startDeviceLogin
    | waitOnToken =>
      obtain ⟨-, rfl⟩ := h
      rfl

theorem accepted_serve {r : Request} {a : Answer r} {command : CommandIdentifier}
    (h : serve setting fails i r w a w') (hc : Accepted w.store command) :
    Accepted w'.store command := by
  obtain hs | hs := store_serve h
  · rw [hs]
    exact hc
  · exact accepted_effect hs hc

/-- The requests that leave the cursor alone. -/
def Leaves (r : Request) : Prop := (∀ value, r ≠ .setCursor value) ∧ r ≠ .deleteCursor

theorem goes_serve {r : Request} {a : Answer r} (hr : Leaves r)
    (h : serve setting fails i r w a w') : Goes w w' := by
  refine ⟨fun _ hc ↦ accepted_serve h hc, ?_, inHand_serve hr.1 h, fun _ ↦ stopped_serve h⟩
  obtain hs | hs := store_serve h
  · rw [cursorOf, cursorOf, hs]
  · exact cursor_effect hr.1 hr.2 hs

theorem NotLost.goes (hw : NotLost feed w) (h : Goes w w') : NotLost feed w' := by
  intro k command hc
  rw [h.cursor]
  exact (hw k command hc).imp_left (h.accepted command)

/-- A request that stores no cursor loses nothing. -/
theorem NotLost.serve {r : Request} {a : Answer r} (hset : ∀ value, r ≠ .setCursor value)
    (h : Port.serve setting fails i r w a w') (hw : NotLost feed w) : NotLost feed w' := by
  by_cases hdelete : r = .deleteCursor
  · subst hdelete
    have h : w.Stored fails (.ok (w.store.deleteSetting settingCursor)) a w' := h
    obtain ⟨rfl, -⟩ | ⟨b, s, hop, -, rfl⟩ := storedNoting_cases h
    · exact hw
    · have hnone : s.settingOf settingCursor = none := by
        obtain rfl := (congrArg Prod.snd (Except.ok.inj hop) : _ = s)
        exact (Store.settingOf_deleteSetting ..).trans (if_pos rfl)
      refine fun k command hc ↦ .inr ?_
      rw [cursorOf, hnone]
      exact Nat.zero_le _
  · exact hw.goes (goes_serve ⟨hset, hdelete⟩ h)

end Steps

section Rounds

variable {setting : Setting} {fails : Prop} {feed : Feed} {w w' w'' : World}

theorem leaves_of_common {r : Request} (h : Common r) : Leaves r :=
  ⟨fun value hr ↦ (hr ▸ h : Common (.setCursor value)), fun hr ↦ (hr ▸ h : Common .deleteCursor)⟩

def discipline (feed : Feed) : Discipline Request Answer World where
  invariant w := w.history.inHand = false → NotLost feed w
  ok i r _ := i ≠ 0 → Common r
  rely i w w' := i = 0 → Goes w w'
  ends i w := i = 0 → NotLost feed w

/-- The contract of a turn of the channel. -/
abbrev contract (setting : Setting) (fails : Prop) (feed : Feed) :
    Contract Request Answer World :=
  (discipline feed).contract (turning setting fails (careful feed)) 0

theorem ok_turn (r : Request) (w : World) : (contract setting fails feed).ok r w :=
  fun h ↦ absurd rfl h

/-- No page is in hand, and nothing is lost. -/
structure Poised (feed : Feed) (w : World) : Prop where
  inHand : w.history.inHand = false
  notLost : NotLost feed w

theorem Poised.goes (h : Poised feed w) (hgoes : Goes w w') : Poised feed w' :=
  ⟨hgoes.inHand.trans h.inHand, h.notLost.goes hgoes⟩

theorem Poised.serve {r : Request} {a : Answer r} (hset : ∀ value, r ≠ .setCursor value)
    (hserve : (contract setting fails feed).serve r w a w') (h : Poised feed w) :
    Poised feed w' :=
  ⟨(inHand_serve hset hserve.1).trans h.inHand, h.notLost.serve hset hserve.1⟩

theorem leaves_of_polls (r : Request) (h : Polls r) : Leaves r :=
  ⟨fun value hr ↦ (hr ▸ h : Polls (.setCursor value)), fun hr ↦ (hr ▸ h : Polls .deleteCursor)⟩

/-- A program that leaves the cursor alone goes on with the turn. -/
theorem sound_goes {α : Type} {p : Activity α} (hp : p.Asks Leaves) :
    (contract setting fails feed).Sound p (fun _ ↦ Goes w) w :=
  sound_of_asks hp (fun r w' hr h ↦ ⟨ok_turn r w', fun _ _ hserve ↦
    h.trans (goes_serve hr hserve.1)⟩) (fun _ _ h hrely ↦ h.trans (hrely.1 rfl)) (Goes.refl w)

/-- What is known of a page until its cursor is stored. -/
structure Upcoming (feed : Feed) (page : DeliveryPage) (w : World) : Prop where
  poised : Poised feed w
  whole : page.nextCursor ≠ "" → ∀ k, feed.before (cursorOf w) ≤ k →
    k < feed.position page.nextCursor → ∀ command, commandOf (feed.queue k) = some command →
      feed.queue k ∈ page.items ∨ Accepted w.store command
  readable : page.nextCursor ≠ "" → ∀ value ∈ page.items, ∀ command,
    commandOf value = some command → ∃ envelope, CommandEnvelope.fromValue value = .ok envelope

theorem Upcoming.goes {page : DeliveryPage} (h : Upcoming feed page w) (hgoes : Goes w w') :
    Upcoming feed page w' := by
  refine ⟨h.poised.goes hgoes, fun hnext k hk hlt command hc ↦ ?_, h.readable⟩
  rw [hgoes.cursor] at hk
  exact (h.whole hnext k hk hlt command hc).imp_right (hgoes.accepted command)

/-- What is collected with the cursor that is kept is a page that is upcoming. -/
theorem sound_deliveryCollect {α : Type} {wait : ℕ} {cursor : Option String}
    {f : ApiResult DeliveryPage → Fallible Request Answer α}
    {Q : Except EngineError α → World → Prop}
    (h : Poised feed w) (hcursor : cursor = cursorOf w)
    (hf : ∀ result w', Poised feed w' → cursor = cursorOf w' →
      (∀ page, result = .success page → Upcoming feed page w') →
        (contract setting fails feed).Sound (f result).run Q w') :
    (contract setting fails feed).Sound
      ((liftM (Request.call (.deliveryCollect wait cursor)) :
        Fallible Request Answer (ApiResult DeliveryPage)) >>= f).run Q w := by
  refine sound_lift_bind (ok_turn _ _) fun result w₁ w₂ hserve hrely ↦ ?_
  obtain ⟨hserve, hfeed, hcareful⟩ := hserve
  obtain rfl : w₁ = w := hserve
  have hgoes : Goes w₁ w₂ := hrely.1 rfl
  refine hf result w₂ (h.goes hgoes) (hcursor.trans hgoes.cursor.symm) fun page hpage ↦ ?_
  subst hpage hcursor
  have hdelivers : Delivers feed w₁.store (cursorOf w₁) page := hfeed
  exact Upcoming.goes ⟨h, hdelivers.whole, hcareful⟩ hgoes

theorem sound_collectPage (wait : ℕ) {cursor : Option String} (h : Poised feed w)
    (hcursor : cursor = cursorOf w) :
    (contract setting fails feed).Sound (collectPage wait cursor).run
      (fun r w' ↦ match r with
        | .ok page => Upcoming feed page w'
        | .error _ => Poised feed w') w := by
  refine sound_deliveryCollect h hcursor fun result w₁ h₁ hcursor₁ hpage ↦ ?_
  split
  · next page hvalue => exact hpage page (ApiResult.valueFrom_eq_ok hvalue)
  · refine sound_fallible_bind (sound_mono (fun r w₂ hgoes ↦ ?_)
      (sound_goes ((asks_fetchDeviceToken true).mono leaves_of_polls)))
    have h₂ := h₁.goes hgoes
    cases r with
    | error e => exact h₂
    | ok has =>
      cases has with
      | false => exact ⟨h₂, fun hnext ↦ absurd rfl hnext, fun hnext ↦ absurd rfl hnext⟩
      | true =>
        refine sound_deliveryCollect h₂ (hcursor₁.trans hgoes.cursor.symm)
          fun result w₃ h₃ _ hpage ↦ ?_
        cases hvalue : result.valueFrom "the delivery channel" with
        | error e => exact h₃
        | ok page => exact hpage page (ApiResult.valueFrom_eq_ok hvalue)
  · dsimp only
    split
    · refine sound_fallible_bind ⟨ok_turn _ _, fun a w₂ w₃ hserve hrely ↦ ?_⟩
      have h₃ := (h₁.serve (fun _ hr ↦ by cases hr) hserve).goes (hrely.1 rfl)
      cases a with
      | ok _ => exact h₃
      | error e => exact h₃
    · exact h₁
  · exact h₁

theorem sound_fetchPage (wait : ℕ) (h : Poised feed w) :
    (contract setting fails feed).Sound (fetchPage wait).run
      (fun r w' ↦ match r with
        | .ok page => Upcoming feed page w'
        | .error _ => Poised feed w') w := by
  refine sound_fallible_bind ⟨ok_turn _ _, fun a w₁ w₂ hserve hrely ↦ ?_⟩
  have hread : w.Stored fails (.ok (cursorOf w, w.store)) a w₁ := hserve.1
  obtain ⟨rfl, ha⟩ := read_cases hread
  have hgoes : Goes w₁ w₂ := hrely.1 rfl
  obtain ⟨e, rfl⟩ | rfl := ha
  · exact h.goes hgoes
  · change (contract setting fails feed).Sound
      (if cursorOf w₁ = some "" then _ else _ : Fallible Request Answer DeliveryPage).run _ w₂
    split
    · exact h.goes hgoes
    · exact sound_collectPage wait (h.goes hgoes) hgoes.cursor.symm

/-- The cursor of a page is stored; what lies before it is accepted or stands among the rest. -/
structure Owing (feed : Feed) (rest : List Value) (w : World) : Prop where
  inHand : w.history.inHand = true
  stopped : w.memory.stopped = false
  owed : ∀ k command, commandOf (feed.queue k) = some command →
    Accepted w.store command ∨ feed.before (cursorOf w) ≤ k ∨ feed.queue k ∈ rest

theorem Owing.goes {rest : List Value} (h : Owing feed rest w) (hgoes : Goes w w') :
    Owing feed rest w' := by
  refine ⟨hgoes.inHand.trans h.inHand, (hgoes.stopped h.inHand).trans h.stopped,
    fun k command hc ↦ ?_⟩
  rw [hgoes.cursor]
  exact (h.owed k command hc).imp_left (hgoes.accepted command)

theorem Owing.notLost (h : Owing feed [] w) : NotLost feed w := by
  intro k command hc
  exact (h.owed k command hc).imp_right fun hk ↦ hk.resolve_right List.not_mem_nil

theorem Owing.tail {value : Value} {rest : List Value} (h : Owing feed (value :: rest) w)
    (hvalue : ∀ command, commandOf value = some command → Accepted w.store command) :
    Owing feed rest w := by
  refine ⟨h.inHand, h.stopped, fun k command hc ↦ ?_⟩
  rcases h.owed k command hc with haccepted | hbefore | hmem
  · exact .inl haccepted
  · exact .inr (.inl hbefore)
  · rcases List.mem_cons.mp hmem with heq | hmem
    · exact .inl (hvalue command (heq ▸ hc))
    · exact .inr (.inr hmem)

theorem asks_acknowledging (command : CommandIdentifier) (outcome : CommandOutcome) :
    (acknowledge command outcome).Asks Leaves :=
  (asks_acknowledge command outcome).mono leaves_of_polls

theorem asks_complete (command : CommandIdentifier) (outcome : CommandOutcome) :
    (complete command outcome).Asks Leaves := by
  refine asks_bind (asks_call ⟨nofun, nofun⟩) fun recorded ↦ ?_
  split
  · exact asks_acknowledging command outcome
  · trivial

theorem asks_process (value : Value) (rate : RateLimit) :
    (process setting value rate).Asks Leaves := by
  rw [process]
  split
  · trivial
  · exact asks_bind (asks_complete _ _) fun _ ↦ trivial
  · refine asks_bind (asks_call ⟨(fun _ h ↦ by cases h), fun h ↦ by cases h⟩) fun time ↦ ?_
    refine asks_bind (asks_call ⟨(fun _ h ↦ by cases h), fun h ↦ by cases h⟩) fun answer ↦ ?_
    split
    · trivial
    · dsimp only
      split
      · exact asks_bind (asks_acknowledging _ _) fun _ ↦ trivial
      · trivial
    · refine asks_bind (asks_embed fun _ ↦ ⟨(fun _ h ↦ by cases h), fun h ↦ by cases h⟩) fun x ↦ ?_
      exact asks_bind (asks_complete _ _) fun _ ↦ trivial

theorem asks_processEach (values : List Value) (rate : RateLimit) :
    (processEach setting values rate).Asks Leaves := by
  induction values generalizing rate with
  | nil => trivial
  | cons value rest ih =>
    refine asks_bind (asks_call ⟨nofun, nofun⟩) fun stopped ↦ ?_
    split
    · trivial
    · exact asks_bind (asks_process value rate) fun rate ↦ ih rate

theorem accepted_of_acceptCommand {command : CommandIdentifier} {received : Timestamp}
    {acceptance : Acceptance} (h : serve setting fails 0 (.acceptCommand command received) w
      (.ok acceptance) w') : Accepted w'.store command := by
  have h : w.Stored fails (.ok (w.store.acceptCommand command received)) (.ok acceptance) w' := h
  obtain ⟨-, e, he⟩ | ⟨b, s, hop, -, rfl⟩ := storedNoting_cases h
  · cases he
  · obtain ⟨row, hrow, -⟩ := Store.commandState_acceptCommand w.store command received
    obtain rfl := (congrArg Prod.snd (Except.ok.inj hop) : _ = s)
    rw [Accepted, hrow]
    rfl

/-- An entry that can be read is accepted. -/
theorem sound_process {value : Value} {rest : List Value} (rate : RateLimit)
    (h : Owing feed (value :: rest) w) (hreadable : ∀ command, commandOf value = some command →
      ∃ envelope, CommandEnvelope.fromValue value = .ok envelope) :
    (contract setting fails feed).Sound (process setting value rate)
      (fun _ ↦ Owing feed rest) w := by
  have hasks : (process setting value rate).Asks Leaves := asks_process value rate
  cases hvalue : CommandEnvelope.fromValue value with
  | error e =>
    have hnone : commandOf value = e.command := by rw [commandOf, hvalue]
    cases e with
    | withoutIdentifier cause =>
      rw [process, hvalue]
      refine h.tail fun command hc ↦ ?_
      cases hnone.symm.trans hc
    | unreadable command cause =>
      obtain ⟨envelope, henvelope⟩ := hreadable command hnone
      cases hvalue.symm.trans henvelope
  | ok envelope =>
    have hcommand : commandOf value = some envelope.commandId := by rw [commandOf, hvalue]
    rw [process, hvalue] at hasks ⊢
    refine ⟨ok_turn _ _, fun time w₁ w₂ hserve₁ hrely₁ ↦ ?_⟩
    have h₂ := (h.goes (goes_serve hasks.1 hserve₁.1)).goes (hrely₁.1 rfl)
    refine ⟨ok_turn _ _, fun answer w₃ w₄ hserve₃ hrely₃ ↦ ?_⟩
    have h₄ := (h₂.goes (goes_serve (hasks.2 time).1 hserve₃.1)).goes (hrely₃.1 rfl)
    obtain ⟨acceptance, rfl⟩ := hserve₃.2.2 h₂.inHand
    have haccepted := accepted_of_acceptCommand hserve₃.1
    have hrest : Owing feed rest w₄ := by
      refine h₄.tail fun command hc ↦ ?_
      obtain rfl := Option.some.inj (hcommand.symm.trans hc)
      exact (hrely₃.1 rfl).accepted _ haccepted
    refine sound_mono (fun _ w' hgoes ↦ hrest.goes hgoes) (sound_goes ?_)
    exact (hasks.2 time).2 (.ok acceptance)

theorem sound_processEach (values : List Value) (rate : RateLimit) (h : Owing feed values w)
    (hreadable : ∀ value ∈ values, ∀ command, commandOf value = some command →
      ∃ envelope, CommandEnvelope.fromValue value = .ok envelope) :
    (contract setting fails feed).Sound (processEach setting values rate)
      (fun _ ↦ NotLost feed) w := by
  induction values generalizing rate w with
  | nil => exact h.notLost
  | cons value rest ih =>
    refine ⟨ok_turn _ _, fun stopped w₁ w₂ hserve hrely ↦ ?_⟩
    obtain ⟨rfl, rfl⟩ : stopped = w.memory.stopped ∧ w₁ = w := hserve.1
    have h₂ := h.goes (hrely.1 rfl)
    rw [h.stopped]
    change (contract setting fails feed).Sound
      (process setting value rate >>= fun rate ↦ processEach setting rest rate) _ w₂
    refine sound_bind.mpr (sound_mono (fun rate w₃ h₃ ↦ ?_)
      (sound_process rate h₂ (hreadable value List.mem_cons_self)))
    exact ih rate h₃ fun value hmem ↦ hreadable value (List.mem_cons_of_mem _ hmem)

theorem sound_workOff (rate : RateLimit) (page : DeliveryPage) (h : Upcoming feed page w) :
    (contract setting fails feed).Sound (workOff setting rate page).run
      (fun _ ↦ NotLost feed) w := by
  unfold workOff
  split
  · next hnext =>
    refine sound_fallible_bind ⟨ok_turn _ _, fun a w₁ w₂ hserve hrely ↦ ?_⟩
    obtain ⟨hserve, -, hcareful⟩ := hserve
    have hserve : w.StoredNoting History.cursorStored fails
      (unit (w.store.setSetting settingCursor page.nextCursor)) a w₁ := hserve
    obtain ⟨rfl, e, rfl⟩ | ⟨b, s, hop, rfl, rfl⟩ := storedNoting_cases hserve
    · exact (h.poised.goes (hrely.1 rfl)).notLost
    · have hset := unit_eq_ok hop
      have howing : Owing feed page.items { w.noting History.cursorStored with store := s } := by
        refine ⟨rfl, hcareful, fun k command hc ↦ ?_⟩
        have hcursor : s.settingOf settingCursor = some page.nextCursor :=
          (Store.settingOf_setSetting hset).trans (if_pos rfl)
        have haccepted : ∀ {command}, Accepted w.store command → Accepted s command :=
          accepted_of_delivery (delivery_setSetting hset)
        rcases h.poised.notLost k command hc with haccept | hbefore
        · exact .inl (haccepted haccept)
        · by_cases hk : k < feed.position page.nextCursor
          · rcases h.whole hnext k hbefore hk command hc with hmem | haccept
            · exact .inr (.inr hmem)
            · exact .inl (haccepted haccept)
          · refine .inr (.inl ?_)
            rw [cursorOf, hcursor]
            exact not_lt.mp hk
      change (contract setting fails feed).Sound
        (liftM (processEach setting page.items rate) : Fallible Request Answer Unit).run _ w₂
      refine sound_bind.mpr (sound_mono (fun _ _ hlost ↦ hlost) ?_)
      exact sound_processEach _ rate (howing.goes (hrely.1 rfl)) (h.readable hnext)
  · refine sound_bind.mpr (sound_mono (fun _ _ hgoes ↦ ?_)
      (sound_goes (asks_processEach page.items rate)))
    exact (h.poised.goes hgoes).notLost

theorem sound_aRound (rate : RateLimit) (wait : Option ℕ) (h : Poised feed w) :
    (contract setting fails feed).Sound (aRound setting rate wait).run
      (fun _ ↦ NotLost feed) w := by
  refine sound_fallible_bind (sound_mono (fun r w₁ hgoes ↦ ?_)
    (sound_goes ((asks_fetchDeviceToken false).mono leaves_of_polls)))
  have h₁ := h.goes hgoes
  cases r with
  | error e => exact h₁.notLost
  | ok has =>
    cases has with
    | false => exact h₁.notLost
    | true =>
      refine sound_fallible_bind (sound_mono (fun r w₂ hgoes ↦ ?_)
        (sound_goes (asks_emptyOutbox.mono leaves_of_polls)))
      have h₂ := h₁.goes hgoes
      cases r with
      | error e => exact h₂.notLost
      | ok _ =>
        refine sound_fallible_bind (sound_bind.mpr (sound_mono (fun wait w₃ hgoes ↦ ?_)
          (sound_goes ((asks_chosenWait wait).mono leaves_of_polls))))
        have h₃ := h₂.goes hgoes
        refine sound_fallible_bind (sound_mono (fun r w₄ h₄ ↦ ?_) (sound_fetchPage wait h₃))
        cases r with
        | error e => exact Poised.notLost h₄
        | ok page =>
          refine sound_fallible_bind (sound_mono (fun r w₅ h₅ ↦ ?_) (sound_workOff rate page h₄))
          cases r with
          | error e => exact h₅
          | ok _ => exact h₅

theorem sound_channel (rate : RateLimit) (wait : Option ℕ) (disturbed : Bool)
    (h : Poised feed w) : (contract setting fails feed).Sound
      (channel setting rate wait disturbed) (fun _ ↦ NotLost feed) w := by
  have hconnected : ∀ b w, NotLost feed w → (contract setting fails feed).Sound (connected b)
      (fun _ ↦ NotLost feed) w := by
    intro b w hw
    refine sound_mono (fun _ _ hgoes ↦ hw.goes hgoes) (sound_goes ?_)
    exact asks_embed fun _ ↦ ⟨nofun, nofun⟩
  refine sound_bind.mpr (sound_mono (fun r w₁ h₁ ↦ ?_) (sound_aRound rate wait h))
  split
  · split
    · exact hconnected true w₁ h₁
    · exact h₁
  · split
    · exact hconnected false w₁ h₁
    · exact h₁
  · exact h₁

end Rounds

section Runs

variable {setting : Setting} {fails : Prop} {feed : Feed} {w w' : World} {i : ℕ}

theorem goes_aborted (hi : i ≠ 0) (w : World) : Goes w (aborted i w) := by
  rw [aborted, ended_of_ne hi]
  exact ⟨fun _ h ↦ h, rfl, rfl, fun _ ↦ rfl⟩

theorem notLost_of_store (h : w'.store = w.store) (hw : NotLost feed w) : NotLost feed w' := by
  intro k command hc
  rw [cursorOf, h]
  exact hw k command hc

theorem kept (setting : Setting) (fails : Prop) (feed : Feed) :
    (discipline feed).Kept (turning setting fails (careful feed)) (Fresh setting) where
  refl _ w _ := Goes.refl w
  trans _ _ _ _ h h' hi := (h hi).trans (h' hi)
  enter w hw _ := by
    obtain ⟨n, limit, rfl⟩ := hw
    exact fun k command hc ↦ .inr (Nat.zero_le k)
  start i p w hw hstart w' hrely hw' := by
    obtain ⟨⟨job, rfl, hjob⟩, hturn⟩ := hstart
    by_cases hi : i = 0
    · subst hi
      have hinHand : w'.history.inHand = false := (hrely rfl).inHand.trans (hturn rfl)
      have hchannel : ∃ rate wait disturbed, job = .channel rate wait disturbed := by
        cases job with
        | channel rate wait disturbed => exact ⟨rate, wait, disturbed, rfl⟩
        | _ => exact absurd rfl hjob
      obtain ⟨rate, wait, disturbed, rfl⟩ := hchannel
      exact sound_mono (fun _ _ h _ ↦ h)
        (sound_channel rate wait disturbed ⟨hinHand, hw' hinHand⟩)
    · have hfine : (discipline feed).contract (turning setting fails (careful feed)) i |>.Fine
          (job.program setting) := fine_of_asks (asks_job hi hjob) fun r w hr _ ↦ hr
      exact sound_mono (fun _ _ _ h ↦ absurd h hi) (hfine w')
  serve i r w a w' hw hok hserve := by
    by_cases hi : i = 0
    · subst hi
      refine ⟨fun hhand ↦ ?_, fun j hj hj' ↦ absurd hj' hj⟩
      by_cases hset : ∃ value, r = .setCursor value
      · obtain ⟨value, rfl⟩ := hset
        have hserve : w.StoredNoting History.cursorStored fails
          (unit (w.store.setSetting settingCursor value)) a w' := hserve.1
        obtain ⟨rfl, -⟩ | ⟨b, s, -, -, rfl⟩ := storedNoting_cases hserve
        · exact hw hhand
        · cases hhand
      · have hset : ∀ value, r ≠ .setCursor value := fun value hr ↦ hset ⟨value, hr⟩
        exact (hw ((inHand_serve hset hserve.1).symm.trans hhand)).serve hset hserve.1
    · have hgoes := goes_serve (leaves_of_common (hok hi)) hserve.1
      exact ⟨fun hhand ↦ (hw (hgoes.inHand.symm.trans hhand)).goes hgoes, fun _ _ _ ↦ hgoes⟩
  finish i w w' hw hends hfinish := by
    obtain rfl : w' = ended i w := hfinish
    by_cases hi : i = 0
    · subst hi
      exact ⟨fun _ ↦ notLost_of_store (sameRecord_ended 0 w).store (hends rfl),
        fun j hj hj' ↦ absurd hj' hj⟩
    · rw [ended_of_ne hi]
      exact ⟨hw, fun _ _ _ ↦ Goes.refl w⟩
  abort i w w' hw habort := by
    obtain ⟨⟨-, hrest⟩, rfl⟩ := habort
    by_cases hi : i = 0
    · subst hi
      exact ⟨fun _ ↦ notLost_of_store (sameRecord_aborted 0 w).store (hw (hrest rfl)),
        fun j hj hj' ↦ absurd hj' hj⟩
    · have hgoes := goes_aborted hi w
      exact ⟨fun hhand ↦ (hw (hgoes.inHand.symm.trans hhand)).goes hgoes, fun _ _ _ ↦ hgoes⟩
  restart w w' hw hrestart := by
    obtain ⟨hrest, fingerprint, rfl⟩ := hrestart
    exact fun _ ↦ notLost_of_store rfl (hw hrest)
  outside w w' hw houtside := by
    obtain ⟨hrest, rfl⟩ := houtside
    refine ⟨fun _ ↦ notLost_of_store rfl (hw hrest), fun j _ ↦ ⟨fun _ h ↦ h, rfl, rfl, ?_⟩⟩
    exact fun hhand ↦ absurd (hrest.symm.trans hhand) Bool.false_ne_true

/-- Where no page is in hand, in particular after every crash and every stop, no command that a
page can bring lies before the cursor without being accepted. -/
theorem not_lost_of_run {setting : Setting} {fails : Prop} {feed : Feed} {c : Activities}
    (h : System.Runs setting fails (careful feed) c) (hrest : c.state.history.inHand = false) :
    NotLost feed c.state :=
  (Discipline.run_kept (kept setting fails feed) (turning_of_run h)).1 hrest

end Runs

section Samples

open FolderClient.Engine.Play

/-- A single command: the erasure of a document. -/
def oneErasure : Feed where
  queue k := if k = 0 then erasure 1 ⟨2⟩ else .null
  position cursor := if cursor = "next" then 1 else 0

def serves : ℕ → (r : Request) → World → Answer r → World → Bool
  | _, .deliveryCollect _ cursor, _, _, _ => cursor = none
  | _, .setCursor _, w, .ok _, _ => !w.memory.stopped
  | _, .acceptCommand _ _, _, .error _, _ => false
  | _, _, _, _, _ => true

theorem envelope_erasure : commandOf (erasure 1 ⟨2⟩) = some ⟨1⟩ ∧
    (CommandEnvelope.fromValue (erasure 1 ⟨2⟩)).toOption.isSome = true := by
  decide +kernel

/-- Surroundings in which whoever signs in succeeds, and the server has the one command. -/
def ordering : Surroundings :=
  { Play.delivering (plainPage ["x"] "L") [erasure 1 ⟨2⟩] with accepted := .success .accepted }

theorem delivers_ordering (s : Store) :
    Delivers oneErasure s none ⟨[erasure 1 ⟨2⟩], "next"⟩ where
  after value hvalue := ⟨0, Nat.zero_le 0, (List.mem_singleton.mp hvalue).symm⟩
  whole _ k _ hk _ _ := by
    obtain rfl : k = 0 := Nat.lt_one_iff.mp hk
    exact .inl (List.mem_singleton_self _)

theorem careful_of_serves {i : ℕ} {r : Request} {w w' : World} {a : Answer r}
    (hrespond : respond anchored i ordering r w = some (a, w'))
    (h : serves i r w a w' = true) : (careful oneErasure).serve i r w a w' := by
  cases r with
  | deliveryCollect wait cursor =>
    obtain ⟨rfl, rfl⟩ := Prod.mk.inj (Option.some.inj hrespond)
    obtain rfl : cursor = none := of_decide_eq_true h
    refine ⟨delivers_ordering w.store, fun _ value hvalue command _ ↦ ?_⟩
    obtain rfl := List.mem_singleton.mp hvalue
    obtain ⟨envelope, henvelope⟩ := Option.isSome_iff_exists.mp envelope_erasure.2
    exact ⟨envelope, ok_of_toOption henvelope⟩
  | setCursor value =>
    cases a with
    | ok _ => exact ⟨trivial, (Bool.not_eq_true' _).mp h⟩
    | error e => exact ⟨trivial, trivial⟩
  | acceptCommand command received =>
    cases a with
    | ok acceptance => exact ⟨trivial, fun _ ↦ ⟨acceptance, rfl⟩⟩
    | error e => cases h
  | _ => exact ⟨trivial, trivial⟩

/-- A move with these surroundings. -/
def Ordered : Move → Prop
  | .ask _ e => e = ordering
  | _ => True

theorem runs_of_ordered {c c' : Activities} {moves : List Move} (hm : ∀ m ∈ moves, Ordered m)
    (hc : System.Runs anchored False (careful oneErasure) c)
    (h : playIf anchored serves c moves = some c') :
    System.Runs anchored False (careful oneErasure) c' := by
  induction moves generalizing c with
  | nil =>
    obtain rfl := Option.some.inj h
    exact hc
  | cons m moves ih =>
    obtain ⟨hm, hms⟩ := List.forall_mem_cons.mp hm
    rw [playIf, List.foldlM_cons] at h
    obtain ⟨c₁, hmove, h⟩ := Option.bind_eq_some_iff.mp h
    refine ih hms (.step hc ?_) h
    cases m with
    | ask i e =>
      obtain rfl : e = ordering := hm
      rw [moveIf] at hmove
      split at hmove
      · rename_i r next hrun
        obtain ⟨⟨a, w⟩, hx, rfl⟩ := Option.map_eq_some_iff.mp hmove
        obtain ⟨hx, hr⟩ := Option.filter_eq_some_iff.mp hx
        exact .ask hrun ⟨respond_serves anchored i _ hx, careful_of_serves hx hr⟩
      · cases hmove
    | start i job =>
      rw [moveIf, move] at hmove
      split at hmove
      · rename_i hs
        obtain rfl := Option.some.inj hmove
        exact .start (Option.isNone_iff_eq_none.mp hs.1) ⟨job, rfl, hs.2⟩
      · cases hmove
    | finish i =>
      rw [moveIf, move] at hmove
      split at hmove
      · rename_i hrun
        obtain rfl := Option.some.inj hmove
        exact .finish hrun rfl
      · cases hmove
    | abort | restart | stop => cases hmove

theorem ordered_asks (n i : ℕ) : ∀ m ∈ asks n i ordering, Ordered m := by
  intro m hm
  obtain rfl := List.eq_of_mem_replicate hm
  rfl

theorem ordered_whole (n i : ℕ) (job : Job) : ∀ m ∈ whole n i job ordering, Ordered m := by
  intro m hm
  rw [whole, List.mem_append, List.mem_cons, List.mem_singleton] at hm
  rcases hm with (rfl | hm) | rfl
  · trivial
  · exact ordered_asks n i m hm
  · trivial

/-- Somebody signs in, and the channel makes a turn. -/
def turn : List Move :=
  whole 65 1 .signIn ordering ++ whole 23 0 (.channel ⟨[]⟩ (some 1) false) ordering

/-- The turn up to the storing of its cursor. -/
def begun : List Move :=
  whole 65 1 .signIn ordering ++ .start 0 (.channel ⟨[]⟩ (some 1) false) :: asks 5 0 ordering

theorem not_lost_turn : ∃ c, System.Runs anchored False (careful oneErasure) c ∧
    cursorOf c.state = some "next" ∧ NotLost oneErasure c.state := by
  obtain ⟨c, hplay, hc⟩ := (Option.any_eq_true (fun c : Activities ↦
    decide (c.state.history.inHand = false) && decide (cursorOf c.state = some "next"))
      (playIf anchored serves (freshEngine anchored) turn)).mp (by decide +kernel)
  obtain ⟨hrest, hcursor⟩ := Bool.and_eq_true_iff.mp hc
  have hordered : ∀ m ∈ turn, Ordered m := by
    intro m hm
    rcases List.mem_append.mp hm with hm | hm
    · exact ordered_whole _ _ _ m hm
    · exact ordered_whole _ _ _ m hm
  have hrun := runs_of_ordered hordered runs_freshEngine hplay
  exact ⟨c, hrun, of_decide_eq_true hcursor, not_lost_of_run hrun (of_decide_eq_true hrest)⟩

theorem lax {c : Activities} (h : System.Runs anchored False (careful oneErasure) c) :
    System.Runs anchored False (serving oneErasure) c := by
  induction h with
  | first hfirst => exact .first hfirst
  | step _ hstep ih =>
    refine .step ih ?_
    cases hstep with
    | start hnone hstart => exact .start hnone hstart
    | ask hrun hserve => exact .ask hrun ⟨hserve.1, hserve.2.1⟩
    | finish hrun hfinish => exact .finish hrun hfinish
    | abort hrun habort => exact .abort hrun ⟨⟨habort.1.1, trivial⟩, habort.2⟩
    | restart hrestart => exact .restart ⟨trivial, hrestart.2⟩
    | outside houtside => exact .outside ⟨trivial, houtside.2⟩

/-- The process ends between the storing of the cursor and the acceptance of the command. -/
theorem lost_begun : ¬ ∀ (setting : Setting) (fails : Prop) (feed : Feed) (c : Activities),
    System.Runs setting fails (serving feed) c → c.state.history.inHand = false →
      NotLost feed c.state := by
  intro hall
  obtain ⟨c, hplay, hc⟩ := (Option.any_eq_true (fun c : Activities ↦
    decide (cursorOf c.state = some "next") && (c.state.store.commandState ⟨1⟩).isNone)
      (playIf anchored serves (freshEngine anchored) begun)).mp (by decide +kernel)
  obtain ⟨hcursor, hnone⟩ := Bool.and_eq_true_iff.mp hc
  have hordered : ∀ m ∈ begun, Ordered m := by
    intro m hm
    rw [begun, List.mem_append, List.mem_cons] at hm
    rcases hm with hm | rfl | hm
    · exact ordered_whole _ _ _ m hm
    · trivial
    · exact ordered_asks _ _ m hm
  have hrun := lax (runs_of_ordered hordered runs_freshEngine hplay)
  have hrestarted : System.Runs anchored False (serving oneErasure)
      ⟨c.state.restart "", fun _ ↦ none⟩ := .step hrun (.restart ⟨trivial, "", rfl⟩)
  rcases hall anchored False oneErasure _ hrestarted rfl 0 ⟨1⟩ envelope_erasure.1 with
    haccepted | hbefore
  · have haccepted : (c.state.store.commandState ⟨1⟩).isSome = true := haccepted
    rw [Option.isNone_iff_eq_none.mp hnone] at haccepted
    cases haccepted
  · have hstored : cursorOf (c.state.restart "") = some "next" := of_decide_eq_true hcursor
    rw [hstored] at hbefore
    exact absurd hbefore (by decide)

end Samples

end FolderClient.Engine.CursorRuns
