import FolderClient.Engine.SessionRuns
import FolderClient.Storage.ErasedRuns

namespace FolderClient.Engine.AccountRuns

open FolderClient.Core.Changes FolderClient.Core.Namespace FolderClient.Engine.Effects
open FolderClient.Engine.Gathering FolderClient.Engine.Locking FolderClient.Engine.Orderly
open FolderClient.Engine.Port
open FolderClient.Engine.Reconcile FolderClient.Engine.Session FolderClient.Engine.System
open FolderClient.Library.Pools FolderClient.Library.Programs
open FolderClient.Library.Programs.Program FolderClient.Library.Programs.Contract
open FolderClient.Library.Results FolderClient.Library.Tables FolderClient.Net.Access
open FolderClient.Storage.Basic FolderClient.Storage.Effects FolderClient.Storage.ErasedRuns
open FolderClient.Storage.Namespace FolderClient.Storage.Runs FolderClient.Storage.Tree
open FolderClient.Storage.TreeRuns
open FolderClient.Engine.Port.SessionRequest (call)
open FolderClient.Engine.SessionRuns (Steady steady_serve userToken_serve)

section Sources

/-- One of the writes brought the entry. -/
def Brought (written : List Written) (e : Entry) : Prop := ∃ x ∈ written, e ∈ x.entries

/-- The writes brought the entries of a change, or the place of an erased one. -/
def Told (written : List Written) (c : Change) : Prop :=
  (∀ e ∈ entriesOf c, Brought written e) ∨
    ∃ e, Brought written e ∧ c = redactedRemoval e.identifier

/-- Everything that can be read of the namespace comes from the writes. -/
structure Sourced (written : List Written) (s : Store) : Prop where
  entry : ∀ r ∈ s.entry.rows, Brought written r.entry
  state : ∀ r ∈ s.containerState.rows, ∃ x ∈ written, x.container = r.container ∧ x.state = r.state
  journal : ∀ r ∈ s.journal.rows, Told written r.change

variable {unicode : Unicode} {written written' : List Written} {s s' : Store}

theorem Brought.mono (h : written ⊆ written') {e : Entry} (he : Brought written e) :
    Brought written' e := by
  obtain ⟨x, hx, he⟩ := he
  exact ⟨x, h hx, he⟩

theorem Told.mono (h : written ⊆ written') {c : Change} (hc : Told written c) :
    Told written' c := by
  obtain hall | ⟨e, he, rfl⟩ := hc
  · exact .inl fun e he ↦ (hall e he).mono h
  · exact .inr ⟨e, he.mono h, rfl⟩

theorem Sourced.mono (h : written ⊆ written') (hs : Sourced written s) : Sourced written' s where
  entry r hr := (hs.entry r hr).mono h
  state r hr := by
    obtain ⟨x, hx, hstate⟩ := hs.state r hr
    exact ⟨x, h hx, hstate⟩
  journal r hr := (hs.journal r hr).mono h

theorem Sourced.of_sameNamespace (hs : Sourced written s) (h : SameNamespace s s') :
    Sourced written s' := by
  refine ⟨?_, ?_, ?_⟩
  · rw [h.entry]
    exact hs.entry
  · rw [h.containerState]
    exact hs.state
  · rw [h.journal]
    exact hs.journal

theorem sourced_nil (he : s.entry.rows = []) (hc : s.containerState.rows = [])
    (hj : s.journal.rows = []) : Sourced written s := by
  refine ⟨fun r hr ↦ ?_, fun r hr ↦ ?_, fun r hr ↦ ?_⟩
  · exact absurd (he ▸ hr) List.not_mem_nil
  · exact absurd (hc ▸ hr) List.not_mem_nil
  · exact absurd (hj ▸ hr) List.not_mem_nil

theorem exists_entry (c : Change) : ∃ e ∈ entriesOf c, e.identifier = c.identifier := by
  cases c with
  | new e | removed e => exact ⟨e, List.mem_singleton_self e, rfl⟩
  | changed before after => exact ⟨after, List.mem_cons_of_mem _ (List.mem_singleton_self _), rfl⟩

theorem Told.redacted {c : Change} (h : Told written c) :
    Told written (redactedRemoval c.identifier) := by
  obtain hall | ⟨e, he, rfl⟩ := h
  · obtain ⟨e, he, hi⟩ := exists_entry c
    exact .inr ⟨e, hall e he, by rw [hi]⟩
  · exact .inr ⟨e, he, rfl⟩

theorem Sourced.appended {changes : List Change} {time : Timestamp} {form : JournalForm}
    (hj : ∀ r ∈ s.journal.rows, Told written r.change)
    (hc : ∀ c ∈ changes, ∀ e ∈ entriesOf c, Brought written e)
    (ha : Appended s s' changes time form) : ∀ r ∈ s'.journal.rows, Told written r.change := by
  intro r hr
  obtain hr | ⟨c, hm, hchange, -⟩ := mem_appended ha hr
  · exact hj r hr
  · have htold : Told written c := .inl (hc c hm)
    rw [hchange]
    cases form with
    | complete => exact htold
    | redacted => exact htold.redacted

theorem mem_entriesOf_puts {container : Container} {fresh : List Entry} {c : Change} {e : Entry}
    (hf : (fresh.map Entry.identifier).Nodup) (h : c ∈ puts s container fresh)
    (he : e ∈ entriesOf c) : e ∈ fresh ∨ e ∈ oldListing s container := by
  have ho := identifiers_oldListing s container
  obtain h | h := List.mem_append.mp h
  · obtain ⟨p, hp, rfl⟩ := List.mem_map.mp h
    obtain ⟨hold, hfresh, -, -⟩ := (mem_differing ho hf).mp hp
    obtain rfl | he := List.mem_cons.mp he
    · exact .inr hold
    · exact .inl (List.mem_singleton.mp he ▸ hfresh)
  · obtain ⟨e', he', rfl⟩ := List.mem_map.mp h
    exact .inl (List.mem_singleton.mp he ▸ ((mem_missing hf ho).mp he').1)

/-- A listing that is written is a source of what stands after it. -/
theorem sourced_replaced {container : Container} {new gone : List Entry} {state : ContainerState}
    {tokens : List TokenResponse} (hs : Sourced written s)
    (hr : Replaced unicode s s' container (withoutErased s new state.fetched) state gone) :
    Sourced (written ++ [⟨container, new, state, tokens, false⟩]) s' := by
  have hold := hs.mono (List.subset_append_left written [⟨container, new, state, tokens, false⟩])
  have hlast : (⟨container, new, state, tokens, false⟩ : Written) ∈
      written ++ [⟨container, new, state, tokens, false⟩] :=
    List.mem_append_right _ (List.mem_singleton_self _)
  have hnew : ∀ e ∈ withoutErased s new state.fetched,
      Brought (written ++ [⟨container, new, state, tokens, false⟩]) e :=
    fun e he ↦ ⟨_, hlast, List.mem_of_mem_filter he⟩
  refine ⟨fun r hm ↦ ?_, fun r hm ↦ ?_, ?_⟩
  · obtain ⟨hm, -⟩ | hm := (hr.rows r).mp hm
    · exact hold.entry r (mem_prune_entry.mp hm).1
    · exact hnew _ (mem_freshRows hm).2.1
  · rw [hr.states] at hm
    obtain rfl | ⟨hm, -⟩ := (Table.mem_upsert _).mp hm
    · exact ⟨_, hlast, rfl, rfl⟩
    · exact hold.state r ((Table.mem_deleteWhere _).mp hm).1
  · refine Sourced.appended hold.journal (fun c hc e he ↦ ?_) hr.appended
    obtain hc | hc := List.mem_append.mp hc
    · obtain ⟨e', he', rfl⟩ := List.mem_map.mp hc
      obtain ⟨r, hm, -, rfl⟩ := (hr.mem_gone e').mp he'
      exact List.mem_singleton.mp he ▸ hold.entry r hm
    · obtain he | he := mem_entriesOf_puts hr.checked.identifiers hc he
      · exact hnew e he
      · obtain ⟨r, hm, rfl, -⟩ := mem_readChildren.mp he
        exact hold.entry r hm

theorem sourced_confirmed {container : Container} {state : ContainerState}
    {tokens : List TokenResponse} (hs : Sourced written s) :
    Sourced (written ++ [⟨container, [], state, tokens, true⟩])
      { s with containerState := s.containerState.upsert ⟨container, state⟩ } := by
  have hold := hs.mono (List.subset_append_left written [⟨container, [], state, tokens, true⟩])
  refine ⟨hold.entry, fun r hm ↦ ?_, hold.journal⟩
  obtain rfl | ⟨hm, -⟩ := (Table.mem_upsert _).mp hm
  · exact ⟨_, List.mem_append_right _ (List.mem_singleton_self _), rfl, rfl⟩
  · exact hold.state r hm

theorem sourced_removed {document : DocumentIdentifier} {now : Timestamp}
    (hs : Sourced written s)
    (hframe : s' = { s with
      entry := s.entry.deleteWhere (·.document = some document)
      erased := s'.erased, journal := s'.journal, journalState := s'.journalState })
    (ha : Appended (s.redactJournal document) s' ((s.readPlaced document).map .removed) now
      .redacted) : Sourced written s' := by
  refine ⟨fun r hm ↦ ?_, fun r hm ↦ ?_, ?_⟩
  · rw [hframe] at hm
    exact hs.entry r ((Table.mem_deleteWhere _).mp hm).1
  · rw [hframe] at hm
    exact hs.state r hm
  · refine Sourced.appended (fun r hm ↦ ?_) (fun c hc e he ↦ ?_) ha
    · obtain ⟨hold, -⟩ | ⟨r', hold, rfl⟩ := mem_redactJournal hm
      · exact hs.journal r hold
      · exact (hs.journal r' hold).redacted
    · obtain ⟨e', he', rfl⟩ := List.mem_map.mp hc
      simp only [Store.readPlaced, List.mem_map, List.mem_insertionSort, Table.mem_select] at he'
      obtain ⟨r, ⟨hm, -⟩, rfl⟩ := he'
      exact List.mem_singleton.mp he ▸ hs.entry r hm

end Sources

/-- The account a token response is for. -/
def accountOf (setting : Setting) (token : TokenResponse) : Option Account :=
  match fromTokenResponse setting token "" with
  | .ok identity => some identity.account
  | .error _ => none

theorem accountOf_eq {setting : Setting} {token : TokenResponse} {tenant : String}
    {identity : Identity} (h : fromTokenResponse setting token tenant = .ok identity) :
    accountOf setting token = some identity.account := by
  unfold accountOf
  unfold fromTokenResponse at h ⊢
  dsimp only at h ⊢
  split at h
  · obtain rfl := Except.ok.inj h
    rfl
  · split at h
    · obtain rfl := Except.ok.inj h
      rfl
    · cases h

/-- The account the session row names. -/
def named (s : Store) : Option Account := s.session.bind Session.account

/-- The account whose token was last taken into use, and whose it was when the pages in hand were
asked for. -/
structure Track where
  inUse : Option Account := none
  hand : ℕ → List (Option Account) := fun _ ↦ []

def note (setting : Setting) (i : ℕ) : (r : Request) → Answer r → World → Track → Track
  | .command (.reconcile (.session (.setUserToken token))), _, _, t =>
    { t with inUse := accountOf setting token }
  | .command (.reconcile (.listPage _ cursor _)), _, _, t =>
    let asked := if cursor = none then [t.inUse] else t.hand i ++ [t.inUse]
    { t with hand := Function.update t.hand i asked }
  | _, _, _, t => t

/-- A listing is written while the account is in use whose pages they were, and the session row
names no other. -/
def Settled (i : ℕ) (container : Container) (tokens : List TokenResponse) (s : World × Track) :
    Prop :=
  tokens = [] ∨ s.1.store.containerKnown container = false ∨
    (∀ a ∈ s.2.hand i, a = s.2.inUse) ∧ ∀ a, named s.1.store = some a → s.2.inUse = some a

/-- Another account comes into use only where nothing that was listed stands in the namespace. -/
def Careful (setting : Setting) (i : ℕ) : Request → World × Track → Prop
  | .command (.reconcile (.session (.setUserToken token))), s =>
    accountOf setting token = s.2.inUse ∨ ∀ x ∈ s.1.history.written, x.tokens = []
  | .command (.reconcile (.replaceContainer container _ _ tokens)), s
  | .command (.reconcile (.updateContainerState container _ tokens)), s =>
    Settled i container tokens s
  | _, _ => True

def separating (setting : Setting) (fails : Prop) : Rules Request Answer (World × Track) :=
  (rules setting fails {}).beside (note setting) (fun _ _ ↦ False) (Careful setting)

def FreshTrack (setting : Setting) (s : World × Track) : Prop :=
  Fresh setting s.1 ∧ s.2 = {}

/-- The runs of the engine under the condition. -/
def SeparateRuns (setting : Setting) (fails : Prop) (c : Pool Request Answer (World × Track)) :
    Prop :=
  (separating setting fails).Run (FreshTrack setting) c

/-- What was written was fetched with tokens of the account. -/
def Of (setting : Setting) (account : Option Account) (x : Written) : Prop :=
  ∀ t ∈ x.tokens, accountOf setting t = account

/-- Whatever can be read of the namespace was written from listings fetched with tokens of the
account. -/
def IsolatedTo (setting : Setting) (account : Account) (w : World) : Prop :=
  ∃ written ⊆ w.history.written, (∀ x ∈ written, Of setting (some account) x) ∧
    Sourced written w.store

/-- Everything written is the account's in use, and the session row names it or finds nothing. -/
structure Owned (setting : Setting) (inUse : Option Account) (written : List Written)
    (row : Option Account) : Prop where
  tokens : ∀ x ∈ written, Of setting inUse x
  row : ∀ a, row = some a → (∀ x ∈ written, x.tokens = []) ∨ inUse = some a

structure Isolated (setting : Setting) (s : World × Track) : Prop where
  wellFormed : WellFormed setting.unicode s.1.store
  sourced : Sourced s.1.history.written s.1.store
  token : ∀ t, s.1.memory.userToken = some t → accountOf setting t = s.2.inUse
  owned : Owned setting s.2.inUse s.1.history.written (named s.1.store)

theorem isolatedTo_of_isolated {setting : Setting} {s : World × Track} (h : Isolated setting s)
    {account : Account} (hn : named s.1.store = some account) :
    IsolatedTo setting account s.1 := by
  refine ⟨s.1.history.written, List.Subset.refl _, fun x hx t ht ↦ ?_, h.sourced⟩
  obtain hnone | hinUse := h.owned.row account hn
  · rw [hnone x hx] at ht
    cases ht
  · exact (h.owned.tokens x hx t ht).trans hinUse

section Served

variable {setting : Setting} {fails : Prop} {i : ℕ} {w w' : World}

/-- The requests that write a listing or its confirmation. -/
def Writes : Request → Prop
  | .command (.reconcile (.replaceContainer _ _ _ _))
  | .command (.reconcile (.updateContainerState _ _ _)) => True
  | _ => False

theorem written_serve {r : Request} {a : Answer r} (hr : ¬ Writes r)
    (h : serve setting fails i r w a w') :
    w'.history.written = w.history.written ∨
      r = .command (.reconcile (.session .emptyNamespace)) := by
  obtain hh | hh := history_serve h
  · exact .inl (congrArg History.written hh)
  rw [hh]
  unfold notes commandNotes reconcileNotes sessionNotes
  split
  · split
    · split
      · split <;> first | exact .inl rfl | exact .inr rfl
      · exact .inl rfl
      · exact absurd trivial hr
      · exact absurd trivial hr
      · exact .inl rfl
    · exact .inl rfl
    · exact .inl rfl
    · exact .inl rfl
    · refine .inl ?_
      unfold History.runBegins
      split <;> rfl
    · exact .inl rfl
  · unfold sourceNotes
    split <;> exact .inl rfl
  all_goals exact .inl rfl

/-- Whatever is asked for, everything that can be read comes from what was written. -/
theorem sourced_serve {r : Request} {a : Answer r} (hw : WellFormed setting.unicode w.store)
    (hs : Sourced w.history.written w.store) (h : serve setting fails i r w a w') :
    Sourced w'.history.written w'.store := by
  cases hop : operationOf r with
  | none =>
    have hwrites : ¬ Writes r := by
      unfold Writes
      split
      · cases hop
      · cases hop
      · exact id
    obtain hwritten | rfl := written_serve hwrites h
    · rw [hwritten]
      obtain hstore | hstore := store_serve h
      · rw [hstore]
        exact hs
      · exact hs.of_sameNamespace (sameNamespace_of_operationOf hop hstore)
    · cases hop
  | some operation =>
    unfold operationOf at hop
    split at hop
    · obtain ⟨rfl, -⟩ | ⟨b, s, hs', -, rfl⟩ := storedNoting_cases h
      · exact hs
      · obtain ⟨gone, -, hr⟩ := replaceContainer_eq_ok hw.rooted hs'
        exact sourced_replaced hs hr
    · obtain ⟨rfl, -⟩ | ⟨b, s, hs', -, rfl⟩ := storedNoting_cases h
      · exact hs
      · obtain ⟨-, rfl⟩ := updateContainerState_eq_ok (unit_eq_ok hs')
        exact sourced_confirmed hs
    · obtain ⟨rfl, -⟩ | ⟨b, s, hs', -, rfl⟩ := storedNoting_cases h
      · exact hs
      · obtain ⟨-, hframe, ha⟩ := removeDocumentEverywhere_eq_ok hs'
        exact sourced_removed hs hframe ha
    · obtain ⟨rfl, -⟩ | ⟨b, s, hs', -, rfl⟩ := storedNoting_cases h
      · exact hs
      · cases hempty : w.store.emptyNamespace with
        | error e =>
          rw [hempty] at hs'
          cases hs'
        | ok x =>
          rw [hempty] at hs'
          cases hs'
          obtain ⟨-, hframe⟩ := emptyNamespace_eq_ok hempty
          rw [hframe]
          exact sourced_nil rfl rfl rfl
    · cases hop

theorem named_stopSession (s : Store) (device : DeviceIdentifier) :
    named (s.stopSession device) = named s ∨ named (s.stopSession device) = none := by
  unfold Store.stopSession
  split
  · rename_i login hlogin
    obtain ⟨session, hsession, hlogin⟩ := Option.bind_eq_some_iff.mp hlogin
    refine .inl ?_
    rw [named, named, hsession]
    exact (congrArg (Option.map Login.account) hlogin).symm
  · exact .inr rfl

/-- Only a sign-in names another account in the session row. -/
theorem named_serve {r : Request} {a : Answer r}
    (hr : ∀ session token, r ≠ .command (.reconcile (.session (.setSession session token))))
    (h : serve setting fails i r w a w') :
    named w'.store = named w.store ∨ named w'.store = none := by
  cases hq : sessionOf r with
  | none => exact .inl (congrArg (·.bind Session.account) (sameSession_serve hq h).session)
  | some q =>
    obtain rfl := eq_of_sessionOf hq
    obtain hs | hs := store_serve h
    · exact .inl (congrArg named hs)
    · cases q with
      | setSession session token => exact absurd rfl (hr session token)
      | stopSession =>
        rw [← Except.ok.inj hs]
        exact named_stopSession w.store setting.device
      | setSetting key value => exact .inl (congrArg (·.bind Session.account) (session_setSetting hs))
      | emptyNamespace =>
        obtain ⟨new, hs⟩ := map_snd_eq_ok hs
        rw [(emptyNamespace_eq_ok hs).2]
        exact .inl rfl
      | _ =>
        rw [← Except.ok.inj hs]
        exact .inl rfl

theorem userToken_of_serve {r : Request} {a : Answer r} (h : serve setting fails i r w a w') :
    w'.memory.userToken = w.memory.userToken ∨ w'.memory.userToken = none ∨
      ∃ token, r = .command (.reconcile (.session (.setUserToken token))) ∧
        w'.memory.userToken = some token := by
  cases hq : sessionOf r with
  | none => exact .inl (congrArg Memory.userToken (sameSession_serve hq h).memory)
  | some q =>
    obtain rfl := eq_of_sessionOf hq
    obtain hkept | hnone | ⟨token, rfl, htoken⟩ := @userToken_serve setting fails i w w' q a h
    · exact .inl hkept
    · exact .inr (.inl hnone)
    · exact .inr (.inr ⟨token, rfl, htoken⟩)

/-- A request other than that for a token leaves the account that is in use. -/
theorem inUse_note {r : Request} {a : Answer r} {t : Track}
    (hr : ∀ token, r ≠ .command (.reconcile (.session (.setUserToken token)))) :
    (note setting i r a w t).inUse = t.inUse := by
  unfold note
  split
  · exact absurd rfl (hr _)
  · rfl
  · rfl

theorem hand_note {r : Request} {a : Answer r} {t : Track} {j : ℕ} (h : j ≠ i) :
    (note setting i r a w t).hand j = t.hand j := by
  unfold note
  split
  · rfl
  · exact Function.update_of_ne h _ _
  · rfl

theorem Owned.of_subset {inUse row row' : Option Account} {written written' : List Written}
    (h : Owned setting inUse written row) (hw : written' ⊆ written) (hr : row' = row ∨ row' = none) :
    Owned setting inUse written' row' := by
  refine ⟨fun x hx ↦ h.tokens x (hw hx), fun a ha ↦ ?_⟩
  obtain rfl | rfl := hr
  · exact (h.row a ha).imp_left fun hnone x hx ↦ hnone x (hw hx)
  · cases ha

/-- A listing that is written with tokens of the account in use. -/
theorem Owned.write {inUse row : Option Account} {written : List Written} {x : Written}
    (h : Owned setting inUse written row) (hx : x.tokens = [] ∨ Of setting inUse x ∧
      ∀ a, row = some a → inUse = some a) : Owned setting inUse (written ++ [x]) row := by
  have hmem : ∀ y ∈ written ++ [x], y ∈ written ∨ y = x := fun y hy ↦
    (List.mem_append.mp hy).imp_right List.mem_singleton.mp
  refine ⟨fun y hy ↦ ?_, fun a ha ↦ ?_⟩
  · obtain hy | rfl := hmem y hy
    · exact h.tokens y hy
    · obtain hnone | ⟨hof, -⟩ := hx
      · intro t ht
        exact absurd (hnone ▸ ht) List.not_mem_nil
      · exact hof
  · obtain hnone | ⟨-, hrow⟩ := hx
    · refine (h.row a ha).imp_left fun hall y hy ↦ ?_
      obtain hy | rfl := hmem y hy
      · exact hall y hy
      · exact hnone
    · exact .inr (hrow a ha)

end Served

def InOrder (setting : Setting) (i : ℕ) : Request → World × Track → Prop
  | .command (.reconcile (.session .unlockLogin)), s
  | .command (.reconcile (.session (.setUserToken _))), s => s.1.memory.lock = some i
  | .command (.reconcile (.session (.setSession session _))), s =>
    ∀ a, session.account = some a → s.2.inUse = some a
  | .command (.reconcile (.replaceContainer _ _ _ tokens)), s
  | .command (.reconcile (.updateContainerState _ _ tokens)), s =>
    ∀ t ∈ tokens, accountOf setting t ∈ s.2.hand i
  | _, _ => True

/-- Whoever holds the lock keeps it, and no other account comes into use. -/
def Undisturbed (i : ℕ) (s s' : World × Track) : Prop :=
  s.1.memory.lock = some i → s'.1.memory.lock = some i ∧ s'.2.inUse = s.2.inUse

def discipline (setting : Setting) : Discipline Request Answer (World × Track) where
  invariant := Isolated setting
  ok := InOrder setting
  rely i s s' := s'.2.hand i = s.2.hand i ∧ Undisturbed i s s'
  ends _ _ := True

section Steps

variable {setting : Setting} {fails : Prop} {i : ℕ} {w' : World} {s : World × Track}

/-- What a write of pages in hand comes to, where it is not refused. -/
theorem of_settled {container : Container} {entries : List Entry} {state : ContainerState}
    {tokens : List TokenResponse} {confirms : Bool}
    (hok : ∀ t ∈ tokens, accountOf setting t ∈ s.2.hand i)
    (hc : Settled i container tokens s) (hknown : s.1.store.containerKnown container = true) :
    tokens = [] ∨ Of setting s.2.inUse ⟨container, entries, state, tokens, confirms⟩ ∧
      ∀ a, named s.1.store = some a → s.2.inUse = some a := by
  refine hc.imp_right fun h ↦ ?_
  obtain hunknown | ⟨hall, hrow⟩ := h
  · cases hunknown.symm.trans hknown
  · exact ⟨fun t ht ↦ hall _ (hok t ht), hrow⟩

theorem owned_serve {r : Request} {a : Answer r} (hw : Isolated setting s)
    (hok : InOrder setting i r s) (hc : Careful setting i r s)
    (h : serve setting fails i r s.1 a w') :
    Owned setting (note setting i r a s.1 s.2).inUse w'.history.written (named w'.store) := by
  by_cases huse : ∃ token, r = .command (.reconcile (.session (.setUserToken token)))
  · obtain ⟨token, rfl⟩ := huse
    obtain rfl := h
    obtain hsame | hnone := hc
    · change Owned setting (accountOf setting token) s.1.history.written (named s.1.store)
      rw [hsame]
      exact hw.owned
    · refine ⟨fun x hx t ht ↦ ?_, fun a ha ↦ .inl hnone⟩
      rw [hnone x hx] at ht
      cases ht
  rw [inUse_note fun token hr ↦ huse ⟨token, hr⟩]
  by_cases hset : ∃ session token, r = .command (.reconcile (.session (.setSession session token)))
  · obtain ⟨session, token, rfl⟩ := hset
    simp only [Port.serve, serveCommand, serveReconcile, serveSession] at h
    obtain ⟨rfl, -⟩ | ⟨b, s', hs, -, rfl⟩ := storedNoting_cases h
    · exact hw.owned
    · cases hs
      exact ⟨hw.owned.tokens, fun a ha ↦ .inr (hok a ha)⟩
  by_cases hwrites : Writes r
  · unfold Writes at hwrites
    split at hwrites
    · obtain ⟨rfl, -⟩ | ⟨b, s', hs, -, rfl⟩ := storedNoting_cases h
      · exact hw.owned
      · obtain ⟨gone, -, hr⟩ := replaceContainer_eq_ok hw.wellFormed.rooted hs
        have hrow : named s' = named s.1.store := by rw [hr.frame]; rfl
        change Owned setting s.2.inUse (s.1.history.written ++ [_]) (named s')
        rw [hrow]
        exact hw.owned.write (of_settled hok hc hr.known)
    · obtain ⟨rfl, -⟩ | ⟨b, s', hs, -, rfl⟩ := storedNoting_cases h
      · exact hw.owned
      · obtain ⟨hknown, rfl⟩ := updateContainerState_eq_ok (unit_eq_ok hs)
        exact hw.owned.write (of_settled hok hc hknown)
    · exact hwrites.elim
  · have hrow := named_serve (fun session token hr ↦ hset ⟨session, token, hr⟩) h
    refine hw.owned.of_subset ?_ hrow
    obtain hsame | rfl := written_serve hwrites h
    · rw [hsame]
      exact List.Subset.refl _
    · obtain hsame | hempty := history_serve h
      · rw [hsame]
        exact List.Subset.refl _
      · rw [hempty]
        exact List.nil_subset _

theorem isolated_serve {r : Request} {a : Answer r} (hw : Isolated setting s)
    (hok : InOrder setting i r s) (hc : Careful setting i r s)
    (h : serve setting fails i r s.1 a w') :
    Isolated setting (w', note setting i r a s.1 s.2) where
  wellFormed := wellFormed_serve hw.wellFormed h
  sourced := sourced_serve hw.wellFormed hw.sourced h
  owned := owned_serve hw hok hc h
  token t ht := by
    obtain hkept | hnone | ⟨token, rfl, htoken⟩ := userToken_of_serve h
    · by_cases huse : ∃ token, r = .command (.reconcile (.session (.setUserToken token)))
      · obtain ⟨token, rfl⟩ := huse
        obtain rfl := h
        rw [Option.some.inj ht]
        rfl
      · rw [inUse_note fun token hr ↦ huse ⟨token, hr⟩]
        exact hw.token t (hkept ▸ ht)
    · exact nomatch hnone.symm.trans ht
    · rw [← Option.some.inj (htoken.symm.trans ht)]
      rfl

end Steps

section Flow

variable {setting : Setting} {fails : Prop} {i : ℕ}

abbrev contract (setting : Setting) (fails : Prop) (i : ℕ) :
    Contract Request Answer (World × Track) :=
  (discipline setting).knowing (separating setting fails) i

def Held (i : ℕ) (s : World × Track) : Prop := s.1.memory.lock = some i

/-- The requests that take no token into use, name no account and leave the lock. -/
def Calm : SessionRequest → Prop
  | .setUserToken _ | .lockLogin | .unlockLogin => False
  | .setSession session _ => session.account = none
  | _ => True

theorem lock_serve {r : SessionRequest} {a : SessionAnswer r} {w w' : World}
    (hl : r ≠ .lockLogin) (hu : r ≠ .unlockLogin) (h : serveSession setting fails i r w a w') :
    w'.memory.lock = w.memory.lock := by
  by_cases hsign : r = .signOutCompleted
  · subst hsign
    obtain rfl := h
    rfl
  · have hsteady : Steady r := by
      unfold Steady
      split
      · exact absurd rfl hl
      · exact absurd rfl hu
      · exact absurd rfl hsign
      · trivial
    exact (steady_serve hsteady h).1

theorem account_eq_none {session : Session} (h : session.state.carriesLogin = false) :
    session.account = none := by
  have hcarried := session.carried
  rw [h] at hcarried
  rw [Session.account, Option.isSome_eq_false_iff.mp hcarried.symm |> Option.isNone_iff_eq_none.mp]
  rfl

theorem inOrder_of_calm {r : SessionRequest} (h : Calm r) (s : World × Track) :
    InOrder setting i (.command (.reconcile (.session r))) s := by
  cases r with
  | setUserToken | lockLogin | unlockLogin => exact h.elim
  | setSession session token =>
    intro a ha
    have hnone : session.account = none := h
    exact nomatch hnone.symm.trans ha
  | _ => trivial

theorem held_serve {r : SessionRequest} {a : SessionAnswer r} {s s' : World × Track}
    (hs : Held i s) (hr : Calm r)
    (h : (sessions (contract setting fails i)).serve r s a s') : Held i s' := by
  have hserve : serveSession setting fails i r s.1 a s'.1 := h.1.1.1.1
  refine (lock_serve ?_ ?_ hserve).trans hs <;> rintro rfl <;> exact hr

theorem held_rely {s s' : World × Track} (hs : Held i s)
    (h : (sessions (contract setting fails i)).rely s s') : Held i s' := (h.1.2 hs).1

theorem held_after (r : SessionRequest) (hr : Calm r) {a : SessionAnswer r}
    {s s₁ s₂ : World × Track} (hs : Held i s)
    (h : (sessions (contract setting fails i)).serve r s a s₁)
    (hrely : (sessions (contract setting fails i)).rely s₁ s₂) : Held i s₂ :=
  held_rely (held_serve hs hr h) hrely

theorem calm_of_deviceTokens (r : SessionRequest) (h : DeviceTokens r) : Calm r := by
  cases r with
  | setSession session token =>
    cases token with
    | none =>
      have hstate : session.state = .awaitingApproval := h
      exact account_eq_none (by rw [hstate]; rfl)
    | some token => exact h.elim
  | setUserToken | lockLogin | unlockLogin => exact h.elim
  | _ => trivial

theorem calm_of_enrolling (r : SessionRequest) (h : Enrolling r) : Calm r := by
  cases r with
  | setSession | setUserToken | lockLogin | unlockLogin => exact h.elim
  | _ => trivial

theorem calm_of_stopping (r : SessionRequest) (h : Stopping r) : Calm r := by
  cases r with
  | setSession | setUserToken | lockLogin | unlockLogin => exact h.elim
  | _ => trivial

theorem calm_of_clearing (r : SessionRequest) (h : Clearing r) : Calm r := by
  cases r with
  | setSession session token =>
    cases token with
    | none =>
      have hstate : session.state = .signedOut := h
      exact account_eq_none (by rw [hstate]; rfl)
    | some token => exact h.elim
  | setUserToken | lockLogin | unlockLogin => exact h.elim
  | _ => trivial

theorem holding (setting : Setting) (fails : Prop) (i : ℕ) :
    Holding setting (sessions (contract setting fails i)) Calm (Held i) where
  lock _ := trivial
  held s s₁ s₂ hs hr := by
    have hserve : serveSession setting fails i .lockLogin s.1 () s₁.1 := hs.1.1.1.1
    obtain ⟨-, hmemory⟩ := hserve
    refine held_rely ?_ hr
    rw [Held, hmemory]
    rfl
  rely s s' hs hr := held_rely hs hr
  unlock _ hs := hs
  outside r s hr := inOrder_of_calm (by cases r <;> trivial) s
  ok _ s hr _ := inOrder_of_calm hr s
  keep _ _ _ _ hr hs h := held_serve hs hr h
  enrolling := calm_of_enrolling
  device s hs := sound_of_asks asks_fetchDeviceToken
    (fun r s hr hs ↦ ⟨inOrder_of_calm (calm_of_deviceTokens r hr) s,
      fun a s' h ↦ held_serve hs (calm_of_deviceTokens r hr) h⟩)
    (fun s s' hs hr ↦ held_rely hs hr) hs
  freshness r hr := by cases r <;> trivial
  isStopped := trivial

/-- A takeover from the moment the access token is in use. -/
def place (setting : Setting) (token : TokenResponse) : SessionFallible Unit := do
  let time ← call .now
  call (.setTokenExpiry (some (time.plusMillis (lifetime token.expiresIn))))
  let set ← readKeySet setting
  let identity ← raise (fromTokenResponse setting token set.tenantId)
  let since ← call .now
  let login : Login := ⟨identity.account, identity.tenant, identity.displayName, since⟩
  store (call (.setSession (.signedIn setting.device login) (some token)))
  store (call (.setSetting .identityGuessed (if identity.guessed then "yes" else "no")))
  if ← call .fileSystem then
    let _ ← call (.placeReady ("elasticdms – " ++ identity.tenant) identity.account.sub)
  call (.setState (.signedIn identity.displayName identity.tenant since true) (some token))

/-- The requests of a takeover from then on: the session that is stored is the token's account's. -/
def Placing (setting : Setting) (token : TokenResponse) (r : SessionRequest) : Prop :=
  Calm r ∨ ∃ session t, r = .setSession session t ∧ session.account = accountOf setting token

theorem asks_raise_bind {α β : Type} {kind : SessionRequest → Prop} {r : Except EngineError α}
    {f : α → SessionFallible β} (h : ∀ a, r = .ok a → (f a).run.Asks kind) :
    (raise r >>= f).run.Asks kind := by
  cases r with
  | ok a => exact h a rfl
  | error e => trivial

theorem asks_place (setting : Setting) (token : TokenResponse) :
    (place setting token).run.Asks (Placing setting token) := by
  refine asks_fallible_bind (asks_lift (asks_call (.inl trivial))) fun time ↦ ?_
  refine asks_fallible_bind (asks_lift (asks_call (.inl trivial))) fun _ ↦ ?_
  refine asks_fallible_bind (asks_readKeySet fun _ ↦ Or.inl trivial) fun set ↦ ?_
  refine asks_raise_bind fun identity hidentity ↦ ?_
  refine asks_fallible_bind (asks_lift (asks_call (.inl trivial))) fun since ↦ ?_
  refine asks_fallible_bind (asks_store (asks_call (.inr ⟨_, _, rfl, ?_⟩))) fun _ ↦ ?_
  · rw [accountOf_eq hidentity]
    rfl
  refine asks_fallible_bind (asks_store (asks_call (.inl trivial))) fun _ ↦ ?_
  refine asks_fallible_bind (asks_lift (asks_call (.inl trivial))) fun fileSystem ↦ ?_
  have hstate : (liftM (call (.setState
      (.signedIn identity.displayName identity.tenant since true) (some token))) :
      SessionFallible Unit).run.Asks (Placing setting token) :=
    asks_lift (asks_call (.inl trivial))
  split
  · exact asks_fallible_bind (asks_lift (asks_call (.inl trivial))) fun _ ↦ hstate
  · exact hstate

theorem inUse_of_placing {token : TokenResponse} {r : SessionRequest} {a : SessionAnswer r}
    {s s' : World × Track} (hr : Placing setting token r)
    (h : (sessions (contract setting fails i)).serve r s a s') : s'.2.inUse = s.2.inUse := by
  have hnote : s'.2 = note setting i (.command (.reconcile (.session r))) a s.1 s.2 := h.1.1.2
  rw [hnote]
  refine inUse_note fun t ht ↦ ?_
  obtain rfl : r = .setUserToken t := by injection ht with ht; injection ht with ht; injection ht
  obtain hcalm | ⟨session, t', hset, -⟩ := hr
  · exact hcalm
  · cases hset

/-- From the moment a token is in use, under the lock, the session that is stored is its
account's. -/
theorem sound_place {token : TokenResponse} {s : World × Track} (hs : Held i s)
    (hinUse : s.2.inUse = accountOf setting token) :
    (sessions (contract setting fails i)).Sound (place setting token).run (fun _ ↦ Held i) s := by
  refine sound_mono (fun _ _ h ↦ h.1) (sound_of_asks
    (I := fun s ↦ Held i s ∧ s.2.inUse = accountOf setting token) (asks_place setting token)
    (fun r s hr hs ↦ ⟨?_, fun a s' h ↦ ⟨?_, (inUse_of_placing hr h).trans hs.2⟩⟩)
    (fun s s' hs hr ↦ ?_) ⟨hs, hinUse⟩)
  · obtain hcalm | ⟨session, t, rfl, haccount⟩ := hr
    · exact inOrder_of_calm hcalm s
    · intro a ha
      rw [hs.2, ← haccount, ha]
  · obtain hcalm | ⟨session, t, rfl, -⟩ := hr
    · exact held_serve hs.1 hcalm h
    · have hserve : serveSession setting fails i (.setSession session t) s.1 a s'.1 := h.1.1.1.1
      exact (lock_serve (r := .setSession session t) nofun nofun hserve).trans hs.1
  · obtain ⟨hlock, hsame⟩ := hr.1.2 hs.1
    exact ⟨hlock, hsame.trans hs.2⟩

theorem sound_use (token : TokenResponse) {s : World × Track} (hs : Held i s) :
    (sessions (contract setting fails i)).Sound (use setting token).run (fun _ ↦ Held i) s := by
  refine ⟨hs, fun a s' s'' h hr ↦ ?_⟩
  have hserve : serveSession setting fails i (.setUserToken token) s.1 a s'.1 := h.1.1.1.1
  have hheld : Held i s' := (lock_serve (r := .setUserToken token) nofun nofun hserve).trans hs
  have hnote : s'.2 = note setting i (.command (.reconcile (.session (.setUserToken token)))) a
    s.1 s.2 := h.1.1.2
  obtain ⟨hlock, hsame⟩ := hr.1.2 hheld
  refine sound_place hlock ?_
  rw [hsame, hnote]
  rfl

theorem sound_adoptToken (token : TokenResponse) {s : World × Track} (hs : Held i s) :
    (sessions (contract setting fails i)).Sound (adoptToken setting token).run
      (fun _ ↦ Held i) s := by
  cases ht : token.refreshToken with
  | none =>
    rw [adoptToken_none ht]
    exact sound_use token hs
  | some refresh =>
    rw [adoptToken_some ht]
    refine ⟨trivial, fun a s' s'' h hr ↦ ?_⟩
    have hheld : Held i s'' := held_after (.setRefreshToken refresh token) trivial hs h hr
    cases a with
    | ok a => exact sound_use token hheld
    | error e => exact hheld

theorem flow (setting : Setting) (fails : Prop) (i : ℕ) :
    Flow setting (sessions (contract setting fails i)) Calm (Held i) (fun _ ↦ Held i)
      (fun _ ↦ Held i) (fun _ ↦ Held i) (Held i) where
  toHolding := holding setting fails i
  refreshToken := trivial
  missed := trivial
  read s a s₁ s₂ text hs h hr _ := held_after .refreshToken trivial hs h hr
  exchange text s hs := by
    refine ⟨trivial, fun a s₁ s₂ h hr ↦ ?_⟩
    have hheld : Held i s₂ := held_after (.exchangeRefreshToken text) trivial hs h hr
    cases a with
    | networkError error => cases error <;> exact hheld
    | _ => exact hheld
  stop reason eraseSecrets s hs := (holding setting fails i).sound_quiet
    ((asks_sessionStop reason eraseSecrets).mono calm_of_stopping) hs
  finished _ hs := hs
  adopt token s hs := sound_adoptToken token hs
  newKey s hs := by
    refine ⟨trivial, fun a s₁ s₂ h hr ↦ ?_⟩
    have hheld : Held i s₂ := held_after .newSessionKey trivial hs h hr
    exact ⟨hheld, fun _ ↦ hheld⟩
  start s hs := by
    refine ⟨trivial, fun a s₁ s₂ h hr ↦ ?_⟩
    have hheld : Held i s₂ := held_after .startDeviceLogin trivial hs h hr
    exact ⟨hheld, fun _ _ ↦ hheld⟩
  shown login s hs := ⟨trivial, fun a s₁ s₂ h hr ↦ held_after (.setState .loginRuns none) trivial hs h hr⟩
  wait login s hs := by
    refine ⟨trivial, fun a s₁ s₂ h hr ↦ ?_⟩
    have hheld : Held i s₂ := held_after (.waitOnToken login) trivial hs h hr
    exact ⟨hheld, fun _ _ ↦ hheld⟩

theorem fine_clearAfterSignOut :
    (sessions (contract setting fails i)).Fine (clearAfterSignOut setting).run :=
  fine_of_asks (asks_clearAfterSignOut.mono calm_of_clearing) fun _ s hr ↦ inOrder_of_calm hr s

theorem fine_signOut : (sessions (contract setting fails i)).Fine (signOut setting).run := by
  apply (holding setting fails i).fine_signOut trivial (fun _ ↦ trivial)
  intro s hs
  exact (holding setting fails i).sound_quiet (asks_clearAfterSignOut.mono calm_of_clearing) hs

end Flow

section Fetches

variable {setting : Setting} {fails : Prop} {i : ℕ}

theorem inOrder_of_harmless {r : Request} (h : Harmless r) (hr : ¬ Confirms r)
    (s : World × Track) : InOrder setting i r s := by
  unfold InOrder
  split
  · exact h.elim
  · exact h.elim
  · exact h.elim
  · exact h.elim
  · exact absurd trivial hr
  · trivial

/-- The tokens of the pages in hand are of the accounts that were in use. -/
theorem gathers (setting : Setting) (fails : Prop) (i : ℕ) :
    Gathers (contract setting fails i) fun tokens s ↦
      ∀ t ∈ tokens, accountOf setting t ∈ s.2.hand i where
  nil _ t ht := absurd ht List.not_mem_nil
  harmless _ s h hr := inOrder_of_harmless h hr s
  first container etag s a s' s'' hs hr t ht := by
    obtain ⟨⟨⟨hserve, hnote⟩, -⟩, hw⟩ := hs
    have hhand : s''.2.hand i = [s.2.inUse] := by
      have hstays : s''.2.hand i = s'.2.hand i := hr.1.1
      rw [hstays, hnote]
      exact Function.update_self ..
    have hasked : a.2 = s.1.memory.userToken := hserve.1.1
    rw [hhand]
    exact List.mem_singleton.mpr (hw.token t (hasked ▸ Option.mem_toList.mp ht))
  next container cursor etag tokens s a s' s'' htokens hs hr t ht := by
    obtain ⟨⟨⟨hserve, hnote⟩, -⟩, hw⟩ := hs
    have hhand : s''.2.hand i = s.2.hand i ++ [s.2.inUse] := by
      have hstays : s''.2.hand i = s'.2.hand i := hr.1.1
      rw [hstays, hnote]
      exact Function.update_self ..
    have hasked : a.2 = s.1.memory.userToken := hserve.1.1
    rw [hhand]
    obtain ht | ht := List.mem_append.mp ht
    · exact List.mem_append_left _ (htokens t ht)
    · exact List.mem_append_right _
        (List.mem_singleton.mpr (hw.token t (hasked ▸ Option.mem_toList.mp ht)))
  keep tokens r s a s' s'' hb htokens hs hr t ht := by
    obtain ⟨⟨⟨-, hnote⟩, -⟩, -⟩ := hs
    have hhand : s''.2.hand i = s.2.hand i := by
      have hstays : s''.2.hand i = s'.2.hand i := hr.1.1
      rw [hstays, hnote]
      cases r with
      | listPage => exact hb.elim
      | session q =>
        cases q with
        | now => rfl
        | _ => exact hb.elim
      | _ => rfl
    rw [hhand]
    exact htokens t ht
  write _ _ _ _ _ htokens := htokens
  confirm _ _ _ _ htokens := htokens

theorem orderly (setting : Setting) (fails : Prop) (i : ℕ) :
    Orderly setting (contract setting fails i) where
  harmless _ s h hr := inOrder_of_harmless h hr s
  ensureForToken := (flow setting fails i).fine_ensureForToken
  forceRefresh := (flow setting fails i).fine_forceRefresh
  signIn := (flow setting fails i).fine_signIn
  signOut := fine_signOut
  clearAfterSignOut := fine_clearAfterSignOut
  root := (gathers setting fails i).fine_root setting
  fetchAndAdopt := (gathers setting fails i).fine_fetchAndAdopt setting

end Fetches

section Runs

variable {setting : Setting} {fails : Prop}

theorem isolated_fresh {s : World × Track} (h : FreshTrack setting s) : Isolated setting s := by
  obtain ⟨⟨n, limit, hs⟩, ht⟩ := h
  obtain rfl : s = (.setUp setting.device n limit, {}) := Prod.ext hs ht
  refine ⟨wellFormed_of_empty rfl rfl, sourced_nil rfl rfl rfl, fun t ht ↦ ?_, ?_, ?_⟩
  · cases ht
  · exact fun x hx ↦ absurd hx List.not_mem_nil
  · exact fun a _ ↦ .inl fun x hx ↦ absurd hx List.not_mem_nil

theorem Isolated.of_record {s s' : World × Track} (h : Isolated setting s)
    (hstore : s'.1.store = s.1.store) (hwritten : s'.1.history.written = s.1.history.written)
    (htrack : s'.2 = s.2)
    (htoken : s'.1.memory.userToken = s.1.memory.userToken ∨ s'.1.memory.userToken = none) :
    Isolated setting s' where
  wellFormed := by
    rw [hstore]
    exact h.wellFormed
  sourced := by
    rw [hstore, hwritten]
    exact h.sourced
  token t ht := by
    rw [htrack]
    obtain hkept | hnone := htoken
    · exact h.token t (hkept ▸ ht)
    · exact nomatch hnone.symm.trans ht
  owned := by
    rw [hstore, hwritten, htrack]
    exact h.owned

theorem memory_ended (i : ℕ) (w : World) : (ended i w).memory = w.memory := by
  obtain he | ⟨-, he⟩ := ended_cases i w <;> rw [he]
  rfl

theorem undisturbed_serve {i j : ℕ} {r : Request} {a : Answer r} {s s' : World × Track}
    (hj : j ≠ i) (hok : InOrder setting i r s)
    (h : (separating setting fails).serve i r s a s') : Undisturbed j s s' := by
  obtain ⟨⟨⟨hserve, -⟩, hnote⟩, -⟩ := h
  intro hlock
  have hinUse : s'.2.inUse = s.2.inUse := by
    rw [hnote]
    refine inUse_note fun token hr ↦ hj ?_
    subst hr
    exact Option.some.inj (hlock.symm.trans hok)
  refine ⟨?_, hinUse⟩
  cases hq : sessionOf r with
  | none => rw [(sameSession_serve hq hserve).memory, hlock]
  | some q =>
    obtain rfl := eq_of_sessionOf hq
    by_cases hl : q = .lockLogin
    · subst hl
      exact nomatch hserve.1.symm.trans hlock
    by_cases hu : q = .unlockLogin
    · subst hu
      exact absurd (Option.some.inj (hlock.symm.trans hok)) hj
    · have hsession : serveSession setting fails i q s.1 a s'.1 := hserve
      exact (lock_serve hl hu hsession).trans hlock

theorem kept (setting : Setting) (fails : Prop) :
    (discipline setting).Kept (separating setting fails) (FreshTrack setting) where
  refl _ s := ⟨rfl, fun hlock ↦ ⟨hlock, rfl⟩⟩
  trans _ _ _ _ h h' := by
    refine ⟨h'.1.trans h.1, fun hlock ↦ ?_⟩
    obtain ⟨hlock₁, hsame₁⟩ := h.2 hlock
    obtain ⟨hlock₂, hsame₂⟩ := h'.2 hlock₁
    exact ⟨hlock₂, hsame₂.trans hsame₁⟩
  enter s := isolated_fresh
  start i p s hw hstart s' _ hw' := by
    obtain ⟨job, rfl, -⟩ := hstart
    have O := orderly setting fails i
    have hprocess := fine_process O fun _ _ _ ↦ trivial
    have hcontent := fine_content O fun _ _ ↦ trivial
    exact Discipline.sound_of_knowing hw' (fine_program O hprocess hcontent job s')
  serve i r s a s' hw hok hserve := by
    obtain ⟨⟨⟨hserved, -⟩, hnote⟩, hcareful⟩ := id hserve
    have hisolated := isolated_serve hw hok hcareful hserved
    rw [← hnote] at hisolated
    refine ⟨hisolated, fun j hj ↦ ⟨?_, undisturbed_serve hj hok hserve⟩⟩
    rw [hnote]
    exact hand_note hj
  finish i s s' hw _ hfinish := by
    obtain ⟨hworld, htrack⟩ := hfinish
    obtain rfl : s' = (ended i s.1, s.2) := Prod.ext hworld htrack
    have hmemory := memory_ended i s.1
    have hsame := sameRecord_ended i s.1
    refine ⟨hw.of_record hsame.store hsame.written rfl (.inl (by rw [hmemory])), fun j _ ↦
      ⟨rfl, fun hlock ↦ ⟨?_, rfl⟩⟩⟩
    rw [hmemory, hlock]
  abort i s s' hw habort := by
    obtain ⟨⟨-, hworld⟩, htrack⟩ := habort
    obtain rfl : s' = (aborted i s.1, s.2) := Prod.ext hworld htrack
    have hmemory := memory_ended i s.1
    have hsame := sameRecord_aborted i s.1
    refine ⟨hw.of_record hsame.store hsame.written rfl (.inl ?_), fun j hj ↦
      ⟨rfl, fun hlock ↦ ⟨?_, rfl⟩⟩⟩
    · change (ended i s.1).memory.userToken = _
      rw [hmemory]
    · change (if (ended i s.1).memory.lock = some i then none else (ended i s.1).memory.lock) = _
      rw [hmemory, hlock, if_neg fun he ↦ hj (Option.some.inj he)]
  restart s s' hw hrestart := by
    obtain ⟨⟨-, fingerprint, hworld⟩, htrack⟩ := hrestart
    obtain rfl : s' = (s.1.restart fingerprint, s.2) := Prod.ext hworld htrack
    exact hw.of_record rfl rfl rfl (.inr rfl)
  outside s s' hw houtside := by
    obtain ⟨⟨-, hworld⟩, htrack⟩ | ⟨-, hfalse⟩ := houtside
    · obtain rfl : s' = (stopped s.1, s.2) := Prod.ext hworld htrack
      exact ⟨hw.of_record rfl rfl rfl (.inl rfl), fun j ↦ ⟨rfl, fun hlock ↦ ⟨hlock, rfl⟩⟩⟩
    · exact hfalse.elim

/-- In every run in which another account comes into use only where nothing that was listed stands
in the namespace, and no listing outlives the account in use, whatever can be read was fetched for
the account that the session row names. -/
theorem isolated_of_run {setting : Setting} {fails : Prop}
    {c : Pool Request Answer (World × Track)} (h : SeparateRuns setting fails c)
    {account : Account} (hn : named c.state.1.store = some account) :
    IsolatedTo setting account c.state.1 :=
  isolatedTo_of_isolated (Discipline.run_kept (kept setting fails) h).1 hn

end Runs

section Samples

open FolderClient.Crypto.RevocationRuns FolderClient.Engine.Play

/-- A workstation that reads the account from the token. -/
def accounts : Setting :=
  { anchored with
    prims := { plainPrimitives with
      readJson := fun
        | 80 :: name => .ok (.object
            [("sub", .string (String.ofList (name.map fun b ↦ Char.ofNat b.toNat)))])
        | bytes => plainPrimitives.readJson bytes } }

/-- Somebody signs in; a renewal gets no answer. -/
def visitor (name etag idToken : String) : Surroundings :=
  { delivering (plainPage [name] etag) [] with
    waited := .success (.issued ⟨"access", 100000, some "refresh", some idToken, 0, 0, none⟩)
    exchange := .error (.refreshUncertain "no answer") }

def first : Surroundings := visitor "a" "1" "DK.Pa.yK"

def second : Surroundings := visitor "bb" "2" "DK.Pb.yK"

/-- The session of the first ends with a renewal, and the second signs in. -/
def followed : List Move :=
  whole 65 1 .signIn first ++ whole 11 1 .forceRefresh first ++
    .start 1 .signIn :: asks 22 1 second

/-- An entry that no listing brought which was fetched for the account. -/
def foreign (account : Account) (w : World) (e : Entry) : Bool :=
  w.history.written.all fun x ↦
    !x.entries.contains e || x.tokens.any fun t ↦ accountOf accounts t ≠ some account

def leaks (w : World) : Bool :=
  (named w.store).any fun account ↦ w.store.entry.rows.any fun r ↦ foreign account w r.entry

theorem not_isolatedTo_of_foreign {account : Account} {w : World} {r : EntryRow}
    (hr : r ∈ w.store.entry.rows) (h : foreign account w r.entry = true) :
    ¬ IsolatedTo accounts account w := by
  rintro ⟨written, hsub, hof, hsourced⟩
  obtain ⟨x, hx, he⟩ := hsourced.entry r hr
  have hforeign := List.all_eq_true.mp h x (hsub hx)
  rw [List.contains_iff_mem.mpr he] at hforeign
  obtain ⟨t, ht, hne⟩ := List.any_eq_true.mp hforeign
  exact of_decide_eq_true hne (hof x hx t ht)

theorem leaks_followed : ¬ ∀ (setting : Setting) (fails : Prop) (c : Activities),
    Runs setting fails {} c → ∀ account, named c.state.store = some account →
      IsolatedTo setting account c.state := by
  intro hall
  obtain ⟨c, hplay, hc⟩ := (Option.any_eq_true (fun c : Activities ↦ leaks c.state)
    (play accounts (freshEngine accounts) followed)).mp (by decide +kernel)
  obtain ⟨account, hn, hc⟩ := (Option.any_eq_true _ _).mp hc
  obtain ⟨r, hr, hforeign⟩ := List.any_eq_true.mp hc
  exact not_isolatedTo_of_foreign hr hforeign
    (hall accounts False c (runs_of_play runs_freshEngine hplay) account hn)

/-- The condition, where containers are known. -/
def settles (i : ℕ) (tokens : List TokenResponse) (s : World × Track) : Bool :=
  tokens.isEmpty || (s.2.hand i).all (· = s.2.inUse) &&
    (named s.1.store).all fun a ↦ s.2.inUse = some a

def heeds (i : ℕ) : Request → World × Track → Bool
  | .command (.reconcile (.session (.setUserToken token))), s =>
    accountOf accounts token = s.2.inUse || s.1.history.written.all (·.tokens.isEmpty)
  | .command (.reconcile (.replaceContainer _ _ _ tokens)), s
  | .command (.reconcile (.updateContainerState _ _ tokens)), s => settles i tokens s
  | _, _ => true

theorem settled_of_settles {i : ℕ} {container : Container} {tokens : List TokenResponse}
    {s : World × Track} (h : settles i tokens s = true) : Settled i container tokens s := by
  simp only [settles, Bool.or_eq_true, Bool.and_eq_true, List.isEmpty_iff, List.all_eq_true,
    Option.all_eq_true, decide_eq_true_eq] at h
  exact h.imp_right .inr

theorem careful_of_heeds (i : ℕ) (r : Request) (s : World × Track) (h : heeds i r s = true) :
    Careful accounts i r s := by
  unfold Careful
  split
  · simpa [heeds] using h
  · exact settled_of_settles h
  · exact settled_of_settles h
  · trivial

/-- The first signs out before the second signs in. -/
def parted : List Move :=
  whole 65 1 .signIn first ++ whole 11 1 .signOut first ++ whole 60 1 .signIn second

theorem isolated_parted : ∃ c account, SeparateRuns accounts False c ∧
    named c.state.1.store = some account ∧ account.sub = "b" ∧
      c.state.1.store.entry.rows ≠ [] ∧ IsolatedTo accounts account c.state.1 := by
  obtain ⟨c, hplay, hc⟩ := (Option.any_eq_true
    (fun c : Pool Request Answer (World × Track) ↦
      (named c.state.1.store).any (·.sub = "b") && !c.state.1.store.entry.rows.isEmpty)
      (playBeside accounts (note accounts) heeds ⟨((freshEngine accounts).state, {}),
        fun _ ↦ none⟩ parted)).mp (by decide +kernel)
  have hrun : SeparateRuns accounts False c := runs_of_playBeside careful_of_heeds
    (.first ⟨⟨0, 1000, rfl⟩, rfl⟩) hplay
  obtain ⟨hnamed, hrows⟩ := Bool.and_eq_true_iff.mp hc
  obtain ⟨account, hn, hsub⟩ := (Option.any_eq_true _ _).mp hnamed
  refine ⟨c, account, hrun, hn, of_decide_eq_true hsub, ?_, isolated_of_run hrun hn⟩
  exact List.isEmpty_eq_false_iff.mp (by simpa using hrows)

end Samples

end FolderClient.Engine.AccountRuns
