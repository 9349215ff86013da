import FolderClient.Engine.Effects
import FolderClient.Engine.Orderly
import FolderClient.Engine.Play
import FolderClient.Storage.Listings

namespace FolderClient.Engine.ShownRuns

open FolderClient.Core.Namespace FolderClient.Core.Changes FolderClient.Engine.Effects
open FolderClient.Engine.Hydration FolderClient.Engine.Orderly FolderClient.Engine.Port
open FolderClient.Engine.Reconcile FolderClient.Engine.System FolderClient.Engine.Transfers
open FolderClient.Library.Pools FolderClient.Library.Programs
open FolderClient.Library.Programs.Program FolderClient.Library.Programs.Contract
open FolderClient.Net.Access FolderClient.Storage.Basic FolderClient.Storage.Effects
open FolderClient.Storage.Listings FolderClient.Storage.Tree FolderClient.Storage.TreeRuns

/-- Every listing shown was stored since the namespace was last emptied, and that of the root is
not empty. -/
def OnlyFetched (w : World) : Prop :=
  ∀ s ∈ w.history.shown, s.fetched = true ∧ (s.container = .root → s.entries ≠ [])

/-- Children are read only where the state of their container stands, and a state is confirmed only
where it still stands. -/
def Stands : Request → World → Prop
  | .source (.children container), w => (w.store.containerStateOf container).isSome = true
  | .command (.reconcile (.updateContainerState container _ _)), w =>
    w.store.containerKnown container = true →
      (w.store.containerStateOf container).isSome = true
  | _, _ => True

def standing : Condition where
  serve _ r w _ _ := Stands r w

section Answers

variable (setting : Setting) (fails : Prop) (i : ℕ)

/-- The engine as an activity meets it, as far as what was shown remains. -/
def remembering : Contract Request Answer World where
  serve := serve setting fails i
  rely w w' := w.history.shown ⊆ w'.history.shown
  ok _ _ := True

variable {setting fails i}

theorem children_root (s : Store) : s.children .root = .ok (oldListing s .root) :=
  children_eq_ok rfl

end Answers

/-- The root gets its fixed children, whatever the server says. -/
def InOrder (setting : Setting) : Request → World → Prop
  | .command (.reconcile (.replaceContainer container entries _ _)), _ =>
    container = .root → entries = setting.rootEntries
  | _, _ => True

/-- A state stands only over a listing that was stored since the namespace was last emptied. -/
structure Listed (setting : Setting) (w : World) : Prop where
  wellFormed : WellFormed setting.unicode w.store
  listed : ∀ container, (w.store.containerStateOf container).isSome = true →
    w.history.listed container = true
  root : (w.store.containerStateOf .root).isSome = true →
    ∃ e ∈ oldListing w.store .root, e.identifier.document? = none
  shown : OnlyFetched w

section Kept

variable {setting : Setting} {fails : Prop} {i : ℕ} {w w' : World}

theorem oldListing_of_entry_eq {s s' : Store} (h : s'.entry = s.entry) (container : Container) :
    oldListing s' container = oldListing s container := by
  unfold oldListing Store.readChildren
  rw [h]

theorem listed_write (h : History) (written : Written) (container : Container) :
    (h.write written).listed container =
      (h.listed container || (decide (written.container = container) && !written.confirms)) := by
  simp [History.listed, History.write]

theorem Listed.of_sameNamespace (h : Listed setting w) (hs : SameNamespace w.store w'.store)
    (hw : w'.history.written = w.history.written) (hsh : w'.history.shown = w.history.shown) :
    Listed setting w' where
  wellFormed := hs.wellFormed h.wellFormed
  listed container hc := by
    rw [Store.containerStateOf, hs.containerState] at hc
    rw [History.listed, hw]
    exact h.listed container hc
  root hc := by
    rw [Store.containerStateOf, hs.containerState] at hc
    rw [oldListing_of_entry_eq hs.entry]
    exact h.root hc
  shown := by
    rw [OnlyFetched, hsh]
    exact h.shown

theorem listed_replaceContainer {container : Container} {entries gone : List Entry}
    {state : ContainerState} {tokens : List TokenResponse} {s : Store} (h : Listed setting w)
    (hwf : WellFormed setting.unicode s)
    (hok : container = .root → entries = setting.rootEntries)
    (hr : Replaced setting.unicode w.store s container
      (withoutErased w.store entries state.fetched) state gone) :
    Listed setting
      { w.noting (.write ⟨container, entries, state, tokens, false⟩) with store := s } where
  wellFormed := hwf
  listed c hc := by
    dsimp only [World.noting] at hc ⊢
    rw [listed_write, Bool.or_eq_true]
    rw [containerStateOf_of_replaced hr] at hc
    split at hc
    · rename_i he
      right
      simp [he]
    · split at hc
      · cases hc
      · exact .inl (h.listed c hc)
  root hc := by
    dsimp only [World.noting] at hc ⊢
    rw [containerStateOf_of_replaced hr] at hc
    split at hc
    · rename_i he
      subst he
      obtain rfl := hok rfl
      refine ⟨setting.rootEntries.head (List.cons_ne_nil _ _), (mem_replaced hr).mpr ?_, rfl⟩
      exact List.mem_filter.mpr ⟨List.mem_cons_self, rfl⟩
    · rename_i hne
      split at hc
      · cases hc
      · rename_i hd
        obtain ⟨e, he, hdoc⟩ := h.root hc
        refine ⟨e, (mem_replaced_of_ne h.wellFormed.rooted hr hne ?_).mpr he, hdoc⟩
        simpa using hd
  shown := h.shown

theorem listed_updateContainerState {container : Container} {state : ContainerState}
    {tokens : List TokenResponse} {s : Store} (h : Listed setting w)
    (hwf : WellFormed setting.unicode s)
    (hc : w.store.containerKnown container = true →
      (w.store.containerStateOf container).isSome = true)
    (hu : w.store.updateContainerState container state = .ok s) :
    Listed setting
      { w.noting (.write ⟨container, [], state, tokens, true⟩) with store := s } := by
  obtain ⟨hknown, rfl⟩ := updateContainerState_eq_ok hu
  have hbefore := hc hknown
  have hstate : ∀ c, (Store.containerStateOf { w.store with
      containerState := w.store.containerState.upsert ⟨container, state⟩ } c).isSome = true →
        (w.store.containerStateOf c).isSome = true := by
    intro c hsome
    rw [Store.containerStateOf, containerStateOf_upsert] at hsome
    split at hsome
    · rename_i he
      rw [he]
      exact hbefore
    · exact hsome
  refine ⟨hwf, fun c hsome ↦ ?_, fun hsome ↦ h.root (hstate _ hsome), h.shown⟩
  dsimp only [World.noting]
  rw [listed_write, Bool.or_eq_true]
  exact .inl (h.listed c (hstate c hsome))

theorem listed_removeDocumentEverywhere {document : DocumentIdentifier} {now : Timestamp}
    {out : List JournalEntry} {s : Store} (h : Listed setting w)
    (hwf : WellFormed setting.unicode s)
    (he : w.store.removeDocumentEverywhere document now = .ok (out, s)) :
    Listed setting { w with store := s } := by
  have hs := (removeDocumentEverywhere_eq_ok he).2.1
  have hstate : ∀ c, s.containerStateOf c = w.store.containerStateOf c := by
    intro c
    rw [hs]
    rfl
  refine ⟨hwf, fun c hc ↦ h.listed c (hstate c ▸ hc), fun hc ↦ ?_, h.shown⟩
  obtain ⟨e, hm, hdoc⟩ := h.root (hstate _ ▸ hc)
  refine ⟨e, (mem_erased h.wellFormed.rooted he).mpr ⟨hm, ?_⟩, hdoc⟩
  rw [hdoc]
  exact nofun

theorem listed_children {container : Container} {entries : List Entry} (h : Listed setting w)
    (hc : (w.store.containerStateOf container).isSome = true)
    (hs : w.store.children container = .ok entries) :
    Listed setting (w.noting (.showing container entries)) := by
  refine ⟨h.wellFormed, h.listed, h.root, fun s hm ↦ ?_⟩
  obtain hm | hm := List.mem_append.mp hm
  · exact h.shown s hm
  · obtain rfl := List.mem_singleton.mp hm
    refine ⟨h.listed container hc, fun hroot ↦ ?_⟩
    obtain rfl : container = .root := hroot
    obtain ⟨e, he, -⟩ := h.root hc
    rw [children_root] at hs
    obtain rfl := Except.ok.inj hs
    exact List.ne_nil_of_mem he

theorem written_notes {s : Store} {r : Request} {a : Answer r} {h : History}
    (hop : operationOf r = none) : (notes s r a h).written = h.written := by
  cases r with
  | command r =>
    cases r with
    | reconcile r =>
      cases r with
      | session r =>
        cases r with
        | emptyNamespace => cases hop
        | _ => rfl
      | replaceContainer | updateContainerState => cases hop
      | listPage container cursor etag =>
        obtain ⟨result, token⟩ := a
        cases result <;> rfl
      | _ => rfl
    | runBegins command order =>
      change (h.runBegins _ _ _).written = h.written
      unfold History.runBegins
      split <;> rfl
    | _ => rfl
  | source r =>
    cases r with
    | children container => cases a <;> rfl
    | _ => rfl
  | _ => rfl

theorem shown_notes {s : Store} {r : Request} {a : Answer r} {h : History}
    (hr : ∀ container, r ≠ .source (.children container)) : (notes s r a h).shown = h.shown := by
  cases r with
  | command r =>
    cases r with
    | reconcile r =>
      cases r with
      | session r => cases r <;> rfl
      | listPage container cursor etag =>
        obtain ⟨result, token⟩ := a
        cases result <;> rfl
      | _ => rfl
    | runBegins command order =>
      change (h.runBegins _ _ _).shown = h.shown
      unfold History.runBegins
      split <;> rfl
    | _ => rfl
  | source r =>
    cases r with
    | children container => exact absurd rfl (hr container)
    | _ => rfl
  | _ => rfl

theorem listed_serve {r : Request} {a : Answer r} (h : Listed setting w) (hok : InOrder setting r w)
    (hc : Stands r w) (hserve : serve setting fails i r w a w') : Listed setting w' := by
  have hwf := wellFormed_serve h.wellFormed hserve
  cases hop : operationOf r with
  | some operation =>
    unfold operationOf at hop
    split at hop
    · obtain ⟨rfl, -⟩ | ⟨b, s, hs, -, rfl⟩ := storedNoting_cases hserve
      · exact h
      · obtain ⟨gone, -, hr⟩ := replaceContainer_eq_ok h.wellFormed.rooted hs
        exact listed_replaceContainer h hwf hok hr
    · obtain ⟨rfl, -⟩ | ⟨b, s, hs, -, rfl⟩ := storedNoting_cases hserve
      · exact h
      · exact listed_updateContainerState h hwf hc (unit_eq_ok hs)
    · obtain ⟨rfl, -⟩ | ⟨b, s, hs, -, rfl⟩ := storedNoting_cases hserve
      · exact h
      · exact listed_removeDocumentEverywhere h hwf hs
    · obtain ⟨rfl, -⟩ | ⟨b, s, hs, -, rfl⟩ := storedNoting_cases hserve
      · exact h
      · cases hempty : w.store.emptyNamespace with
        | error e => rw [hempty] at hs; cases hs
        | ok x =>
          rw [hempty] at hs
          obtain ⟨-, rfl⟩ := Prod.mk.inj (Except.ok.inj hs)
          obtain ⟨-, hx⟩ := emptyNamespace_eq_ok hempty
          have hnone : ∀ c, x.2.containerStateOf c = none := by
            intro c
            rw [hx]
            rfl
          refine ⟨hwf, fun c hc ↦ ?_, fun hc ↦ ?_, h.shown⟩
          · rw [show _ = none from hnone c] at hc
            cases hc
          · rw [show _ = none from hnone .root] at hc
            cases hc
    · cases hop
  | none =>
    have hs : SameNamespace w.store w'.store := by
      obtain hs | hs := store_serve hserve
      · exact hs ▸ .refl _
      · exact sameNamespace_of_operationOf hop hs
    have hwritten : w'.history.written = w.history.written := by
      obtain hh | hh := history_serve hserve <;> rw [hh]
      exact written_notes hop
    by_cases hr : ∃ container, r = .source (.children container)
    · obtain ⟨container, rfl⟩ := hr
      obtain ⟨-, -, rfl⟩ | hserve := hserve
      · exact h
      · split at hserve
        · obtain ⟨-, rfl⟩ := hserve
          exact listed_children h hc ‹_›
        · obtain ⟨-, rfl⟩ := hserve
          exact h
    · refine h.of_sameNamespace hs hwritten ?_
      obtain hh | hh := history_serve hserve <;> rw [hh]
      exact shown_notes fun container he ↦ hr ⟨container, he⟩

end Kept

section Fetches

variable {setting : Setting}

def Orders (setting : Setting) (r : ReconcileRequest) : Prop :=
  ∀ w, InOrder setting (.command (.reconcile r)) w

theorem inOrder_of_harmless {r : Request} (h : Harmless r) (w : World) : InOrder setting r w := by
  unfold InOrder
  split
  · exact absurd h id
  · trivial

theorem orders_of_harmless (r : ReconcileRequest) (h : HarmlessReconcile r) : Orders setting r :=
  inOrder_of_harmless (r := .command (.reconcile r)) h

theorem asks_adopt {container : Container} {entries : List Entry}
    (h : container = .root → entries = setting.rootEntries) (etag : Option String)
    (truncation : Option TruncationState) (tokens : List TokenResponse) :
    (adopt container entries etag truncation tokens).run.Asks (Orders setting) := by
  refine asks_fallible_bind (asks_lift (asks_call fun _ ↦ trivial)) fun time ↦ ?_
  refine asks_fallible_bind (asks_store (asks_call fun _ ↦ h)) fun journal ↦ ?_
  change (if journal.isEmpty = true then pure () else registerWithPlatform journal :
    ReconcileFallible Unit).run.Asks (Orders setting)
  split
  · trivial
  · exact asks_lift ((asks_registerWithPlatform journal).mono orders_of_harmless)

theorem asks_fetchAndAdopt (container : Container) :
    (fetchAndAdopt setting container).run.Asks (Orders setting) := by
  refine asks_fallible_bind (asks_store (asks_call fun _ ↦ trivial)) fun before ↦ ?_
  split
  · exact asks_adopt (fun _ ↦ rfl) none none []
  · rename_i b
    exact asks_adopt (fun hroot : Container.basket b = .root ↦ nomatch hroot) none none []
  · rename_i hroot _
    refine asks_fallible_bind (asks_lift
      ((asks_readPages container _ _ _ _ _).mono orders_of_harmless)) fun x ↦ ?_
    obtain ⟨result, tokens⟩ := x
    have hadopt : (do
        let list ← raise (result.valueFrom (listingName container))
        adopt container (entriesOf setting container list) list.etag
          (if holdsDocuments container then list.truncation else none) tokens :
        ReconcileFallible Unit).run.Asks (Orders setting) :=
      asks_fallible_bind trivial fun list ↦ asks_adopt (fun he ↦ absurd he hroot) _ _ _
    cases result with
    | unchanged etag => exact (asks_confirmed container etag tokens).mono orders_of_harmless
    | _ => exact hadopt

def discipline (setting : Setting) : Discipline Request Answer World where
  invariant := Listed setting
  ok _ := InOrder setting
  rely _ _ _ := True
  ends _ _ := True

variable {fails : Prop} {condition : Condition} {i : ℕ}

abbrev contract (setting : Setting) (fails : Prop) (condition : Condition) (i : ℕ) :
    Contract Request Answer World :=
  (discipline setting).contract (rules setting fails condition) i

theorem fine_of_orders {α : Type} {p : ReconcileActivity α} (h : p.Asks (Orders setting)) :
    (reconciles (contract setting fails condition i)).Fine p :=
  fine_of_asks h fun _ w hr ↦ hr w

theorem orderly (setting : Setting) (fails : Prop) (condition : Condition) (i : ℕ) :
    Orderly setting (contract setting fails condition i) where
  harmless _ w h _ := inOrder_of_harmless h w
  ensureForToken := fine_of_all (fun _ _ ↦ trivial) _
  forceRefresh := fine_of_all (fun _ _ ↦ trivial) _
  signIn := fine_of_all (fun _ _ ↦ trivial) _
  signOut := fine_of_all (fun _ _ ↦ trivial) _
  clearAfterSignOut := fine_of_all (fun _ _ ↦ trivial) _
  root := fine_of_orders (asks_adopt (fun _ ↦ rfl) none none [])
  fetchAndAdopt container := fine_of_orders (asks_fetchAndAdopt container)

theorem Listed.of_sameRecord {w w' : World} (h : Listed setting w) (hr : SameRecord w w')
    (hs : w'.history.shown = w.history.shown) : Listed setting w' :=
  h.of_sameNamespace (hr.store ▸ .refl _) hr.written hs

theorem kept (setting : Setting) (fails : Prop) :
    (discipline setting).Kept (rules setting fails standing) (Fresh setting) where
  refl _ _ := trivial
  trans _ _ _ _ _ _ := trivial
  enter w := by
    intro ⟨n, limit, hw⟩
    rw [hw]
    refine ⟨SameNamespace.wellFormed (wellFormed_setUp _ n limit) ⟨rfl, rfl, rfl, rfl⟩, ?_, ?_, ?_⟩
    · intro c hc
      cases hc
    · intro hc
      cases hc
    · intro s hs
      cases hs
  start i p w hi := by
    intro ⟨job, hp, _⟩ w' _ _
    rw [hp]
    exact fine_program (orderly setting fails standing i)
      (fine_process (orderly setting fails standing i) fun _ _ _ ↦ trivial)
      (fine_content (orderly setting fails standing i) fun _ _ ↦ trivial) job w'
  serve i r w a w' hi hok hserve :=
    ⟨listed_serve hi hok hserve.2 hserve.1, fun _ _ ↦ trivial⟩
  finish i w w' hi _ hw := by
    obtain rfl := hw
    refine ⟨hi.of_sameRecord (sameRecord_ended i w) ?_, fun _ _ ↦ trivial⟩
    obtain he | ⟨-, he⟩ := ended_cases i w <;> rw [he]
    rfl
  abort i w w' hi hw := by
    obtain ⟨-, rfl⟩ := hw
    refine ⟨hi.of_sameRecord (sameRecord_aborted i w) ?_, fun _ _ ↦ trivial⟩
    change (ended i w).history.shown = _
    obtain he | ⟨-, he⟩ := ended_cases i w <;> rw [he]
    rfl
  restart w w' hi hw := by
    obtain ⟨-, fingerprint, rfl⟩ := hw
    exact ⟨hi.wellFormed, hi.listed, hi.root, hi.shown⟩
  outside w w' hi hw := by
    obtain ⟨-, rfl⟩ := hw
    exact ⟨⟨hi.wellFormed, hi.listed, hi.root, hi.shown⟩, fun _ ↦ trivial⟩

end Fetches

section Opened

open FolderClient.Engine.Play

def stands : ℕ → (r : Request) → World → Answer r → World → Bool
  | _, .source (.children container), w, _, _ => (w.store.containerStateOf container).isSome
  | _, .command (.reconcile (.updateContainerState container _ _)), w, _, _ =>
    (w.store.containerStateOf container).isSome
  | _, _, _, _, _ => true

/-- Somebody signs in, and the root and then a search are opened. -/
def opened : List Move :=
  whole 63 1 .signIn (welcoming (plainPage ["x"] "L")) ++
  whole 4 1 (.children .root) {} ++
  whole 14 1 (.children (.search ⟨1⟩)) (welcoming (plainPage ["ab"] "E"))

end Opened

end FolderClient.Engine.ShownRuns
