import FolderClient.Engine.Effects
import FolderClient.Engine.Orderly
import FolderClient.Engine.Play
import FolderClient.Storage.Listings

namespace FolderClient.Engine.EtagRuns

open FolderClient.Net.Access
open FolderClient.Core.Namespace FolderClient.Core.Changes FolderClient.Library.Json
open FolderClient.Library.Programs FolderClient.Library.Programs.Program
open FolderClient.Library.Programs.Contract FolderClient.Library.Pools
open FolderClient.Storage.Basic FolderClient.Storage.Tree FolderClient.Storage.Effects
open FolderClient.Storage.TreeRuns FolderClient.Storage.Listings
open FolderClient.Engine.Port FolderClient.Engine.Reconcile FolderClient.Engine.System
open FolderClient.Engine.Effects FolderClient.Engine.Orderly

/-- A listing as far as the server has answered it page by page, with what the last page says
about the next one. -/
inductive Answered (pages : List PageAnswer) (container : Container) :
    Listing → Option String → Prop
  | first {a : PageAnswer} : a ∈ pages → a.container = container → a.cursor = none →
      Answered pages container (Listing.empty.add a.page) a.page.continuation
  | next {list : Listing} {cursor : String} {a : PageAnswer} :
      Answered pages container list (some cursor) → a ∈ pages → a.container = container →
      a.cursor = some cursor → Answered pages container (list.add a.page) a.page.continuation

/-- A listing that was answered to its end, or up to the limit of pages. -/
inductive Complete (pages : List PageAnswer) (container : Container) : Listing → Prop
  | ended {list : Listing} : Answered pages container list none → Complete pages container list
  | limited {list : Listing} {cursor : String} : Answered pages container list (some cursor) →
      list.pages = maxPage → Complete pages container { list with limitReached := true }

section Pages

variable {pages pages' : List PageAnswer} {container : Container} {list : Listing}

theorem Answered.mono (hp : pages ⊆ pages') {cursor : Option String}
    (h : Answered pages container list cursor) : Answered pages' container list cursor := by
  induction h with
  | first ha hc hn => exact .first (hp ha) hc hn
  | next _ ha hc hn ih => exact .next ih (hp ha) hc hn

theorem Complete.mono (hp : pages ⊆ pages') (h : Complete pages container list) :
    Complete pages' container list := by
  cases h with
  | ended h => exact .ended (h.mono hp)
  | limited h hm => exact .limited (h.mono hp) hm

end Pages

/-- The stored children of a container are the entries built from a listing, but for documents
that have been erased. -/
def Holds (setting : Setting) (s : Store) (container : Container) (list : Listing) : Prop :=
  ∃ children, s.children container = .ok children ∧
    (∀ e ∈ children, e ∈ entriesOf setting container list) ∧
    ∀ e ∈ entriesOf setting container list, e ∈ children ∨
      ∃ document, e.identifier.document? = some document ∧ s.erased.contains document = true

/-- Every container whose state carries an ETag holds the listing the server answered with it. -/
def EtagKept (setting : Setting) (w : World) : Prop :=
  ∀ container state etag, w.store.containerStateOf container = some state →
    state.etag = some etag → ∃ list, Complete w.history.pages container list ∧
      list.etag = some etag ∧ Holds setting w.store container list

/-- A listing is confirmed only where the state with the ETag confirmed still stands. -/
def Confirms : Request → World → Prop
  | .command (.reconcile (.updateContainerState container state _)), w =>
    w.store.containerKnown container = true → ∀ etag, state.etag = some etag →
      ∃ before, w.store.containerStateOf container = some before ∧ before.etag = some etag
  | _, _ => True

def confirming : Condition where
  serve _ r w _ _ := Confirms r w

/-- A listing is written with the ETag the server answered it with. -/
def InOrder (setting : Setting) : Request → World → Prop
  | .command (.reconcile (.replaceContainer container entries state _)), w =>
    ∀ etag, state.etag = some etag → ∃ list, Complete w.history.pages container list ∧
      list.etag = some etag ∧ entries = entriesOf setting container list
  | _, _ => True

def discipline (setting : Setting) : Discipline Request Answer World where
  invariant w := WellFormed setting.unicode w.store ∧ EtagKept setting w
  ok _ := InOrder setting
  rely _ w w' := w.history.pages ⊆ w'.history.pages
  ends _ _ := True

section Fetches

variable {setting : Setting} {fails : Prop} {c : Condition} {i : ℕ} {w w' : World}

abbrev contract (setting : Setting) (fails : Prop) (c : Condition) (i : ℕ) :
    Contract Request Answer World :=
  (discipline setting).contract (rules setting fails c) i

theorem sound_readPages (container : Container) (known : Option String) (n : ℕ)
    (list : Listing) (cursor : Option String) (tokens : List TokenResponse) {w : World}
    (hn : list.pages + n = maxPage)
    (hl : (cursor = none ∧ list = .empty) ∨
      ∃ next, cursor = some next ∧ Answered w.history.pages container list (some next)) :
    (reconciles (contract setting fails c i)).Sound (readPages container known n list cursor tokens)
      (fun x w' ↦ ∀ l, x.1 = .success l → Complete w'.history.pages container l) w := by
  induction n generalizing list cursor tokens w with
  | zero =>
    intro l hx
    obtain rfl := ApiResult.success.inj hx
    obtain ⟨-, rfl⟩ | ⟨next, -, ha⟩ := hl
    · simp [Listing.empty, maxPage] at hn
    · exact .limited ha (by omega)
  | succ n ih =>
    unfold readPages
    refine sound_call_bind trivial fun x w' w'' hserve hrely ↦ ?_
    obtain ⟨result, token⟩ := x
    cases result with
    | success page =>
      have hw : w' = w.noting fun h ↦
          { h with pages := h.pages ++ [⟨container, cursor, page, token⟩] } := hserve.1.2
      have hpages : w'.history.pages ⊆ w''.history.pages := hrely.1
      have hnew : (⟨container, cursor, page, token⟩ : PageAnswer) ∈ w''.history.pages := by
        refine hpages ?_
        rw [hw]
        exact List.mem_append_right _ List.mem_cons_self
      have hold : w.history.pages ⊆ w''.history.pages := by
        refine fun a ha ↦ hpages ?_
        rw [hw]
        exact List.mem_append_left _ ha
      have hadd : Answered w''.history.pages container (list.add page) page.continuation := by
        obtain ⟨hc, rfl⟩ | ⟨next, hc, ha⟩ := hl
        · exact .first (a := ⟨container, cursor, page, token⟩) hnew rfl hc
        · exact .next (a := ⟨container, cursor, page, token⟩) (ha.mono hold) hnew rfl hc
      dsimp only
      split
      · rename_i hcont
        intro l hx
        obtain rfl := ApiResult.success.inj hx
        exact .ended (hcont ▸ hadd)
      · rename_i next hcont
        refine ih (list.add page) (some next) _ ?_ (.inr ⟨next, rfl, hcont ▸ hadd⟩)
        have hp : (list.add page).pages = list.pages + 1 := rfl
        omega
    | _ =>
      intro l hx
      cases hx

theorem inOrder_of_harmless {r : Request} (h : Harmless r) (w : World) : InOrder setting r w := by
  unfold InOrder
  split
  · exact absurd h id
  · trivial

theorem fine_of_harmless {α : Type} {p : ReconcileActivity α} (h : p.Asks HarmlessReconcile) :
    (reconciles (contract setting fails c i)).Fine p :=
  fine_of_asks h fun r w hr ↦ inOrder_of_harmless (r := .command (.reconcile r)) hr w

theorem sound_adopt {container : Container} {entries : List Entry} {etag : Option String}
    {truncation : Option TruncationState} {tokens : List TokenResponse} {w : World}
    (h : ∀ e, etag = some e → ∃ list, Complete w.history.pages container list ∧
      list.etag = some e ∧ entries = entriesOf setting container list) :
    (reconciles (contract setting fails c i)).Sound
      (adopt container entries etag truncation tokens).run (fun _ _ ↦ True) w := by
  refine sound_fallible_bind ⟨trivial, fun time w' w'' hserve hrely ↦ ?_⟩
  have hw : w' = w := hserve.1
  have hpages : w.history.pages ⊆ w''.history.pages := hw ▸ hrely.1
  refine Contract.Sound.fine_bind (Q := fun _ _ ↦ True) ?_ fun result ↦ ?_
  · refine ⟨?_, fun _ _ _ _ _ ↦ trivial⟩
    intro e he
    obtain ⟨list, hl, hlist⟩ := h e he
    exact ⟨list, hl.mono hpages, hlist⟩
  · cases result with
    | error e => exact fine_done _
    | ok journal =>
      refine fine_of_harmless ?_
      change (if journal.isEmpty = true then pure () else registerWithPlatform journal :
        ReconcileFallible Unit).run.Asks HarmlessReconcile
      split
      · trivial
      · exact asks_lift (asks_registerWithPlatform journal)

theorem fine_fetchAndAdopt (container : Container) :
    (reconciles (contract setting fails c i)).Fine (fetchAndAdopt setting container).run := by
  refine fine_fallible_bind (fine_store (fine_call fun _ ↦ trivial)) fun before ↦ ?_
  split
  · exact fun w ↦ sound_adopt fun e he ↦ nomatch he
  · exact fun w ↦ sound_adopt fun e he ↦ nomatch he
  · intro w
    have hread : (reconciles (contract setting fails c i)).Sound
        (readPages container (before.bind (·.etag)) maxPage .empty none [])
        (fun x w' ↦ ∀ l, x.1 = .success l → Complete w'.history.pages container l) w :=
      sound_readPages container _ maxPage .empty none [] rfl (.inl ⟨rfl, rfl⟩)
    refine sound_fallible_bind (sound_bind.mpr (sound_mono ?_ hread))
    intro ⟨result, tokens⟩ w' hcomplete
    have hadopt : (reconciles (contract setting fails c i)).Sound
        (do let list ← raise (result.valueFrom (listingName container))
            adopt container (entriesOf setting container list) list.etag
              (if holdsDocuments container then list.truncation else none) tokens :
          ReconcileFallible Unit).run (fun _ _ ↦ True) w' := by
      refine sound_fallible_bind ?_
      cases hvalue : result.valueFrom (listingName container) with
      | error e => trivial
      | ok list =>
        refine sound_adopt fun e he ↦ ⟨list, ?_, he, rfl⟩
        exact hcomplete list (ApiResult.valueFrom_eq_ok hvalue)
    cases result with
    | unchanged etag => exact fine_of_harmless (asks_confirmed container etag tokens) w'
    | _ => exact hadopt

theorem orderly (setting : Setting) (fails : Prop) (c : Condition) (i : ℕ) :
    Orderly setting (contract setting fails c i) where
  harmless r w h _ := inOrder_of_harmless h w
  ensureForToken := fine_of_all (fun _ _ ↦ trivial) _
  forceRefresh := fine_of_all (fun _ _ ↦ trivial) _
  signIn := fine_of_all (fun _ _ ↦ trivial) _
  signOut := fine_of_all (fun _ _ ↦ trivial) _
  clearAfterSignOut := fine_of_all (fun _ _ ↦ trivial) _
  root := fun _ ↦ sound_adopt fun _ he ↦ nomatch he
  fetchAndAdopt := fine_fetchAndAdopt

end Fetches

section Kept

variable {setting : Setting} {fails : Prop} {w w' : World}

theorem EtagKept.of_sameNamespace (h : EtagKept setting w)
    (hs : SameNamespace w.store w'.store) (hp : w.history.pages ⊆ w'.history.pages) :
    EtagKept setting w' := by
  intro container state etag hstate hetag
  rw [Store.containerStateOf, hs.containerState] at hstate
  obtain ⟨list, hl, hle, children, hc, hin, hall⟩ := h container state etag hstate hetag
  refine ⟨list, hl.mono hp, hle, children, ?_, hin, ?_⟩
  · rw [← hc]
    unfold Store.children Store.readChildren Store.containerKnown
    rw [hs.entry]
  · intro e he
    rw [hs.erased]
    exact hall e he

section Stores

variable {s s' : Store} {container : Container} {list : Listing}

theorem holds_iff (hk : s.containerKnown container = true) :
    Holds setting s container list ↔
      (∀ e ∈ oldListing s container, e ∈ entriesOf setting container list) ∧
      ∀ e ∈ entriesOf setting container list, e ∈ oldListing s container ∨
        ∃ document, e.identifier.document? = some document ∧
          s.erased.contains document = true := by
  constructor
  · intro ⟨children, hc, h⟩
    rw [children_eq_ok hk] at hc
    obtain rfl := Except.ok.inj hc
    exact h
  · exact fun h ↦ ⟨_, children_eq_ok hk, h⟩

theorem holds_replaced_of_ne (ht : Rooted s) {replaced : Container} {fresh gone : List Entry}
    {state : ContainerState} (h : Replaced setting.unicode s s' replaced fresh state gone)
    (hne : container ≠ replaced) (hd : dropped s replaced fresh (.container container) = false)
    (hk : s.containerKnown container = true) (hk' : s'.containerKnown container = true)
    (hl : Holds setting s container list) : Holds setting s' container list := by
  obtain ⟨hin, hall⟩ := (holds_iff hk).mp hl
  refine (holds_iff hk').mpr ⟨fun e he ↦ ?_, fun e he ↦ ?_⟩
  · exact hin e ((mem_replaced_of_ne ht h hne hd).mp he)
  · refine (hall e he).imp (mem_replaced_of_ne ht h hne hd).mpr fun hgone ↦ ?_
    rw [h.frame]
    exact hgone

theorem holds_replaced {entries gone : List Entry} {state : ContainerState}
    (h : Replaced setting.unicode s s' container (withoutErased s entries state.fetched) state gone)
    (hk' : s'.containerKnown container = true) (he : entries = entriesOf setting container list) :
    Holds setting s' container list := by
  refine (holds_iff hk').mpr ⟨fun e hm ↦ ?_, fun e hm ↦ ?_⟩
  · rw [← he]
    exact (List.mem_filter.mp ((mem_replaced h).mp hm)).1
  · by_cases hf : e ∈ withoutErased s entries state.fetched
    · exact .inl ((mem_replaced h).mpr hf)
    · refine .inr ?_
      obtain ⟨document, hd, hc⟩ := erased_of_left_out (he ▸ hm) hf
      refine ⟨document, hd, ?_⟩
      rw [h.frame]
      exact hc

theorem holds_erased (ht : Rooted s) {document : DocumentIdentifier} {now : Timestamp}
    {out : List JournalEntry} (h : s.removeDocumentEverywhere document now = .ok (out, s'))
    (hk : s.containerKnown container = true) (hk' : s'.containerKnown container = true)
    (hl : Holds setting s container list) : Holds setting s' container list := by
  obtain ⟨hin, hall⟩ := (holds_iff hk).mp hl
  refine (holds_iff hk').mpr ⟨fun e he ↦ ?_, fun e he ↦ ?_⟩
  · exact hin e ((mem_erased ht h).mp he).1
  · by_cases hd : e.identifier.document? = some document
    · refine .inr ⟨document, hd, ?_⟩
      rw [erased_removeDocumentEverywhere h]
      simp
    · refine (hall e he).imp (fun hm ↦ (mem_erased ht h).mpr ⟨hm, hd⟩) fun hleft ↦ ?_
      obtain ⟨d, hed, hc⟩ := hleft
      refine ⟨d, hed, ?_⟩
      rw [erased_removeDocumentEverywhere h, hc]
      simp

end Stores

theorem etagKept_replaceContainer {container : Container} {entries gone : List Entry}
    {state : ContainerState} (hw : WellFormed setting.unicode w.store) (h : EtagKept setting w)
    (hp : w.history.pages ⊆ w'.history.pages)
    (hok : ∀ etag, state.etag = some etag → ∃ list, Complete w.history.pages container list ∧
      list.etag = some etag ∧ entries = entriesOf setting container list)
    (hr : Replaced setting.unicode w.store w'.store container
      (withoutErased w.store entries state.fetched) state gone) : EtagKept setting w' := by
  have hw' := rooted_of_replaced hw.rooted hr
  intro c st etag hst hetag
  have hk' := known_of_state hw' hst
  rw [containerStateOf_of_replaced hr] at hst
  split at hst
  · rename_i hc
    subst hc
    obtain rfl := Option.some.inj hst
    obtain ⟨list, hl, hle, he⟩ := hok etag hetag
    exact ⟨list, hl.mono hp, hle, holds_replaced hr hk' he⟩
  · rename_i hc
    split at hst
    · cases hst
    · rename_i hd
      have hk := known_of_state hw.rooted hst
      obtain ⟨list, hl, hle, hh⟩ := h c st etag hst hetag
      refine ⟨list, hl.mono hp, hle, ?_⟩
      exact holds_replaced_of_ne hw.rooted hr hc (by simpa using hd) hk hk' hh

theorem etagKept_updateContainerState {container : Container} {state : ContainerState}
    (hw : WellFormed setting.unicode w.store) (h : EtagKept setting w)
    (hp : w.history.pages ⊆ w'.history.pages)
    (hc : w.store.containerKnown container = true → ∀ etag, state.etag = some etag →
      ∃ before, w.store.containerStateOf container = some before ∧ before.etag = some etag)
    (hu : w.store.updateContainerState container state = .ok w'.store) :
    EtagKept setting w' := by
  obtain ⟨hknown, hs⟩ := updateContainerState_eq_ok hu
  have hchildren : ∀ c list, Holds setting w.store c list → Holds setting w'.store c list := by
    intro c list hl
    rw [hs]
    exact hl
  intro c st etag hst hetag
  rw [hs, Store.containerStateOf, containerStateOf_upsert] at hst
  split at hst
  · rename_i hcc
    subst hcc
    obtain rfl := Option.some.inj hst
    obtain ⟨before, hbefore, hbe⟩ := hc hknown etag hetag
    obtain ⟨list, hl, hle, hh⟩ := h c before etag hbefore hbe
    exact ⟨list, hl.mono hp, hle, hchildren _ _ hh⟩
  · obtain ⟨list, hl, hle, hh⟩ := h c st etag hst hetag
    exact ⟨list, hl.mono hp, hle, hchildren _ _ hh⟩

theorem etagKept_removeDocumentEverywhere {document : DocumentIdentifier} {now : Timestamp}
    {out : List JournalEntry} (hw : WellFormed setting.unicode w.store) (h : EtagKept setting w)
    (hp : w.history.pages ⊆ w'.history.pages)
    (he : w.store.removeDocumentEverywhere document now = .ok (out, w'.store)) :
    EtagKept setting w' := by
  have hs := (removeDocumentEverywhere_eq_ok he).2.1
  have hw' := rooted_of_erased hw.rooted hs
  intro c st etag hst hetag
  have hk' := known_of_state hw' hst
  have hst' : w.store.containerStateOf c = some st := by
    rw [hs] at hst
    exact hst
  obtain ⟨list, hl, hle, hh⟩ := h c st etag hst' hetag
  refine ⟨list, hl.mono hp, hle, ?_⟩
  exact holds_erased hw.rooted he (known_of_state hw.rooted hst') hk' hh

/-- A request in order keeps the invariant. -/
theorem etagKept_serve {i : ℕ} {r : Request} {a : Answer r}
    (hw : WellFormed setting.unicode w.store) (h : EtagKept setting w) (hok : InOrder setting r w)
    (hc : Confirms r w) (hserve : serve setting fails i r w a w') : EtagKept setting w' := by
  have hp := pages_serve hserve
  obtain hs | hs := store_serve hserve
  · exact h.of_sameNamespace (hs ▸ .refl _) hp
  · cases hop : operationOf r with
    | none => exact h.of_sameNamespace (sameNamespace_of_operationOf hop hs) hp
    | some operation =>
      unfold operationOf at hop
      split at hop
      · obtain ⟨out, hs⟩ := map_snd_eq_ok hs
        obtain ⟨gone, -, hr⟩ := replaceContainer_eq_ok hw.rooted hs
        exact etagKept_replaceContainer hw h hp hok hr
      · exact etagKept_updateContainerState hw h hp hc hs
      · obtain ⟨out, hs⟩ := map_snd_eq_ok hs
        exact etagKept_removeDocumentEverywhere hw h hp hs
      · obtain ⟨new, hs⟩ := map_snd_eq_ok hs
        obtain ⟨-, hs⟩ := emptyNamespace_eq_ok hs
        intro c st etag hst
        rw [hs] at hst
        cases hst
      · cases hop

end Kept

theorem kept_of_sameRecord {setting : Setting} {w w' : World} {i : ℕ}
    (hi : (discipline setting).invariant w) (h : SameRecord w w') :
    (discipline setting).invariant w' ∧ ∀ j, j ≠ i → (discipline setting).rely j w w' := by
  have hp : w.history.pages ⊆ w'.history.pages := by
    rw [h.pages]
    exact List.Subset.refl _
  refine ⟨⟨?_, hi.2.of_sameNamespace (h.store ▸ .refl _) hp⟩, fun _ _ ↦ hp⟩
  rw [h.store]
  exact hi.1

theorem kept (setting : Setting) (fails : Prop) :
    (discipline setting).Kept (rules setting fails confirming) (Fresh setting) where
  refl _ _ := List.Subset.refl _
  trans _ _ _ _ h h' := List.Subset.trans h h'
  enter w := by
    intro ⟨n, limit, hw⟩
    rw [hw]
    refine ⟨SameNamespace.wellFormed (wellFormed_setUp _ n limit) ⟨rfl, rfl, rfl, rfl⟩, ?_⟩
    intro c st etag hst
    cases hst
  start i p w hi := by
    intro ⟨job, hp, _⟩ w' _ _
    rw [hp]
    exact fine_program (orderly setting fails confirming i)
      (fine_process (orderly setting fails confirming i) fun _ _ _ ↦ trivial)
      (fine_content (orderly setting fails confirming i) fun _ _ ↦ trivial) job w'
  serve i r w a w' hi hok hserve :=
    ⟨⟨wellFormed_serve hi.1 hserve.1, etagKept_serve hi.1 hi.2 hok hserve.2 hserve.1⟩,
      fun _ _ ↦ pages_serve hserve.1⟩
  finish i w w' hi _ hw := by
    rw [show w' = ended i w from hw]
    exact kept_of_sameRecord hi (sameRecord_ended i w)
  abort i w w' hi hw := by
    rw [hw.2]
    exact kept_of_sameRecord hi (sameRecord_aborted i w)
  restart w w' hi hw := by
    obtain ⟨-, fingerprint, rfl⟩ := hw
    exact hi
  outside w w' hi hw := by
    rw [hw.2]
    exact ⟨hi, fun _ ↦ List.Subset.refl _⟩

/-- In every run that confirms a listing only where the state with its ETag still stands, a
container with an ETag holds the listing the server answered with it. -/
theorem etag_kept_of_run {setting : Setting} {fails : Prop} {c : Activities}
    (h : Runs setting fails confirming c) : EtagKept setting c.state :=
  (Discipline.run_kept (kept setting fails) h).1.2

section Confirmed

open FolderClient.Engine.Play

def confirms : ℕ → (r : Request) → World → Answer r → World → Bool
  | _, .command (.reconcile (.updateContainerState container state _)), w, _, _ =>
    (w.store.containerStateOf container).any (·.etag = state.etag)
  | _, _, _, _, _ => true

theorem confirming_of_confirms {i : ℕ} {r : Request} {w w' : World} {a : Answer r}
    (h : confirms i r w a w' = true) : confirming.serve i r w a w' := by
  unfold confirms at h
  split at h
  · intro _ etag hetag
    obtain ⟨before, hbefore, heq⟩ := (Option.any_eq_true _ _).mp h
    exact ⟨before, hbefore, (of_decide_eq_true heq).trans hetag⟩
  · rename_i hne
    change Confirms r w
    unfold Confirms
    split
    · exact (hne _ _ _ _ rfl HEq.rfl).elim
    · trivial

/-- A search is fetched, and the next fetch is answered with its ETag. -/
def fetchedTwice : List Move :=
  whole 63 1 .signIn (welcoming (plainPage ["x"] "L")) ++
  whole 9 1 (.reconcile (.search ⟨1⟩)) (welcoming (plainPage ["ab"] "E")) ++
  whole 9 1 (.reconcile (.search ⟨1⟩)) (welcoming (.unchanged (some "E")))

theorem etag_kept_fetchedTwice : ∃ c, Runs plain False confirming c ∧
    (c.state.store.containerStateOf (.search ⟨1⟩)).any (·.etag = some "E") = true ∧
    EtagKept plain c.state := by
  obtain ⟨c, hplay, hetag⟩ := (Option.any_eq_true (fun c : Activities ↦
    (c.state.store.containerStateOf (.search ⟨1⟩)).any (·.etag = some "E"))
      (playIf plain confirms (freshEngine plain) fetchedTwice)).mp (by decide +kernel)
  have hrun := runs_of_playIf (fun i r w a w' ↦ confirming_of_confirms) runs_freshEngine hplay
  exact ⟨c, hrun, hetag, etag_kept_of_run hrun⟩

end Confirmed

section Overtaken

open FolderClient.Engine.Play

/-- A fetch of a search waits for its answer while the search leaves the listing above it and
comes back; then the server's answer that nothing has changed is confirmed. -/
def overtaken : List Move :=
  whole 63 1 .signIn (welcoming (plainPage ["x"] "L")) ++
  whole 9 1 (.reconcile (.search ⟨1⟩)) (welcoming (plainPage ["ab"] "E")) ++
  (.start 1 (.reconcile (.search ⟨1⟩)) :: asks 6 1 (welcoming (.unchanged (some "E")))) ++
  whole 9 2 (.reconcile .searches) (welcoming (plainPage [] "M")) ++
  whole 9 2 (.reconcile .searches) (welcoming (plainPage ["x"] "N")) ++
  asks 3 1 (welcoming (.unchanged (some "E"))) ++ [.finish 1]

/-- The document of the listing answered with the ETag. -/
def lostEntry : Entry :=
  ⟨.document (.search ⟨1⟩) ⟨2⟩, "ab", .file ⟨1, some ⟨0⟩, "1", .null, .null, "text/plain"⟩⟩

/-- The search has an ETag but no children, and every page answered for it holds the document. -/
def isLost (w : World) : Bool :=
  (w.store.containerStateOf (.search ⟨1⟩)).any (·.etag = some "E") &&
    (oldListing w.store (.search ⟨1⟩)).isEmpty && !w.store.erased.contains ⟨2⟩ &&
    w.history.pages.all fun a ↦ a.container ≠ .search ⟨1⟩ || (a.page.continuation.isNone &&
      entriesOf plain (.search ⟨1⟩) (Listing.empty.add a.page) = [lostEntry])

theorem isLost_overtaken :
    (play plain (freshEngine plain) overtaken).any (fun c ↦ isLost c.state) = true := by
  decide +kernel

theorem not_etagKept_of_isLost {w : World} (h : isLost w = true) : ¬ EtagKept plain w := by
  simp only [isLost, Bool.and_eq_true, Bool.not_eq_true', List.isEmpty_iff, List.all_eq_true,
    Bool.or_eq_true, decide_eq_true_eq, Option.any_eq_true, Option.isNone_iff_eq_none] at h
  obtain ⟨⟨⟨⟨state, hstate, hetag⟩, hempty⟩, herased⟩, hpages⟩ := h
  intro hkept
  obtain ⟨list, hlist, -, children, hchildren, -, hall⟩ := hkept _ state "E" hstate hetag
  have hlost : ∀ {l : Listing} {cursor : Option String},
      Answered w.history.pages (.search ⟨1⟩) l cursor →
        cursor = none ∧ entriesOf plain (.search ⟨1⟩) l = [lostEntry] := by
    intro l cursor ha
    induction ha with
    | first hm hc hn => exact (hpages _ hm).resolve_left fun hne ↦ hne hc
    | next _ hm hc hn ih => cases ih.1
  have hentries : entriesOf plain (.search ⟨1⟩) list = [lostEntry] := by
    cases hlist with
    | ended ha => exact (hlost ha).2
    | limited ha hm => cases (hlost ha).1
  have hnone : children = [] := by
    unfold Store.children at hchildren
    split at hchildren
    · exact (Except.ok.inj hchildren).symm.trans hempty
    · cases hchildren
  obtain hm | ⟨document, hd, hc⟩ := hall lostEntry (hentries ▸ List.mem_cons_self)
  · rw [hnone] at hm
    cases hm
  · obtain rfl : (⟨2⟩ : DocumentIdentifier) = document := Option.some.inj hd
    rw [herased] at hc
    cases hc

theorem etag_not_kept : ¬ ∀ (setting : Setting) (fails : Prop) (c : Activities),
    Runs setting fails {} c → EtagKept setting c.state := by
  intro hall
  obtain ⟨c, hplay, hlost⟩ := (Option.any_eq_true _ _).mp isLost_overtaken
  exact not_etagKept_of_isLost hlost (hall plain False c (runs_of_play runs_freshEngine hplay))

end Overtaken

end FolderClient.Engine.EtagRuns
