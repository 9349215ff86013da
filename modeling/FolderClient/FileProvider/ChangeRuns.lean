import FolderClient.FileProvider.Enumerator
import FolderClient.Library.Oracles
import FolderClient.Storage.AnchorRuns

namespace FolderClient.FileProvider.ChangeRuns

open FolderClient.Core.Changes FolderClient.Core.Namespace FolderClient.Engine.Transfers
open FolderClient.FileProvider.Enumerator FolderClient.FileProvider.Marker
open FolderClient.Library.EditLog FolderClient.Library.Oracles FolderClient.Library.Ordered
open FolderClient.Library.Programs FolderClient.Library.Tables
open FolderClient.Storage.AnchorRuns FolderClient.Storage.Basic FolderClient.Storage.Paging
open FolderClient.Storage.Runs

/-- The engine behind the source, while it answers one call. -/
structure EngineSource where
  stopped : Bool
  store : Store

namespace EngineSource

def currentSequence (engine : EngineSource) : Except SourceError ℕ :=
  if engine.stopped then .error .notSignedIn else .ok engine.store.currentSequence

/-- What has happened since a sequence number. An anchor that is older than the journal, or comes
from another database, has expired. -/
def changesSince (describe : StoreError → String) (engine : EngineSource) (sequence max : ℕ) :
    Except SourceError ChangeState :=
  if engine.stopped then .error .notSignedIn
  else
    match engine.store.changesSince sequence max with
    | .ok state => .ok state
    | .error (.anchorExpired _ _) => .error .anchorExpired
    | .error (.anchorUnknown _ _) => .error .anchorExpired
    | .error error => .error (.internal (describe error))

/-- The engine at each call of one step; nothing else is asked of it here. -/
def world (describe : StoreError → String) (engines : ℕ → EngineSource) :
    Oracle NamespaceRequest NamespaceAnswer
  | _, .children _ => .ok []
  | n, .currentSequence => (engines n).currentSequence
  | n, .changesSince sequence max => (engines n).changesSince describe sequence max

end EngineSource

variable {target : EnumerateTarget} {size : ℕ} {describe : StoreError → String}

section Collapsing

variable {changes : List JournalEntry} {m : Snapshot EntryIdentifier Entry}

/-- The edits of those changes that belong to a target. -/
def editsFor (target : EnumerateTarget) (changes : List JournalEntry) :
    List (Edit EntryIdentifier Entry) :=
  (changes.map fun entry ↦ entry.change.edit).filter fun edit ↦ target.affects edit.key

theorem lookup_edits (es : List (Edit EntryIdentifier Entry)) (k : EntryIdentifier) :
    (es.map fun e ↦ (e.key, e.value)).lookup k = (es.find? fun e ↦ e.key = k).map Edit.value := by
  induction es with
  | nil => rfl
  | cons e es ih =>
    rw [List.map_cons, lookup_cons_ite, List.find?_cons, ih]
    by_cases hk : e.key = k
    · rw [if_pos hk.symm, decide_eq_true hk]
      rfl
    · rw [if_neg (Ne.symm hk), decide_eq_false hk]

theorem collapse_eq : collapse target changes =
    .ofList ((editsFor target changes).map fun e ↦ (e.key, e.value)) := by
  unfold collapse editsFor
  congr 1
  induction changes with
  | nil => rfl
  | cons entry changes ih =>
    have hkey := entry.change.edit_key
    have hvalue : entry.change.edit.value = entry.change.after := by
      cases entry.change <;> rfl
    rw [List.filterMap_cons, List.map_cons]
    by_cases ha : target.affects entry.change.identifier = true
    · rw [if_pos ha, List.filter_cons_of_pos (hkey ▸ ha), List.map_cons, hkey, hvalue, ih]
    · rw [if_neg ha, List.filter_cons_of_neg (hkey ▸ ha), ih]

/-- The map of a page holds the last change of each identifier. -/
theorem get?_collapse (k : EntryIdentifier) :
    (collapse target changes).get? k = lastValue (editsFor target changes) k := by
  rw [collapse_eq, OrderedMap.get?_ofList, ← List.map_reverse, lookup_edits]
  rfl

/-- A page applied: first what is removed, then what is updated. -/
def editsOf (page : ChangePage) : List (Edit EntryIdentifier Entry) :=
  page.removed.map .delete ++ page.updated.map fun entry ↦ .put entry.identifier entry

theorem identifier_of_lastValue {k : EntryIdentifier} {e : Entry}
    (h : lastValue (editsFor target changes) k = some (some e)) : e.identifier = k := by
  obtain ⟨edit, hfind, hvalue⟩ := Option.map_eq_some_iff.mp h
  have hmem := List.mem_reverse.mp (List.mem_of_find?_eq_some hfind)
  have hkey : edit.key = k := by simpa using List.find?_some hfind
  obtain ⟨hmem, -⟩ := List.mem_filter.mp hmem
  obtain ⟨entry, -, rfl⟩ := List.mem_map.mp hmem
  rw [entry.change.edit_key] at hkey
  have hafter : entry.change.after = some e := by
    revert hvalue
    cases entry.change <;> exact id
  rw [← hkey]
  exact (Change.identifier_of_after hafter).symm

/-- Applying the page that changes collapse to comes to the same as applying them one by one. -/
theorem replay_collapse {page : ChangePage}
    (hu : page.updated = (collapse target changes).bindings.filterMap Prod.snd)
    (hr : page.removed = (collapse target changes).bindings.filterMap fun (identifier, after) ↦
      if after.isNone then some identifier else none) (k : EntryIdentifier)
    (hk : target.affects k = true) :
    replay m (editsOf page) k = replay m (changes.map fun entry ↦ entry.change.edit) k := by
  have hremoved : ∀ k, k ∈ page.removed ↔ lastValue (editsFor target changes) k = some none := by
    intro k
    rw [hr, ← get?_collapse, ← OrderedMap.mem_bindings, List.mem_filterMap]
    constructor
    · rintro ⟨⟨k', after⟩, hmem, hk'⟩
      cases after with
      | none =>
        cases hk'
        exact hmem
      | some e => cases hk'
    · intro hmem
      exact ⟨(k, none), hmem, rfl⟩
  have hupdated : ∀ k e, (k, e) ∈ page.updated.map (fun e ↦ (e.identifier, e)) ↔
      lastValue (editsFor target changes) k = some (some e) := by
    intro k e
    rw [hu, List.mem_map, ← get?_collapse, ← OrderedMap.mem_bindings]
    constructor
    · rintro ⟨e', he', heq⟩
      obtain ⟨rfl, rfl⟩ := Prod.mk.inj heq
      obtain ⟨⟨k', after⟩, hmem, rfl⟩ := List.mem_filterMap.mp he'
      have hlast := OrderedMap.mem_bindings _ |>.mp hmem
      rw [get?_collapse] at hlast
      rw [identifier_of_lastValue hlast]
      exact hmem
    · intro hmem
      have hlast := OrderedMap.mem_bindings _ |>.mp hmem
      rw [get?_collapse] at hlast
      refine ⟨e, List.mem_filterMap.mpr ⟨(k, some e), hmem, rfl⟩, ?_⟩
      rw [identifier_of_lastValue hlast]
  have hsplit := replay_split hremoved hupdated m k
  rw [List.map_map] at hsplit
  calc replay m (editsOf page) k
      = (lastValue (editsFor target changes) k).getD (m k) := hsplit
    _ = replay m (editsFor target changes) k := (replay_eq_lastValue m _ k).symm
    _ = replay m (changes.map fun entry ↦ entry.change.edit) k := replay_filter m _ hk

end Collapsing

section Pages

variable {engines : ℕ → EngineSource} {anchor : Anchor} {page : ChangePage} {s : Store}

/-- What the journal of a store holds behind one number, up to another. -/
def between (s : Store) (f u : ℕ) : List JournalEntry :=
  (s.journal.rows.filter fun row ↦ f < row.sequence ∧ row.sequence ≤ u).map toEntry

/-- The page of one call of the system: of the two calls of the source, the first asks for the
current number and the second for the changes. -/
def pageAt (describe : StoreError → String) (target : EnumerateTarget) (size : ℕ)
    (engines : ℕ → EngineSource) (anchor : Anchor) : Except ProviderError ChangePage :=
  (EngineSource.world describe engines).result 0 (readChange target anchor size).run

theorem filter_upTo {rows : List JournalRow} {f n : ℕ}
    (h : rows.map (·.sequence) = List.range' (f + 1) n) (u : ℕ) :
    rows.filter (fun r ↦ r.sequence ≤ u) = rows.take (u - f) := by
  induction rows generalizing f n with
  | nil => rw [List.filter_nil, List.take_nil]
  | cons r rows ih =>
    cases n with
    | zero => cases h
    | succ n =>
      rw [List.map_cons, List.range'_succ] at h
      obtain ⟨hr, hrows⟩ := List.cons.inj h
      rw [List.filter_cons, ih hrows]
      by_cases hu : r.sequence ≤ u
      · have htake : u - f = u - (f + 1) + 1 := by omega
        rw [if_pos (decide_eq_true hu), htake, List.take_succ_cons]
      · have htake : u - f = 0 := by omega
        have hrest : u - (f + 1) = 0 := by omega
        rw [if_neg (by simpa using hu), htake, hrest, List.take_zero, List.take_zero]

theorem between_eq (hc : Consecutive s) {f : ℕ} (hl : s.journalState.lowerLimit ≤ f)
    (hf : f ≤ s.journalState.last) (u : ℕ) : between s f u = (after s f).take (u - f) := by
  have hrows : s.journal.rows.filter (fun row ↦ f < row.sequence) =
      s.journal.rows.drop (f - s.journalState.lowerLimit) := by
    rw [filter_consecutive hc.sequences]
    congr 1
    omega
  have hsequences : (s.journal.rows.drop (f - s.journalState.lowerLimit)).map (·.sequence) =
      List.range' (f + 1) (s.journalState.last - f) := by
    have h := sequences_after hc hl hf
    rwa [after, List.map_map] at h
  have hboth : s.journal.rows.filter (fun row ↦ f < row.sequence ∧ row.sequence ≤ u) =
      (s.journal.rows.filter fun row ↦ f < row.sequence).filter fun row ↦ row.sequence ≤ u := by
    rw [List.filter_filter]
    congr 1
    funext row
    simp [and_comm]
  rw [between, hboth, hrows, filter_upTo hsequences, after, List.map_take]

theorem sequences_between (hc : Consecutive s) {f u : ℕ} (hl : s.journalState.lowerLimit ≤ f)
    (hf : f ≤ s.journalState.last) (hu : u ≤ s.journalState.last) :
    (between s f u).map (·.sequence) = List.range' (f + 1) (u - f) := by
  rw [between_eq hc hl hf, List.map_take, sequences_after hc hl hf,
    List.take_range'_of_length_ge (by omega)]

/-- The page that changes collapse to. -/
def pageOf (target : EnumerateTarget) (state : ChangeState) : ChangePage :=
  let last := collapse target state.changes
  { updated := last.bindings.filterMap Prod.snd
    removed := last.bindings.filterMap fun (identifier, after) ↦
      if after.isNone then some identifier else none
    «until» := ⟨state.untilSequence⟩
    more := state.more }

theorem pageAt_of_error {e : SourceError} (h : (engines 0).currentSequence = .error e) :
    pageAt describe target size engines anchor = .error (.source e) := by
  change (EngineSource.world describe engines).result 1
    (fromSource (engines 0).currentSequence >>= _ : Enumerating _).run = _
  rw [h]
  rfl

section Answered

variable {current : ℕ}

theorem pageAt_of_lt (h : (engines 0).currentSequence = .ok current)
    (hlt : current < anchor.sequence) :
    pageAt describe target size engines anchor = .error (.source .anchorExpired) := by
  change (EngineSource.world describe engines).result 1
    (fromSource (engines 0).currentSequence >>= _ : Enumerating _).run = _
  rw [h]
  change (EngineSource.world describe engines).result 1
    (if current < anchor.sequence then _ else _ : Enumerating _).run = _
  rw [if_pos hlt]
  rfl

theorem pageAt_of_unanswered {e : SourceError} (h : (engines 0).currentSequence = .ok current)
    (hle : anchor.sequence ≤ current)
    (hchanges : (engines 1).changesSince describe anchor.sequence size = .error e) :
    pageAt describe target size engines anchor = .error (.source e) := by
  change (EngineSource.world describe engines).result 1
    (fromSource (engines 0).currentSequence >>= _ : Enumerating _).run = _
  rw [h]
  change (EngineSource.world describe engines).result 1
    (if current < anchor.sequence then _ else _ : Enumerating _).run = _
  rw [if_neg (Nat.not_lt.mpr hle)]
  change (EngineSource.world describe engines).result 2
    (fromSource ((engines 1).changesSince describe anchor.sequence size) >>= _ :
      Enumerating _).run = _
  rw [hchanges]
  rfl

theorem pageAt_of_answered {state : ChangeState} (h : (engines 0).currentSequence = .ok current)
    (hle : anchor.sequence ≤ current)
    (hchanges : (engines 1).changesSince describe anchor.sequence size = .ok state)
    (hadvanced : anchor.sequence ≤ state.untilSequence)
    (hmore : state.more = true → anchor.sequence < state.untilSequence) :
    pageAt describe target size engines anchor = .ok (pageOf target state) := by
  change (EngineSource.world describe engines).result 1
    (fromSource (engines 0).currentSequence >>= _ : Enumerating _).run = _
  rw [h]
  change (EngineSource.world describe engines).result 1
    (if current < anchor.sequence then _ else _ : Enumerating _).run = _
  rw [if_neg (Nat.not_lt.mpr hle)]
  change (EngineSource.world describe engines).result 2
    (fromSource ((engines 1).changesSince describe anchor.sequence size) >>= _ :
      Enumerating _).run = _
  rw [hchanges]
  change (EngineSource.world describe engines).result 2
    (if state.untilSequence < anchor.sequence then _ else _ : Enumerating _).run = _
  rw [if_neg (Nat.not_lt.mpr hadvanced), if_neg fun hstuck ↦ absurd hstuck.2
    (Nat.ne_of_gt (hmore hstuck.1))]
  rfl

end Answered

/-- What the store answers to the second call of a page that has been given. -/
structure Delivered (target : EnumerateTarget) (size : ℕ) (s : Store) (anchor : Anchor)
    (page : ChangePage) : Prop where
  size_pos : 1 ≤ size
  lower : s.journalState.lowerLimit ≤ anchor.sequence
  last : anchor.sequence ≤ s.journalState.last
  page_eq : page = pageOf target ⟨between s anchor.sequence page.until.sequence,
    min (anchor.sequence + size) s.journalState.last,
    decide (anchor.sequence + size < s.journalState.last)⟩

theorem changesSince_between (hc : Consecutive s) (hsize : 1 ≤ size)
    (hl : s.journalState.lowerLimit ≤ anchor.sequence)
    (hf : anchor.sequence ≤ s.journalState.last) :
    s.changesSince anchor.sequence size = .ok
      ⟨between s anchor.sequence (min (anchor.sequence + size) s.journalState.last),
        min (anchor.sequence + size) s.journalState.last,
        decide (anchor.sequence + size < s.journalState.last)⟩ := by
  rw [changesSince_eq hc hl hf hsize, between_eq hc hl hf]
  congr 2
  rw [List.take_eq_take_iff, hc.length_after hl]
  omega

theorem changesSince_ok {engine : EngineSource} {sequence : ℕ} {state : ChangeState}
    (h : engine.changesSince describe sequence size = .ok state) :
    engine.store.changesSince sequence size = .ok state := by
  unfold EngineSource.changesSince at h
  split at h
  · cases h
  · split at h
    next hstate =>
      cases h
      exact hstate
    all_goals cases h

theorem delivered_of_ok (hc : Consecutive (engines 1).store)
    (h : pageAt describe target size engines anchor = .ok page) :
    Delivered target size (engines 1).store anchor page := by
  cases hcurrent : (engines 0).currentSequence with
  | error e => cases (pageAt_of_error hcurrent).symm.trans h
  | ok current =>
    obtain hlt | hle := Nat.lt_or_ge current anchor.sequence
    · cases (pageAt_of_lt hcurrent hlt).symm.trans h
    cases hchanges : (engines 1).changesSince describe anchor.sequence size with
    | error e => cases (pageAt_of_unanswered hcurrent hle hchanges).symm.trans h
    | ok state =>
      have hstore := changesSince_ok hchanges
      obtain ⟨hl, hf, hsize⟩ := inRange_of_changesSince hstore
      have hstate := Except.ok.inj (hstore.symm.trans (changesSince_between hc hsize hl hf))
      have hpage : pageAt describe target size engines anchor = .ok (pageOf target state) :=
        pageAt_of_answered hcurrent hle hchanges (by rw [hstate]; dsimp only; omega) <| by
          rw [hstate]
          intro hmore
          have hlt := of_decide_eq_true hmore
          dsimp only
          omega
      have heq := Except.ok.inj (h.symm.trans hpage)
      refine ⟨hsize, hl, hf, ?_⟩
      rw [heq, hstate]
      rfl

theorem Delivered.until_eq (h : Delivered target size s anchor page) :
    page.until.sequence = min (anchor.sequence + size) s.journalState.last := by
  rw [h.page_eq]
  rfl

theorem Delivered.more_iff (h : Delivered target size s anchor page) :
    page.more = true ↔ anchor.sequence + size < s.journalState.last := by
  rw [h.page_eq]
  exact decide_eq_true_iff

theorem Delivered.replay_eq (h : Delivered target size s anchor page)
    (m : Snapshot EntryIdentifier Entry) {k : EntryIdentifier} (hk : target.affects k = true) :
    replay m (editsOf page) k = replay m
      ((between s anchor.sequence page.until.sequence).map fun entry ↦ entry.change.edit) k := by
  refine replay_collapse ?_ ?_ k hk
  · exact congrArg ChangePage.updated h.page_eq
  · exact congrArg ChangePage.removed h.page_eq

end Pages

section Runs

variable {engines : ℕ → ℕ → EngineSource} {k : ℕ} {anchor : Anchor} {pages : List ChangePage}
  {m : Snapshot EntryIdentifier Entry}

/-- Page after page from an anchor on, until one announces no more: for the page with the number
`k`, the source answers as the engines `engines k` do. -/
inductive Drained (describe : StoreError → String) (target : EnumerateTarget) (size : ℕ)
    (engines : ℕ → ℕ → EngineSource) : ℕ → Anchor → List ChangePage → Prop
  | last {k : ℕ} {anchor : Anchor} {page : ChangePage} :
      pageAt describe target size (engines k) anchor = .ok page → page.more = false →
      Drained describe target size engines k anchor [page]
  | more {k : ℕ} {anchor : Anchor} {page : ChangePage} {rest : List ChangePage} :
      pageAt describe target size (engines k) anchor = .ok page → page.more = true →
      Drained describe target size engines (k + 1) page.until rest →
      Drained describe target size engines k anchor (page :: rest)

/-- The journal between the anchors of the pages, as it stood when each of them was taken. -/
def journalOf (engines : ℕ → ℕ → EngineSource) :
    ℕ → Anchor → List ChangePage → List JournalEntry
  | _, _, [] => []
  | k, anchor, page :: rest =>
    between (engines k 1).store anchor.sequence page.until.sequence ++
      journalOf engines (k + 1) page.until rest

theorem drained_replay (hc : ∀ k, Consecutive (engines k 1).store)
    (h : Drained describe target size engines k anchor pages) {identifier : EntryIdentifier}
    (hi : target.affects identifier = true) :
    replay m (pages.flatMap editsOf) identifier =
      replay m ((journalOf engines k anchor pages).map fun entry ↦ entry.change.edit)
        identifier := by
  induction h generalizing m with
  | @last k anchor page hpage _ =>
    rw [List.flatMap_singleton, journalOf, journalOf, List.append_nil]
    exact (delivered_of_ok (hc k) hpage).replay_eq m hi
  | @more k anchor page rest hpage _ _ ih =>
    rw [List.flatMap_cons, replay_append, ih, journalOf, List.map_append, replay_append]
    exact replay_congr ((delivered_of_ok (hc k) hpage).replay_eq m hi)

theorem drained_sequences (hc : ∀ k, Consecutive (engines k 1).store)
    (h : Drained describe target size engines k anchor pages) :
    anchor.sequence ≤ (engines (k + (pages.length - 1)) 1).store.currentSequence ∧
      (journalOf engines k anchor pages).map (·.sequence) = List.range' (anchor.sequence + 1)
        ((engines (k + (pages.length - 1)) 1).store.currentSequence - anchor.sequence) := by
  induction h with
  | @last k anchor page hpage hmore =>
    have hd := delivered_of_ok (hc k) hpage
    have hlast : (engines k 1).store.journalState.last ≤ anchor.sequence + size := by
      refine Nat.le_of_not_lt fun hlt ↦ ?_
      cases hmore.symm.trans (hd.more_iff.mpr hlt)
    have huntil : page.until.sequence = (engines k 1).store.journalState.last :=
      hd.until_eq.trans (Nat.min_eq_right hlast)
    refine ⟨hd.last, ?_⟩
    rw [journalOf, journalOf, List.append_nil, huntil]
    exact sequences_between (hc k) hd.lower hd.last (Nat.le_refl _)
  | @more k anchor page rest hpage hmore hrest ih =>
    have hd := delivered_of_ok (hc k) hpage
    have huntil : page.until.sequence = anchor.sequence + size := by
      rw [hd.until_eq]
      exact Nat.min_eq_left (hd.more_iff.mp hmore).le
    have hindex : k + 1 + (rest.length - 1) = k + ((page :: rest).length - 1) := by
      have hpos : 0 < rest.length := by cases hrest <;> exact Nat.succ_pos _
      rw [List.length_cons]
      omega
    rw [hindex] at ih
    obtain ⟨hle, hsequences⟩ := ih
    refine ⟨by omega, ?_⟩
    rw [journalOf, List.map_append, hsequences,
      sequences_between (hc k) hd.lower hd.last (by rw [hd.until_eq]; exact Nat.min_le_right _ _)]
    have hstart : page.until.sequence + 1 =
        anchor.sequence + 1 + (page.until.sequence - anchor.sequence) := by omega
    rw [hstart, List.range'_append_1]
    congr 1
    omega

theorem between_append (hc : Consecutive s) {f u : ℕ} (hl : s.journalState.lowerLimit ≤ f)
    (hu : f ≤ u) (hlast : u ≤ s.journalState.last) : between s f u ++ after s u = after s f := by
  have hrest : after s u = (after s f).drop (u - f) := by
    rw [after, after, ← List.map_drop, List.drop_drop]
    congr 2
    omega
  rw [between_eq hc hl (hu.trans hlast), hrest, List.take_append_drop]

theorem delivered_of_inRange {engines : ℕ → EngineSource} (hruns : ∀ j, (engines j).stopped = false)
    (hc : Consecutive (engines 1).store) (hsize : 1 ≤ size)
    (hcurrent : anchor.sequence ≤ (engines 0).store.journalState.last)
    (hl : (engines 1).store.journalState.lowerLimit ≤ anchor.sequence)
    (hf : anchor.sequence ≤ (engines 1).store.journalState.last) :
    ∃ page, pageAt describe target size engines anchor = .ok page := by
  have h0 : (engines 0).currentSequence = .ok (engines 0).store.journalState.last := by
    rw [EngineSource.currentSequence, hruns 0]
    rfl
  have h1 : (engines 1).changesSince describe anchor.sequence size = .ok
      ⟨between (engines 1).store anchor.sequence
          (min (anchor.sequence + size) (engines 1).store.journalState.last),
        min (anchor.sequence + size) (engines 1).store.journalState.last,
        decide (anchor.sequence + size < (engines 1).store.journalState.last)⟩ := by
    rw [EngineSource.changesSince, hruns 1, changesSince_between hc hsize hl hf]
    rfl
  refine ⟨_, pageAt_of_answered h0 hcurrent h1 (by dsimp only; omega) fun hmore ↦ ?_⟩
  have hlt := of_decide_eq_true hmore
  dsimp only
  omega

/-- Of a journal that does not change, everything behind the anchor comes, page after page. -/
theorem exists_drained (hc : Consecutive s) (hsize : 1 ≤ size)
    (hl : s.journalState.lowerLimit ≤ anchor.sequence)
    (hf : anchor.sequence ≤ s.journalState.last) (k : ℕ) :
    ∃ pages, Drained describe target size (fun _ _ ↦ ⟨false, s⟩) k anchor pages ∧
      journalOf (fun _ _ ↦ ⟨false, s⟩) k anchor pages = after s anchor.sequence := by
  induction hn : s.journalState.last - anchor.sequence using Nat.strong_induction_on
    generalizing anchor k with
  | _ n ih =>
    obtain ⟨page, hpage⟩ : ∃ page, pageAt describe target size (fun _ ↦ ⟨false, s⟩) anchor = .ok page :=
      delivered_of_inRange (fun _ ↦ rfl) hc hsize hf hl hf
    have hd : Delivered target size s anchor page := delivered_of_ok hc hpage
    have huntil := hd.until_eq
    by_cases hlt : anchor.sequence + size < s.journalState.last
    · obtain ⟨rest, hrest, hjournal⟩ := ih (s.journalState.last - page.until.sequence)
        (by omega) (by omega) (by omega) (k + 1) rfl
      refine ⟨page :: rest, .more hpage (hd.more_iff.mpr hlt) hrest, ?_⟩
      rw [journalOf, hjournal]
      exact between_append hc hl (by omega) (by omega)
    · refine ⟨[page], .last hpage (Bool.eq_false_of_not_eq_true fun h ↦ hlt (hd.more_iff.mp h)), ?_⟩
      have hempty : after s page.until.sequence = [] := by
        refine List.eq_nil_of_length_eq_zero ?_
        rw [hc.length_after (by omega)]
        omega
      have hjoin := between_append hc hl (u := page.until.sequence) (by omega) (by omega)
      rw [journalOf, journalOf, List.append_nil, ← hjoin, hempty, List.append_nil]

theorem expired_of_outside {engines : ℕ → EngineSource} (hruns : ∀ j, (engines j).stopped = false)
    (hsize : 1 ≤ size)
    (hout : (engines 0).store.journalState.last < anchor.sequence ∨
      anchor.sequence < (engines 1).store.journalState.lowerLimit ∨
      (engines 1).store.journalState.last < anchor.sequence) :
    pageAt describe target size engines anchor = .error (.source .anchorExpired) := by
  have h0 : (engines 0).currentSequence = .ok (engines 0).store.journalState.last := by
    rw [EngineSource.currentSequence, hruns 0]
    rfl
  obtain hlt | hle := Nat.lt_or_ge (engines 0).store.journalState.last anchor.sequence
  · exact pageAt_of_lt h0 hlt
  refine pageAt_of_unanswered h0 hle ?_
  rw [EngineSource.changesSince, hruns 1]
  obtain hlower | hlower := Nat.lt_or_ge anchor.sequence (engines 1).store.journalState.lowerLimit
  · rw [changesSince_expired hlower hsize]
    rfl
  · have hlast : (engines 1).store.journalState.last < anchor.sequence := by omega
    rw [changesSince_unknown hlower hlast hsize]
    rfl

/-- What an enumeration of changes in pages comes to, whatever the journal does between them. -/
structure Channel (describe : StoreError → String) (target : EnumerateTarget) (size : ℕ)
    (engines : ℕ → ℕ → EngineSource) (anchor : Anchor) : Prop where
  refines : ∀ pages, Drained describe target size engines 0 anchor pages →
    ∀ m identifier, target.affects identifier = true →
      replay m (pages.flatMap editsOf) identifier =
        replay m ((journalOf engines 0 anchor pages).map fun entry ↦ entry.change.edit) identifier
  whole : ∀ pages, Drained describe target size engines 0 anchor pages →
    (journalOf engines 0 anchor pages).map (·.sequence) = List.range' (anchor.sequence + 1)
      ((engines (pages.length - 1) 1).store.currentSequence - anchor.sequence)
  advances : ∀ k anchor page, pageAt describe target size (engines k) anchor = .ok page →
    page.more = true → anchor.sequence < page.until.sequence
  expired : ∀ k anchor, (∀ j, (engines k j).stopped = false) →
    (engines k 0).store.currentSequence < anchor.sequence ∨
      anchor.sequence + 1 < (engines k 1).store.oldestSequence ∨
      (engines k 1).store.currentSequence < anchor.sequence →
    pageAt describe target size (engines k) anchor = .error (.source .anchorExpired)
  unchanged : ∀ s, engines = (fun _ _ ↦ ⟨false, s⟩) → s.oldestSequence ≤ anchor.sequence + 1 →
    anchor.sequence ≤ s.currentSequence →
      ∃ pages, Drained describe target size engines 0 anchor pages ∧
        journalOf engines 0 anchor pages = after s anchor.sequence

theorem channel_of_run (unicode : Unicode) (describe : StoreError → String)
    (target : EnumerateTarget) (size : ℕ) (hsize : 1 ≤ size) (engines : ℕ → ℕ → EngineSource)
    (hreached : ∀ k j, ∃ n limit operations,
      (engines k j).store = run unicode (Store.setUp n limit) operations) (anchor : Anchor) :
    Channel describe target size engines anchor := by
  have hc : ∀ k j, Consecutive (engines k j).store := by
    intro k j
    obtain ⟨n, limit, operations, hstore⟩ := hreached k j
    exact hstore ▸ consecutive_run unicode n limit operations
  have hpages : ∀ k, Consecutive (engines k 1).store := fun k ↦ hc k 1
  refine ⟨fun pages h m identifier hi ↦ drained_replay hpages h hi, fun pages h ↦ ?_,
    fun k anchor page hpage hmore ↦ ?_, fun k anchor hruns hout ↦ ?_, fun s hs hl hf ↦ ?_⟩
  · have hsequences := (drained_sequences hpages h).2
    rwa [Nat.zero_add] at hsequences
  · have hd := delivered_of_ok (hpages k) hpage
    rw [hd.until_eq]
    have hlt := hd.more_iff.mp hmore
    omega
  · refine expired_of_outside hruns hsize ?_
    simpa [Store.currentSequence, Store.oldestSequence] using hout
  · subst hs
    exact exists_drained (hc 0 0) hsize (Nat.le_of_succ_le_succ hl) hf 0

end Runs

section Samples

def sampleLetter (name : String) : Entry where
  identifier := .document (.search ⟨1⟩) ⟨7⟩
  name := name
  content := .file ⟨1, some ⟨0⟩, "1", .null, .null, "application/pdf"⟩

/-- A document that a search lists, no longer lists and lists again under another name. -/
def sampleOperations : List Operation :=
  [.replaceContainer .root [⟨.container .searches, "Suchen", .folder⟩] ⟨none, .null, none⟩,
    .replaceContainer .searches [⟨.container (.search ⟨1⟩), "Eingang", .folder⟩]
      ⟨none, .null, none⟩,
    .replaceContainer (.search ⟨1⟩) [sampleLetter "Mahnung.pdf"] ⟨none, .null, none⟩,
    .replaceContainer (.search ⟨1⟩) [] ⟨none, .null, none⟩,
    .replaceContainer (.search ⟨1⟩) [sampleLetter "Abmahnung.pdf"] ⟨none, .null, none⟩]

def sample : Store := run ⟨id, id⟩ (Store.setUp 0 10000) sampleOperations

theorem sample_carried : ∃ pages,
    Drained (fun _ ↦ "") (.container (.search ⟨1⟩)) 2 (fun _ _ ↦ ⟨false, sample⟩) 0 ⟨0⟩ pages ∧
      replay (fun _ ↦ none) (pages.flatMap editsOf) (.document (.search ⟨1⟩) ⟨7⟩) =
        some (sampleLetter "Abmahnung.pdf") := by
  have hchannel := channel_of_run ⟨id, id⟩ (fun _ ↦ "") (.container (.search ⟨1⟩)) 2 (by decide)
    (fun _ _ ↦ ⟨false, sample⟩) (fun _ _ ↦ ⟨0, 10000, sampleOperations, rfl⟩) ⟨0⟩
  obtain ⟨pages, hpages, hjournal⟩ := hchannel.unchanged sample rfl (by decide +kernel)
    (Nat.zero_le _)
  refine ⟨pages, hpages, ?_⟩
  rw [hchannel.refines pages hpages _ _ (by decide), hjournal]
  decide +kernel

end Samples

end FolderClient.FileProvider.ChangeRuns
