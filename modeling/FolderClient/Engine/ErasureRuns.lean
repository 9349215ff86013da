import FolderClient.Engine.HydrationRuns
import FolderClient.Storage.Listings

namespace FolderClient.Engine.ErasureRuns

open FolderClient.Core.Changes FolderClient.Core.Delivery FolderClient.Core.Log FolderClient.Core.Namespace
open FolderClient.Engine.Channel FolderClient.Engine.Commands FolderClient.Engine.Effects
open FolderClient.Engine.Hydration hiding outcome
open FolderClient.Engine.HydrationRuns FolderClient.Engine.Orderly
open FolderClient.Engine.Port FolderClient.Engine.Reconcile FolderClient.Engine.Session
open FolderClient.Engine.System FolderClient.Engine.Transfers FolderClient.Library.Pools
open FolderClient.Library.Programs FolderClient.Library.Programs.Program
open FolderClient.Library.Programs.Contract FolderClient.Storage.Basic FolderClient.Storage.Delivery
open FolderClient.Storage.Effects FolderClient.Storage.Listings FolderClient.Storage.Log
open FolderClient.Storage.Namespace
open FolderClient.Storage.Runs hiding outcome
open FolderClient.Storage.Tree FolderClient.Storage.TreeRuns
open FolderClient.Library.Json FolderClient.Library.Results FolderClient.Library.Tables
open FolderClient.Wire.Delivery

/-- The document a delivery is about. -/
def documentOf (h : Handling) : Option DocumentIdentifier := h.identifier.bind (·.document?)

/-- The delivery goes by an entry of the document. -/
def Goes (document : DocumentIdentifier) (h : Handling) : Prop :=
  h.details.isSome = true ∧ documentOf h = some document

/-- The document is out of the namespace, and kept out of it. -/
structure Taken (document : DocumentIdentifier) (s : Store) : Prop where
  entry : ∀ r ∈ s.entry.rows, r.entry.identifier.document? ≠ some document
  erased : s.erased.contains document = true

/-- Neither the namespace nor the usage log nor a delivery has anything of the document. -/
structure Gone (document : DocumentIdentifier) (w : World) : Prop where
  taken : Taken document w.store
  log : ∀ row ∈ w.store.log, row.entry.subject.bind (·.document) ≠ some document
  delivery : ∀ i, ¬ Goes document (w.handling i)
  left : ∀ file ∈ w.left, file.1.document? ≠ some document

/-- The command was run with that order first, and never with another. -/
def Ordered (command : CommandIdentifier) (order : Command) (w : World) : Prop :=
  (∃ f ∈ w.history.firstRuns, f.command = command) ∧
    ∀ f ∈ w.history.firstRuns, f.command = command → f.order = order

/-- Where the command ordered an erasure, nothing of its documents is there. -/
def Carried (command : CommandIdentifier) (w : World) : Prop :=
  (∃ f ∈ w.history.firstRuns, f.command = command) ∧
    ∀ f ∈ w.history.firstRuns, f.command = command →
      ∀ documents, f.order = .dehydrate documents .erasure → ∀ d ∈ documents, Gone d w

def Applied (command : CommandIdentifier) (w : World) : Prop :=
  recordedOutcome w.store command = some .applied

/-- The log of a document is redacted only while no delivery goes by an entry of it and no scratch
file of it was left behind; an erased document is listed again only while its erasure is in effect;
and an identifier stands for one command. -/
def Separate : (r : Request) → World → Prop
  | .command (.redact document), w =>
    (∀ i, ¬ Goes document (w.handling i)) ∧ ∀ file ∈ w.left, file.1.document? ≠ some document
  | .command (.reconcile (.replaceContainer _ entries state _)), w =>
    ∀ e ∈ entries, ∀ document, e.identifier.document? = some document →
      w.store.erased.contains document = true → document ∈ w.store.effectiveErasure state.fetched
  | .command (.runBegins command order), w =>
    ∀ f ∈ w.history.firstRuns, f.command = command → f.order = order
  | _, _ => True

def separate : Condition where
  serve _ r w _ _ := Separate r w

def InOrder (i : ℕ) : Request → World → Prop
  | .source (.entry identifier), w =>
    (w.handling i).identifier = some identifier ∧ (w.handling i).scratch = none
  | .source .createScratch, w => (w.handling i).details.isSome = true
  | .source (.write _ _), w =>
    (w.handling i).details.isSome = true ∨ documentOf (w.handling i) = none
  | .source (.appendLog entry), w => ∃ subject document, entry.subject = some subject ∧
    subject.document = some document ∧ Goes document (w.handling i)
  | .setOutcome command outcome, w => outcome = .applied → Carried command w
  | _, _ => True

/-- A subject of the usage log names its document, or nothing. -/
def Labelled (row : LogRow) : Prop :=
  ∀ subject, row.entry.subject = some subject → subject.document = none →
    subject = ⟨Core.Log.redactedName, none, none⟩ ∧ row.entry.detail = none

structure Separated (setting : Setting) (w : World) : Prop where
  wellFormed : WellFormed setting.unicode w.store
  scratch : ∀ i, (w.handling i).scratch.isSome = true → (w.handling i).details.isSome = true
  log : ∀ row ∈ w.store.log, Labelled row
  applied : ∀ command, Applied command w → Carried command w

/-- What a step leaves as it is. -/
structure Lasting (w w' : World) : Prop where
  taken : ∀ d, Taken d w.store → Taken d w'.store
  gone : ∀ d, Gone d w → Gone d w'
  runs : ∀ f ∈ w.history.firstRuns, f ∈ w'.history.firstRuns
  first : ∀ f ∈ w'.history.firstRuns, (∃ g ∈ w.history.firstRuns, g.command = f.command) →
    f ∈ w.history.firstRuns

theorem Lasting.refl (w : World) : Lasting w w :=
  ⟨fun _ h ↦ h, fun _ h ↦ h, fun _ h ↦ h, fun _ h _ ↦ h⟩

theorem Lasting.trans {w w' w'' : World} (h : Lasting w w') (h' : Lasting w' w'') :
    Lasting w w'' where
  taken d hd := h'.taken d (h.taken d hd)
  gone d hd := h'.gone d (h.gone d hd)
  runs f hf := h'.runs f (h.runs f hf)
  first f hf := by
    intro ⟨g, hg, hc⟩
    exact h.first f (h'.first f hf ⟨g, h.runs g hg, hc⟩) ⟨g, hg, hc⟩

theorem Lasting.ordered {w w' : World} (h : Lasting w w') {command : CommandIdentifier}
    {order : Command} (ho : Ordered command order w) : Ordered command order w' := by
  obtain ⟨⟨f, hf, hc⟩, hall⟩ := ho
  refine ⟨⟨f, h.runs f hf, hc⟩, fun g hg hgc ↦ ?_⟩
  exact hall g (h.first g hg ⟨f, hf, hc.trans hgc.symm⟩) hgc

theorem Lasting.carried {w w' : World} (h : Lasting w w') {command : CommandIdentifier}
    (hw : Carried command w) : Carried command w' := by
  obtain ⟨⟨f, hf, hc⟩, hall⟩ := hw
  refine ⟨⟨f, h.runs f hf, hc⟩, fun g hg hgc documents ho d hd ↦ h.gone d ?_⟩
  exact hall g (h.first g hg ⟨f, hf, hc.trans hgc.symm⟩) hgc documents ho d hd

section Served

variable {setting : Setting} {fails : Prop} {i : ℕ} {w w' : World} {s s' : Store}
  {document : DocumentIdentifier}

theorem taken_replaced {container : Container} {entries gone : List Entry} {state : ContainerState}
    (h : Replaced setting.unicode s s' container (withoutErased s entries state.fetched) state gone)
    (ht : Taken document s)
    (hc : ∀ e ∈ entries, ∀ d, e.identifier.document? = some d →
      s.erased.contains d = true → d ∈ s.effectiveErasure state.fetched) : Taken document s' := by
  refine ⟨fun r hr hd ↦ ?_, ?_⟩
  · obtain ⟨hr, -⟩ | hr := (h.rows r).mp hr
    · exact ht.entry r (mem_prune_entry.mp hr).1 hd
    · have hm : r.entry ∈ withoutErased s entries state.fetched := by
        rw [← map_entry_freshRows container 0 (withoutErased s entries state.fetched)]
        exact List.mem_map_of_mem hr
      obtain ⟨hm, hall⟩ := List.mem_filter.mp hm
      have heffective := hc r.entry hm document hd ht.erased
      simp [hd, heffective] at hall
  · rw [h.frame]
    exact ht.erased

theorem Taken.of_sameNamespace (h : SameNamespace s s') (ht : Taken document s) :
    Taken document s' := by
  refine ⟨?_, ?_⟩
  · rw [h.entry]
    exact ht.entry
  · rw [h.erased]
    exact ht.erased

theorem taken_removeDocumentEverywhere {other : DocumentIdentifier} {now : Timestamp}
    {out : List JournalEntry} (h : s.removeDocumentEverywhere other now = .ok (out, s'))
    (ht : Taken document s) : Taken document s' := by
  refine ⟨fun r hr ↦ ?_, ?_⟩
  · rw [(removeDocumentEverywhere_eq_ok h).2.1] at hr
    exact ht.entry r ((Table.mem_deleteWhere _).mp hr).1
  · rw [erased_removeDocumentEverywhere h, ht.erased, Bool.or_true]

/-- The order takes its document out of the namespace. -/
theorem taken_of_removed (hr : Rooted s) {now : Timestamp} {out : List JournalEntry}
    (h : s.removeDocumentEverywhere document now = .ok (out, s')) : Taken document s' := by
  refine ⟨fun r hm hd ↦ ?_, ?_⟩
  · rw [(removeDocumentEverywhere_eq_ok h).2.1] at hm
    obtain ⟨hm, hne⟩ := (Table.mem_deleteWhere _).mp hm
    rw [hr.document r hm, hd] at hne
    simp at hne
  · rw [erased_removeDocumentEverywhere h, decide_eq_true rfl, Bool.true_or]

/-- Out of the namespace a document stays out. -/
theorem taken_serve {r : Request} {a : Answer r} (hw : WellFormed setting.unicode w.store)
    (hc : Separate r w) (h : serve setting fails i r w a w') (ht : Taken document w.store) :
    Taken document w'.store := by
  obtain hs | hs := store_serve h
  · rw [hs]
    exact ht
  cases hop : operationOf r with
  | none => exact ht.of_sameNamespace (sameNamespace_of_operationOf hop hs)
  | some operation =>
    unfold operationOf at hop
    split at hop
    · obtain ⟨out, hs⟩ := map_snd_eq_ok hs
      obtain ⟨gone, -, hreplaced⟩ := replaceContainer_eq_ok hw.rooted hs
      exact taken_replaced hreplaced ht hc
    · obtain ⟨-, hs⟩ := updateContainerState_eq_ok hs
      rw [hs]
      exact ⟨ht.entry, ht.erased⟩
    · obtain ⟨out, hs⟩ := map_snd_eq_ok hs
      exact taken_removeDocumentEverywhere hs ht
    · obtain ⟨new, hs⟩ := map_snd_eq_ok hs
      obtain ⟨-, hs⟩ := emptyNamespace_eq_ok hs
      rw [hs]
      exact ⟨fun r hr ↦ absurd hr List.not_mem_nil, ht.erased⟩
    · cases hop

/-- The rows of the log come from redactions and deliveries. -/
def Logs : Request → Prop
  | .command (.redact _) | .source (.appendLog _) => True
  | _ => False

theorem log_sessionEffect {r : SessionRequest} (h : sessionEffect setting r s = .ok s') :
    s'.log = s.log := by
  cases r with
  | setSetting key value =>
    unfold sessionEffect Store.setSetting at h
    rw [ite_error_eq_ok] at h
    obtain rfl := Except.ok.inj h.2
    rfl
  | stopSession =>
    obtain rfl := Except.ok.inj h
    unfold Store.stopSession
    split <;> rfl
  | emptyNamespace =>
    obtain ⟨new, h⟩ := map_snd_eq_ok h
    rw [(emptyNamespace_eq_ok h).2]
  | _ =>
    obtain rfl := Except.ok.inj h
    rfl

theorem log_effect {r : Request} (hr : ¬ Logs r) (h : effect setting r s = .ok s') :
    s'.log = s.log := by
  cases r with
  | command r =>
    cases r with
    | reconcile r =>
      cases r with
      | session r => exact log_sessionEffect h
      | replaceContainer container entries state tokens =>
        obtain ⟨out, h⟩ := map_snd_eq_ok h
        rw [onlyNamespace_replaceContainer h]
      | updateContainerState container state tokens =>
        rw [(updateContainerState_eq_ok h).2]
      | _ =>
        obtain rfl := Except.ok.inj h
        rfl
    | removeDocumentEverywhere document now =>
      obtain ⟨out, h⟩ := map_snd_eq_ok h
      rw [(removeDocumentEverywhere_eq_ok h).2.1]
    | redact document => exact absurd trivial hr
    | _ =>
      obtain rfl := Except.ok.inj h
      rfl
  | source r =>
    cases r with
    | appendLog entry => exact absurd trivial hr
    | _ =>
      obtain rfl := Except.ok.inj h
      rfl
  | setCursor value =>
    unfold effect Store.setSetting at h
    rw [ite_error_eq_ok] at h
    obtain rfl := Except.ok.inj h.2
    rfl
  | acceptCommand command received =>
    obtain rfl := Except.ok.inj h
    unfold Store.acceptCommand
    cases s.commandState command with
    | none => rfl
    | some row =>
      dsimp only
      split <;> rfl
  | setOutcome command outcome =>
    obtain ⟨row, -, -, rfl⟩ := Store.setOutcome_eq_ok h
    rfl
  | markAcknowledged command =>
    obtain ⟨row, outcome, -, -, rfl⟩ := Store.markAcknowledged_eq_ok h
    rfl
  | _ =>
    obtain rfl := Except.ok.inj h
    rfl

theorem log_serve {r : Request} {a : Answer r} (h : serve setting fails i r w a w') {row : LogRow}
    (hm : row ∈ w'.store.log) :
    row ∈ w.store.log ∨ (∃ old ∈ w.store.log, row.entry = old.entry.redacted) ∨
      r = .source (.appendLog row.entry) := by
  obtain hs | hs := store_serve h
  · rw [hs] at hm
    exact .inl hm
  by_cases hr : Logs r
  · unfold Logs at hr
    split at hr
    · obtain hs := Except.ok.inj hs
      rw [← hs] at hm
      exact (mem_redact hm).imp And.left .inl
    · obtain ⟨n, hs⟩ := map_snd_eq_ok hs
      refine (mem_appendLog hs hm).imp id fun he ↦ .inr ?_
      rw [he]
    · exact hr.elim
  · rw [log_effect hr hs] at hm
    exact .inl hm

/-- The requests that leave a delivery with its entry. -/
def Underway : Request → Prop
  | .source (.begins _) | .source (.entry _) | .source (.answered _) => False
  | _ => True

theorem underway_handles {r : Request} (hr : Underway r) {h h' : Handling} {a : Answer r}
    (hs : handles r h a h') : h'.identifier = h.identifier ∧ h'.details = h.details := by
  cases r with
  | source r =>
    cases r with
    | begins | entry | answered => exact hr.elim
    | createScratch | openScratch =>
      obtain ⟨-, rfl⟩ | ⟨-, rfl⟩ := hs <;> exact ⟨rfl, rfl⟩
    | writeScratch buffer =>
      obtain ⟨n, -, -, -, rfl⟩ | ⟨-, rfl⟩ := hs <;> exact ⟨rfl, rfl⟩
    | readScratch =>
      obtain ⟨data, rest, -, -, -, -, rfl⟩ | ⟨-, rfl⟩ := hs <;> exact ⟨rfl, rfl⟩
    | removeScratch =>
      obtain rfl | rfl := hs <;> exact ⟨rfl, rfl⟩
    | _ =>
      obtain rfl := hs
      exact ⟨rfl, rfl⟩
  | _ =>
    obtain rfl := hs
    exact ⟨rfl, rfl⟩

theorem handling_of_ne {r : Request} {a : Answer r} {j : ℕ} (hj : j ≠ i)
    (h : serve setting fails i r w a w') : w'.handling j = w.handling j := by
  cases r with
  | source r => exact handling_serveSource hj h
  | _ => exact congrFun (handling_serve (by intro q hq; cases hq) h) j

/-- A delivery that begins finds no entry of a document that is out of the namespace. -/
theorem entry_of_taken (ht : Taken document w.store) {identifier : EntryIdentifier}
    (hd : identifier.document? = some document) : w.store.entryOf identifier = none := by
  unfold Store.entryOf
  cases hf : w.store.entry.find? identifier with
  | none => rfl
  | some r =>
    obtain ⟨hr, hi⟩ := (Table.find?_eq_some_iff _).mp hf
    exact absurd (hi ▸ hd) (ht.entry r hr)

theorem goes_serve {r : Request} {a : Answer r} (hok : InOrder i r w)
    (h : serve setting fails i r w a w') (ht : Taken document w.store) {j : ℕ}
    (hg : Goes document (w'.handling j)) : Goes document (w.handling j) := by
  by_cases hj : j = i
  · subst hj
    by_cases hr : Underway r
    · obtain ⟨hi, hd⟩ := underway_handles hr (handles_serve h)
      rwa [Goes, documentOf, hi, hd] at hg
    · unfold Underway at hr
      split at hr
      · rw [show w'.handling j = { identifier := some _ } from handles_serve h] at hg
        cases hg.1
      · rename_i identifier
        obtain ⟨hanswer, rfl⟩ := h
        obtain ⟨hsome, hdoc⟩ := hg
        rw [World.handling_withHandling] at hsome hdoc
        rw [documentOf, hok.1] at hdoc
        obtain ⟨-, ⟨e, rfl⟩ | rfl⟩ := read_cases hanswer
        · cases hsome
        · rw [entry_of_taken ht hdoc] at hsome
          cases hsome
      · rw [show w'.handling j = {} from handles_serve h] at hg
        cases hg.1
      · exact (hr trivial).elim
  · rwa [handling_of_ne hj h] at hg

theorem left_serve {r : Request} {a : Answer r} (hr : ∀ result, r ≠ .source (.answered result))
    (h : serve setting fails i r w a w') : w'.left = w.left := by
  cases r with
  | source r => exact left_serveSource (fun result he ↦ hr result (congrArg _ he)) h
  | _ => exact (sameDeliveries_serve (by intro q hq; cases hq) h).2

/-- What a delivery leaves behind is of the document whose entry it goes by. -/
theorem goes_of_left {h : Handling} {file : EntryIdentifier × List UInt8}
    (hs : h.scratch.isSome = true → h.details.isSome = true)
    (hm : file ∈ h.identifier.toList.flatMap fun identifier ↦ h.scratch.toList.map (identifier, ·))
    (hd : file.1.document? = some document) : Goes document h := by
  obtain ⟨identifier, hi, hm⟩ := List.mem_flatMap.mp hm
  obtain ⟨content, hc, rfl⟩ := List.mem_map.mp hm
  have hi := Option.mem_toList.mp hi
  have hc := Option.mem_toList.mp hc
  refine ⟨hs (Option.isSome_of_mem hc), ?_⟩
  rw [documentOf, Option.mem_def.mp hi]
  exact hd

theorem gone_serve {r : Request} {a : Answer r} (hw : Separated setting w) (hok : InOrder i r w)
    (hc : Separate r w) (h : serve setting fails i r w a w') (hg : Gone document w) :
    Gone document w' := by
  have ht := taken_serve hw.wellFormed hc h hg.taken
  refine ⟨ht, fun row hm hd ↦ ?_, fun j hj ↦ hg.delivery j (goes_serve hok h hg.taken hj),
    fun file hm hd ↦ ?_⟩
  · obtain hm | ⟨old, -, he⟩ | rfl := log_serve h hm
    · exact hg.log row hm hd
    · exact document_redacted old.entry (he ▸ hd)
    · obtain ⟨subject, d, hs, hdoc, hgoes⟩ := hok
      rw [hs, Option.bind_some, hdoc] at hd
      obtain rfl := Option.some.inj hd
      exact hg.delivery i hgoes
  · by_cases hr : ∃ result, r = .source (.answered result)
    · obtain ⟨result, rfl⟩ := hr
      obtain rfl := h
      obtain hm | hm := List.mem_append.mp hm
      · exact hg.left file hm hd
      · exact hg.delivery i (goes_of_left (hw.scratch i) hm hd)
    · rw [left_serve (fun result he ↦ hr ⟨result, he⟩) h] at hm
      exact hg.left file hm hd

theorem lasting_serve {r : Request} {a : Answer r} (hw : Separated setting w)
    (hok : InOrder i r w) (hc : Separate r w) (h : serve setting fails i r w a w') :
    Lasting w w' := by
  refine ⟨fun d ↦ taken_serve hw.wellFormed hc h, fun d ↦ gone_serve hw hok hc h, ?_, ?_⟩ <;>
    intro f hf <;> obtain hr | ⟨command, order, -, hnew, hr⟩ := firstRuns_serve h
  · rw [hr]
    exact hf
  · rw [hr]
    exact List.mem_append_left _ hf
  · intro _
    rw [hr] at hf
    exact hf
  · intro ⟨g, hg, hgf⟩
    rw [hr] at hf
    obtain hf | hf := List.mem_append.mp hf
    · exact hf
    · obtain rfl := List.mem_singleton.mp hf
      exact absurd hgf (hnew g hg)

theorem scratch_handles {r : Request} {a : Answer r} (hok : InOrder i r w) {h' : Handling}
    (hw : (w.handling i).scratch.isSome = true → (w.handling i).details.isSome = true)
    (hs : handles r (w.handling i) a h') (hsome : h'.scratch.isSome = true) :
    h'.details.isSome = true := by
  cases r with
  | source r =>
    cases r with
    | begins | answered =>
      obtain rfl := hs
      cases hsome
    | entry identifier =>
      obtain rfl := hs
      rw [hok.2] at hsome
      cases hsome
    | createScratch =>
      obtain ⟨-, rfl⟩ | ⟨-, rfl⟩ := hs <;> exact hok
    | writeScratch buffer =>
      obtain ⟨n, -, -, -, rfl⟩ | ⟨-, rfl⟩ := hs
      · exact hw (by simpa using hsome)
      · exact hw hsome
    | openScratch =>
      obtain ⟨-, rfl⟩ | ⟨-, rfl⟩ := hs <;> exact hw hsome
    | readScratch =>
      obtain ⟨data, rest, -, -, -, -, rfl⟩ | ⟨-, rfl⟩ := hs <;> exact hw hsome
    | removeScratch =>
      obtain rfl | rfl := hs
      · cases hsome
      · exact hw hsome
    | _ =>
      obtain rfl := hs
      exact hw hsome
  | _ =>
    obtain rfl := hs
    exact hw hsome

theorem separated_serve {r : Request} {a : Answer r} (hw : Separated setting w)
    (hok : InOrder i r w) (hc : Separate r w) (h : serve setting fails i r w a w') :
    Separated setting w' := by
  have hlast := lasting_serve hw hok hc h
  refine ⟨wellFormed_serve hw.wellFormed h, fun j hj ↦ ?_, fun row hm ↦ ?_, fun command ha ↦ ?_⟩
  · by_cases he : j = i
    · subst he
      exact scratch_handles hok (hw.scratch j) (handles_serve h) hj
    · rw [handling_of_ne he h] at hj ⊢
      exact hw.scratch j hj
  · obtain hm | ⟨old, -, he⟩ | rfl := log_serve h hm
    · exact hw.log row hm
    · intro subject hs _
      rw [he] at hs ⊢
      cases ho : old.entry.subject with
      | none => simp [LogEntry.redacted, ho] at hs
      | some s =>
        simp only [LogEntry.redacted, ho, Option.map_some] at hs
        exact ⟨(Option.some.inj hs).symm, rfl⟩
    · intro subject hs hnone
      obtain ⟨subject', d, hs', hdoc, -⟩ := hok
      obtain rfl := Option.some.inj (hs.symm.trans hs')
      cases hnone.symm.trans hdoc
  · obtain ha | rfl := outcome_serve h ha
    · exact hlast.carried (hw.applied command ha)
    · exact hlast.carried (hok rfl)

end Served

def discipline (setting : Setting) : Discipline Request Answer World where
  invariant := Separated setting
  ok := InOrder
  rely i w w' := w'.handling i = w.handling i ∧ Lasting w w'
  ends _ _ := True

section Steps

variable {setting : Setting} {fails : Prop} {i : ℕ} {document : DocumentIdentifier}

abbrev contract (setting : Setting) (fails : Prop) (i : ℕ) : Contract Request Answer World :=
  (discipline setting).knowing (rules setting fails separate) i

theorem lasting_contract {r : Request} {a : Answer r} {w w' : World}
    (hok : (contract setting fails i).ok r w) (h : (contract setting fails i).serve r w a w') :
    Lasting w w' :=
  lasting_serve h.2 hok h.1.2 h.1.1

/-- What lasts beside a command. -/
theorem sound_lasting {α : Type} {P : World → Prop} {p : CommandActivity α}
    {Q : α → World → Prop} {w : World} (hP : ∀ w w', Lasting w w' → P w → P w') (hw : P w)
    (hp : (commands (contract setting fails i)).Sound p Q w) :
    (commands (contract setting fails i)).Sound p (fun a w' ↦ Q a w' ∧ P w') w :=
  sound_keeping (fun r w _ w' hok hs hw ↦
      hP w w' (lasting_contract (r := .command r) hok hs) hw)
    (fun w w' hw hr ↦ hP w w' hr.1.2 hw) hw hp

section Deliveries

/-- The requests of a delivery that goes by an entry of the document. -/
def Delivers (document : DocumentIdentifier) : Request → Prop
  | .source (.begins _) | .source (.entry _) | .source (.answered _) | .setOutcome _ _ => False
  | .source (.appendLog entry) =>
    ∃ subject, entry.subject = some subject ∧ subject.document = some document
  | _ => True

theorem delivers_of_harmless {r : Request} (h : Harmless r) : Delivers document r := by
  unfold Delivers
  split <;> trivial

theorem asks_loadAndCheck (entry : Entry) (details : FileDetails) (expected : Sha256Value)
    (request : ContentRequest) :
    (loadAndCheck setting entry details document expected request).run.Asks
      (Delivers document) := by
  have O : Orderly setting (ofKind (Delivers document) : Contract Request Answer World) :=
    { harmless := fun _ _ h _ ↦ delivers_of_harmless h
      ensureForToken := fine_of_all (fun _ _ ↦ trivial) _
      forceRefresh := fine_of_all (fun _ _ ↦ trivial) _
      signIn := fine_of_all (fun _ _ ↦ trivial) _
      signOut := fine_of_all (fun _ _ ↦ trivial) _
      clearAfterSignOut := fine_of_all (fun _ _ ↦ trivial) _
      root := fine_of_all (fun _ _ ↦ trivial) _
      fetchAndAdopt := fun _ ↦ fine_of_all (fun _ _ ↦ trivial) _ }
  refine asks_of_fine (fine_loadAndCheck O (fun r w hr ↦ ?_) entry details document expected
    request) (.setUp setting.device 0 0)
  cases r <;> trivial

theorem asks_row (kind : LogKind) (entry : Entry) (location : Location)
    (detail : Option String) :
    (Hydration.appendLog kind entry location document detail).Asks (Delivers document) := by
  refine asks_bind (asks_call (by trivial)) fun located ↦ ?_
  refine asks_bind (asks_call (by trivial)) fun time ↦ ?_
  split
  · rename_i row hrow
    unfold LogEntry.new at hrow
    split at hrow
    · obtain rfl := Option.some.inj hrow
      exact asks_call ⟨_, rfl, rfl⟩
    · cases hrow
  · trivial

/-- The delivery goes by an entry at a place of the document. -/
def Inside (i : ℕ) (identifier : EntryIdentifier) (w : World) : Prop :=
  (w.handling i).identifier = some identifier ∧ (w.handling i).details.isSome = true

theorem sound_inside {α : Type} {p : Activity α} {identifier : EntryIdentifier}
    (hd : identifier.document? = some document) (hp : p.Asks (Delivers document)) {w : World}
    (hw : Inside i identifier w) :
    (contract setting fails i).Sound p (fun _ ↦ Inside i identifier) w := by
  refine sound_of_asks hp (fun r w hr hw ↦ ⟨?_, fun a w' hs ↦ ?_⟩) (fun w w' hw hr ↦ ?_) hw
  · have hdoc : documentOf (w.handling i) = some document := by
      rw [documentOf, hw.1]
      exact hd
    cases r with
    | source r =>
      cases r with
      | begins | entry | answered => exact hr.elim
      | createScratch => exact hw.2
      | write => exact .inl hw.2
      | appendLog entry =>
        obtain ⟨subject, hs, hsd⟩ := hr
        exact ⟨subject, document, hs, hsd, hw.2, hdoc⟩
      | _ => trivial
    | setOutcome => exact hr.elim
    | _ => trivial
  · have hunder : Underway r := by
      cases r with
      | source r => cases r <;> trivial
      | _ => trivial
    obtain ⟨hi, hdet⟩ := underway_handles hunder (handles_serve hs.1.1)
    rw [Inside, hi, hdet]
    exact hw
  · rw [Inside, hr.1.1]
    exact hw

theorem fine_loadDocument (location : Location) (request : ContentRequest) {w : World}
    (hw : w.handling i = { identifier := some (.document location document) }) :
    (contract setting fails i).Sound
      (loadDocument setting (.document location document) location document request).run
      (fun _ _ ↦ True) w := by
  refine sound_fallible_bind ⟨?_, fun answer w₁ w₂ hs hr ↦ ?_⟩
  · change (w.handling i).identifier = _ ∧ (w.handling i).scratch = none
    rw [hw]
    exact ⟨rfl, rfl⟩
  have hh : (w₂.handling i) = { w.handling i with details := answer.toOption.join.bind (·.file) } :=
    hr.1.1.trans (handles_serve hs.1.1)
  refine sound_fallible_bind (sound_done.mpr ?_)
  cases answer with
  | error e => trivial
  | ok found =>
    rw [Library.Results.mapError_ok]
    cases found with
    | none => trivial
    | some entry =>
    dsimp only
    split
    · trivial
    · rename_i details hdetails
      split
      · trivial
      · rename_i expected he
        have hin : Inside i (.document location document) w₂ := by
          rw [Inside, hh, hw]
          exact ⟨rfl, Option.isSome_of_mem hdetails⟩
        have hd : (EntryIdentifier.document location document).document? = some document := rfl
        refine sound_fallible_bind (sound_bind.mpr (sound_mono ?_ (sound_inside hd
          (asks_loadAndCheck entry details expected request) hin)))
        intro result w hin
        refine sound_mono (Q := fun _ ↦ Inside i (.document location document))
          (fun _ _ _ ↦ trivial) (sound_inside hd ?_ hin)
        cases result with
        | ok _ => exact asks_fallible_bind (asks_lift (asks_row _ _ _ _)) fun _ ↦ trivial
        | error _ => exact asks_fallible_bind (asks_lift (asks_row _ _ _ _)) fun _ ↦ trivial

/-- The requests of a hint. -/
def Hints : Request → Prop
  | .source (.containerState _) | .source (.progress _ _) | .source (.write _ _) => True
  | _ => False

theorem asks_hint (location : Container) (kind : HintKind) :
    (Hydration.hint setting location kind).run.Asks Hints := by
  refine asks_fallible_bind ?_ fun text ↦ ?_
  · cases kind with
    | readMe => trivial
    | truncated =>
      refine asks_fallible_bind (asks_lift (asks_call (by trivial))) fun answer ↦ ?_
      exact asks_fallible_bind (by trivial) fun _ ↦ trivial
  · refine asks_fallible_bind (asks_lift (asks_call (by trivial))) fun _ ↦ ?_
    refine asks_fallible_bind (asks_lift (asks_call (by trivial))) fun written ↦ ?_
    split <;> trivial

theorem sound_hint (location : Container) (kind : HintKind) {w : World}
    (hw : (w.handling i).identifier = some (.hint location kind)) :
    (contract setting fails i).Sound (Hydration.hint setting location kind).run
      (fun _ _ ↦ True) w := by
  refine sound_mono (fun _ _ _ ↦ trivial) (sound_of_asks
    (I := fun w ↦ (w.handling i).identifier = some (.hint location kind)) (asks_hint location kind)
    (fun r w hr hw ↦ ⟨?_, fun a w' hs ↦ ?_⟩) (fun w w' hw hr ↦ ?_) hw)
  · unfold Hints at hr
    split at hr
    · trivial
    · trivial
    · right
      rw [documentOf, hw]
      rfl
    · exact hr.elim
  · have hunder : Underway r := by
      unfold Hints at hr
      split at hr <;> trivial
    exact (underway_handles hunder (handles_serve hs.1.1)).1.trans hw
  · rw [hr.1.1]
    exact hw

theorem fine_delivery (identifier : EntryIdentifier) (request : ContentRequest) :
    (contract setting fails i).Fine (Hydration.content setting identifier request) := by
  intro w
  refine ⟨trivial, fun _ w₁ w₂ hs hr ↦ ?_⟩
  have hbegun : w₂.handling i = { identifier := some identifier } :=
    hr.1.1.trans (handles_serve hs.1.1)
  refine ⟨trivial, fun stopped w₃ w₄ hs hr ↦ ?_⟩
  have hbegun : w₄.handling i = { identifier := some identifier } := by
    refine hr.1.1.trans (Eq.trans ?_ hbegun)
    rw [hs.1.1.2]
  have hanswer : ∀ result w, (contract setting fails i).Sound (callSource (.answered result))
      (fun _ _ ↦ True) w := fun _ _ ↦ ⟨trivial, fun _ _ _ _ _ ↦ trivial⟩
  change (contract setting fails i).Sound (if stopped = true then _ else _) _ _
  split
  · exact hanswer _ w₄
  · refine sound_bind.mpr (sound_mono (Q := fun _ _ ↦ True)
      (fun result w _ ↦ hanswer result w) ?_)
    cases identifier with
    | container c => trivial
    | hint location kind =>
      refine sound_hint location kind ?_
      rw [hbegun]
    | document location document => exact fine_loadDocument location request hbegun

end Deliveries

section Orders

theorem orderly (setting : Setting) (fails : Prop) (i : ℕ) :
    Orderly setting (contract setting fails i) where
  harmless r w _ _ := by
    change InOrder i r w
    unfold InOrder
    split <;> trivial
  ensureForToken := fine_of_all (fun _ _ ↦ trivial) _
  forceRefresh := fine_of_all (fun _ _ ↦ trivial) _
  signIn := fine_of_all (fun _ _ ↦ trivial) _
  signOut := fine_of_all (fun _ _ ↦ trivial) _
  clearAfterSignOut := fine_of_all (fun _ _ ↦ trivial) _
  root := fine_of_all (fun _ _ ↦ trivial) _
  fetchAndAdopt _ := fine_of_all (fun _ _ ↦ trivial) _

/-- What fails is remembered to the end. -/
def Succeeds (situation : DehydrateSituation) (situation' : DehydrateSituation) : Prop :=
  situation'.failed = false → situation.failed = false

theorem ends_removeLocation (action : Actions) (location : EntryIdentifier)
    (situation : DehydrateSituation) :
    (removeLocation action location situation).Ends (Succeeds situation) := by
  unfold removeLocation
  split
  · intro answer
    cases answer with
    | ok _ => exact id
    | error e => exact fun h ↦ nomatch h
  · exact id

theorem ends_giveLocationFree (reason : Reason) (situation : DehydrateSituation)
    (location : EntryIdentifier) :
    (giveLocationFree reason situation location).Ends (Succeeds situation) := by
  intro answer
  dsimp only [Program.bind]
  split
  · exact fun h ↦ (by cases h)
  · split
    · intro released
      cases released with
      | ok _ => exact ends_removeLocation _ _ _
      | error e =>
        exact (ends_removeLocation _ _ _).mono fun _ h hf ↦ by cases h hf
    · exact ends_removeLocation _ _ _

theorem ends_giveLocationsFree (fileSystem : Bool) (reason : Reason)
    (locations : List EntryIdentifier) (situation : DehydrateSituation) :
    (giveLocationsFree fileSystem reason locations situation).Ends (Succeeds situation) := by
  induction locations generalizing situation with
  | nil => exact id
  | cons location rest ih =>
    have htriggered : (situation.triggeredBy reason location).failed = situation.failed := by
      unfold DehydrateSituation.triggeredBy
      split
      · split <;> rfl
      · rfl
    unfold giveLocationsFree
    dsimp only
    split
    · refine ends_bind ((ends_giveLocationFree _ _ _).mono fun s hs ↦ (ih s).mono fun s' hs' hf ↦ ?_)
      exact htriggered ▸ hs (hs' hf)
    · exact (ih _).mono fun s' hs' hf ↦ htriggered ▸ hs' hf

theorem sound_forgetDocument {situation : DehydrateSituation} {w : World} :
    (commands (contract setting fails i)).Sound (forgetDocument .erasure document situation)
      (fun situation' w' ↦ situation'.failed = false →
        situation.failed = false ∧ Taken document w'.store) w := by
  have hremoves : (actions .erasure false).removeEntry = true := rfl
  rw [forgetDocument, if_pos hremoves]
  refine sound_call_bind trivial fun time w₁ w₂ _ _ ↦ ?_
  refine sound_call_bind trivial fun a w₃ w₄ hs hr ↦ ?_
  cases a with
  | error e => exact fun h ↦ (by cases h)
  | ok journal =>
    have htaken : Taken document w₄.store := by
      refine hr.1.2.taken document ?_
      obtain ⟨⟨hserve, -⟩, hw⟩ := hs
      obtain ⟨-, e, he⟩ | ⟨b, s, hop, -, rfl⟩ := storedNoting_cases hserve
      · cases he
      · exact taken_of_removed hw.wellFormed.rooted hop
    refine sound_bind.mpr (sound_mono ?_ (sound_lasting (P := fun w ↦ Taken document w.store)
      (fun w w' hl h ↦ hl.taken document h) htaken
      (fine_embed (fine_registerWithPlatform (orderly setting fails i) journal) w₄)))
    intro _ w hw hf
    exact ⟨hf, hw.2⟩

theorem sound_redactLog {situation : DehydrateSituation} {w : World} :
    (commands (contract setting fails i)).Sound (redactLog .erasure document situation)
      (fun situation' w' ↦ situation'.failed = false →
        situation.failed = false ∧ (Taken document w.store → Gone document w')) w := by
  refine ⟨trivial, fun a w₁ w₂ hs hr ↦ ?_⟩
  cases a with
  | error e => exact fun h ↦ nomatch h
  | ok _ =>
    intro hf
    refine ⟨hf, fun ht ↦ hr.1.2.gone document ?_⟩
    obtain ⟨⟨hserve, happart⟩, hw⟩ := hs
    have hapart : Separate (.command (.redact document)) w := happart
    have htaken := taken_serve hw.wellFormed hapart hserve ht
    simp only [Port.serve, serveCommand, World.Stored] at hserve
    obtain ⟨-, e, he⟩ | ⟨b, s, hop, -, rfl⟩ := storedNoting_cases hserve
    · cases he
    · obtain ⟨-, rfl⟩ := Prod.mk.inj (Except.ok.inj hop)
      refine ⟨htaken, fun row hm hd ↦ ?_, hapart.1, hapart.2⟩
      obtain ⟨-, hne⟩ | ⟨old, -, he⟩ := mem_redact hm
      · exact hne hd
      · exact document_redacted old.entry (he ▸ hd)

theorem sound_dehydrateDocument {fileSystem : Bool} {situation : DehydrateSituation} {w : World} :
    (commands (contract setting fails i)).Sound
      (dehydrateDocument fileSystem .erasure situation document)
      (fun situation' w' ↦ situation'.failed = false →
        situation.failed = false ∧ Gone document w') w := by
  refine sound_call_bind trivial fun a w₁ w₂ _ _ ↦ ?_
  cases a with
  | error e => exact fun h ↦ nomatch h
  | ok locations =>
    have O := orderly setting fails i
    refine sound_bind.mpr (sound_mono ?_ (sound_ends
      (fine_giveLocationsFree O fileSystem .erasure locations
        (situation.effectiveIf !locations.isEmpty) w₂) (ends_giveLocationsFree _ _ _ _)))
    intro situation₁ w₃ hfreed
    refine sound_bind.mpr (sound_mono ?_ sound_forgetDocument)
    intro situation₂ w₄ hforgot
    refine sound_mono ?_ sound_redactLog
    intro situation₃ w₅ hredacted hf
    obtain ⟨hf, hgone⟩ := hredacted hf
    obtain ⟨hf, htaken⟩ := hforgot hf
    exact ⟨hfreed.2 hf, hgone htaken⟩

theorem sound_dehydrateEach {fileSystem : Bool} (documents : List DocumentIdentifier)
    {situation : DehydrateSituation} {w : World} :
    (commands (contract setting fails i)).Sound
      (dehydrateEach fileSystem .erasure documents situation)
      (fun situation' w' ↦ situation'.failed = false →
        situation.failed = false ∧ ∀ d ∈ documents, Gone d w') w := by
  induction documents generalizing situation w with
  | nil => exact fun hf ↦ ⟨hf, fun d hd ↦ absurd hd List.not_mem_nil⟩
  | cons document rest ih =>
    refine sound_bind.mpr (sound_mono ?_ sound_dehydrateDocument)
    intro situation₁ w₁ hfirst
    refine sound_mono ?_ (sound_lasting (P := fun w ↦ situation₁.failed = false → Gone document w)
      (fun w w' hl h hf ↦ hl.gone document (h hf)) (fun hf ↦ (hfirst hf).2) ih)
    intro situation₂ w₂ hrest hf
    obtain ⟨hf₁, hgone⟩ := hrest.1 hf
    refine ⟨(hfirst hf₁).1, fun d hd ↦ ?_⟩
    obtain rfl | hd := List.mem_cons.mp hd
    · exact hrest.2 hf₁
    · exact hgone d hd

/-- An erasure that was applied leaves nothing of its documents. -/
theorem sound_dehydrate (documents : List DocumentIdentifier) {w : World} :
    (commands (contract setting fails i)).Sound (dehydrate documents .erasure)
      (fun outcome w' ↦ outcome = .applied → ∀ d ∈ documents, Gone d w') w := by
  refine sound_call_bind trivial fun fileSystem w₁ w₂ _ _ ↦ ?_
  refine sound_bind.mpr (sound_mono ?_ (sound_dehydrateEach documents))
  intro situation w₃ hgone
  refine sound_call_bind trivial fun _ w₄ w₅ hs hr happlied d hd ↦ ?_
  have hf : situation.failed = false := by
    unfold DehydrateSituation.outcome at happlied
    split at happlied
    · cases happlied
    · exact Bool.eq_false_iff.mpr ‹_›
  refine hr.1.2.gone d ?_
  exact (lasting_contract (r := .command (.spawnReconciles situation.toTrigger)) trivial hs).gone d
    ((hgone hf).2 d hd)

theorem carried_of_ordered {command : CommandIdentifier} {order : Command} {w : World}
    (h : Ordered command order w)
    (hgone : ∀ documents, order = .dehydrate documents .erasure → ∀ d ∈ documents, Gone d w) :
    Carried command w :=
  ⟨h.1, fun f hf hc documents ho ↦ hgone documents ((h.2 f hf hc).symm.trans ho)⟩

theorem ordered_runBegins {command : CommandIdentifier} {order : Command} {w : World}
    (h : ∀ f ∈ w.history.firstRuns, f.command = command → f.order = order) :
    Ordered command order
      (w.noting (.runBegins (placesOf w.store order) command order)) := by
  change (∃ f ∈ (History.runBegins _ _ _ _).firstRuns, _) ∧
    ∀ f ∈ (History.runBegins _ _ _ _).firstRuns, _
  unfold History.runBegins
  split
  · rename_i hany
    obtain ⟨f, hf, hc⟩ := List.any_eq_true.mp hany
    exact ⟨⟨f, hf, of_decide_eq_true hc⟩, h⟩
  · refine ⟨⟨_, List.mem_append_right _ (List.mem_singleton_self _), rfl⟩, fun f hf hc ↦ ?_⟩
    obtain hf | hf := List.mem_append.mp hf
    · exact h f hf hc
    · obtain rfl := List.mem_singleton.mp hf
      rfl

theorem sound_runFrom (command : CommandIdentifier) (order : Command) {w : World} :
    (commands (contract setting fails i)).Sound (runFrom setting command order)
      (fun outcome w' ↦ outcome = .applied → Carried command w') w := by
  have O := orderly setting fails i
  refine sound_call_bind trivial fun _ w₁ w₂ hs hr ↦ ?_
  have hordered : Ordered command order w₂ := by
    obtain ⟨⟨rfl, hsame⟩, -⟩ := hs
    exact hr.1.2.ordered (ordered_runBegins hsame)
  have hrun : ∀ {p : CommandActivity CommandOutcome},
      (commands (contract setting fails i)).Sound p (fun outcome w' ↦ outcome = .applied →
        ∀ documents, order = .dehydrate documents .erasure → ∀ d ∈ documents, Gone d w') w₂ →
      (commands (contract setting fails i)).Sound p
        (fun outcome w' ↦ outcome = .applied → Carried command w') w₂ := by
    intro p hp
    refine sound_mono ?_ (sound_lasting (fun w w' hl h ↦ hl.ordered h) hordered hp)
    exact fun outcome w h happlied ↦ carried_of_ordered h.2 (h.1 happlied)
  have hother : ∀ {p : CommandActivity CommandOutcome},
      (commands (contract setting fails i)).Fine p →
      (∀ documents, order ≠ .dehydrate documents .erasure) →
      (commands (contract setting fails i)).Sound p
        (fun outcome w' ↦ outcome = .applied → Carried command w') w₂ := by
    intro p hp hne
    refine hrun (sound_mono ?_ (hp w₂))
    exact fun _ _ _ _ documents ho ↦ absurd ho (hne documents)
  cases order with
  | dehydrate documents reason =>
    by_cases hr : reason = .erasure
    · subst hr
      refine hrun (sound_mono ?_ (sound_dehydrate documents))
      intro outcome w h happlied documents' ho
      obtain ⟨rfl, -⟩ := Command.dehydrate.inj ho
      exact h happlied
    · refine hother (fine_dehydrate O documents reason) fun documents' ho ↦ hr ?_
      exact (Command.dehydrate.inj ho).2
  | reconcile container =>
    cases container with
    | none =>
      exact hother (fine_bind (fine_embed (fine_reconcileEverything O)) fun _ ↦ fine_done _) nofun
    | some container =>
      exact hother (fine_bind (fine_embed (fine_reconcileContainer O container))
        fun _ ↦ fine_done _) nofun
  | signOut =>
    exact hother (fine_bind (fine_embed (fine_embed O.clearAfterSignOut)) fun _ ↦ fine_done _) nofun
  | refreshKeys => exact hother (fine_of_all (fun _ _ ↦ trivial) _) nofun

theorem sound_judge (envelope : CommandEnvelope) (rate : RateLimit) (w : World) :
    (commands (contract setting fails i)).Sound (judge setting envelope rate)
      (fun x w' ↦ InOrder i (.setOutcome envelope.commandId x.1) w') w := by
  refine sound_bind.mpr (sound_mono ?_ (fine_of_all (fun _ _ ↦ trivial) _ w))
  intro set w₁ _
  split
  · exact fun h ↦ nomatch h
  split
  · exact fun h ↦ nomatch h
  split
  · exact fun h ↦ nomatch h
  refine sound_call_bind trivial fun time w₂ w₃ _ _ ↦ ?_
  split
  · exact fun h ↦ nomatch h
  refine sound_bind.mpr (sound_mono ?_ (sound_runFrom envelope.commandId _))
  exact fun outcome w h ↦ h

theorem fine_entry (value : Value) (rate : RateLimit) :
    (contract setting fails i).Fine (process setting value rate) :=
  fine_processJudged (orderly setting fails i) (fun _ _ h ↦ nomatch h) sound_judge value rate

end Orders

end Steps

theorem lasting_of_same {w w' : World} (hstore : w'.store = w.store)
    (hruns : w'.history.firstRuns = w.history.firstRuns)
    (hgone : ∀ d, Gone d w → (∀ i, ¬ Goes d (w'.handling i)) ∧
      ∀ file ∈ w'.left, file.1.document? ≠ some d) : Lasting w w' where
  taken _ h := hstore ▸ h
  gone d h := ⟨hstore ▸ h.taken, hstore ▸ h.log, (hgone d h).1, (hgone d h).2⟩
  runs _ hf := hruns ▸ hf
  first _ hf _ := hruns ▸ hf

theorem lasting_ended (i : ℕ) (w : World) : Lasting w (ended i w) := by
  obtain he | ⟨-, he⟩ := ended_cases i w <;> rw [he]
  · exact .refl w
  · exact lasting_of_same rfl rfl fun d h ↦ ⟨h.delivery, h.left⟩

theorem Separated.of_lasting {setting : Setting} {w w' : World} (h : Separated setting w)
    (hl : Lasting w w') (hstore : w'.store = w.store)
    (hscratch : ∀ i, (w'.handling i).scratch.isSome = true →
      (w'.handling i).details.isSome = true) : Separated setting w' where
  wellFormed := hstore ▸ h.wellFormed
  scratch := hscratch
  log := hstore ▸ h.log
  applied command ha := by
    rw [Applied, hstore] at ha
    exact hl.carried (h.applied command ha)

theorem handling_ended (i : ℕ) (w : World) : (ended i w).handling = w.handling := by
  obtain he | ⟨-, he⟩ := ended_cases i w <;> rw [he]
  rfl

theorem kept (setting : Setting) (fails : Prop) :
    (discipline setting).Kept (rules setting fails separate) (Fresh setting) where
  refl _ w := ⟨rfl, .refl w⟩
  trans _ _ _ _ h h' := ⟨h'.1.trans h.1, h.2.trans h'.2⟩
  enter w := by
    rintro ⟨n, limit, rfl⟩
    refine ⟨SameNamespace.wellFormed (wellFormed_setUp _ n limit) ⟨rfl, rfl, rfl, rfl⟩, nofun, ?_, ?_⟩
    · exact fun row hm ↦ absurd hm List.not_mem_nil
    · exact fun command ha ↦ nomatch ha
  start i p w hi := by
    intro ⟨job, hp, _⟩ w' _ hi'
    rw [hp]
    exact Discipline.sound_of_knowing hi' (fine_program (orderly setting fails i) fine_entry
      fine_delivery job w')
  serve i r w a w' hi hok hserve := by
    refine ⟨separated_serve hi hok hserve.2 hserve.1, fun j hj ↦ ⟨?_, ?_⟩⟩
    · exact handling_of_ne hj hserve.1
    · exact lasting_serve hi hok hserve.2 hserve.1
  finish i w w' hi _ hw := by
    obtain rfl := hw
    have hl := lasting_ended i w
    have hh := handling_ended i w
    exact ⟨hi.of_lasting hl (sameRecord_ended i w).store (hh ▸ hi.scratch),
      fun j _ ↦ ⟨congrFun hh j, hl⟩⟩
  abort i w w' hi hw := by
    obtain ⟨-, rfl⟩ := hw
    have hh : (aborted i w).handling = Function.update w.handling i {} := by
      rw [← handling_ended i w]
      rfl
    have hscratch : ∀ j, ((aborted i w).handling j).scratch.isSome = true →
        ((aborted i w).handling j).details.isSome = true := by
      intro j hj
      rw [hh] at hj ⊢
      by_cases he : j = i
      · rw [he, Function.update_self] at hj
        cases hj
      · rw [Function.update_of_ne he] at hj ⊢
        exact hi.scratch j hj
    have hl : Lasting w (aborted i w) := by
      refine lasting_of_same (sameRecord_aborted i w).store (sameRecord_aborted i w).firstRuns
        fun d hg ↦ ⟨fun j hj ↦ ?_, fun file hm hd ↦ ?_⟩
      · rw [hh] at hj
        by_cases he : j = i
        · rw [he, Function.update_self] at hj
          cases hj.1
        · rw [Function.update_of_ne he] at hj
          exact hg.delivery j hj
      · have hleft : (ended i w).left = w.left := by
          obtain he | ⟨-, he⟩ := ended_cases i w <;> rw [he]
          rfl
        have hm : file ∈ (ended i w).left ++ _ := hm
        rw [hleft, handling_ended] at hm
        obtain hm | hm := List.mem_append.mp hm
        · exact hg.left file hm hd
        · exact hg.delivery i (goes_of_left (hi.scratch i) hm hd)
    refine ⟨hi.of_lasting hl (sameRecord_aborted i w).store hscratch, fun j hj ↦ ⟨?_, hl⟩⟩
    rw [hh, Function.update_of_ne hj]
  restart w w' hi hw := by
    obtain ⟨-, fingerprint, rfl⟩ := hw
    have hl : Lasting w (w.restart fingerprint) := by
      refine lasting_of_same rfl rfl fun d hg ↦ ⟨fun i hgoes ↦ ?_, fun file hm ↦ ?_⟩
      · cases hgoes.1
      · exact absurd hm List.not_mem_nil
    exact hi.of_lasting hl rfl nofun
  outside w w' hi hw := by
    obtain ⟨-, rfl⟩ := hw
    have hl : Lasting w (stopped w) :=
      lasting_of_same rfl rfl fun d hg ↦ ⟨hg.delivery, hg.left⟩
    exact ⟨hi.of_lasting hl rfl hi.scratch, fun _ ↦ ⟨rfl, hl⟩⟩

/-- What is left of an erased document: its name in no row of the usage log, no scratch file, and
no byte on its way to a sink. -/
structure Unseen (document : DocumentIdentifier) (c : Activities) : Prop where
  log : ∀ row ∈ c.state.store.log, ∀ subject, row.entry.subject = some subject →
    subject.document ≠ some document ∧
      (subject.document = none → subject = ⟨Core.Log.redactedName, none, none⟩)
  left : ∀ file ∈ c.state.left, file.1.document? ≠ some document
  scratch : ∀ i, documentOf (c.state.handling i) = some document →
    (c.state.handling i).scratch = none
  sink : ∀ i offset data next, c.running i = some (.ask (.source (.write offset data)) next) →
    documentOf (c.state.handling i) ≠ some document

/-- In every run in which a document's rows are redacted only while no delivery has its entry,
nothing is seen of a document once its erasure is recorded as applied. -/
theorem unseen_of_every_run {setting : Setting} {fails : Prop} {c : Activities}
    (h : Runs setting fails separate c) {f : FirstRun} (hf : f ∈ c.state.history.firstRuns)
    {documents : List DocumentIdentifier} (ho : f.order = .dehydrate documents .erasure)
    (ha : recordedOutcome c.state.store f.command = some .applied) {document : DocumentIdentifier}
    (hd : document ∈ documents) : Unseen document c := by
  have hi := (Discipline.run_kept (kept setting fails) h).1
  have hg := (hi.applied f.command ha).2 f hf rfl documents ho document hd
  refine ⟨fun row hm subject hs ↦ ⟨fun hd ↦ ?_, fun hn ↦ ?_⟩, hg.left, fun i hdoc ↦ ?_, ?_⟩
  · refine hg.log row hm ?_
    rw [hs]
    exact hd
  · exact (hi.log row hm subject hs hn).1
  · by_contra hsome
    exact hg.delivery i ⟨hi.scratch i (Option.isSome_iff_ne_none.mpr hsome), hdoc⟩
  · intro i offset data next hrun hdoc
    have hok := Discipline.ok_of_run (kept setting fails) h hrun
    obtain hdet | hnone := hok
    · exact hg.delivery i ⟨hdet, hdoc⟩
    · exact nomatch hnone.symm.trans hdoc

section Erased

open FolderClient.Engine.Play

/-- The condition, where two activities run and whatever is listed was not erased. -/
def separates : ℕ → (r : Request) → World → Answer r → World → Bool
  | _, .command (.redact document), w, _, _ =>
    (List.range 2).all (fun i ↦ (w.handling i).details.isNone ||
      documentOf (w.handling i) ≠ some document) &&
        w.left.all fun file ↦ file.1.document? ≠ some document
  | _, .command (.reconcile (.replaceContainer _ entries _ _)), w, _, _ =>
    entries.all fun e ↦ e.identifier.document?.all fun d ↦ !w.store.erased.contains d
  | _, .command (.runBegins command _), w, _, _ =>
    w.history.firstRuns.all (·.command ≠ command)
  | _, _, _, _, _ => true

/-- Only the first two activities deliver. -/
def Two (w : World) : Prop := ∀ i, 2 ≤ i → w.handling i = {}

theorem separate_of_separates {i : ℕ} {r : Request} {w w' : World} {a : Answer r} (hw : Two w)
    (h : separates i r w a w' = true) : separate.serve i r w a w' := by
  change Separate r w
  unfold separates at h
  split at h
  · simp only [Bool.and_eq_true, List.all_eq_true, Bool.or_eq_true, decide_eq_true_eq,
      List.mem_range, Option.isNone_iff_eq_none] at h
    refine ⟨fun j ⟨hsome, hdoc⟩ ↦ ?_, h.2⟩
    by_cases hj : j < 2
    · obtain hnone | hne := h.1 j hj
      · rw [hnone] at hsome
        cases hsome
      · exact hne hdoc
    · rw [hw j (by omega)] at hsome
      cases hsome
  · intro e he d hd hc
    have hall := List.all_eq_true.mp h e he
    rw [hd, Option.all_some, hc] at hall
    cases hall
  · intro f hf hc
    have hall := List.all_eq_true.mp h f hf
    exact absurd hc (of_decide_eq_true hall)
  · rename_i hredact hreplace hrun
    unfold Separate
    split
    · exact (hredact _ _ rfl HEq.rfl).elim
    · exact (hreplace _ _ _ _ _ rfl HEq.rfl).elim
    · exact (hrun _ _ _ rfl HEq.rfl).elim
    · trivial

/-- Moves of the first two activities. -/
def ofTwo : Move → Bool
  | .ask i _ => i < 2
  | _ => true

theorem two_move {setting : Setting} {allows : ℕ → (r : Request) → World → Answer r → World → Bool}
    {c c' : Activities} {m : Move} (hm : ofTwo m = true) (hc : Two c.state)
    (h : moveIf setting allows c m = some c') : Two c'.state := by
  cases m with
  | ask i e =>
    rw [moveIf] at h
    split at h
    · obtain ⟨⟨a, w⟩, hx, rfl⟩ := Option.map_eq_some_iff.mp h
      obtain ⟨hx, -⟩ := Option.filter_eq_some_iff.mp hx
      intro j hj
      have hi : i < 2 := of_decide_eq_true hm
      exact (handling_of_ne (by omega) (respond_serves setting i e hx)).trans (hc j hj)
    · cases h
  | start i job =>
    rw [moveIf, move] at h
    split at h
    · obtain rfl := Option.some.inj h
      exact hc
    · cases h
  | finish i =>
    rw [moveIf, move] at h
    split at h
    · obtain rfl := Option.some.inj h
      intro j hj
      exact (congrFun (handling_ended i c.state) j).trans (hc j hj)
    · cases h
  | abort | restart | stop => cases h

theorem runs_of_two {setting : Setting} {condition : Condition}
    {allows : ℕ → (r : Request) → World → Answer r → World → Bool}
    (hallow : ∀ i r w a w', Two w → allows i r w a w' = true → condition.serve i r w a w')
    {c c' : Activities} {moves : List Move} (hm : moves.all ofTwo = true)
    (hc : Runs setting False condition c) (htwo : Two c.state)
    (h : playIf setting allows c moves = some c') :
    Runs setting False condition c' ∧ Two c'.state := by
  induction moves generalizing c with
  | nil =>
    obtain rfl := Option.some.inj h
    exact ⟨hc, htwo⟩
  | cons m moves ih =>
    obtain ⟨hm, hms⟩ := Bool.and_eq_true_iff.mp hm
    rw [playIf, List.foldlM_cons] at h
    obtain ⟨c₁, hmove, h⟩ := Option.bind_eq_some_iff.mp h
    refine ih hms (.step hc (step_of_moveIf ?_ hmove)) (two_move hm htwo hmove) h
    exact fun i r a w' ↦ hallow i r c.state a w' htwo

/-- Somebody signs in, and a search with a document is listed. -/
def listed : List Move :=
  whole 65 1 .signIn (delivering (plainPage ["x"] "L") []) ++
    whole 9 1 (.reconcile (.search ⟨1⟩)) (delivering (plainPage ["ab"] "E") [])

/-- The server orders the erasure of the document, and the platform carries it out. -/
def ordering : Surroundings :=
  { delivering (plainPage ["ab"] "E") [erasure 1 ⟨2⟩] with
    accepted := .success .accepted
    fileSystem := true }

/-- The document is opened, and erased when its delivery is over. -/
def openedFirst : List Move :=
  listed ++ whole 28 1 (.content (.document (.search ⟨1⟩) ⟨2⟩) ⟨none⟩) streaming ++
    whole 27 0 (.channel ⟨[]⟩ (some 1) false) ordering

/-- The erasure of the document was the first command, and is recorded as applied. -/
def erased (w : World) : Bool :=
  recordedOutcome w.store ⟨1⟩ = some .applied &&
    w.history.firstRuns.any fun f ↦ f.command = ⟨1⟩ && f.order = .dehydrate [⟨2⟩] .erasure

theorem run_of_erased {w : World} (h : erased w = true) : ∃ f ∈ w.history.firstRuns,
    f.order = .dehydrate [⟨2⟩] .erasure ∧ recordedOutcome w.store f.command = some .applied := by
  obtain ⟨ha, hf⟩ := Bool.and_eq_true_iff.mp h
  obtain ⟨f, hf, he⟩ := List.any_eq_true.mp hf
  obtain ⟨hc, ho⟩ := Bool.and_eq_true_iff.mp he
  refine ⟨f, hf, of_decide_eq_true ho, ?_⟩
  rw [of_decide_eq_true hc]
  exact of_decide_eq_true ha

theorem unseen_openedFirst : ∃ c, Runs anchored False separate c ∧
    c.state.store.log.length = 1 ∧ Unseen ⟨2⟩ c := by
  obtain ⟨c, hplay, hc⟩ := (Option.any_eq_true (fun c : Activities ↦
    decide (c.state.store.log.length = 1) && erased c.state)
      (playIf anchored separates (freshEngine anchored) openedFirst)).mp (by decide +kernel)
  obtain ⟨hlog, herased⟩ := Bool.and_eq_true_iff.mp hc
  obtain ⟨f, hf, ho, ha⟩ := run_of_erased herased
  obtain ⟨hrun, -⟩ := runs_of_two (fun i r w a w' ↦ separate_of_separates) (by decide +kernel)
    runs_freshEngine (fun _ _ ↦ rfl) hplay
  exact ⟨c, hrun, of_decide_eq_true hlog,
    unseen_of_every_run hrun hf ho ha (List.mem_singleton_self _)⟩

/-- The document is erased while its delivery hands over, which then goes on to its end. -/
def openedMeanwhile : List Move :=
  listed ++ .start 1 (.content (.document (.search ⟨1⟩) ⟨2⟩) ⟨none⟩) :: asks 21 1 streaming ++
    whole 27 0 (.channel ⟨[]⟩ (some 1) false) ordering ++ asks 7 1 streaming ++ [.finish 1]

theorem seen_openedMeanwhile : ¬ ∀ (setting : Setting) (fails : Prop) (c : Activities),
    Runs setting fails {} c → ∀ f ∈ c.state.history.firstRuns, ∀ documents,
      f.order = .dehydrate documents .erasure →
      recordedOutcome c.state.store f.command = some .applied → ∀ d ∈ documents,
        (∀ i, documentOf (c.state.handling i) ≠ some d) → Unseen d c := by
  intro hall
  obtain ⟨c, hplay, hc⟩ := (Option.any_eq_true (fun c : Activities ↦
    (List.range 2).all (fun i ↦ (c.state.handling i).identifier.isNone) &&
      c.state.store.log.any (fun row ↦ row.entry.subject.any (·.document = some ⟨2⟩)) &&
      erased c.state)
        (playIf anchored (fun _ _ _ _ _ ↦ true) (freshEngine anchored) openedMeanwhile)).mp
          (by decide +kernel)
  simp only [Bool.and_eq_true, List.all_eq_true, List.mem_range, Option.isNone_iff_eq_none] at hc
  obtain ⟨⟨hidle, hlog⟩, herased⟩ := hc
  obtain ⟨f, hf, ho, ha⟩ := run_of_erased herased
  have hallow : ∀ i r w a w', Two w → true = true → ({} : Condition).serve i r w a w' :=
    fun _ _ _ _ _ _ _ ↦ trivial
  obtain ⟨hrun, htwo⟩ := runs_of_two hallow (by decide +kernel) runs_freshEngine
    (fun _ _ ↦ rfl) hplay
  have hfinished : ∀ i, documentOf (c.state.handling i) ≠ some ⟨2⟩ := by
    intro i hdoc
    by_cases hi : i < 2
    · rw [documentOf, hidle i hi] at hdoc
      cases hdoc
    · rw [htwo i (by omega)] at hdoc
      cases hdoc
  have hunseen := hall anchored False c hrun f hf _ ho ha ⟨2⟩ (List.mem_singleton_self _) hfinished
  obtain ⟨row, hm, hs⟩ := List.any_eq_true.mp hlog
  obtain ⟨subject, hs, hd⟩ := (Option.any_eq_true _ _).mp hs
  exact (hunseen.log row hm subject hs).1 (of_decide_eq_true hd)

end Erased

end FolderClient.Engine.ErasureRuns
