import FolderClient.Engine.Effects
import FolderClient.Engine.Orderly

namespace FolderClient.Engine.Turns

open FolderClient.Core.Namespace FolderClient.Core.Log FolderClient.Engine.Effects
open FolderClient.Engine.Hydration (callSource)
open FolderClient.Engine.Orderly FolderClient.Engine.Port FolderClient.Engine.Reconcile
open FolderClient.Engine.System FolderClient.Engine.Transfers FolderClient.Library.Pools
open FolderClient.Library.Programs FolderClient.Library.Programs.Program FolderClient.Net.Access
open FolderClient.Storage.Basic

section Others

/-- The requests that are made outside the channel too. -/
def Common : Request → Prop
  | .command (.reconcile _) | .command (.spawnReconciles _) | .source _ => True
  | _ => False

variable {setting : Setting}

theorem asks_source (r : SourceRequest) : (callSource r).Asks Common := asks_call trivial

theorem asks_internally {α : Type} {what : String} {p : Activity (Except String α)}
    (h : p.Asks Common) : (Hydration.internally what p).run.Asks Common :=
  asks_bind h fun _ ↦ trivial

theorem asks_outcome {α : Type} {p : Hydration.Delivery α} (h : p.run.Asks Common) :
    (Hydration.outcome p).run.Asks Common :=
  asks_bind h fun _ ↦ trivial

theorem asks_ofReconcile {α : Type} (p : ReconcileFallible α) :
    ((ofReconcile p).embed .command : Activity (Except EngineError α)).Asks Common :=
  Asks.embed (asks_embed fun _ ↦ trivial)

theorem asks_session {α : Type} (p : SessionFallible α) : (Hydration.session p).Asks Common :=
  asks_ofReconcile _

theorem asks_children (container : Container) :
    (Source.children setting container).run.Asks Common := by
  have hread : (Source.readChildren setting container).run.Asks Common := by
    refine asks_fallible_bind (asks_lift (asks_source _)) fun answer ↦ ?_
    split
    · trivial
    · split <;> trivial
    · trivial
  refine asks_fallible_bind (asks_lift (asks_call trivial)) fun stopped ↦ ?_
  split
  · trivial
  · refine asks_fallible_bind (asks_lift (asks_source _)) fun answer ↦ ?_
    refine asks_fallible_bind trivial fun state ↦ ?_
    split
    · refine asks_fallible_bind (asks_lift (asks_ofReconcile _)) fun fetched ↦ ?_
      exact asks_fallible_bind trivial fun _ ↦ hread
    · refine asks_fallible_bind (asks_lift (asks_call trivial)) fun time ↦ ?_
      dsimp only
      split
      · exact asks_fallible_bind (asks_lift (asks_call trivial)) fun _ ↦ hread
      · exact hread

theorem asks_writeAll (n : ℕ) (buffer : List UInt8) (sink : Hydration.CountingSink) :
    (Hydration.writeAll n buffer sink).Asks Common := by
  induction n generalizing buffer sink with
  | zero => cases buffer <;> trivial
  | succ n ih =>
    cases buffer with
    | nil => trivial
    | cons b buffer =>
      refine asks_bind (asks_source _) fun cancelled ↦ ?_
      split
      · trivial
      · refine asks_bind (asks_source _) fun answer ↦ ?_
        split
        · trivial
        · refine asks_bind (asks_source _) fun _ ↦ ?_
          split
          · trivial
          · exact ih _ _

theorem asks_readChunks (length : ℕ) (broken : Option String) (chunks : List (List UInt8))
    (written : ℕ) (sink : Hydration.CountingSink) :
    (Hydration.readChunks length broken chunks written sink).Asks Common := by
  induction chunks generalizing written sink with
  | nil => trivial
  | cons chunk rest ih =>
    rw [Hydration.readChunks]
    split
    · trivial
    · refine asks_bind (asks_writeAll _ _ _) fun answer ↦ ?_
      split
      · trivial
      · exact ih _ _

theorem asks_readBody (header : ContentHeader) (stream : Stream) (sink : Hydration.CountingSink) :
    (Hydration.readBody header stream sink).Asks Common := by
  refine asks_bind (asks_readChunks _ _ _ _ _) fun body ↦ ?_
  split
  · trivial
  · refine asks_bind (asks_source _) fun flushed ↦ ?_
    split
    · trivial
    · split <;> trivial

theorem asks_loadContent (row : DocumentRow) (application : Option String)
    (sink : Hydration.CountingSink) :
    (Hydration.loadContent row application sink).Asks Common := by
  unfold Hydration.loadContent
  split
  · trivial
  · refine asks_bind (asks_source _) fun answer ↦ ?_
    split
    iterate 5 trivial
    split
    · trivial
    · split
      · trivial
      · refine asks_bind (asks_readBody _ _ _) fun loaded ↦ ?_
        split <;> trivial

theorem asks_streamInFile (identifier : EntryIdentifier) (row : DocumentRow)
    (request : ContentRequest) :
    (Hydration.streamInFile setting identifier row request).run.Asks Common := by
  refine asks_fallible_bind (asks_internally (asks_source _)) fun _ ↦ ?_
  refine asks_fallible_bind (asks_lift (asks_loadContent _ _ _)) fun result ↦ ?_
  split
  · refine asks_fallible_bind (asks_internally (asks_source _)) fun _ ↦ ?_
    split
    · trivial
    · split <;> trivial
  · trivial

theorem asks_handOver (n offset : ℕ) : (Hydration.handOver n offset).run.Asks Common := by
  induction n generalizing offset with
  | zero => trivial
  | succ n ih =>
    refine asks_fallible_bind (asks_lift (asks_source _)) fun cancelled ↦ ?_
    split
    · trivial
    · refine asks_fallible_bind (asks_internally (asks_source _)) fun data ↦ ?_
      split
      · trivial
      · refine asks_fallible_bind (asks_lift (asks_source _)) fun written ↦ ?_
        split
        · trivial
        · exact ih _

theorem asks_secondAttempt (identifier : EntryIdentifier) (row : DocumentRow)
    (request : ContentRequest) (first : Except SourceError Unit) :
    (Hydration.secondAttempt setting identifier row request first).run.Asks Common := by
  unfold Hydration.secondAttempt
  split
  · refine asks_outcome (asks_fallible_bind (asks_lift (asks_session _)) fun renewed ↦ ?_)
    split
    · exact asks_fallible_bind (asks_lift (asks_source _)) fun _ ↦ asks_streamInFile _ _ _
    · trivial
  · trivial

theorem asks_loadAndCheck (entry : Entry) (details : FileDetails) (document : DocumentIdentifier)
    (expected : Sha256Value) (request : ContentRequest) :
    (Hydration.loadAndCheck setting entry details document expected request).run.Asks Common := by
  refine asks_fallible_bind (asks_lift (asks_session _)) fun answer ↦ ?_
  refine asks_fallible_bind trivial fun signedIn ↦ ?_
  split
  · trivial
  · refine asks_fallible_bind (asks_internally (asks_source _)) fun _ ↦ ?_
    refine asks_fallible_bind (asks_lift (asks_source _)) fun cancelled ↦ ?_
    split
    · trivial
    · refine asks_fallible_bind (asks_internally (asks_source _)) fun _ ↦ ?_
      refine asks_fallible_bind (asks_outcome (asks_streamInFile _ _ _)) fun first ↦ ?_
      refine asks_fallible_bind (asks_secondAttempt _ _ _ _) fun result ↦ ?_
      split
      · exact asks_fallible_bind (asks_lift (asks_source _)) fun _ ↦ trivial
      · refine asks_fallible_bind (asks_outcome ?_) fun handover ↦ ?_
        · exact asks_fallible_bind (asks_internally (asks_source _)) fun _ ↦ asks_handOver _ _
        · refine asks_fallible_bind (asks_lift (asks_source _)) fun _ ↦ ?_
          exact asks_fallible_bind trivial fun _ ↦ trivial

theorem asks_appendLog (kind : LogKind) (entry : Entry) (location : Location)
    (document : DocumentIdentifier) (detail : Option String) :
    (Hydration.appendLog kind entry location document detail).Asks Common := by
  refine asks_bind (asks_source _) fun located ↦ ?_
  refine asks_bind (asks_call trivial) fun time ↦ ?_
  split
  · exact asks_source _
  · trivial

theorem asks_hydrate (identifier : EntryIdentifier) (request : ContentRequest) :
    (Hydration.hydrate setting identifier request).run.Asks Common := by
  cases identifier with
  | container c => trivial
  | hint location kind =>
    refine asks_fallible_bind ?_ fun text ↦ ?_
    · cases kind with
      | readMe => trivial
      | truncated =>
        refine asks_fallible_bind (asks_lift (asks_source _)) fun answer ↦ ?_
        exact asks_fallible_bind trivial fun _ ↦ trivial
    · refine asks_fallible_bind (asks_lift (asks_source _)) fun _ ↦ ?_
      refine asks_fallible_bind (asks_lift (asks_source _)) fun written ↦ ?_
      split <;> trivial
  | document location document =>
    refine asks_fallible_bind (asks_lift (asks_source _)) fun answer ↦ ?_
    refine asks_fallible_bind trivial fun found ↦ ?_
    split
    · trivial
    · split
      · trivial
      · split
        · trivial
        · refine asks_fallible_bind (asks_outcome (asks_loadAndCheck _ _ _ _ _)) fun result ↦ ?_
          dsimp only
          split <;> exact asks_fallible_bind (asks_lift (asks_appendLog _ _ _ _ _)) fun _ ↦ trivial

theorem asks_content (identifier : EntryIdentifier) (request : ContentRequest) :
    (Hydration.content setting identifier request).Asks Common := by
  refine asks_bind (asks_source _) fun _ ↦ ?_
  refine asks_bind (asks_call trivial) fun stopped ↦ ?_
  split
  · exact asks_source _
  · exact asks_bind (asks_hydrate _ _) fun _ ↦ asks_source _

/-- Only the channel makes the requests of the channel. -/
theorem asks_job {job : Job} {i : ℕ} {w : World} (hi : i ≠ 0) (h : job.mayStart i w) :
    (job.program setting).Asks Common := by
  cases job with
  | channel rate wait disturbed => exact absurd h.1 hi
  | children container => exact asks_bind (asks_children _) fun _ ↦ trivial
  | content identifier request => exact asks_content _ _
  | _ => exact asks_bind (asks_ofReconcile _) fun _ ↦ trivial

end Others

section Turns

variable {setting : Setting} {fails : Prop} {condition : Condition} {c c' : Activities}

/-- Only the storing of a cursor takes a page in hand. -/
theorem inHand_serve {i : ℕ} {w w' : World} {r : Request} {a : Answer r} (hset : ∀ value, r ≠ .setCursor value)
    (h : serve setting fails i r w a w') : w'.history.inHand = w.history.inHand := by
  obtain hh | hh := history_serve h
  · rw [hh]
  · rw [hh]
    cases r with
    | command r =>
      cases r with
      | reconcile r => exact (@sameCommands_serveReconcile setting fails i w w' r a h).2.1 ▸ hh ▸ rfl
      | runBegins command order =>
        change (History.runBegins _ _ _ _).inHand = _
        unfold History.runBegins
        split <;> rfl
      | _ => rfl
    | source r =>
      cases r with
      | children container => cases a <;> rfl
      | _ => rfl
    | setCursor value => exact absurd rfl (hset value)
    | _ => rfl

theorem ne_setCursor_of_common {r : Request} (h : Common r) (value : String) :
    r ≠ .setCursor value := fun hr ↦ (hr ▸ h : Common (.setCursor value))

theorem ended_of_ne {i : ℕ} (hi : i ≠ 0) (w : World) : ended i w = w := by
  rw [ended, if_neg hi]

/-- Only the channel makes its requests, and while no turn of it runs, no page is in hand. -/
structure Turned (c : Activities) : Prop where
  others : ∀ i p, i ≠ 0 → c.running i = some p → p.Asks Common
  idle : c.running 0 = none → c.state.history.inHand = false

theorem Turned.update {i : ℕ} {p : Option (Activity Unit)} {w : World} (h : Turned c)
    (hp : i ≠ 0 → ∀ q, p = some q → q.Asks Common)
    (hidle : (if i = 0 then p = none else c.running 0 = none) → w.history.inHand = false) :
    Turned ⟨w, Function.update c.running i p⟩ := by
  refine ⟨fun j q hj hq ↦ ?_, fun hnone ↦ hidle ?_⟩
  · by_cases hji : j = i
    · subst hji
      exact hp hj q (by simpa using hq)
    · exact h.others j q hj (by simpa [hji] using hq)
  · split
    · next hi => simpa [hi] using hnone
    · next hi => simpa [Function.update_of_ne (Ne.symm hi)] using hnone

theorem turned_step (hstep : (rules setting fails condition).Step c c') (h : Turned c) :
    Turned c' := by
  cases hstep with
  | @start i p hnone hstart =>
    refine h.update (fun hi q hq ↦ ?_) fun hidle ↦ ?_
    · obtain ⟨job, rfl, hjob⟩ := hstart
      obtain rfl := Option.some.inj hq
      exact asks_job hi hjob
    · split at hidle
      · cases hidle
      · exact h.idle hidle
  | @ask i r next a w hrun hserve =>
    refine h.update (fun hi q hq ↦ ?_) fun hidle ↦ ?_
    · obtain rfl := Option.some.inj hq
      exact (h.others i _ hi hrun).2 a
    · split at hidle
      · cases hidle
      · next hi =>
        rw [inHand_serve (ne_setCursor_of_common (h.others i _ hi hrun).1) hserve.1]
        exact h.idle hidle
  | @finish i w hrun hfinish =>
    refine h.update (fun _ q hq ↦ by cases hq) fun hidle ↦ ?_
    obtain rfl : w = ended i c.state := hfinish
    rw [ended]
    split
    · rfl
    · next hi => exact h.idle (by simpa [hi] using hidle)
  | @abort i p w hrun habort =>
    refine h.update (fun _ q hq ↦ by cases hq) fun hidle ↦ ?_
    rw [habort.2]
    change (ended i c.state).history.inHand = false
    rw [ended]
    split
    · rfl
    · next hi => exact h.idle (by simpa [hi] using hidle)
  | restart hrestart =>
    obtain ⟨-, fingerprint, rfl⟩ := hrestart
    exact ⟨fun _ _ _ hq ↦ (by cases hq), fun _ ↦ rfl⟩
  | outside houtside =>
    rw [houtside.2]
    exact ⟨h.others, h.idle⟩

theorem turned_of_run (h : Runs setting fails condition c) : Turned c := by
  induction h with
  | first hfirst =>
    obtain ⟨n, limit, rfl⟩ := hfirst
    exact ⟨fun _ _ _ hq ↦ (by cases hq), fun _ ↦ rfl⟩
  | step _ hstep ih => exact turned_step hstep ih

/-- The rules of the engine, with what is known of the world when a turn begins. -/
def turning (setting : Setting) (fails : Prop) (condition : Condition) :
    Rules Request Answer World :=
  { rules setting fails condition with
    start := fun i p w ↦ (rules setting fails condition).start i p w ∧
      (i = 0 → w.history.inHand = false) }

theorem turning_of_run (h : Runs setting fails condition c) :
    (turning setting fails condition).Run (Fresh setting) c := by
  induction h with
  | first hfirst => exact .first hfirst
  | step hrun hstep ih =>
    refine .step ih ?_
    cases hstep with
    | start hnone hstart =>
      refine .start hnone ⟨hstart, fun hi ↦ (turned_of_run hrun).idle ?_⟩
      rw [← hi]
      exact hnone
    | ask hrun hserve => exact .ask hrun hserve
    | finish hrun hfinish => exact .finish hrun hfinish
    | abort hrun habort => exact .abort hrun habort
    | restart hrestart => exact .restart hrestart
    | outside houtside => exact .outside houtside

end Turns

end FolderClient.Engine.Turns
