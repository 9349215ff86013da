import FolderClient.Storage.Effects

namespace FolderClient.Storage

open FolderClient.Core.Namespace FolderClient.Core.Changes FolderClient.Storage.Basic
open FolderClient.Storage.Namespace FolderClient.Library.Results FolderClient.Library.Tables

/-- Statements of an open transaction. The `n`-th statement may fail from outside; what the ones
before it wrote stays in the transaction. -/
def Statements (α : Type) : Type :=
  (ℕ → Option StoreError) → ℕ → Store → Except StoreError α × ℕ × Store

namespace Statements

variable {α β : Type}

instance : Monad Statements where
  pure a := fun _ n s ↦ (.ok a, n, s)
  bind p q := fun faults n s ↦
    match p faults n s with
    | (.ok a, n, s) => q a faults n s
    | (.error e, n, s) => (.error e, n, s)

/-- One statement. -/
def exec (f : Store → Except StoreError (α × Store)) : Statements α := fun faults n s ↦
  match faults n with
  | some e => (.error e, n + 1, s)
  | none =>
    match f s with
    | .ok (a, s) => (.ok a, n + 1, s)
    | .error e => (.error e, n + 1, s)

def query (f : Store → α) : Statements α := exec fun s ↦ .ok (f s, s)

def write (f : Store → Except StoreError Store) : Statements Unit :=
  exec fun s ↦ (f s).map fun s ↦ ((), s)

/-- What is computed without the database. -/
def lift (r : Except StoreError α) : Statements α := fun _ n s ↦ (r, n, s)

/-- What the store knows without asking the database. -/
def field (f : Store → α) : Statements α := fun _ n s ↦ (.ok (f s), n, s)

/-- Runs statements between the begin and the commit of a transaction. One that ends without its
commit is rolled back. -/
def transaction (p : Statements α) (faults : ℕ → Option StoreError) (s : Store) :
    Except StoreError α × Store :=
  match faults 0 with
  | some e => (.error e, s)
  | none =>
    match p faults 1 s with
    | (.error e, _, _) => (.error e, s)
    | (.ok a, n, s') =>
      match faults n with
      | some e => (.error e, s)
      | none => (.ok a, s')

def containerKnown (container : Container) : Statements Bool :=
  if container = .root then return true
  else query fun s ↦ s.entry.contains (.container container)

def deleteEntry (identifier : EntryIdentifier) : Statements Unit :=
  write fun s ↦ .ok (s.deleteEntry identifier)

def removeDescendant : ℕ → Container → Statements (List Change)
  | 0, _ => pure []
  | depth + 1, container => do
    let read ← query (·.readChildren container)
    let out ← read.foldlM (fun out child ↦ do
      let gone ← (match child.1.identifier.container? with
        | some below => removeDescendant depth below
        | none => pure [] : Statements (List Change))
      deleteEntry child.1.identifier
      return out ++ gone ++ [.removed child.1]) []
    write fun s ↦ .ok (s.deleteState container)
    return out

def applyChange (changes : List Change) : Change → Statements (List Change)
  | .removed entry => do
    let below ← (match entry.identifier.container? with
      | some gone => removeDescendant Store.treeDepth gone
      | none => pure [] : Statements (List Change))
    deleteEntry entry.identifier
    return changes ++ below ++ [.removed entry]
  | change => return changes ++ [change]

def writeFresh (container : Container) (oldRanks : List (EntryIdentifier × ℕ))
    (toWrite : List EntryIdentifier) : ℕ → List Entry → Statements Unit
  | _, [] => pure ()
  | place, entry :: rest => do
    let rank ← lift (Store.fromU64 place "rank")
    if entry.identifier ∈ toWrite then
      write (·.writeEntry container rank entry)
      writeFresh container oldRanks toWrite (place + 1) rest
    else if oldRanks.lookup entry.identifier ≠ some rank then
      write fun s ↦ .ok (s.setRank entry.identifier rank)
      writeFresh container oldRanks toWrite (place + 1) rest
    else
      writeFresh container oldRanks toWrite (place + 1) rest

def insertChange (row : JournalRow) : Statements Unit :=
  write fun s ↦
    match s.journal.insert? row with
    | none => .error .database
    | some journal => .ok { s with journal := journal }

def insertChanges (time : Timestamp) (form : JournalForm) :
    List Change → ℕ → Statements (List JournalEntry × ℕ)
  | [], last => pure ([], last)
  | change :: rest, last => do
    let sequence ← lift (next last)
    let stored := match form with
      | .complete => change
      | .redacted => redactedRemoval change.identifier
    let number ← lift (Store.fromU64 sequence "sequence")
    insertChange ⟨number, stored, time, change.identifier.document?⟩
    let (out, last) ← insertChanges time form rest sequence
    return (⟨sequence, change⟩ :: out, last)

def truncateJournal (state : JournalState) (limit : ℕ) : Statements ℕ :=
  if state.last - state.lowerLimit ≤ limit then return state.lowerLimit
  else do
    let bound ← lift (Store.fromU64 (state.last - limit) "sequence")
    write fun s ↦ .ok { s with journal := s.journal.deleteWhere (·.sequence ≤ bound) }
    return bound

def journal (changes : List Change) (time : Timestamp) (form : JournalForm) :
    Statements (List JournalEntry) :=
  if changes.isEmpty then return []
  else do
    let state ← query (·.journalState)
    let (out, last) ← insertChanges time form changes state.last
    let limit ← field (·.limit)
    let lowerLimit ← truncateJournal ⟨last, state.lowerLimit⟩ limit
    write (·.writeJournalState ⟨last, lowerLimit⟩)
    return out

/-- Renews the listing of a known container. -/
def renew (container : Container) (new : List Entry) (state : ContainerState) :
    Statements (List JournalEntry) := do
  let erased ← query (·.effectiveErasure state.fetched)
  let fresh := new.filter fun entry ↦ entry.identifier.document?.all (· ∉ erased)
  let read ← query (·.readChildren container)
  let oldRanks := read.map fun (entry, rank) ↦ (entry.identifier, rank)
  let old := read.map Prod.fst
  let changes ← (compare old fresh).foldlM applyChange []
  let toWrite := changes.filterMap fun change ↦ change.after.map (·.identifier)
  writeFresh container oldRanks toWrite 0 fresh
  write (·.writeState container state)
  journal changes state.fetched .complete

/-- What stands between the begin and the commit when a listing is replaced. -/
def replacing (container : Container) (new : List Entry) (state : ContainerState) :
    Statements (List JournalEntry) := do
  let known ← containerKnown container
  if known then renew container new state
  else lift (.error (.containerUnknown container))

/-- Replaces the child listing of a container in one transaction. -/
def replaceContainer (unicode : Unicode) (container : Container) (new : List Entry)
    (state : ContainerState) (faults : ℕ → Option StoreError) (s : Store) :
    Except StoreError (List JournalEntry) × Store :=
  match checkList unicode container new with
  | .error e => (.error e, s)
  | .ok () => transaction (replacing container new state) faults s

section Performing

/-- The statements do what `f` computes: whatever fails on the way, a run that succeeds is a step of
`f`, and without a failure every step of `f` succeeds. -/
structure Performs (p : Statements α) (f : Store → Except StoreError (α × Store)) : Prop where
  sound : ∀ {faults n s a n' s'}, p faults n s = (.ok a, n', s') → f s = .ok (a, s')
  complete : ∀ {n s a s'}, f s = .ok (a, s') → ∃ n', p (fun _ ↦ none) n s = (.ok a, n', s')

variable {p : Statements α} {q : α → Statements β}
  {f : Store → Except StoreError (α × Store)} {g : α → Store → Except StoreError (β × Store)}

theorem Performs.congr {f' : Store → Except StoreError (α × Store)} (h : Performs p f)
    (hf : ∀ s, f s = f' s) : Performs p f' := funext hf ▸ h

theorem performs_pure (a : α) : Performs (pure a) fun s ↦ .ok (a, s) where
  sound := by
    intro faults n s b n' s' h
    cases h
    rfl
  complete := by
    intro n s b s' h
    cases h
    exact ⟨n, rfl⟩

theorem performs_bind (hp : Performs p f) (hq : ∀ a, Performs (q a) (g a)) :
    Performs (p >>= q) fun s ↦ f s >>= fun r ↦ g r.1 r.2 where
  sound := by
    intro faults n s b n' s' h
    change (match p faults n s with
      | (.ok a, n, s) => q a faults n s
      | (.error e, n, s) => (.error e, n, s)) = _ at h
    cases hrun : p faults n s with
    | mk result rest =>
      rw [hrun] at h
      cases result with
      | error e => cases h
      | ok a =>
        rw [hp.sound hrun]
        exact (hq a).sound h
  complete := by
    intro n s b s' h
    obtain ⟨⟨a, s₁⟩, hf, hg⟩ := bind_eq_ok.mp h
    obtain ⟨n₁, hrun⟩ := @Performs.complete _ _ _ hp n _ _ _ hf
    obtain ⟨n₂, hnext⟩ := @Performs.complete _ _ _ (hq a) n₁ _ _ _ hg
    refine ⟨n₂, ?_⟩
    change (match p (fun _ ↦ none) n s with
      | (.ok a, n, s) => q a (fun _ ↦ none) n s
      | (.error e, n, s) => (.error e, n, s)) = _
    rw [hrun]
    exact hnext

theorem performs_exec (f : Store → Except StoreError (α × Store)) : Performs (exec f) f where
  sound := by
    intro faults n s a n' s' h
    unfold exec at h
    cases hfault : faults n with
    | some e =>
      rw [hfault] at h
      cases h
    | none =>
      rw [hfault] at h
      cases hf : f s with
      | error e =>
        rw [hf] at h
        cases h
      | ok r =>
        rw [hf] at h
        cases h
        rfl
  complete := by
    intro n s a s' h
    refine ⟨n + 1, ?_⟩
    unfold exec
    rw [h]

theorem performs_query (f : Store → α) : Performs (query f) fun s ↦ .ok (f s, s) :=
  performs_exec _

theorem performs_write (f : Store → Except StoreError Store) :
    Performs (write f) fun s ↦ (f s).map fun s ↦ ((), s) := performs_exec _

theorem performs_lift (r : Except StoreError α) : Performs (lift r) fun s ↦ r.map fun a ↦ (a, s) where
  sound := by
    intro faults n s a n' s' h
    obtain ⟨rfl, hrest⟩ := Prod.mk.inj h
    obtain ⟨-, rfl⟩ := Prod.mk.inj hrest
    rfl
  complete := by
    intro n s a s' h
    cases r with
    | error e => cases h
    | ok b =>
      cases h
      exact ⟨n, rfl⟩

theorem performs_field (f : Store → α) : Performs (field f) fun s ↦ .ok (f s, s) where
  sound := by
    intro faults n s a n' s' h
    cases h
    rfl
  complete := by
    intro n s a s' h
    cases h
    exact ⟨n, rfl⟩

theorem performs_foldlM {γ : Type} {step : β → γ → Statements β} {next : β × Store → γ → β × Store}
    (h : ∀ b x, Performs (step b x) fun s ↦ .ok (next (b, s) x)) (l : List γ) (b : β) :
    Performs (l.foldlM step b) fun s ↦ .ok (l.foldl next (b, s)) := by
  induction l generalizing b with
  | nil => exact performs_pure b
  | cons x l ih => exact performs_bind (h b x) ih

theorem performs_containerKnown (container : Container) :
    Performs (containerKnown container) fun s ↦ .ok (s.containerKnown container, s) := by
  unfold containerKnown Store.containerKnown
  by_cases hroot : container = .root
  · simp only [hroot, if_true, decide_true, Bool.true_or]
    exact performs_pure true
  · simp only [hroot, if_false, decide_false, Bool.false_or]
    exact performs_query _

theorem performs_deleteEntry (identifier : EntryIdentifier) :
    Performs (deleteEntry identifier) fun s ↦ .ok ((), s.deleteEntry identifier) :=
  performs_write _

/-- The removal of an entry, with what stands below it. -/
theorem performs_removeBelow {depth : ℕ} (h : ∀ c, Performs (removeDescendant depth c)
    fun s ↦ .ok (s.removeDescendant depth c)) (identifier : EntryIdentifier) :
    Performs (match identifier.container? with
      | some below => removeDescendant depth below
      | none => pure [] : Statements (List Change))
    fun s ↦ .ok (match identifier.container? with
      | some below => s.removeDescendant depth below
      | none => ([], s)) := by
  cases identifier.container? with
  | none => exact performs_pure _
  | some below => exact h below

/-- One child and what stands below it, with the changes gathered before. -/
def descended (depth : ℕ) (a : List Change × Store) (child : Entry × ℕ) : List Change × Store :=
  (a.1 ++ (Tree.removeWith depth a.2 child.1).1, (Tree.removeWith depth a.2 child.1).2)

theorem performs_descended {depth : ℕ} (h : ∀ c, Performs (removeDescendant depth c)
    fun s ↦ .ok (s.removeDescendant depth c)) (out : List Change) (child : Entry × ℕ) :
    Performs (do
      let gone ← (match child.1.identifier.container? with
        | some below => removeDescendant depth below
        | none => pure [] : Statements (List Change))
      deleteEntry child.1.identifier
      return out ++ gone ++ [.removed child.1])
    fun s ↦ .ok (descended depth (out, s) child) := by
  refine Performs.congr (performs_bind (performs_removeBelow h child.1.identifier) fun gone ↦
    performs_bind (performs_deleteEntry child.1.identifier) fun _ ↦
      performs_pure (out ++ gone ++ [.removed child.1])) fun s ↦ ?_
  rw [descended, Tree.removeWith]
  cases child.1.identifier.container? with
  | none => exact congrArg (fun l ↦ Except.ok (l, _)) (List.append_assoc ..)
  | some below => exact congrArg (fun l ↦ Except.ok (l, _)) (List.append_assoc ..)

theorem removeDescendant_succ (depth : ℕ) (s : Store) (container : Container) :
    s.removeDescendant (depth + 1) container =
      (((s.readChildren container).foldl (descended depth) ([], s)).1,
        ((s.readChildren container).foldl (descended depth) ([], s)).2.deleteState container) := by
  unfold descended
  simp only [Store.removeDescendant, Tree.removeWith, List.append_assoc] <;> rfl

theorem performs_removeDescendant (depth : ℕ) (container : Container) :
    Performs (removeDescendant depth container)
      fun s ↦ .ok (s.removeDescendant depth container) := by
  induction depth generalizing container with
  | zero => exact performs_pure _
  | succ depth ih =>
    refine Performs.congr (performs_bind (performs_query (·.readChildren container)) fun read ↦
      performs_bind (performs_foldlM (performs_descended ih) read []) fun out ↦
        performs_bind (performs_write fun s ↦ .ok (s.deleteState container)) fun _ ↦
          performs_pure out) fun s ↦ ?_
    rw [removeDescendant_succ]
    rfl

theorem performs_applyChange (changes : List Change) (change : Change) :
    Performs (applyChange changes change) fun s ↦ .ok (Store.applyChange (changes, s) change) := by
  cases change with
  | removed entry =>
    exact performs_bind (performs_removeBelow (performs_removeDescendant _) entry.identifier)
      fun gone ↦ performs_bind (performs_deleteEntry entry.identifier) fun _ ↦
        performs_pure (changes ++ gone ++ [.removed entry])
  | new entry => exact performs_pure _
  | changed before after => exact performs_pure _

theorem map_unit_bind (x : Except StoreError Store) (g : Store → Except StoreError α) :
    (x.map (fun s ↦ ((), s)) >>= fun r ↦ g r.2) = x >>= g := by
  cases x <;> rfl

theorem performs_then {f : Store → Except StoreError Store} {r : Statements Unit}
    {h : Store → Except StoreError Store} (hr : Performs r fun s ↦ (h s).map fun s ↦ ((), s)) :
    Performs (write f >>= fun _ ↦ r) fun s ↦ (f s >>= h).map fun s ↦ ((), s) := by
  refine Performs.congr (performs_bind (performs_write f) fun _ ↦ hr) fun s ↦ ?_
  cases f s <;> rfl

theorem performs_writeFresh (container : Container) (oldRanks : List (EntryIdentifier × ℕ))
    (toWrite : List EntryIdentifier) (place : ℕ) (fresh : List Entry) :
    Performs (writeFresh container oldRanks toWrite place fresh) fun s ↦
      (s.writeFresh container oldRanks toWrite place fresh).map fun s ↦ ((), s) := by
  induction fresh generalizing place with
  | nil => exact performs_pure ()
  | cons entry rest ih =>
    have hrest : ∀ rank, Performs
        (if entry.identifier ∈ toWrite then do
          write (·.writeEntry container rank entry)
          writeFresh container oldRanks toWrite (place + 1) rest
        else if oldRanks.lookup entry.identifier ≠ some rank then do
          write fun s ↦ .ok (s.setRank entry.identifier rank)
          writeFresh container oldRanks toWrite (place + 1) rest
        else writeFresh container oldRanks toWrite (place + 1) rest)
        fun s ↦ (if entry.identifier ∈ toWrite then do
          let s ← s.writeEntry container rank entry
          s.writeFresh container oldRanks toWrite (place + 1) rest
        else if oldRanks.lookup entry.identifier ≠ some rank then
          (s.setRank entry.identifier rank).writeFresh container oldRanks toWrite (place + 1) rest
        else s.writeFresh container oldRanks toWrite (place + 1) rest).map fun s ↦ ((), s) := by
      intro rank
      by_cases hput : entry.identifier ∈ toWrite
      · simp only [if_pos hput]
        exact performs_then (ih _)
      · simp only [if_neg hput]
        by_cases hrank : oldRanks.lookup entry.identifier ≠ some rank
        · simp only [if_pos hrank]
          exact performs_then (ih _)
        · simp only [if_neg hrank]
          exact ih _
    refine Performs.congr (performs_bind (performs_lift (Store.fromU64 place "rank")) hrest)
      fun s ↦ ?_
    rw [Store.writeFresh]
    cases Store.fromU64 place "rank" <;> rfl

theorem performs_insertChanges (time : Timestamp) (form : JournalForm) (changes : List Change)
    (last : ℕ) : Performs (insertChanges time form changes last) fun s ↦
      (Store.insertChanges time form changes last s.journal).map
        fun (out, last, journal) ↦ ((out, last), { s with journal := journal }) := by
  induction changes generalizing last with
  | nil => exact performs_pure ([], last)
  | cons change rest ih =>
    refine Performs.congr (performs_bind (performs_lift (next last)) fun sequence ↦
      performs_bind (performs_lift (Store.fromU64 sequence "sequence")) fun number ↦
        performs_bind (performs_write _) fun _ ↦ performs_bind (ih sequence) fun r ↦
          performs_pure (⟨sequence, change⟩ :: r.1, r.2)) fun s ↦ ?_
    simp only [Store.insertChanges]
    cases next last with
    | error e => rfl
    | ok sequence =>
      cases hnumber : Store.fromU64 sequence "sequence" with
      | error e => simp only [Except.map, bind, Except.bind, hnumber]
      | ok number =>
        simp only [Except.map, bind, Except.bind, hnumber]
        cases s.journal.insert? ⟨number, _, time, change.identifier.document?⟩ with
        | none => rfl
        | some journal =>
          simp only
          cases Store.insertChanges time form rest sequence journal <;> rfl

theorem performs_truncateJournal (state : JournalState) (limit : ℕ) :
    Performs (truncateJournal state limit) fun s ↦
      (Store.truncateJournal s.journal state limit).map
        fun (bound, journal) ↦ (bound, { s with journal := journal }) := by
  unfold truncateJournal Store.truncateJournal
  by_cases hfits : state.last - state.lowerLimit ≤ limit
  · simp only [if_pos hfits]
    exact performs_pure _
  · simp only [if_neg hfits]
    refine Performs.congr (performs_bind (performs_lift (Store.fromU64 (state.last - limit) "sequence"))
      fun bound ↦ performs_bind (performs_write _) fun _ ↦ performs_pure bound) fun s ↦ ?_
    cases Store.fromU64 (state.last - limit) "sequence" <;> rfl

theorem performs_journal (changes : List Change) (time : Timestamp) (form : JournalForm) :
    Performs (journal changes time form) fun s ↦ s.appendJournal changes time form := by
  unfold journal Store.appendJournal
  by_cases hempty : changes.isEmpty = true
  · simp only [if_pos hempty]
    exact performs_pure []
  · simp only [if_neg hempty]
    refine Performs.congr (performs_bind (performs_query (·.journalState)) fun state ↦
      performs_bind (performs_insertChanges time form changes state.last) fun r ↦
        performs_bind (performs_field (·.limit)) fun limit ↦
          performs_bind (performs_truncateJournal ⟨r.2, state.lowerLimit⟩ limit) fun lowerLimit ↦
            performs_bind (performs_write (·.writeJournalState ⟨r.2, lowerLimit⟩)) fun _ ↦
              performs_pure r.1) fun s ↦ ?_
    simp only [Except.map, bind, Except.bind]
    cases Store.insertChanges time form changes s.journalState.last s.journal with
    | error e => rfl
    | ok r =>
      obtain ⟨out, last, journal⟩ := r
      simp only
      cases Store.truncateJournal journal ⟨last, s.journalState.lowerLimit⟩ s.limit with
      | error e => rfl
      | ok r =>
        obtain ⟨bound, journal⟩ := r
        simp only
        cases Store.writeJournalState { s with journal := journal } ⟨last, bound⟩ <;> rfl

/-- What is computed of a known container. -/
def renewed (container : Container) (new : List Entry) (state : ContainerState) (s : Store) :
    Except StoreError (List JournalEntry × Store) := do
  let fresh := Effects.withoutErased s new state.fetched
  let r := (compare (Effects.oldListing s container) fresh).foldl Store.applyChange ([], s)
  let s ← r.2.writeFresh container
    ((s.readChildren container).map fun (entry, rank) ↦ (entry.identifier, rank))
    (r.1.filterMap fun change ↦ change.after.map (·.identifier)) 0 fresh
  let s ← s.writeState container state
  s.appendJournal r.1 state.fetched .complete

theorem performs_renew (container : Container) (new : List Entry) (state : ContainerState) :
    Performs (renew container new state) (renewed container new state) := by
  refine Performs.congr (performs_bind (performs_query (·.effectiveErasure state.fetched))
    fun erased ↦ performs_bind (performs_query (·.readChildren container)) fun read ↦
      performs_bind (performs_foldlM performs_applyChange _ []) fun changes ↦
        performs_bind (performs_writeFresh container _ _ 0 _) fun _ ↦
          performs_bind (performs_write (·.writeState container state)) fun _ ↦
            performs_journal changes state.fetched .complete) fun s ↦ ?_
  have hok : ∀ {γ δ : Type} (a : γ) (f : γ → Except StoreError δ), (Except.ok a >>= f) = f a :=
    fun _ _ ↦ rfl
  simp only [hok]
  refine (map_unit_bind _ fun s₁ ↦ (s₁.writeState container state).map (fun s ↦ ((), s)) >>=
    fun r ↦ r.2.appendJournal _ state.fetched .complete).trans ?_
  exact bind_congr fun s₁ ↦ map_unit_bind _ fun s₂ ↦ s₂.appendJournal _ state.fetched .complete

theorem performs_replacing {unicode : Unicode} {container : Container} {new : List Entry}
    {state : ContainerState} (hcheck : checkList unicode container new = .ok ()) :
    Performs (replacing container new state)
      fun s ↦ s.replaceContainer unicode container new state := by
  have hknown : ∀ known : Bool, Performs
      (if known then renew container new state
        else lift (.error (.containerUnknown container)))
      (if known then renewed container new state
        else fun _ ↦ .error (.containerUnknown container)) := by
    intro known
    cases known with
    | false => exact performs_lift _
    | true => exact performs_renew container new state
  refine Performs.congr (performs_bind (performs_containerKnown container) hknown) fun s ↦ ?_
  rw [Store.replaceContainer, hcheck]
  simp only [bind, Except.bind]
  by_cases h : s.containerKnown container = true
  · simp only [h, if_true, not_true_eq_false, if_false]
    rfl
  · simp only [h]
    rfl

/-- A listing is replaced whole or not at all, whichever statement fails. -/
theorem replaceContainer_atomic (unicode : Unicode) (container : Container) (new : List Entry)
    (state : ContainerState) (faults : ℕ → Option StoreError) (s : Store) :
    match replaceContainer unicode container new state faults s with
    | (.ok out, s') => s.replaceContainer unicode container new state = .ok (out, s')
    | (.error _, s') => s' = s := by
  unfold replaceContainer
  cases hcheck : checkList unicode container new with
  | error e => rfl
  | ok _ =>
    dsimp only
    unfold transaction
    cases faults 0 with
    | some e => rfl
    | none =>
      dsimp only
      cases hrun : replacing container new state faults 1 s with
      | mk result rest =>
        cases result with
        | error e => rfl
        | ok out =>
          dsimp only
          cases faults rest.1 with
          | some e => rfl
          | none => exact (performs_replacing hcheck).sound hrun

/-- Without a failure from outside a listing is replaced as computed. -/
theorem replaceContainer_complete {unicode : Unicode} {container : Container} {new : List Entry}
    {state : ContainerState} {s s' : Store} {out : List JournalEntry}
    (h : s.replaceContainer unicode container new state = .ok (out, s')) :
    replaceContainer unicode container new state (fun _ ↦ none) s = (.ok out, s') := by
  have hcheck : checkList unicode container new = .ok () := by
    obtain ⟨_, hcheck, -⟩ := bind_eq_ok.mp h
    exact hcheck
  obtain ⟨n, hrun⟩ := @Performs.complete _ _ _ (performs_replacing hcheck) 1 _ _ _ h
  rw [replaceContainer, hcheck]
  dsimp only
  rw [transaction]
  dsimp only
  rw [hrun]

end Performing

end Statements

end FolderClient.Storage
