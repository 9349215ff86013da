import FolderClient.Library.Oracles
import FolderClient.Library.Programs

namespace FolderClient.Cfapi.Clear

open FolderClient.Library.Oracles FolderClient.Library.Programs FolderClient.Library.Transcripts

/-- A name in a directory. -/
structure Child where
  name : String
  folder : Bool

structure RootDetails where
  provider : String
  account : String

/-- What a sign-out asks of Windows and of the mirror's own state; `ε` is what a call fails with. -/
inductive ClearRequest
  | disconnect
  | account
  | existingRoot
  | expect
  | readDirectory
  | delete (name : String) (folder : Bool)
  | unregister
  | removeNavigationPaneEntry (account : String)
  | emptyMap
  | forgetAccount

abbrev ClearAnswer (ε : Type) : ClearRequest → Type
  | .account => Option String
  | .existingRoot => Except ε (Option RootDetails)
  | .readDirectory => Except ε (List Child)
  | .delete _ _ | .unregister | .removeNavigationPaneEntry _ => Except ε Unit
  | .disconnect | .expect | .emptyMap | .forgetAccount => Unit

variable {ε : Type}

abbrev Clearing (ε α : Type) := Program ClearRequest (ClearAnswer ε) α

def call (request : ClearRequest) : Clearing ε (ClearAnswer ε request) := Program.call request

def provider : String := "elasticdms"

/-- The account of the session, or else the one of the root that is still registered. -/
def accountOf : Clearing ε (Option String) := do
  match (← call .account : Option String) with
  | some account => return some account
  | none =>
    match (← call .existingRoot : Except ε (Option RootDetails)) with
    | .ok (some details) =>
      return if details.provider = provider then some details.account else none
    | _ => return none

/-- The first error stays. -/
def firstError (first : Option ε) : Except ε Unit → Option ε
  | .ok () => first
  | .error e => some (first.getD e)

/-- Deletes every child of the root; one that cannot be deleted does not hold up the others. -/
def deleteChildren (first : Option ε) : List Child → Clearing ε (Option ε)
  | [] => return first
  | child :: rest => do
    let answer ← call (.delete child.name child.folder)
    deleteChildren (firstError first answer) rest

/-- What follows the deletions. -/
def unregister (account : Option String) (first : Option ε) : Clearing ε (Except ε Unit) := do
  let first := firstError first (← call .unregister)
  match account with
  | some account => do
    let _ ← call (.removeNavigationPaneEntry account)
  | none => pure ()
  call .emptyMap
  call .forgetAccount
  return first.elim (.ok ()) .error

/-- The root itself stays; everything in it goes. -/
def clearEverything : Clearing ε (Except ε Unit) := do
  call .disconnect
  let account ← accountOf
  call .expect
  match (← call .readDirectory : Except ε (List Child)) with
  | .error e => return .error e
  | .ok children => unregister account (← deleteChildren none children)

variable {o : Oracle ClearRequest (ClearAnswer ε)} {children : List Child}

/-- A request a program makes. -/
def Requests {α : Type} (o : Oracle ClearRequest (ClearAnswer ε)) (n : ℕ) (p : Clearing ε α)
    (request : ClearRequest) : Prop := ∃ answer, ⟨request, answer⟩ ∈ o.asked n p

theorem requests_bind_right {α β : Type} {p : Clearing ε α} {f : α → Clearing ε β} {n : ℕ}
    {request : ClearRequest} (h : ∀ n a, Requests o n (f a) request) :
    Requests o n (p >>= f) request := by
  obtain ⟨answer, hmem⟩ := h (n + (o.asked n p).length) (o.result n p)
  refine ⟨answer, ?_⟩
  rw [Oracle.asked_bind]
  exact List.mem_append_right _ hmem

theorem requests_bind_left {α β : Type} {p : Clearing ε α} {f : α → Clearing ε β} {n : ℕ}
    {request : ClearRequest} (h : Requests o n p request) : Requests o n (p >>= f) request := by
  obtain ⟨answer, hmem⟩ := h
  refine ⟨answer, ?_⟩
  rw [Oracle.asked_bind]
  exact List.mem_append_left _ hmem

theorem requests_deleteChildren {child : Child} (h : child ∈ children) (n : ℕ)
    (first : Option ε) :
    Requests o n (deleteChildren first children) (.delete child.name child.folder) := by
  induction children generalizing n first with
  | nil => exact absurd h List.not_mem_nil
  | cons head rest ih =>
    rcases List.mem_cons.mp h with rfl | h
    · exact requests_bind_left ⟨_, List.mem_singleton_self _⟩
    · exact requests_bind_right fun n answer ↦ ih h n _

/-- Whatever fails on the way, every child the root has is deleted. -/
theorem requests_clearEverything (hread : ∀ n, o n .readDirectory = .ok children) {child : Child}
    (h : child ∈ children) (n : ℕ) :
    Requests o n clearEverything (.delete child.name child.folder) := by
  refine requests_bind_right fun n _ ↦ requests_bind_right fun n account ↦
    requests_bind_right fun n _ ↦ ?_
  obtain ⟨answer, hmem⟩ : Requests o (n + 1) (deleteChildren none children >>= unregister account)
      (.delete child.name child.folder) := requests_bind_left (requests_deleteChildren h _ _)
  refine ⟨answer, ?_⟩
  rw [Oracle.asked_bind]
  refine List.mem_append_right _ ?_
  change _ ∈ o.asked (n + 1) (match o n .readDirectory with
    | .error e => return .error e
    | .ok children => deleteChildren none children >>= unregister account)
  rw [hread n]
  exact hmem

end FolderClient.Cfapi.Clear
