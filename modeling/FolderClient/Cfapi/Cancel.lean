import FolderClient.Cfapi.Checks
import FolderClient.Engine.Transfers
import FolderClient.Library.Pools
import FolderClient.Library.Tables

namespace FolderClient.Cfapi.Cancel

open FolderClient.Cfapi.Checks FolderClient.Core.Namespace FolderClient.Engine.Transfers
open FolderClient.Library.Pools FolderClient.Library.Programs FolderClient.Library.Programs.Program
open FolderClient.Library.Tables

/-- A switch, by its number. -/
abbrev Switch := ℕ

/-- The switches of the transfers in flight, and which of all the switches made are flipped. -/
structure Cancellations where
  list : Table ℤ (ℤ × Switch) Prod.fst
  flipped : Switch → Bool
  made : ℕ

namespace Cancellations

def empty : Cancellations := ⟨.empty, fun _ ↦ false, 0⟩

/-- Registers a transfer and returns its switch. -/
def signIn (transfer : ℤ) (c : Cancellations) : Switch × Cancellations :=
  (c.made, ⟨c.list.upsert (transfer, c.made), Function.update c.flipped c.made false, c.made + 1⟩)

/-- Flips the switch of a transfer; an unknown key is not an error. -/
def abort (transfer : ℤ) (c : Cancellations) : Cancellations :=
  match c.list.find? transfer with
  | some row => { c with flipped := Function.update c.flipped row.2 true }
  | none => c

/-- Takes a finished transfer out of the list. -/
def signOut (transfer : ℤ) (c : Cancellations) : Cancellations :=
  { c with list := c.list.deleteWhere (·.1 = transfer) }

/-- Cancels everything and empties the list. -/
def allAbort (c : Cancellations) : Cancellations :=
  { c with list := .empty, flipped := fun switch ↦ c.flipped switch || c.list.rows.any (·.2 = switch) }

end Cancellations

/-- The completion reasons that are reported. -/
inductive CloudStatus
  | accessDenied
  | loginFailed
  | networkNotAvailable
  | notInSync
  | invalidRequest
  | cancelled
  | inUse
  | unsuccessful
deriving DecidableEq

def CloudStatus.fromSourceError : SourceError → CloudStatus
  | .notSignedIn => .loginFailed
  | .noNetwork => .networkNotAvailable
  | .noAccess => .accessDenied
  | .notFound _ => .notInSync
  | .cancelled => .cancelled
  | .integrity _ _ | .incomplete _ _ | .anchorExpired | .sink _ | .server _ | .internal _ =>
    .unsuccessful

/-- Which range is to be reported as failed, if any is open. -/
def errorDomain (requestedOffset requestedLength fileSize : ℤ) (sent : ℕ) : Option (ℤ × ℤ) :=
  if requestedLength = 0 then some (max requestedOffset 0, 0)
  else
    let «end» := if requestedLength < 0 then fileSize
      else max (-2 ^ 63) (min (2 ^ 63 - 1) (requestedOffset + requestedLength))
    let sent := min (2 ^ 63 - 1) (sent : ℤ)
    let start := max (max requestedOffset sent) 0
    if start < «end» then some (start, «end» - start) else none

/-- A request as it is copied out of its callback. -/
structure Request where
  transfer : ℤ
  size : ℤ
  application : Option String

/-- What the function of a job asks of what surrounds it. -/
inductive Ask
  | signIn (transfer : ℤ)
  | look (switch : Switch)
  | signOut (transfer : ℤ)
  | children (container : Container)
  | handOver (container : Container) (should : List Entry)
  | placeholderError (transfer : ℤ) (status : CloudStatus)
  | progress (loaded total : ℕ)
  | write (offset : ℕ) (data : List UInt8)
  | complete
  | sent
  | dataError (transfer : ℤ) (status : CloudStatus) (offset length : ℤ)

abbrev Answer : Ask → Type
  | .signIn _ => Switch
  | .look _ => Bool
  | .signOut _ => Unit
  | .children _ => Except SourceError (List Entry)
  | .handOver _ _ => Bool
  | .placeholderError _ _ => Unit
  | .progress _ _ => Unit
  | .write _ _ => Except String Unit
  | .complete => Bool
  | .sent => ℕ
  | .dataError _ _ _ _ => Unit

abbrev Job (α : Type) := Program Ask Answer α

abbrev ask (r : Ask) : Job (Answer r) := call r

/-- What a sink with that switch is asked for. -/
def ofSink (switch : Switch) : Ask → Prop
  | .look s => s = switch
  | .progress _ _ => True
  | .write _ _ => True
  | _ => False

/-- A source as it delivers content: of the platform it knows the sink. -/
structure Source where
  content : EntryIdentifier → ContentRequest → Switch → Job (Except SourceError ContentReceipt)
  sink : ∀ identifier job switch, (content identifier job switch).Asks (ofSink switch)

section Jobs

variable (unicode : Unicode) (source : Source)

/-- Hands the listing over, if the request has not been cancelled meanwhile. -/
def deliverList (request : Request) (container : Container) (abort : Switch)
    (should : List Entry) : Job Unit := do
  match checkList unicode container should with
  | .error _ => ask (.placeholderError request.transfer .invalidRequest)
  | .ok () =>
    if ← ask (.look abort) then return
    if ← ask (.handOver container should) then return
    ask (.placeholderError request.transfer .unsuccessful)

def obtainList (request : Request) (container : Container) (abort : Switch) : Job Unit := do
  match ← ask (.children container) with
  | .error error =>
    ask (.placeholderError request.transfer (CloudStatus.fromSourceError error))
  | .ok should => deliverList unicode request container abort should

/-- Obtains and hands over the listing; registers the request and deregisters it. -/
def fetchList (request : Request) (container : Container) : Job Unit := do
  let abort ← ask (.signIn request.transfer)
  obtainList unicode request container abort
  ask (.signOut request.transfer)

/-- The whole file through the sink, and whether everything arrived. -/
def deliverContent (request : Request) (identifier : EntryIdentifier) (abort : Switch) :
    Job (Except CloudStatus Unit) := do
  match ← source.content identifier ⟨request.application⟩ abort with
  | .error error => return .error (CloudStatus.fromSourceError error)
  | .ok _ =>
    if ← ask .complete then return .ok () else return .error .unsuccessful

/-- Only what is still open is reported. -/
def reportOpen (request : Request) (requiredOffset length : ℤ) : Except CloudStatus Unit → Job Unit
  | .ok () => return
  | .error status => do
    match errorDomain requiredOffset length request.size (← ask .sent) with
    | some (offset, «open») => ask (.dataError request.transfer status offset «open»)
    | none => return

def fetchContent (request : Request) (identifier : EntryIdentifier)
    (requiredOffset length : ℤ) : Job Unit := do
  let abort ← ask (.signIn request.transfer)
  let result ← deliverContent source request identifier abort
  reportOpen request requiredOffset length result
  ask (.signOut request.transfer)

end Jobs

/-- What a callback gives to the pool. -/
inductive Call
  | list (container : Container)
  | content (identifier : EntryIdentifier) (requiredOffset length : ℤ)

def Call.job (unicode : Unicode) (source : Source) (request : Request) : Call → Job Unit
  | .list container => fetchList unicode request container
  | .content identifier requiredOffset length =>
    fetchContent source request identifier requiredOffset length

/-- The list of the switches, and of every accepted request by its number: what it is, the switch it
got when its job started, whether its job is over, and whether it was cancelled before that. -/
structure Scene where
  cancellations : Cancellations
  accepted : ℕ → Option (Request × Call)
  switch : ℕ → Option Switch
  finished : ℕ → Bool
  cancelled : ℕ → Bool

def Scene.empty : Scene :=
  ⟨.empty, fun _ ↦ none, fun _ ↦ none, fun _ ↦ false, fun _ ↦ false⟩

/-- When a cancellation comes and when the platform is disconnected. -/
structure Occasion where
  cancel : ℕ → Scene → Prop
  disconnect : Scene → Prop

def always : Occasion := ⟨fun _ _ ↦ True, fun _ ↦ True⟩

/-- What comes from the threads of the callbacks: a request that is accepted, the cancellation of an
accepted one, and the disconnection. -/
inductive Callback (occasion : Occasion) (s : Scene) : Scene → Prop
  | accept {i : ℕ} {request : Request × Call} : s.accepted i = none →
      Callback occasion s { s with accepted := Function.update s.accepted i (some request) }
  | cancel {i : ℕ} {request : Request} {call : Call} :
      s.accepted i = some (request, call) → occasion.cancel i s →
      Callback occasion s { s with
        cancellations := s.cancellations.abort request.transfer
        cancelled := Function.update s.cancelled i true }
  | disconnect : occasion.disconnect s → Callback occasion s { s with
      cancellations := s.cancellations.allAbort
      cancelled := fun i ↦ s.cancelled i || ((s.accepted i).isSome && !s.finished i) }

def Scene.serve (i : ℕ) : (r : Ask) → Scene → Answer r → Scene → Prop
  | .signIn transfer, s, a, s' => a = (s.cancellations.signIn transfer).1 ∧ s' = { s with
      cancellations := (s.cancellations.signIn transfer).2
      switch := Function.update s.switch i (some a) }
  | .look switch, s, a, s' => a = s.cancellations.flipped switch ∧ s' = s
  | .signOut transfer, s, _, s' => s' = { s with
      cancellations := s.cancellations.signOut transfer
      finished := Function.update s.finished i true }
  | .children _, s, _, s' | .handOver _ _, s, _, s' | .placeholderError _ _, s, _, s'
  | .progress _ _, s, _, s' | .write _ _, s, _, s' | .complete, s, _, s' | .sent, s, _, s'
  | .dataError _ _ _ _, s, _, s' => s' = s

/-- The pool starts the job of any accepted request, and a job that panics goes no further. -/
def rules (unicode : Unicode) (source : Source) (occasion : Occasion) :
    Rules Ask Answer Scene where
  start i p s := ∃ request call, s.accepted i = some (request, call) ∧ s.switch i = none ∧
    s.finished i = false ∧ p = call.job unicode source request
  serve := Scene.serve
  finish _ s s' := s' = s
  abort i s s' := s' = { s with finished := Function.update s.finished i true }
  restart _ _ := False
  outside := Callback occasion

end FolderClient.Cfapi.Cancel
