import FolderClient.Library.JsonText
import FolderClient.Net.Transport
import Mathlib.Algebra.BigOperators.Group.List.Basic

namespace FolderClient.Net.DeviceFlow

open FolderClient.Library.Texts FolderClient.Library.JsonText
open FolderClient.Net.Access FolderClient.Net.Transport

section Model

/-- The `error` of an OAuth answer. -/
inductive OauthErrorCode
  | invalidRequest
  | invalidClient
  | invalidGrant
  | unauthorizedClient
  | unsupportedGrantType
  | invalidScope
  | authorizationPending
  | slower
  | codeExpired
  | rejected
  | nonceNeeded
  | invalidDpopProof
  | unknown (text : String)
deriving DecidableEq

def OauthErrorCode.wireValue : OauthErrorCode → String
  | invalidRequest => "invalid_request"
  | invalidClient => "invalid_client"
  | invalidGrant => "invalid_grant"
  | unauthorizedClient => "unauthorized_client"
  | unsupportedGrantType => "unsupported_grant_type"
  | invalidScope => "invalid_scope"
  | authorizationPending => "authorization_pending"
  | slower => "slow_down"
  | codeExpired => "expired_token"
  | rejected => "access_denied"
  | nonceNeeded => "use_dpop_nonce"
  | invalidDpopProof => "invalid_dpop_proof"
  | unknown text => text

structure OauthError where
  error : OauthErrorCode
  errorDescription : Option String
  errorUri : Option String
deriving DecidableEq

def errorTypeBase : String := "https://errors.elasticdms.io/"

/-- The short code of a type below the base; query and fragment are cut off. -/
def shortCode (uri : String) : Option String :=
  (strip errorTypeBase.toList uri.toList).map fun rest ↦
    String.ofList ((rest.takeWhile fun c ↦ c ≠ '?' ∧ c ≠ '#').rdropWhile (· = '/'))

/-- The kind of problem a type stands for. -/
def errorKind (uri : String) : ErrorKind :=
  match shortCode uri with
  | some "device-pending-approval" => .deviceApprovalPending
  | some "session-expired" => .sessionExpired
  | some "insufficient-authentication" => .authenticationTooWeak
  | some "not-found" => .notFound
  | some "representation-unavailable" => .renditionNotAvailable
  | some "insufficient-scope" => .scopeMissing
  | some "desktop-client-not-permitted" => .folderClientNotUnlocked
  | some "device-revoked" => .deviceLocked
  | _ => .other uri

def securityEvents : List String :=
  ["device-not-in-network-segment", "device-signature-mismatch", "server-key-revoked",
    "token-device-binding-mismatch", "refresh-token-reuse", "step-up-subject-mismatch"]

/-- What an error while polling means. -/
inductive DeviceFlowStep
  | pending
  | slower
  | expired
  | rejected
  | nonceNeeded
  | final
deriving DecidableEq

def OauthError.inDeviceFlow (error : OauthError) : DeviceFlowStep :=
  match error.error with
  | .authorizationPending => .pending
  | .slower => .slower
  | .codeExpired => .expired
  | .invalidGrant =>
    if error.errorUri.bind shortCode = some "device-code-expired" then .expired else .final
  | .rejected => .rejected
  | .nonceNeeded => .nonceNeeded
  | _ => .final

/-- The answer of the authorization server that begins the flow. -/
structure DeviceAuthorization where
  deviceCode : String
  expiresIn : UInt64
  interval : Option UInt64

def defaultIntervalSecond : UInt64 := 5

def slowDownIncrementSeconds : ℕ := 5

def DeviceAuthorization.intervalSecond (login : DeviceAuthorization) : UInt64 :=
  login.interval.getD defaultIntervalSecond

/-- How the flow ended. -/
inductive LoginOutcome
  | issued (token : TokenResponse)
  | expired
  | rejected (error : OauthError)
deriving DecidableEq

/-- What is shown of an attempt. -/
inductive LoginStep
  | pending
  | slower (intervalSecond : ℕ)
  | networkFault (text : String)
  | decided
deriving DecidableEq

def u64Max : ℕ := 2 ^ 64 - 1

def saturatingAdd (a b : ℕ) : ℕ := min (a + b) u64Max

/-- A whole number of 64 bits; a plus sign may stand before it. -/
def parseU64 (text : List Char) : Option ℕ :=
  let digits := (strip ['+'] text).getD text
  if digits ≠ [] ∧ digits.all Char.isDigit ∧ naturalOf digits < 2 ^ 64 then some (naturalOf digits)
  else none

/-- `Retry-After` in seconds; a date is not read. -/
def repeatAfter (raw : RawResponse) : Option ℕ :=
  (raw.headerAt "Retry-After").bind fun text ↦ parseU64 (trim text.toList)

/-- How the bodies of the token endpoint are read. -/
structure Readers where
  token : List UInt8 → Except String TokenResponse
  oauth : List UInt8 → Option OauthError

/-- What an attempt comes to. -/
inductive TokenStep
  | issued (token : TokenResponse) (raw : RawResponse)
  | error (error : OauthError) (raw : RawResponse)

variable (r : Readers)

def oauthError (raw : RawResponse) : OauthError :=
  (r.oauth raw.body).getD ⟨.unknown "server_error", none, none⟩

def tokenAttempt (what : String) (answer : Except NetworkError RawResponse) :
    Except NetworkError TokenStep := do
  let raw ← answer
  if raw.status = 200 then
    match r.token raw.body with
    | .ok token => return .issued token raw
    | .error reason => throw (.unreadableResponse what reason)
  else return .error (oauthError r raw) raw

def oauthFailure (error : OauthError) (raw : RawResponse) : ApiResult LoginOutcome :=
  let detail := error.errorDescription.getD error.error.wireValue
  if (error.errorUri.bind shortCode).any (securityEvents.contains ·) then
    .securityAbort s!"The sign-in reports a security event: {detail}"
  else
    .slotError
      ⟨some raw.status, (error.errorUri.map errorKind).getD (.other "about:blank"), detail⟩

/-- What there is for an attempt: the assertion of the device, and the answer to it. -/
structure Poll where
  assertion : Except NetworkError String
  answer : Except NetworkError RawResponse

/-- An attempt decides, or the flow goes on with an interval. -/
inductive Turn
  | decided (result : ApiResult LoginOutcome)
  | again (interval : ℕ)

/-- One attempt: what is shown, and how it goes on. -/
def attempt (poll : Poll) (interval : ℕ) : List LoginStep × Turn :=
  match poll.assertion with
  | .error error => ([], .decided (.networkError error))
  | .ok _ =>
    match tokenAttempt r "the user token" poll.answer with
    | .ok (.issued token _) => ([.decided], .decided (.success (.issued token)))
    | .error network =>
      if network.mayRepeatedBecome then ([.networkFault network.display], .again interval)
      else ([], .decided (.networkError network))
    | .ok (.error error raw) =>
      match error.inDeviceFlow with
      | .pending => ([.pending], .again interval)
      | .slower =>
        let interval :=
          max (saturatingAdd interval slowDownIncrementSeconds) ((repeatAfter raw).getD 0)
        ([.slower interval], .again interval)
      | .nonceNeeded =>
        ([.networkFault "The server demanded a new DPoP nonce."], .again interval)
      | .expired => ([.decided], .decided (.success .expired))
      | .rejected => ([.decided], .decided (.success (.rejected error)))
      | .final => ([.decided], .decided (oauthFailure error raw))

/-- What a flow has come to: how long was waited before each attempt, what was shown, the result. -/
structure Flow where
  waits : List ℕ
  shown : List LoginStep
  result : ApiResult LoginOutcome

/-- The loop; `none` says that it has not ended after so many turns. -/
def loop (polls : ℕ → Poll) (expiresIn : ℕ) :
    ℕ → ℕ → ℕ → List ℕ → List LoginStep → Option Flow
  | 0, _, _, _, _ => none
  | fuel + 1, interval, elapsed, waits, shown =>
    if elapsed < expiresIn then
      match attempt r (polls waits.length) interval with
      | (steps, .decided result) => some ⟨waits ++ [interval], shown ++ steps, result⟩
      | (steps, .again next) =>
        loop polls expiresIn fuel next (saturatingAdd elapsed interval) (waits ++ [interval])
          (shown ++ steps)
    else some ⟨waits, shown, .success .expired⟩

def waitOnToken (login : DeviceAuthorization) (polls : ℕ → Poll) (fuel : ℕ) : Option Flow :=
  loop r polls login.expiresIn.toNat fuel (max login.intervalSecond.toNat 1) 0 [] []

end Model

section Runs

variable {r : Readers} {polls : ℕ → Poll} {interval n : ℕ} {steps : List LoginStep}

theorem saturatingAdd_le (a b : ℕ) : saturatingAdd a b ≤ u64Max := min_le_right _ _

theorem parseU64_le {text : List Char} (h : parseU64 text = some n) : n ≤ u64Max := by
  unfold parseU64 at h
  dsimp only at h
  split at h
  · rename_i hdigits
    obtain rfl := Option.some.inj h
    exact Nat.le_pred_of_lt hdigits.2.2
  · cases h

theorem repeatAfter_le (raw : RawResponse) : (repeatAfter raw).getD 0 ≤ u64Max := by
  cases h : repeatAfter raw with
  | none => exact Nat.zero_le _
  | some seconds =>
    obtain ⟨text, -, hparse⟩ := Option.bind_eq_some_iff.mp h
    exact parseU64_le hparse

/-- The server asks for a slower pace. -/
def SlowedBy (r : Readers) (poll : Poll) (raw : RawResponse) : Prop :=
  ∃ assertion error, poll.assertion = .ok assertion ∧
    tokenAttempt r "the user token" poll.answer = .ok (.error error raw) ∧
    error.inDeviceFlow = .slower

/-- The interval after an attempt that does not decide: a slower pace lengthens it for good, nothing
shortens it. -/
theorem attempt_again {poll : Poll} {next : ℕ}
    (h : attempt r poll interval = (steps, .again next)) :
    next = interval ∨ ∃ raw, SlowedBy r poll raw ∧ next =
      max (saturatingAdd interval slowDownIncrementSeconds) ((repeatAfter raw).getD 0) := by
  unfold attempt at h
  split at h
  · cases h
  · rename_i assertion hassertion
    split at h
    · cases h
    · split at h
      · exact .inl (Turn.again.inj (Prod.mk.inj h).2).symm
      · cases h
    · rename_i error raw hattempt
      split at h
      · exact .inl (Turn.again.inj (Prod.mk.inj h).2).symm
      · rename_i hslower
        exact .inr ⟨raw, ⟨assertion, error, hassertion, hattempt, hslower⟩,
          (Turn.again.inj (Prod.mk.inj h).2).symm⟩
      · exact .inl (Turn.again.inj (Prod.mk.inj h).2).symm
      · cases h
      · cases h
      · cases h

theorem attempt_of_slowedBy {poll : Poll} {raw : RawResponse} (h : SlowedBy r poll raw) :
    ∃ steps, attempt r poll interval = (steps, .again
      (max (saturatingAdd interval slowDownIncrementSeconds) ((repeatAfter raw).getD 0))) := by
  obtain ⟨assertion, error, hassertion, hattempt, hslower⟩ := h
  rw [attempt, hassertion]
  dsimp only
  rw [hattempt]
  dsimp only
  rw [hslower]
  exact ⟨_, rfl⟩

theorem le_of_attempt {poll : Poll} {next : ℕ} (hmax : interval ≤ u64Max)
    (h : attempt r poll interval = (steps, .again next)) : interval ≤ next ∧ next ≤ u64Max := by
  rcases attempt_again h with rfl | ⟨raw, -, rfl⟩
  · exact ⟨le_rfl, hmax⟩
  · refine ⟨le_max_of_le_left (le_min (Nat.le_add_right _ _) hmax), ?_⟩
    exact max_le (saturatingAdd_le _ _) (repeatAfter_le raw)

variable {login : DeviceAuthorization}

/-- The interval before each attempt. -/
def intervalAt (r : Readers) (login : DeviceAuthorization) (polls : ℕ → Poll) : ℕ → ℕ
  | 0 => max login.intervalSecond.toNat 1
  | i + 1 =>
    match attempt r (polls i) (intervalAt r login polls i) with
    | (_, .again next) => next
    | (_, .decided _) => intervalAt r login polls i

/-- What is waited before the first attempts together. -/
def waited (r : Readers) (login : DeviceAuthorization) (polls : ℕ → Poll) (n : ℕ) : ℕ :=
  ((List.range n).map (intervalAt r login polls)).sum

/-- An attempt does not decide. -/
def GoesOn (r : Readers) (login : DeviceAuthorization) (polls : ℕ → Poll) (i : ℕ) : Prop :=
  ∃ steps next, attempt r (polls i) (intervalAt r login polls i) = (steps, .again next)

/-- How the flow ends, by the number of attempts. -/
inductive Ends (r : Readers) (login : DeviceAuthorization) (polls : ℕ → Poll) :
    ℕ → ApiResult LoginOutcome → Prop
  | decided {i : ℕ} {shown result} (hgoes : ∀ j < i, GoesOn r login polls j)
      (htime : waited r login polls i < login.expiresIn.toNat)
      (h : attempt r (polls i) (intervalAt r login polls i) = (shown, .decided result)) :
      Ends r login polls (i + 1) result
  | expired {i : ℕ} (hgoes : ∀ j < i, GoesOn r login polls j)
      (htime : ∀ j < i, waited r login polls j < login.expiresIn.toNat)
      (h : login.expiresIn.toNat ≤ waited r login polls i) :
      Ends r login polls i (.success .expired)

theorem waited_succ :
    waited r login polls (n + 1) = waited r login polls n + intervalAt r login polls n := by
  rw [waited, waited, List.range_succ, List.map_append, List.map_singleton, List.sum_append,
    List.sum_singleton]

theorem intervalAt_bounds (i : ℕ) :
    1 ≤ intervalAt r login polls i ∧ intervalAt r login polls i ≤ u64Max := by
  induction i with
  | zero =>
    refine ⟨le_max_right _ _, max_le ?_ (by decide)⟩
    exact Nat.le_pred_of_lt login.intervalSecond.toNat_lt
  | succ i ih =>
    rw [intervalAt]
    split
    · rename_i next h
      have hnext := le_of_attempt ih.2 h
      exact ⟨ih.1.trans hnext.1, hnext.2⟩
    · exact ih

theorem intervalAt_le_succ (i : ℕ) :
    intervalAt r login polls i ≤ intervalAt r login polls (i + 1) := by
  rw [intervalAt]
  split
  · rename_i next h
    exact (le_of_attempt (intervalAt_bounds i).2 h).1
  · exact le_rfl

theorem le_waited : n ≤ waited r login polls n := by
  induction n with
  | zero => exact Nat.zero_le _
  | succ n ih =>
    rw [waited_succ]
    exact Nat.add_le_add ih (intervalAt_bounds n).1

theorem waited_mono {m : ℕ} (h : n ≤ m) : waited r login polls n ≤ waited r login polls m := by
  induction h with
  | refl => exact le_rfl
  | step _ ih =>
    rw [waited_succ]
    exact ih.trans (Nat.le_add_right _ _)

theorem elapsed_lt_iff : min (waited r login polls n) u64Max < login.expiresIn.toNat ↔
    waited r login polls n < login.expiresIn.toNat := by
  have hmax : login.expiresIn.toNat ≤ u64Max := Nat.le_pred_of_lt login.expiresIn.toNat_lt
  omega

theorem elapsed_succ : saturatingAdd (min (waited r login polls n) u64Max)
      (intervalAt r login polls n) = min (waited r login polls (n + 1)) u64Max := by
  rw [waited_succ, saturatingAdd]
  omega

theorem range_succ_map : (List.range (n + 1)).map (intervalAt r login polls) =
    (List.range n).map (intervalAt r login polls) ++ [intervalAt r login polls n] := by
  rw [List.range_succ, List.map_append, List.map_singleton]

/-- Going on after the first attempts, the flow ends as it has to. -/
theorem loop_ends (k : ℕ) : ∀ n shown, login.expiresIn.toNat ≤ n + k →
    (∀ i < n, GoesOn r login polls i) →
    (∀ i < n, waited r login polls i < login.expiresIn.toNat) →
    ∃ count shown' result, (∀ fuel, loop r polls login.expiresIn.toNat (fuel + (k + 1))
        (intervalAt r login polls n) (min (waited r login polls n) u64Max)
        ((List.range n).map (intervalAt r login polls)) shown =
        some ⟨(List.range count).map (intervalAt r login polls), shown', result⟩) ∧
      Ends r login polls count result := by
  induction k with
  | zero =>
    intro n shown hk hgoes htime
    have hle : login.expiresIn.toNat ≤ waited r login polls n := le_trans hk le_waited
    refine ⟨n, shown, _, fun fuel ↦ ?_, .expired hgoes htime hle⟩
    rw [loop, if_neg (elapsed_lt_iff.not.mpr (Nat.not_lt.mpr hle))]
  | succ k ih =>
    intro n shown hk hgoes htime
    by_cases hlt : waited r login polls n < login.expiresIn.toNat
    · have hindex : ((List.range n).map (intervalAt r login polls)).length = n := by
        rw [List.length_map, List.length_range]
      have htime' : ∀ i < n + 1, waited r login polls i < login.expiresIn.toNat :=
        fun i hi ↦ (waited_mono (Nat.lt_succ_iff.mp hi)).trans_lt hlt
      cases hattempt : attempt r (polls n) (intervalAt r login polls n) with
      | mk steps turn =>
        cases turn with
        | decided result =>
          refine ⟨n + 1, shown ++ steps, result, fun fuel ↦ ?_, .decided hgoes hlt hattempt⟩
          rw [← Nat.add_assoc, loop, if_pos (elapsed_lt_iff.mpr hlt), hindex, hattempt,
            range_succ_map]
        | again next =>
          have hgoes' : ∀ i < n + 1, GoesOn r login polls i := by
            intro i hi
            rcases Nat.lt_succ_iff_lt_or_eq.mp hi with hi | rfl
            · exact hgoes i hi
            · exact ⟨steps, next, hattempt⟩
          have hnext : intervalAt r login polls (n + 1) = next := by
            rw [intervalAt, hattempt]
          obtain ⟨count, shown', result, hloop, hends⟩ :=
            ih (n + 1) (shown ++ steps) (by omega) hgoes' htime'
          refine ⟨count, shown', result, fun fuel ↦ ?_, hends⟩
          rw [← hloop fuel, ← Nat.add_assoc, loop, if_pos (elapsed_lt_iff.mpr hlt), hindex,
            hattempt, range_succ_map, hnext, elapsed_succ]
    · refine ⟨n, shown, _, fun fuel ↦ ?_, .expired hgoes htime (Nat.not_lt.mp hlt)⟩
      rw [← Nat.add_assoc, loop, if_neg (elapsed_lt_iff.not.mpr hlt)]

theorem Ends.inTime {count : ℕ} {result : ApiResult LoginOutcome}
    (h : Ends r login polls count result) : (∀ i, i + 1 < count → GoesOn r login polls i) ∧
      ∀ i < count, waited r login polls i < login.expiresIn.toNat := by
  cases h with
  | decided hgoes htime h =>
    exact ⟨fun i hi ↦ hgoes i (Nat.lt_of_succ_lt_succ hi),
      fun i hi ↦ (waited_mono (Nat.lt_succ_iff.mp hi)).trans_lt htime⟩
  | expired hgoes htime h => exact ⟨fun i hi ↦ hgoes i (Nat.lt_of_succ_lt hi), htime⟩

/-- Whatever the interval, the attempt does not decide. -/
def Undecided (r : Readers) (poll : Poll) : Prop :=
  ∀ interval, ∃ steps next, attempt r poll interval = (steps, .again next)

theorem Ends.of_undecided {count : ℕ} {result : ApiResult LoginOutcome}
    (h : Ends r login polls count result) (hall : ∀ i < count, Undecided r (polls i)) :
    result = .success .expired ∧ login.expiresIn.toNat ≤ waited r login polls count := by
  cases h with
  | @decided i shown result hgoes htime h =>
    obtain ⟨steps, next, hagain⟩ := hall i (Nat.lt_succ_self i) (intervalAt r login polls i)
    rw [h] at hagain
    cases hagain
  | expired hgoes htime h => exact ⟨rfl, h⟩

/-- What the waiting for a token keeps to. -/
structure Paced (r : Readers) (login : DeviceAuthorization) (polls : ℕ → Poll) (flow : Flow) :
    Prop where
  nondecreasing : ∀ i w w', flow.waits[i]? = some w → flow.waits[i + 1]? = some w' → w ≤ w'
  slowed : ∀ i w w' raw, flow.waits[i]? = some w → flow.waits[i + 1]? = some w' →
    SlowedBy r (polls i) raw → min (w + 5) u64Max ≤ w' ∧ ∀ s, repeatAfter raw = some s → s ≤ w'
  inTime : ∀ i < flow.waits.length, (flow.waits.take i).sum < login.expiresIn.toNat
  expired : (∀ i < flow.waits.length, Undecided r (polls i)) →
    flow.result = .success .expired ∧ login.expiresIn.toNat ≤ flow.waits.sum
  fits : ∀ w ∈ flow.waits, 1 ≤ w ∧ w ≤ u64Max

theorem getElem?_waits {count i w : ℕ}
    (h : ((List.range count).map (intervalAt r login polls))[i]? = some w) :
    i < count ∧ w = intervalAt r login polls i := by
  obtain ⟨hi, hw⟩ := List.getElem?_eq_some_iff.mp h
  rw [List.length_map, List.length_range] at hi
  rw [List.getElem_map, List.getElem_range] at hw
  exact ⟨hi, hw.symm⟩

theorem Ends.paced {count : ℕ} {shown : List LoginStep} {result : ApiResult LoginOutcome}
    (h : Ends r login polls count result) :
    Paced r login polls ⟨(List.range count).map (intervalAt r login polls), shown, result⟩ := by
  have hlength : ((List.range count).map (intervalAt r login polls)).length = count := by
    rw [List.length_map, List.length_range]
  constructor
  · intro i w w' hw hw'
    rw [(getElem?_waits hw).2, (getElem?_waits hw').2]
    exact intervalAt_le_succ i
  · intro i w w' raw hw hw' hslowed
    rw [(getElem?_waits hw).2, (getElem?_waits hw').2, intervalAt]
    obtain ⟨steps, hattempt⟩ := @attempt_of_slowedBy r (intervalAt r login polls i) _ _ hslowed
    rw [hattempt]
    refine ⟨le_max_left _ _, fun s hs ↦ ?_⟩
    dsimp only
    rw [hs]
    exact le_max_right _ _
  · intro i hi
    rw [hlength] at hi
    rw [← List.map_take, List.take_range, Nat.min_eq_left hi.le]
    exact h.inTime.2 i hi
  · rw [hlength]
    exact h.of_undecided
  · intro w hw
    obtain ⟨i, -, rfl⟩ := List.mem_map.mp hw
    exact intervalAt_bounds i

end Runs

/-- Waiting for a token ends. The waits never get shorter; where the server asks for a slower pace
they get longer by five seconds, as far as 64 bits reach, and reach the number of seconds it states;
no wait begins once they have used up the time together, and if no attempt decides, the flow has
expired. -/
theorem device_flow (r : Readers) (login : DeviceAuthorization) (polls : ℕ → Poll) :
    ∃ flow, (∀ fuel, waitOnToken r login polls (fuel + (login.expiresIn.toNat + 1)) = some flow) ∧
      Paced r login polls flow := by
  obtain ⟨count, shown, result, hloop, hends⟩ := @loop_ends r polls login login.expiresIn.toNat
    0 [] (Nat.le_add_left _ _)
    (fun _ h ↦ absurd h (Nat.not_lt_zero _)) (fun _ h ↦ absurd h (Nat.not_lt_zero _))
  exact ⟨_, hloop, hends.paced⟩

/-- The server states an interval close to the largest one, and asks for a slower pace twice. -/
def hugeInterval : DeviceAuthorization :=
  ⟨"device-code", 18446744073709551615, some 18446744073709551611⟩

def slowDownAnswer : RawResponse :=
  ⟨400, fun _ ↦ none, utf8 "\x7b\"error\":\"slow_down\"\x7d"⟩

def slowDown : Poll := ⟨.ok "assertion", .ok slowDownAnswer⟩

def slowDownReaders : Readers where
  token _ := .error "missing field"
  oauth _ := some ⟨.slower, none, none⟩

theorem attempt_slowDown (interval : ℕ) : attempt slowDownReaders slowDown interval =
    ([.slower (max (saturatingAdd interval 5) 0)], .again (max (saturatingAdd interval 5) 0)) :=
  rfl

/-- Close to the largest interval, a slower pace is less than five seconds slower. -/
theorem slower_by_less : ¬ ∀ r login polls fuel flow,
    waitOnToken r login polls fuel = some flow →
      ∀ i w w' raw, flow.waits[i]? = some w → flow.waits[i + 1]? = some w' →
        SlowedBy r (polls i) raw → w + 5 ≤ w' := by
  intro h
  have hrun : waitOnToken slowDownReaders hugeInterval (fun _ ↦ slowDown) 3 =
      some ⟨[2 ^ 64 - 5, 2 ^ 64 - 1], [.slower (2 ^ 64 - 1), .slower (2 ^ 64 - 1)],
        .success .expired⟩ := by
    have hfirst : max hugeInterval.intervalSecond.toNat 1 = 2 ^ 64 - 5 := by decide
    have hexpires : hugeInterval.expiresIn.toNat = 2 ^ 64 - 1 := by decide
    have hnext : max (saturatingAdd (2 ^ 64 - 5) 5) 0 = 2 ^ 64 - 1 := by
      rw [saturatingAdd, u64Max]
      omega
    have hlast : max (saturatingAdd (2 ^ 64 - 1) 5) 0 = 2 ^ 64 - 1 := by
      rw [saturatingAdd, u64Max]
      omega
    have helapsed : saturatingAdd 0 (2 ^ 64 - 5) = 2 ^ 64 - 5 := by
      rw [saturatingAdd, u64Max]
      omega
    have hover : saturatingAdd (2 ^ 64 - 5) (2 ^ 64 - 1) = 2 ^ 64 - 1 := by
      rw [saturatingAdd, u64Max]
      omega
    rw [waitOnToken, hfirst, hexpires, loop, if_pos (by decide), attempt_slowDown, hnext, helapsed]
    dsimp only
    rw [loop, if_pos (by decide), attempt_slowDown, hlast, hover]
    dsimp only
    rw [loop, if_neg (by decide)]
    rfl
  have hattempt : tokenAttempt slowDownReaders "the user token" (.ok slowDownAnswer) =
      .ok (.error ⟨.slower, none, none⟩ slowDownAnswer) := rfl
  have hslowed : SlowedBy slowDownReaders slowDown slowDownAnswer :=
    ⟨"assertion", ⟨.slower, none, none⟩, rfl, hattempt, rfl⟩
  have hle := h _ _ _ _ _ hrun 0 _ _ _ rfl rfl hslowed
  exact absurd hle (by decide)

end FolderClient.Net.DeviceFlow
