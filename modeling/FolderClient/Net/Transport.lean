import FolderClient.Crypto.Origins
import FolderClient.Library.Json
import FolderClient.Net.Access

namespace FolderClient.Net.Transport

open FolderClient.Library FolderClient.Library.Texts FolderClient.Library.Results
open FolderClient.Crypto.Origins FolderClient.Net.Access

section Challenge

def isLead (c : Char) : Bool := c.isAlpha || c = '_'

def isNameChar (c : Char) : Bool := c.isAlphanum || c = '_' || c = '-'

/-- The value of a parameter, in quotation marks or up to the next comma or space, and the rest. -/
def parameterValue : List Char → List Char × List Char
  | '"' :: text => (text.takeWhile (· ≠ '"'), (text.dropWhile (· ≠ '"')).drop 1)
  | text => (text.takeWhile fun c ↦ c ≠ ',' ∧ c ≠ ' ', text.dropWhile fun c ↦ c ≠ ',' ∧ c ≠ ' ')

theorem length_dropWhile_le (p : Char → Bool) (text : List Char) :
    (text.dropWhile p).length ≤ text.length :=
  (List.dropWhile_suffix p).length_le

theorem length_parameterValue (text : List Char) :
    (parameterValue text).2.length ≤ text.length := by
  unfold parameterValue
  split
  · rename_i text
    have h := length_dropWhile_le (· ≠ '"') text
    rw [List.length_drop, List.length_cons]
    omega
  · exact length_dropWhile_le _ _

theorem length_behind_le {text rest : List Char} {c : Char}
    (h : (text.dropWhile isNameChar).dropWhile (· = ' ') = c :: rest) :
    (parameterValue (rest.dropWhile (· = ' '))).2.length ≤ text.length := by
  have hname := length_dropWhile_le isNameChar text
  have hsign := length_dropWhile_le (· = ' ') (text.dropWhile isNameChar)
  have hspaces := length_dropWhile_le (· = ' ') rest
  have hvalue := length_parameterValue (rest.dropWhile (· = ' '))
  rw [h, List.length_cons] at hsign
  omega

/-- Breaks a challenge into its parameters; of several values of a name the first counts. -/
def parameterFrom (found : List (String × String)) : List Char → List (String × String)
  | [] => found
  | c :: text =>
    if isLead c then
      match h : (text.dropWhile isNameChar).dropWhile (· = ' ') with
      | '=' :: rest =>
        let name := String.ofList (asciiLower (c :: text.takeWhile isNameChar))
        let value := parameterValue (rest.dropWhile (· = ' '))
        if found.any (·.1 = name) then parameterFrom found value.2
        else parameterFrom (found ++ [(name, String.ofList value.1)]) value.2
      -- The name of the scheme, not of a parameter.
      | _ => parameterFrom found (text.dropWhile isNameChar)
    else parameterFrom found text
termination_by text => text.length
decreasing_by
  · exact Nat.lt_succ_of_le (length_behind_le h)
  · exact Nat.lt_succ_of_le (length_behind_le h)
  · exact Nat.lt_succ_of_le (length_dropWhile_le isNameChar text)
  · exact Nat.lt_succ_self _

def parameter (header : Option String) : List (String × String) :=
  match header with
  | none => []
  | some header => parameterFrom [] header.toList

def wwwErrorNonce : String := "use_dpop_nonce"

/-- Whether the challenge demands a new nonce. -/
def requiresNonce (header : Option String) : Bool :=
  (parameter header).any fun field ↦ field.1 = "error" && field.2 = wwwErrorNonce

example : requiresNonce (some "DPoP error=\"use_dpop_nonce\", max_age=120") = true := by
  decide +kernel

example : requiresNonce (some "Basic error = other, DPoP error=\"use_dpop_nonce\"") = false := by
  decide +kernel

theorem parameterFrom_nil (found : List (String × String)) : parameterFrom found [] = found := by
  rw [parameterFrom]

theorem parameterFrom_of_not_lead {found : List (String × String)} {c : Char} {text : List Char}
    (h : isLead c = false) : parameterFrom found (c :: text) = parameterFrom found text := by
  rw [parameterFrom, h, if_neg Bool.false_ne_true]

theorem parameterFrom_parameter {found : List (String × String)} {c : Char}
    {text rest : List Char} (h : isLead c = true)
    (hrest : (text.dropWhile isNameChar).dropWhile (· = ' ') = '=' :: rest) :
    parameterFrom found (c :: text) =
      let name := String.ofList (asciiLower (c :: text.takeWhile isNameChar))
      let value := parameterValue (rest.dropWhile (· = ' '))
      if found.any (·.1 = name) then parameterFrom found value.2
      else parameterFrom (found ++ [(name, String.ofList value.1)]) value.2 := by
  rw [parameterFrom, if_pos h]
  split
  · rename_i more hmore
    obtain rfl : more = rest := (List.cons.inj (hmore.symm.trans hrest)).2
    rfl
  · rename_i hnot
    exact absurd hrest (hnot rest)

theorem parameterFrom_scheme {found : List (String × String)} {c : Char} {text : List Char}
    (h : isLead c = true)
    (hrest : ∀ rest, (text.dropWhile isNameChar).dropWhile (· = ' ') ≠ '=' :: rest) :
    parameterFrom found (c :: text) = parameterFrom found (text.dropWhile isNameChar) := by
  rw [parameterFrom, if_pos h]
  split
  · rename_i more hmore
    exact absurd hmore (hrest more)
  · rfl

end Challenge

section Model

/-- The key a call hangs off. -/
inductive KeyBinding
  | device
  | session
deriving DecidableEq

def KeyBinding.display : KeyBinding → String
  | device => "device"
  | session => "session"

inductive CallBinding
  | without
  | deviceWithoutToken
  | sessionWithoutToken
  | device
  | session
deriving DecidableEq

namespace CallBinding

def key : CallBinding → Option KeyBinding
  | without => none
  | deviceWithoutToken | device => some .device
  | sessionWithoutToken | session => some .session

def token : CallBinding → Option KeyBinding
  | without | deviceWithoutToken | sessionWithoutToken => none
  | device => some .device
  | session => some .session

end CallBinding

/-- The body of a request; a file is gone once it has been sent. -/
inductive Body
  | no
  | json (text : String)
  | form (field : List (String × String))
  | stream (file : Option (List UInt8))
deriving DecidableEq

/-- Whether the body can be sent a second time. -/
def Body.retryable : Body → Bool
  | stream _ => false
  | _ => true

structure Request where
  method : String
  url : String
  query : List (String × String)
  binding : CallBinding
  header : List (String × String)
  body : Body
  longPoll : Bool
deriving DecidableEq

/-- The method and the path, as they stand in an error. -/
def Request.target (request : Request) : String :=
  let path := match Texts.splitAt separator request.url.toList with
    | some (_, rest) =>
      if '/' ∈ rest then String.ofList (rest.dropWhile (· ≠ '/')) else request.url
    | none => request.url
  request.method ++ " " ++ path

/-- What goes out. -/
inductive Payload
  | none
  | json (text : String)
  | form (field : List (String × String))
  | file (bytes : List UInt8)
deriving DecidableEq

structure Sent where
  longPoll : Bool
  method : String
  url : String
  query : List (String × String)
  header : List (String × String)
  payload : Payload
deriving DecidableEq

/-- An error of the HTTP library. -/
structure LibraryError where
  isTimeout : Bool
  text : String
deriving DecidableEq

def translate (target : String) (error : LibraryError) : NetworkError :=
  if error.isTimeout then .timeout target else .connection target error.text

def readError (target : String) (error : LibraryError) : NetworkError :=
  if error.isTimeout then .timeout target
  else .connection target s!"the body broke off: {error.text}"

/-- An answer: the values of the headers where they are text, and what reading the body comes to. -/
structure Response where
  status : ℕ
  headers : List (String × Option String)
  body : Except LibraryError (List UInt8)

abbrev HeaderMap := String → Option String

/-- All headers in lower case; where one is set several times the last counts. -/
def headerOf (response : Response) : HeaderMap := fun name ↦
  (response.headers.filterMap fun field ↦
    field.2.map (String.ofList (asciiLower field.1.toList), ·)).reverse.lookup name

structure RawResponse where
  status : ℕ
  header : HeaderMap
  body : List UInt8

def RawResponse.headerAt (raw : RawResponse) (name : String) : Option String :=
  raw.header (String.ofList (asciiLower name.toList))

inductive StreamResponse
  | stream (status : ℕ) (header : HeaderMap) (body : Except LibraryError (List UInt8))
  | failure (raw : RawResponse)

def UrlError.display (error : UrlError) : String :=
  s!"`{error.url}` is no good as the target of a proof: {error.reason}"

/-- What a proof says of a request. -/
structure ProofRequest where
  method : String
  url : String
  nonce : Option String
  accessToken : Option String
deriving DecidableEq

/-- What surrounds a call, attempt by attempt: identifiers, keys, tokens and proofs, the answers of
the server, and what other calls do to the nonces before an answer is noted and before the nonce for
the repetition is taken. -/
structure Surroundings (Key : Type) where
  ulid : ℕ → Except String String
  key : ℕ → KeyBinding → Option Key
  token : ℕ → KeyBinding → Option String
  proof : ℕ → Key → ProofRequest → Except String String
  readJson : List UInt8 → Option Json.Value
  answer : ℕ → Sent → Except LibraryError Response
  during : ℕ → List Operation
  between : ℕ → List Operation

/-- A call between two attempts; `sent` is what has gone out. -/
structure Call where
  request : Request
  used : Option String
  repeated : Bool
  nonces : NonceStore
  sent : List Sent

variable {Key : Type}

namespace Surroundings

def bodyRequiresNonce (s : Surroundings Key) (body : List UInt8) : Bool :=
  (((s.readJson body).bind (·.get "error")).bind Json.Value.asStr).any (· = wwwErrorNonce)

/-- Whether the answer demands a new nonce, in one form or the other. -/
def requiresNewNonce (s : Surroundings Key) (raw : RawResponse) : Bool :=
  if raw.status = 401 then requiresNonce (raw.headerAt "WWW-Authenticate")
  else if raw.status = 400 then s.bodyRequiresNonce raw.body
  else false

/-- The proof and the token of an attempt. -/
def authorize (s : Surroundings Key) (i : ℕ) (request : Request) (nonce : Option String) :
    Except NetworkError (List (String × String)) :=
  match request.binding.key with
  | none => return []
  | some binding => do
    let key ← (s.key i binding).elim (.error (.noKey binding.display)) .ok
    let token ← match request.binding.token with
      | none => .ok none
      | some carrier => (s.token i carrier).elim (.error (.noToken carrier.display)) (.ok ∘ some)
    let proof ← (s.proof i key ⟨request.method, request.url, nonce, token⟩).mapError .crypto
    return ("DPoP", proof) ::
      (token.map fun token ↦ ("Authorization", "DPoP " ++ token)).toList

/-- Finishes building the request. -/
def prepare (s : Surroundings Key) (i : ℕ) (request : Request) (nonce : Option String)
    (target : String) : Except NetworkError (Sent × Request) := do
  let id ← (s.ulid i).mapError .crypto
  let authorization ← s.authorize i request nonce
  let header := ("X-Request-Id", id) :: (request.header ++ authorization)
  let sent := Sent.mk request.longPoll request.method request.url request.query
  match request.body with
  | .no => return (sent header .none, request)
  | .json text =>
    return (sent (header ++ [("Content-Type", "application/json")]) (.json text), request)
  | .form field => return (sent header (.form field), request)
  | .stream (some file) => return (sent header (.file file), { request with body := .stream none })
  | .stream none => throw (.nonceInStream target)

end Surroundings

/-- Remembers the nonce of an answer, whichever answer it is. -/
def rememberNonce (nonces : NonceStore) (url : String) (header : HeaderMap) : NonceStore :=
  match header "dpop-nonce" with
  | none => nonces
  | some nonce => if nonce = "" then nonces else perform nonces (.remember url nonce)

namespace Surroundings

/-- One turn of the loop: the call goes on, or it has its result. -/
def turn (s : Surroundings Key) (target : String) (i : ℕ) (call : Call) :
    Call × Option (Except NetworkError StreamResponse) :=
  match s.prepare i call.request call.used target with
  | .error error => (call, some (.error error))
  | .ok (sent, request) =>
    let nonces := (s.during i).foldl perform call.nonces
    match s.answer i sent with
    | .error error =>
      ({ call with request, nonces, sent := call.sent ++ [sent] },
        some (.error (translate target error)))
    | .ok response =>
      let header := headerOf response
      let nonces := rememberNonce nonces request.url header
      let call := { call with request, nonces, sent := call.sent ++ [sent] }
      if 200 ≤ response.status ∧ response.status < 300 then
        (call, some (.ok (.stream response.status header response.body)))
      else
        match response.body with
        | .error error => (call, some (.error (readError target error)))
        | .ok body =>
          let raw := RawResponse.mk response.status header body
          if !s.requiresNewNonce raw then (call, some (.ok (.failure raw)))
          else if call.repeated then (call, some (.error (.nonceLoop target)))
          else
            let nonces := (s.between i).foldl perform call.nonces
            match nonces.nonce call.request.url with
            | .error error => ({ call with nonces }, some (.error (.crypto (UrlError.display error))))
            | .ok none => ({ call with nonces }, some (.ok (.failure raw)))
            | .ok (some new) =>
              if some new = call.used then ({ call with nonces }, some (.ok (.failure raw)))
              else if !call.request.body.retryable then
                ({ call with nonces, used := some new }, some (.error (.nonceInStream target)))
              else ({ call with nonces, used := some new, repeated := true }, none)

/-- The loop; `none` says that it has not ended after so many turns. -/
def loop (s : Surroundings Key) (target : String) :
    ℕ → ℕ → Call → Option (Call × Except NetworkError StreamResponse)
  | 0, _, _ => none
  | fuel + 1, i, call =>
    match s.turn target i call with
    | (call, some result) => some (call, result)
    | (call, none) => s.loop target fuel (i + 1) call

/-- Runs the request and leaves the body of a success unread. -/
def runFromStream (s : Surroundings Key) (fuel : ℕ) (nonces : NonceStore) (request : Request) :
    Option (Call × Except NetworkError StreamResponse) :=
  match nonces.nonce request.url with
  | .error error =>
    some (⟨request, none, false, nonces, []⟩, .error (.crypto (UrlError.display error)))
  | .ok used => s.loop request.target fuel 0 ⟨request, used, false, nonces, []⟩

end Surroundings

end Model

section Retry

variable {Key : Type} (s : Surroundings Key)

/-- The result an answer comes to by itself. -/
def settle (target : String) :
    Except LibraryError Response → Except NetworkError StreamResponse
  | .error error => .error (translate target error)
  | .ok response =>
    if 200 ≤ response.status ∧ response.status < 300 then
      .ok (.stream response.status (headerOf response) response.body)
    else
      match response.body with
      | .error error => .error (readError target error)
      | .ok body => .ok (.failure ⟨response.status, headerOf response, body⟩)

/-- The nonce an answer carries. -/
def carried (response : Response) : Option String :=
  (headerOf response "dpop-nonce").bind fun nonce ↦
    if String.ofList (trim nonce.toList) = "" then none
    else some (String.ofList (trim nonce.toList))

namespace Surroundings

/-- Whether the answer demands a nonce: a refusal whose body can be read and that says so. -/
def demands (answer : Except LibraryError Response) : Bool :=
  match answer with
  | .error _ => false
  | .ok response =>
    match response.body with
    | .error _ => false
    | .ok body => s.requiresNewNonce ⟨response.status, headerOf response, body⟩

/-- The nonces after the first answer, when the nonce for the repetition is taken. -/
def noted (nonces : NonceStore) (url : String) (response : Response) : NonceStore :=
  (s.between 0).foldl perform
    (rememberNonce ((s.during 0).foldl perform nonces) url (headerOf response))

/-- The nonce a repetition would use: the one at hand after a demand, where it is another one. -/
def renewal (nonces : NonceStore) (key url : String) (answer : Except LibraryError Response) :
    Option String :=
  match answer with
  | .error _ => none
  | .ok response =>
    if s.demands answer then
      ((s.noted nonces url response).nonces key).filter (some · ≠ nonces.nonces key)
    else none

/-- The nonce that comes with a demand and is not the one used. -/
def demanded (used : Option String) (answer : Except LibraryError Response) : Option String :=
  match answer with
  | .error _ => none
  | .ok response => if s.demands answer then (carried response).filter (some · ≠ used) else none

/-- The courses a call can take, by the new nonce that its first answer brings: what goes out, and
the result. -/
inductive Course (request : Request) (used : Option String)
    (fresh : Except LibraryError Response → Option String) :
    List Sent → Except NetworkError StreamResponse → Prop
  | unprepared {error} (h : s.prepare 0 request used request.target = .error error) :
    Course request used fresh [] (.error error)
  | once {first after} (h : s.prepare 0 request used request.target = .ok (first, after))
      (hfresh : fresh (s.answer 0 first) = none) :
    Course request used fresh [first] (settle request.target (s.answer 0 first))
  | inStream {first after nonce}
      (h : s.prepare 0 request used request.target = .ok (first, after))
      (hfresh : fresh (s.answer 0 first) = some nonce) (hbody : request.body.retryable = false) :
    Course request used fresh [first] (.error (.nonceInStream request.target))
  | unpreparedAgain {first after nonce error}
      (h : s.prepare 0 request used request.target = .ok (first, after))
      (hfresh : fresh (s.answer 0 first) = some nonce) (hbody : request.body.retryable = true)
      (hagain : s.prepare 1 request (some nonce) request.target = .error error) :
    Course request used fresh [first] (.error error)
  | again {first after nonce second after'}
      (h : s.prepare 0 request used request.target = .ok (first, after))
      (hfresh : fresh (s.answer 0 first) = some nonce) (hbody : request.body.retryable = true)
      (hagain : s.prepare 1 request (some nonce) request.target = .ok (second, after')) :
    Course request used fresh [first, second]
      (if s.demands (s.answer 1 second) then .error (.nonceLoop request.target)
        else settle request.target (s.answer 1 second))

end Surroundings

variable {s} {request after : Request} {nonce used : Option String} {target key : String} {i : ℕ}
  {sent : Sent} {call : Call} {answer : Except LibraryError Response} {response : Response}
  {body : List UInt8}

theorem settle_of_failure (h : ¬ (200 ≤ response.status ∧ response.status < 300))
    (hbody : response.body = .ok body) : settle target (.ok response) =
      .ok (.failure ⟨response.status, headerOf response, body⟩) := by
  rw [settle, if_neg h, hbody]

theorem demands_ok (hbody : response.body = .ok body) :
    s.demands (.ok response) = s.requiresNewNonce ⟨response.status, headerOf response, body⟩ := by
  rw [Surroundings.demands, hbody]

/-- An answer that demands a nonce is a refusal, and its body can be read. -/
theorem exists_of_demands (h : s.demands answer = true) :
    ∃ response body, answer = .ok response ∧ response.body = .ok body ∧
      ¬ (200 ≤ response.status ∧ response.status < 300) ∧
      s.requiresNewNonce ⟨response.status, headerOf response, body⟩ = true := by
  unfold Surroundings.demands at h
  split at h
  · cases h
  · rename_i response
    split at h
    · cases h
    · rename_i body hbody
      refine ⟨response, body, rfl, hbody, fun hstatus ↦ ?_, h⟩
      have h401 : response.status ≠ 401 := by omega
      have h400 : response.status ≠ 400 := by omega
      rw [Surroundings.requiresNewNonce, if_neg h401, if_neg h400] at h
      cases h

/-- What a body puts on the line. -/
def Body.payload : Body → Payload
  | no => .none
  | json text => .json text
  | form field => .form field
  | stream file => .file (file.getD [])

/-- All but the headers of what goes out is the request's; only a file is used up. -/
theorem prepare_eq_ok (h : s.prepare i request nonce target = .ok (sent, after)) :
    sent = ⟨request.longPoll, request.method, request.url, request.query, sent.header,
        request.body.payload⟩ ∧
      after.url = request.url ∧ after.body.retryable = request.body.retryable ∧
      (request.body.retryable = true → after = request) := by
  rw [Surroundings.prepare, bind_eq_ok] at h
  obtain ⟨id, -, h⟩ := h
  rw [bind_eq_ok] at h
  obtain ⟨authorization, -, h⟩ := h
  dsimp only at h
  split at h
  · rename_i hbody
    obtain ⟨rfl, rfl⟩ := Prod.mk.inj (Except.ok.inj h)
    rw [hbody]
    exact ⟨rfl, rfl, rfl, fun _ ↦ rfl⟩
  · rename_i text hbody
    obtain ⟨rfl, rfl⟩ := Prod.mk.inj (Except.ok.inj h)
    rw [hbody]
    exact ⟨rfl, rfl, rfl, fun _ ↦ rfl⟩
  · rename_i field hbody
    obtain ⟨rfl, rfl⟩ := Prod.mk.inj (Except.ok.inj h)
    rw [hbody]
    exact ⟨rfl, rfl, rfl, fun _ ↦ rfl⟩
  · rename_i file hbody
    obtain ⟨rfl, rfl⟩ := Prod.mk.inj (Except.ok.inj h)
    rw [hbody]
    exact ⟨rfl, rfl, rfl, fun hretryable ↦ by cases hretryable⟩
  · cases h

theorem nonce_eq {nonces : NonceStore} {url : String} (h : origin url = .ok key) :
    nonces.nonce url = .ok (nonces.nonces key) := by
  rw [NonceStore.nonce, h]
  rfl

theorem turn_settled (h : s.prepare i call.request call.used target = .ok (sent, after))
    (hno : s.demands (s.answer i sent) = false) :
    ∃ call', s.turn target i call = (call', some (settle target (s.answer i sent))) ∧
      call'.sent = call.sent ++ [sent] := by
  rw [Surroundings.turn, h]
  dsimp only
  cases hanswer : s.answer i sent with
  | error error => exact ⟨_, rfl, rfl⟩
  | ok response =>
    dsimp only
    rw [hanswer] at hno
    by_cases hstatus : 200 ≤ response.status ∧ response.status < 300
    · rw [if_pos hstatus, settle, if_pos hstatus]
      exact ⟨_, rfl, rfl⟩
    · rw [if_neg hstatus, settle, if_neg hstatus]
      cases hbody : response.body with
      | error error => exact ⟨_, rfl, rfl⟩
      | ok body =>
        rw [demands_ok hbody] at hno
        dsimp only
        rw [hno]
        exact ⟨_, rfl, rfl⟩

theorem turn_repeated (h : s.prepare i call.request call.used target = .ok (sent, after))
    (hdemands : s.demands (s.answer i sent) = true) (hrepeated : call.repeated = true) :
    ∃ call', s.turn target i call = (call', some (.error (.nonceLoop target))) ∧
      call'.sent = call.sent ++ [sent] := by
  obtain ⟨response, body, hanswer, hbody, hstatus, hraw⟩ := exists_of_demands hdemands
  rw [Surroundings.turn, h]
  dsimp only
  rw [hanswer]
  dsimp only
  rw [if_neg hstatus, hbody]
  dsimp only
  rw [hraw, hrepeated]
  exact ⟨_, rfl, rfl⟩

section First

variable {nonces : NonceStore}

/-- What the first turn makes of a demand. -/
theorem turn_demanded (hkey : origin request.url = .ok key)
    (h : s.prepare 0 request used target = .ok (sent, after))
    (hanswer : s.answer 0 sent = .ok response) (hdemands : s.demands (.ok response) = true) :
    s.turn target 0 ⟨request, used, false, nonces, []⟩ =
      let noted := s.noted nonces request.url response
      match noted.nonces key with
      | none => (⟨after, used, false, noted, [sent]⟩, some (settle target (.ok response)))
      | some new =>
        if some new = used then
          (⟨after, used, false, noted, [sent]⟩, some (settle target (.ok response)))
        else if !request.body.retryable then
          (⟨after, some new, false, noted, [sent]⟩, some (.error (.nonceInStream target)))
        else (⟨after, some new, true, noted, [sent]⟩, none) := by
  obtain ⟨-, hurl, hretryable, -⟩ := prepare_eq_ok h
  obtain ⟨response', body, heq, hbody, hstatus, hraw⟩ := exists_of_demands hdemands
  obtain rfl : response = response' := Except.ok.inj heq
  rw [Surroundings.turn, h]
  dsimp only
  rw [hanswer]
  dsimp only
  rw [if_neg hstatus, hbody]
  dsimp only
  rw [hraw, hurl, nonce_eq hkey, hretryable, settle_of_failure hstatus hbody]
  have hnoted : (s.between 0).foldl perform (rememberNonce ((s.during 0).foldl perform nonces)
      request.url (headerOf response)) = s.noted nonces request.url response := rfl
  rw [hnoted]
  cases (s.noted nonces request.url response).nonces key with
  | none => rfl
  | some new => rfl

/-- Without a new nonce a demand is an answer like any other. -/
theorem turn_stale (hkey : origin request.url = .ok key)
    (h : s.prepare 0 request (nonces.nonces key) target = .ok (sent, after))
    (hfresh : s.renewal nonces key request.url (s.answer 0 sent) = none) :
    ∃ call', s.turn target 0 ⟨request, nonces.nonces key, false, nonces, []⟩ =
      (call', some (settle target (s.answer 0 sent))) ∧ call'.sent = [sent] := by
  cases hdemands : s.demands (s.answer 0 sent) with
  | false => exact turn_settled h hdemands
  | true =>
    obtain ⟨response, body, hanswer, -⟩ := exists_of_demands hdemands
    rw [hanswer] at hdemands hfresh ⊢
    rw [turn_demanded hkey h hanswer hdemands]
    rw [Surroundings.renewal, if_pos hdemands] at hfresh
    dsimp only
    cases hnew : (s.noted nonces request.url response).nonces key with
    | none => exact ⟨_, rfl, rfl⟩
    | some new =>
      rw [hnew, Option.filter_some, ite_eq_right_iff] at hfresh
      have hsame : some new = nonces.nonces key := by
        by_contra hne
        cases hfresh (decide_eq_true hne)
      dsimp only
      rw [if_pos hsame]
      exact ⟨_, rfl, rfl⟩

/-- A new nonce and a body that can be sent again call for the repetition. -/
theorem turn_renewed {nonce : String} (hkey : origin request.url = .ok key)
    (h : s.prepare 0 request (nonces.nonces key) target = .ok (sent, after))
    (hfresh : s.renewal nonces key request.url (s.answer 0 sent) = some nonce) :
    ∃ noted, s.turn target 0 ⟨request, nonces.nonces key, false, nonces, []⟩ =
      if request.body.retryable then (⟨after, some nonce, true, noted, [sent]⟩, none)
      else (⟨after, some nonce, false, noted, [sent]⟩, some (.error (.nonceInStream target))) := by
  cases hanswer : s.answer 0 sent with
  | error error =>
    rw [hanswer] at hfresh
    cases hfresh
  | ok response =>
    rw [hanswer, Surroundings.renewal] at hfresh
    split at hfresh
    · rename_i hdemands
      obtain ⟨hnew, hne⟩ := Option.filter_eq_some_iff.mp hfresh
      rw [turn_demanded hkey h hanswer hdemands]
      dsimp only
      rw [hnew]
      dsimp only
      rw [if_neg (of_decide_eq_true hne)]
      cases request.body.retryable with
      | false => exact ⟨_, rfl⟩
      | true => exact ⟨_, rfl⟩
    · cases hfresh

end First

section Undisturbed

/-- No other call touches the nonces of the origin before the repetition. -/
def Surroundings.Undisturbed (s : Surroundings Key) (key : String) : Prop :=
  (∀ op ∈ s.during 0, ¬ op.Touches key) ∧ ∀ op ∈ s.between 0, ¬ op.Touches key

theorem foldl_perform {operations : List Operation} (nonces : NonceStore)
    (h : ∀ op ∈ operations, ¬ op.Touches key) :
    (operations.foldl perform nonces).nonces key = nonces.nonces key := by
  induction operations generalizing nonces with
  | nil => rfl
  | cons op operations ih =>
    obtain ⟨hop, hrest⟩ := List.forall_mem_cons.mp h
    rw [List.foldl_cons, ih _ hrest, perform_of_not_touches hop]

theorem trim_empty : String.ofList (trim "".toList) = "" := rfl

/-- An answer leaves the nonce it carries, or the one used before, or none. -/
theorem filter_remembered {nonces : NonceStore} {url : String} (hkey : origin url = .ok key) :
    ((rememberNonce nonces url (headerOf response)).nonces key).filter
        (some · ≠ nonces.nonces key) =
      (carried response).filter (some · ≠ nonces.nonces key) := by
  have hsame : (nonces.nonces key).filter (some · ≠ nonces.nonces key) = none := by
    cases h : nonces.nonces key with
    | none => rfl
    | some nonce => exact Option.filter_some_neg (by simp)
  rw [rememberNonce, carried]
  cases hheader : headerOf response "dpop-nonce" with
  | none => exact hsame
  | some nonce =>
    dsimp only
    rw [Option.bind_some]
    by_cases hempty : nonce = ""
    · rw [if_pos hempty, hempty, trim_empty, if_pos rfl]
      exact hsame
    · rw [if_neg hempty, perform_remember hkey]

/-- Undisturbed, the nonce for a repetition is the one that came with the demand. -/
theorem renewal_eq_demanded {nonces : NonceStore} {url : String} (hkey : origin url = .ok key)
    (hquiet : s.Undisturbed key) (answer : Except LibraryError Response) :
    s.renewal nonces key url answer = s.demanded (nonces.nonces key) answer := by
  cases answer with
  | error error => rfl
  | ok response =>
    have hbefore := foldl_perform nonces hquiet.1
    have hfilter := @filter_remembered _ response ((s.during 0).foldl perform nonces) _ hkey
    rw [hbefore] at hfilter
    rw [Surroundings.renewal, Surroundings.demanded, Surroundings.noted, foldl_perform _ hquiet.2, hfilter]

end Undisturbed

theorem loop_done {fuel : ℕ} {call' : Call} {result : Except NetworkError StreamResponse}
    (h : s.turn target i call = (call', some result)) :
    s.loop target (fuel + 1) i call = some (call', result) := by
  rw [Surroundings.loop, h]

theorem loop_again {fuel : ℕ} {call' : Call} (h : s.turn target i call = (call', none)) :
    s.loop target (fuel + 1) i call = s.loop target fuel (i + 1) call' := by
  rw [Surroundings.loop, h]

theorem turn_unprepared {error : NetworkError}
    (h : s.prepare i call.request call.used target = .error error) :
    s.turn target i call = (call, some (.error error)) := by
  rw [Surroundings.turn, h]

/-- The repetition is the last turn, whatever is answered. -/
theorem turn_last (hrepeated : call.repeated = true) :
    (∃ error, s.prepare i call.request call.used target = .error error ∧
      s.turn target i call = (call, some (.error error))) ∨
    ∃ sent after call', s.prepare i call.request call.used target = .ok (sent, after) ∧
      call'.sent = call.sent ++ [sent] ∧
      s.turn target i call = (call', some (if s.demands (s.answer i sent) then
        .error (.nonceLoop target) else settle target (s.answer i sent))) := by
  cases h : s.prepare i call.request call.used target with
  | error error => exact .inl ⟨error, rfl, turn_unprepared h⟩
  | ok prepared =>
    obtain ⟨sent, after⟩ := prepared
    refine .inr ⟨sent, after, ?_⟩
    cases hdemands : s.demands (s.answer i sent) with
    | false =>
      obtain ⟨call', hturn, hsent⟩ := turn_settled h hdemands
      exact ⟨call', rfl, hsent, hturn⟩
    | true =>
      obtain ⟨call', hturn, hsent⟩ := turn_repeated h hdemands hrepeated
      exact ⟨call', rfl, hsent, hturn⟩

/-- A call takes one of its courses within two turns. -/
theorem course_runFromStream {nonces : NonceStore} (hkey : origin request.url = .ok key) :
    ∃ call result, (∀ fuel, s.runFromStream (fuel + 2) nonces request = some (call, result)) ∧
      s.Course request (nonces.nonces key) (s.renewal nonces key request.url) call.sent result := by
  have hrun : ∀ fuel, s.runFromStream fuel nonces request = s.loop request.target fuel 0
      ⟨request, nonces.nonces key, false, nonces, []⟩ := fun fuel ↦ by
    rw [Surroundings.runFromStream, nonce_eq hkey]
  simp only [hrun]
  cases h : s.prepare 0 request (nonces.nonces key) request.target with
  | error error => exact ⟨_, _, fun _ ↦ loop_done (turn_unprepared h), .unprepared h⟩
  | ok prepared =>
    obtain ⟨first, after⟩ := prepared
    cases hfresh : s.renewal nonces key request.url (s.answer 0 first) with
    | none =>
      obtain ⟨call, hturn, hsent⟩ := turn_stale hkey h hfresh
      refine ⟨call, _, fun _ ↦ loop_done hturn, ?_⟩
      rw [hsent]
      exact .once h hfresh
    | some nonce =>
      obtain ⟨noted, hturn⟩ := turn_renewed hkey h hfresh
      cases hbody : request.body.retryable with
      | false =>
        rw [hbody, if_neg Bool.false_ne_true] at hturn
        exact ⟨_, _, fun _ ↦ loop_done hturn, .inStream h hfresh hbody⟩
      | true =>
        obtain rfl : after = request := (prepare_eq_ok h).2.2.2 hbody
        rw [hbody, if_pos rfl] at hturn
        obtain ⟨error, hagain, hlast⟩ | ⟨second, after', call, hagain, hsent, hlast⟩ :=
          @turn_last _ s after.target 1 ⟨after, some nonce, true, noted, [first]⟩ rfl
        · exact ⟨_, _, fun _ ↦ (loop_again hturn).trans (loop_done hlast),
            .unpreparedAgain h hfresh hbody hagain⟩
        · refine ⟨call, _, fun _ ↦ (loop_again hturn).trans (loop_done hlast), ?_⟩
          rw [hsent]
          exact .again h hfresh hbody hagain

theorem Surroundings.Course.length_le {fresh : Except LibraryError Response → Option String}
    {sent : List Sent} {result : Except NetworkError StreamResponse}
    (h : s.Course request used fresh sent result) : sent.length ≤ 2 := by
  cases h with
  | unprepared => exact Nat.zero_le _
  | once => exact Nat.le_succ _
  | inStream => exact Nat.le_succ _
  | unpreparedAgain => exact Nat.le_succ _
  | again => exact le_rfl

/-- What goes out a second time differs in its headers at most. -/
theorem Surroundings.Course.second {fresh : Except LibraryError Response → Option String}
    {result : Except NetworkError StreamResponse} {first second : Sent}
    (h : s.Course request used fresh [first, second] result) :
    second = { first with header := second.header } := by
  cases h with
  | again h _ _ hagain =>
    rw [(prepare_eq_ok h).1]
    exact (prepare_eq_ok hagain).1

/-- A request goes out at most twice. The second time it does so only after a demand, with a nonce
that is not the one used, and only if its body can be sent again; the result is that of the last
answer, or says why it was not sent again. If no other call touches the nonces of the origin
meanwhile, the new nonce is the one the demand carries. -/
theorem nonce_retry (s : Surroundings Key) (nonces : NonceStore) (request : Request) :
    ∃ call result, (∀ fuel, s.runFromStream (fuel + 2) nonces request = some (call, result)) ∧
      call.sent.length ≤ 2 ∧
      (∀ first second, call.sent = [first, second] →
        second = { first with header := second.header }) ∧
      (∀ error, origin request.url = .error error →
        call.sent = [] ∧ result = .error (.crypto (UrlError.display error))) ∧
      ∀ key, origin request.url = .ok key →
        s.Course request (nonces.nonces key) (s.renewal nonces key request.url) call.sent result ∧
        (s.Undisturbed key →
          s.Course request (nonces.nonces key) (s.demanded (nonces.nonces key)) call.sent
            result) := by
  cases hkey : origin request.url with
  | error error =>
    have hrun : ∀ fuel, s.runFromStream fuel nonces request =
        some (⟨request, none, false, nonces, []⟩, .error (.crypto (UrlError.display error))) := by
      intro fuel
      rw [Surroundings.runFromStream, NonceStore.nonce, hkey]
      rfl
    refine ⟨_, _, fun _ ↦ hrun _, Nat.zero_le _, fun _ _ h ↦ ?_, fun error' h ↦ ?_,
      fun _ h ↦ ?_⟩
    · cases h
    · rw [Except.error.inj h]
      exact ⟨rfl, rfl⟩
    · cases h
  | ok key =>
    obtain ⟨call, result, hrun, hcourse⟩ := @course_runFromStream _ s _ _ nonces hkey
    refine ⟨call, result, hrun, hcourse.length_le, fun _ _ hsent ↦ ?_, fun _ h ↦ ?_,
      fun key' h ↦ ?_⟩
    · rw [hsent] at hcourse
      exact hcourse.second
    · cases h
    · obtain rfl := Except.ok.inj h
      refine ⟨hcourse, fun hquiet ↦ ?_⟩
      rw [← funext (renewal_eq_demanded hkey hquiet)]
      exact hcourse

end Retry

end FolderClient.Net.Transport
