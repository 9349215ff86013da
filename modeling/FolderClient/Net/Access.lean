import FolderClient.Core.Namespace

namespace FolderClient.Net.Access

open FolderClient.Core.Namespace

/-- Why a call ended without a judgement of the server. -/
inductive NetworkError
  | connection (target reason : String)
  | timeout (target : String)
  | redirect (target : String) (location : Option String)
  | unreadableResponse (what reason : String)
  | requestBody (what reason : String)
  | contractBreach (reason : String)
  | contentHeader (reason : String)
  | incomplete (expected actual : ℕ)
  | sink (reason : String)
  | nonceLoop (target : String)
  | nonceInStream (target : String)
  | noKey (binding : String)
  | noToken (binding : String)
  | crypto (reason : String)
  | refreshUncertain (reason : String)
deriving DecidableEq

namespace NetworkError

def display : NetworkError → String
  | connection target reason => s!"`{target}` cannot be reached: {reason}"
  | timeout target => s!"`{target}` did not answer within the time limit"
  | redirect target location =>
    s!"`{target}` answered with a redirect" ++
      (location.map fun l ↦ s!" to `{l}`").getD "" ++ "; the client follows none"
  | unreadableResponse what reason => s!"the answer to `{what}` was not readable: {reason}"
  | requestBody what reason => s!"the body for {what} could not be written: {reason}"
  | contractBreach reason => s!"the counterpart does not keep the contract: {reason}"
  | contentHeader reason | crypto reason => reason
  | incomplete expected actual =>
    s!"the server delivered {actual} instead of {expected} bytes; the file was not taken over"
  | sink reason => s!"the loaded content could not be written: {reason}"
  | nonceLoop target =>
    s!"`{target}` demanded a new DPoP nonce even after the retry; the client repeats exactly " ++
      "once and then breaks off"
  | nonceInStream target =>
    s!"`{target}` demanded a new DPoP nonce while the body was already streaming; the call is " ++
      "to be repeated with the nonce now known"
  | noKey binding =>
    s!"without the {binding} key no call goes out; the device is not set up or nobody is signed in"
  | noToken binding =>
    s!"without the {binding} token this call does not go out; it demands a valid sign-in"
  | refreshUncertain reason =>
    s!"the renewal of the session broke off before an answer arrived ({reason}); whether the " ++
      "server has already rotated the refresh token is unknown. A second attempt with the same " ++
      "token would revoke the whole token family — please sign in anew"

/-- Whether a retry comes into question at all. -/
def mayRepeatedBecome : NetworkError → Bool
  | connection _ _ | timeout _ | nonceInStream _ => true
  | _ => false

/-- Whether the error says that the server has not acted on the request: it never went out, or
only a new nonce was demanded. -/
def withoutEffect : NetworkError → Bool
  | requestBody _ _ | noKey _ | noToken _ | crypto _ | nonceLoop _ => true
  | _ => false

end NetworkError

/-- The kinds of problem the engine tells apart. -/
inductive ErrorKind
  | deviceApprovalPending
  | sessionExpired
  | authenticationTooWeak
  | notFound
  | renditionNotAvailable
  | scopeMissing
  | folderClientNotUnlocked
  | deviceLocked
  | other (type : String)
deriving DecidableEq

/-- A refusal of the server; `text` is its detail or title, or what stands in for both. -/
structure Problem where
  status : Option ℕ
  kind : ErrorKind
  text : String
deriving DecidableEq

/-- What a call to the server comes to. -/
inductive ApiResult (α : Type)
  | success (value : α)
  | unchanged (etag : Option String)
  | slotError (problem : Problem)
  | stepUpNeeded
  | securityAbort (notice : String)
  | networkError (error : NetworkError)

namespace ApiResult

variable {α : Type}

def isExpired : ApiResult α → Bool
  | slotError problem => problem.status = some 401 || problem.kind = .sessionExpired
  | _ => false

def reason : ApiResult α → String
  | success _ => "the call went through"
  | unchanged _ => "the state is unchanged"
  | slotError problem => problem.text
  | stepUpNeeded => "step-up"
  | securityAbort notice => notice
  | networkError error => error.display

end ApiResult

/-- The tokens the server hands out. `begun` is the number of sign-outs completed when the exchange
began, `key` the session key it was signed with, and `redeemed` the refresh token it was made for;
the code knows of none of them. -/
structure TokenResponse where
  accessToken : String
  expiresIn : UInt64
  refreshToken : Option String
  idToken : Option String
  begun : ℕ
  key : ℕ
  redeemed : Option String
deriving DecidableEq

section Refreshing

/-- How the token endpoint answers an attempt that reached it. -/
inductive TokenStep
  | issued (token : TokenResponse)
  | familyRevoked (description : String)
  | securityEvent (notice : String)
  | error (problem : Problem)

/-- The renewal, from the attempt at the token endpoint on: a line that broke off leaves open
whether the server has rotated. -/
def refreshToken : Except NetworkError TokenStep → ApiResult TokenResponse
  | .ok (.issued token) => .success token
  | .ok (.familyRevoked description) => .securityAbort
    ("The refresh token has already been redeemed; the token family is revoked. That means " ++
      "somebody else has used the same token: " ++ description)
  | .ok (.securityEvent notice) => .securityAbort notice
  | .ok (.error problem) => .slotError problem
  | .error network =>
    if network.mayRepeatedBecome then .networkError (.refreshUncertain network.display)
    else .networkError network

theorem refreshToken_eq_success {attempt : Except NetworkError TokenStep} {token : TokenResponse}
    (h : refreshToken attempt = .success token) : attempt = .ok (.issued token) := by
  unfold refreshToken at h
  split at h
  · rw [ApiResult.success.inj h]
  · cases h
  · cases h
  · cases h
  · split at h <;> cases h

/-- Whether the token of an attempt may be redeemed, so that all depends on taking the answer
over. -/
def mayBeRedeemed : Except NetworkError TokenStep → Bool
  | .ok (.issued _) => true
  | .ok _ => false
  | .error network => !network.withoutEffect

/-- A failure without effect leaves nothing to be redeemed. -/
theorem mayBeRedeemed_of_withoutEffect {attempt : Except NetworkError TokenStep} {e : NetworkError}
    (h : refreshToken attempt = .networkError e) (he : e.withoutEffect = true) :
    mayBeRedeemed attempt = false := by
  cases attempt with
  | ok step => cases step <;> cases h
  | error network =>
    simp only [refreshToken] at h
    split at h
    · obtain rfl := ApiResult.networkError.inj h
      cases he
    · obtain rfl := ApiResult.networkError.inj h
      simp [mayBeRedeemed, he]

end Refreshing

section Content

/-- A row of a document listing, as far as a fetch of the content needs it. -/
structure DocumentRow where
  documentId : DocumentIdentifier
  title : String
  mediaType : String
  size : UInt64
  sha256 : Sha256Value
  version : String
  createdAt : Timestamp
  updatedAt : Timestamp

/-- The headers of an answer that carries content. -/
structure ContentHeader where
  mediaType : String
  length : UInt64
  version : String
  sha256 : Sha256Value

/-- Why the headers do not describe what the listing announced. -/
def ContentHeader.checkAgainst (header : ContentHeader) (row : DocumentRow) : Option String :=
  if header.version ≠ row.version then some "the version"
  else if header.sha256 ≠ row.sha256 then some "the checksum"
  else if header.length ≠ row.size then some "the size"
  else none

/-- A version that can stand in an ETag. -/
def versionUsable (version : String) : Bool :=
  !version.toList.isEmpty &&
    version.toList.all fun c ↦ c = '!' || ('#'.toNat ≤ c.toNat && c.toNat ≤ '~'.toNat)

/-- An answer with content: its headers, and the chunks until it ends or breaks off. -/
structure Stream where
  header : Except String ContentHeader
  chunks : List (List UInt8)
  broken : Option String

structure ContentReport where
  header : ContentHeader
  bytes : ℕ

end Content

end FolderClient.Net.Access
