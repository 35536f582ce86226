import Swifties.Base64
import Swifties.ConfigQueries
import Swifties.Http
import Swifties.Machine

/-!
# Sessions

The callbacks of `session`.  What lies outside them is given: what the request
parser makes of the bytes in the buffer, which handler the dispatcher finds for
a target, and, with each completed read, the clock readings and what the
handlers do to the response at that moment.  Clock readings are nanoseconds.
-/

namespace Swifties

/-- The outcomes of `parser.put` on all bytes of the buffer. -/
inductive PutResult where
  | error (message : Text)
  | incomplete
  | done (request : Request)
  | throws
deriving DecidableEq, Repr

structure Services (H : Type) where
  put : Text → PutResult
  getRequestHandler : Text → Option H

structure Session where
  buffer : Text
  credentials : Credentials
  response : Response
  lastAuthTime : ℤ
  authTime : Int16

/-- A completed read: its error or its bytes, the readings of the clock in
`is_session_expired` and `authenticate`, and the behaviour of the handlers. -/
structure ReadCompletion (H : Type) where
  error : Option Text
  bytes : Text
  now : ℤ
  authNow : ℤ
  handleRequest : H → Request → Response → Response

inductive Exit (H : Type) where
  | readError
  | badRequest
  | exception
  | incomplete
  | expired (request : Request)
  | unauthorized (request : Request)
  | notFound (request : Request)
  | handled (handler : H) (request : Request)
deriving DecidableEq

def Exit.request? {H : Type} : Exit H → Option Request
  | .expired request | .unauthorized request | .notFound request
  | .handled _ request => some request
  | _ => none

inductive Operation where
  | asyncRead
  | asyncWrite (response : Response)
  | shutdown

namespace Session

def nanosecondsPerSecond : ℤ := 1000000000

def make (credentials : Credentials) (authTime : Int16) (now : ℤ) : Session where
  buffer := []
  credentials := credentials
  response := .make .ok 11
  lastAuthTime := now
  authTime := authTime

def elapsed (session : Session) (now : ℤ) : ℤ :=
  (now - session.lastAuthTime).tdiv nanosecondsPerSecond

/-- `is_session_expired`, with the session afterwards and the read it starts. -/
def isSessionExpired (session : Session) (now : ℤ) :
    Bool × Session × List Operation :=
  if session.elapsed now > session.authTime.toInt then
    (true, { session with lastAuthTime := now }, [.asyncRead])
  else (false, session, [])

def accepts (credentials : Credentials) (username password : Text) : Bool :=
  credentials[username]? == some password

/-- `authenticate`, up to the update of the clock. -/
def validHeader (credentials : Credentials) (authHeader : Text) : Bool :=
  if authHeader.take 6 = "Basic ".toList then
    let decoded := Base64.decode (authHeader.drop 6)
    match decoded.find ':' with
    | none => false
    | some i => accepts credentials (decoded.take i) (decoded.drop (i + 1))
  else false

def authenticate (session : Session) (authHeader : Text) (now : ℤ) :
    Bool × Session :=
  if validHeader session.credentials authHeader then
    (true, { session with lastAuthTime := now })
  else (false, session)

def write (session : Session) (response : Response) :
    Session × List Operation :=
  ({ session with response := response }, [.asyncWrite response])

def unauthorizedResponse : Response :=
  ((((Response.make .unauthorized 11).set .server "Beast".toList).set
    .contentType "text/html".toList).set .wwwAuthenticate
      "Basic realm=\"User Visible Realm\"".toList).reply .unauthorized
        "Unauthorized".toList

def sendUnauthorizedResponse (session : Session) :
    Session × List Operation :=
  session.write unauthorizedResponse

/-- What a callback leaves: the session, its exit, the operations it started
and its return value, if it reached a return statement. -/
structure Outcome (H : Type) where
  session : Session
  exit : Exit H
  operations : List Operation
  returned : Option ℤ

def Outcome.of {H : Type} (result : Session × List Operation) (exit : Exit H)
    (returned : Option ℤ) : Outcome H :=
  ⟨result.1, exit, result.2, returned⟩

variable {H : Type}

def authorizationField : Text := "Authorization".toList

/-- The callback once a whole request has been parsed and the session is not
expired. -/
def serveRequest (services : Services H) (session : Session)
    (completion : ReadCompletion H) (request : Request) : Outcome H :=
  match request.find authorizationField with
  | none => .of session.sendUnauthorizedResponse (.unauthorized request) (some 1)
  | some authHeader =>
      let authenticated := session.authenticate authHeader completion.authNow
      if authenticated.1 then
        match services.getRequestHandler request.target with
        | none =>
            .of (authenticated.2.write
              ((Response.make .notFound 11).reply .notFound "Not Found".toList))
              (.notFound request) (some 0)
        | some handler =>
            .of (authenticated.2.write
              (completion.handleRequest handler request
                authenticated.2.response))
              (.handled handler request) (some 0)
      else
        .of authenticated.2.sendUnauthorizedResponse (.unauthorized request)
          (some 1)

def requestParsed (services : Services H) (session : Session)
    (completion : ReadCompletion H) (request : Request) : Outcome H :=
  let (expired, session, operations) :=
    session.isSessionExpired completion.now
  if expired then
    let answered := session.sendUnauthorizedResponse
    .of (answered.1, operations ++ answered.2) (.expired request) (some 1)
  else session.serveRequest services completion request

def handleReadCallback (services : Services H) (session : Session)
    (completion : ReadCompletion H) : Outcome H :=
  match completion.error with
  | some _ => .of (session, []) .readError (some 1)
  | none =>
      let session :=
        { session with buffer := session.buffer ++ completion.bytes }
      match services.put session.buffer with
      | .error _ =>
          .of (session.write ((Response.make .badRequest 11).reply .badRequest
            "Bad request".toList)) .badRequest (some 1)
      | .incomplete => .of (session, [.asyncRead]) .incomplete none
      | .throws =>
          .of (session.write ((Response.make .internalServerError 11).reply
            .internalServerError "Internal Server Error".toList)) .exception
            (some 1)
      | .done request => session.requestParsed services completion request

def handleWriteCallback (error : Option Text) : List Operation × ℤ :=
  match error with
  | none => ([.shutdown], 1)
  | some _ => ([], 0)

/-! ## The exits of the read callback -/

def Fresh (session : Session) (completion : ReadCompletion H) : Prop :=
  session.elapsed completion.now ≤ session.authTime.toInt

/-- The read completes the request, which is then the first on the
connection. -/
def Completes (services : Services H) (session : Session)
    (completion : ReadCompletion H) (request : Request) : Prop :=
  completion.error = none ∧
    services.put (session.buffer ++ completion.bytes) = .done request

def HasCredentials (credentials : Credentials) (request : Request) : Prop :=
  ∃ authHeader, request.find authorizationField = some authHeader ∧
    validHeader credentials authHeader = true

variable {services : Services H} {session : Session}
  {completion : ReadCompletion H} {request : Request} {handler : H}

structure SameClient (session next : Session) : Prop where
  buffer_eq : next.buffer = session.buffer
  credentials_eq : next.credentials = session.credentials
  authTime_eq : next.authTime = session.authTime

theorem serveRequest_sameClient (services : Services H) (session : Session)
    (completion : ReadCompletion H) (request : Request) :
    SameClient session
      (serveRequest services session completion request).session := by
  unfold serveRequest
  split
  next => exact ⟨rfl, rfl, rfl⟩
  next authHeader _ =>
    by_cases hvalid : validHeader session.credentials authHeader = true
    · simp only [authenticate, hvalid, if_true]
      cases services.getRequestHandler request.target <;>
        exact ⟨rfl, rfl, rfl⟩
    · simp only [authenticate, hvalid]
      exact ⟨rfl, rfl, rfl⟩

theorem serveRequest_operations (services : Services H) (session : Session)
    (completion : ReadCompletion H) (request : Request) :
    ∃ response, (serveRequest services session completion request).operations =
      [.asyncWrite response] := by
  unfold serveRequest
  split
  next => exact ⟨_, rfl⟩
  next authHeader _ =>
    by_cases hvalid : validHeader session.credentials authHeader = true
    · simp only [authenticate, hvalid, if_true]
      cases services.getRequestHandler request.target <;> exact ⟨_, rfl⟩
    · simp only [authenticate, hvalid]
      exact ⟨_, rfl⟩

theorem serveRequest_exit (services : Services H) (session : Session)
    (completion : ReadCompletion H) (request : Request) :
    (serveRequest services session completion request).exit =
      open Classical in
      if HasCredentials session.credentials request then
        match services.getRequestHandler request.target with
        | none => .notFound request
        | some handler => .handled handler request
      else .unauthorized request := by
  split
  next hvalid =>
    obtain ⟨authHeader, hheader, hvalid⟩ := hvalid
    simp only [serveRequest, hheader, authenticate, hvalid, if_true]
    cases services.getRequestHandler request.target <;> rfl
  next hnot =>
    unfold serveRequest
    split
    next => rfl
    next authHeader hheader =>
      have hinvalid : ¬ validHeader session.credentials authHeader = true :=
        fun hvalid => hnot ⟨authHeader, hheader, hvalid⟩
      simp [authenticate, hinvalid, Outcome.of]

theorem handleReadCallback_completes
    (hcompletes : Completes services session completion request) :
    session.handleReadCallback services completion =
      requestParsed services
        { session with buffer := session.buffer ++ completion.bytes }
        completion request := by
  simp only [handleReadCallback, hcompletes.1, hcompletes.2]

theorem requestParsed_fresh (hfresh : session.Fresh completion) :
    session.requestParsed services completion request =
      session.serveRequest services completion request := by
  have hnot : ¬ session.elapsed completion.now > session.authTime.toInt :=
    not_lt.mpr hfresh
  simp only [requestParsed, isSessionExpired, hnot, if_false]
  rfl

theorem requestParsed_expired (hfresh : ¬ session.Fresh completion) :
    session.requestParsed services completion request =
      .of ({ session with
          lastAuthTime := completion.now, response := unauthorizedResponse },
        [.asyncRead, .asyncWrite unauthorizedResponse])
        (.expired request) (some 1) := by
  have hexpired : session.elapsed completion.now > session.authTime.toInt :=
    not_le.mp hfresh
  simp only [requestParsed, isSessionExpired, hexpired, if_true]
  rfl

/-- The read that a callback starts, and all that the callback changes, for
each kind of exit. -/
inductive ReadCase (services : Services H) (session : Session)
    (completion : ReadCompletion H) : Outcome H → Prop
  | readError {outcome : Outcome H} : completion.error ≠ none →
      outcome.session = session → outcome.exit = .readError →
      outcome.operations = [] → ReadCase services session completion outcome
  | answered {outcome : Outcome H} {response : Response} :
      completion.error = none →
      (∀ request, ¬ Completes services session completion request) →
      outcome.exit = .badRequest ∨ outcome.exit = .exception →
      outcome.operations = [.asyncWrite response] →
      outcome.session =
        { session with
          buffer := session.buffer ++ completion.bytes, response := response } →
      ReadCase services session completion outcome
  | incomplete {outcome : Outcome H} : completion.error = none →
      (∀ request, ¬ Completes services session completion request) →
      outcome.exit = .incomplete → outcome.operations = [.asyncRead] →
      outcome.session =
        { session with buffer := session.buffer ++ completion.bytes } →
      ReadCase services session completion outcome
  | expired {outcome : Outcome H} {request : Request} :
      Completes services session completion request →
      ¬ session.Fresh completion → outcome.exit = .expired request →
      outcome.operations = [.asyncRead, .asyncWrite unauthorizedResponse] →
      outcome.session =
        { session with
          buffer := session.buffer ++ completion.bytes
          lastAuthTime := completion.now, response := unauthorizedResponse } →
      ReadCase services session completion outcome
  | served {outcome : Outcome H} {request : Request} :
      Completes services session completion request →
      session.Fresh completion →
      outcome = serveRequest services
        { session with buffer := session.buffer ++ completion.bytes }
        completion request →
      ReadCase services session completion outcome

theorem handleReadCallback_cases (services : Services H) (session : Session)
    (completion : ReadCompletion H) :
    ReadCase services session completion
      (session.handleReadCallback services completion) := by
  cases herror : completion.error with
  | some message =>
      simp only [handleReadCallback, herror]
      exact .readError (by simp [herror]) rfl rfl rfl
  | none =>
      cases hput : services.put (session.buffer ++ completion.bytes) with
      | error message =>
          simp only [handleReadCallback, herror, hput]
          exact .answered herror (by simp [Completes, hput]) (.inl rfl) rfl rfl
      | incomplete =>
          simp only [handleReadCallback, herror, hput]
          exact .incomplete herror (by simp [Completes, hput]) rfl rfl rfl
      | throws =>
          simp only [handleReadCallback, herror, hput]
          exact .answered herror (by simp [Completes, hput]) (.inr rfl) rfl rfl
      | done request =>
          have hcompletes : Completes services session completion request :=
            ⟨herror, hput⟩
          rw [handleReadCallback_completes hcompletes]
          let read :=
            { session with buffer := session.buffer ++ completion.bytes }
          by_cases hfresh : session.Fresh completion
          · have hread : read.Fresh completion := hfresh
            exact .served hcompletes hfresh (requestParsed_fresh hread)
          · have hread : ¬ read.Fresh completion := hfresh
            rw [requestParsed_expired hread]
            exact .expired hcompletes hfresh rfl rfl rfl

theorem exit_of_completes
    (hcompletes : Completes services session completion request) :
    (session.handleReadCallback services completion).exit =
      open Classical in
      if session.Fresh completion then
        if HasCredentials session.credentials request then
          match services.getRequestHandler request.target with
          | none => .notFound request
          | some handler => .handled handler request
        else .unauthorized request
      else .expired request := by
  let read := { session with buffer := session.buffer ++ completion.bytes }
  rw [handleReadCallback_completes hcompletes]
  split
  next hfresh =>
    have hread : read.Fresh completion := hfresh
    rw [requestParsed_fresh hread, serveRequest_exit]
  next hfresh =>
    have hread : ¬ read.Fresh completion := hfresh
    rw [requestParsed_expired hread]
    rfl

theorem completes_of_exit
    (hrequest : (session.handleReadCallback services completion).exit.request? =
      some request) : Completes services session completion request := by
  cases handleReadCallback_cases services session completion with
  | readError _ _ hexit => simp [hexit, Exit.request?] at hrequest
  | answered _ _ hexit =>
      rcases hexit with hexit | hexit <;>
        simp [hexit, Exit.request?] at hrequest
  | incomplete _ _ hexit => simp [hexit, Exit.request?] at hrequest
  | expired hcompletes _ hexit =>
      rw [hexit] at hrequest
      cases hrequest
      exact hcompletes
  | served hcompletes _ hserved =>
      rw [hserved, serveRequest_exit] at hrequest
      split at hrequest
      next => split at hrequest <;> cases hrequest <;> exact hcompletes
      next => cases hrequest; exact hcompletes

theorem exit_handled_iff :
    (session.handleReadCallback services completion).exit =
        .handled handler request ↔
      Completes services session completion request ∧
        session.Fresh completion ∧
        HasCredentials session.credentials request ∧
        services.getRequestHandler request.target = some handler := by
  constructor
  · intro hexit
    have hcompletes := completes_of_exit (by rw [hexit]; rfl)
    rw [exit_of_completes hcompletes] at hexit
    split_ifs at hexit with hfresh hvalid
    split at hexit
    next => cases hexit
    next hhandler =>
      cases hexit
      exact ⟨hcompletes, hfresh, hvalid, hhandler⟩
  · rintro ⟨hcompletes, hfresh, hvalid, hhandler⟩
    rw [exit_of_completes hcompletes, if_pos hfresh, if_pos hvalid, hhandler]

theorem exit_expired_iff :
    (session.handleReadCallback services completion).exit =
        .expired request ↔
      Completes services session completion request ∧
        ¬ session.Fresh completion := by
  constructor
  · intro hexit
    have hcompletes := completes_of_exit (by rw [hexit]; rfl)
    refine ⟨hcompletes, fun hfresh => ?_⟩
    rw [exit_of_completes hcompletes, if_pos hfresh] at hexit
    split_ifs at hexit
    split at hexit <;> cases hexit
  · rintro ⟨hcompletes, hfresh⟩
    rw [exit_of_completes hcompletes, if_neg hfresh]

end Session

end Swifties
