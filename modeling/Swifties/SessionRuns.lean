import Swifties.Session

/-!
# Runs of a session

A connection is a session with the reads and writes it has started and that
have not completed.  Its run is any sequence of completions; the completions
that can happen are those of operations under way.
-/

namespace Swifties

inductive SessionEvent (H : Type) where
  | read (completion : ReadCompletion H)
  | written (error : Option Text)

structure Connection where
  session : Session
  reads : ℕ
  writes : ℕ

/-- One callback of a run: the session before it, what completed, and for a
read the exit of the callback. -/
structure Callback (H : Type) where
  before : Session
  event : SessionEvent H
  exit : Option (Exit H)
  operations : List Operation

namespace Connection

variable {H : Type}

def isRead : Operation → Bool
  | .asyncRead => true
  | _ => false

def isWrite : Operation → Bool
  | .asyncWrite _ => true
  | _ => false

def start (session : Session) : Connection := ⟨session, 1, 0⟩

def step (services : Services H) (connection : Connection)
    (event : SessionEvent H) : Callback H × Connection :=
  match event with
  | .read completion =>
      let outcome := connection.session.handleReadCallback services completion
      (⟨connection.session, event, some outcome.exit, outcome.operations⟩,
        ⟨outcome.session,
          connection.reads - 1 + outcome.operations.countP isRead,
          connection.writes + outcome.operations.countP isWrite⟩)
  | .written error =>
      (⟨connection.session, event, none,
          (Session.handleWriteCallback error).1⟩,
        { connection with writes := connection.writes - 1 })

def Enabled (connection : Connection) : SessionEvent H → Prop
  | .read _ => 0 < connection.reads
  | .written _ => 0 < connection.writes

def trace (services : Services H) (session : Session)
    (events : List (SessionEvent H)) : List (Callback H) :=
  Machine.outputs (step services) (start session) events

def after (services : Services H) (session : Session)
    (events : List (SessionEvent H)) : Connection :=
  Machine.final (step services) (start session) events

/-! ## Only authorized requests are handled -/

theorem step_client (services : Services H) (connection : Connection)
    (event : SessionEvent H) :
    (step services connection event).2.session.credentials =
        connection.session.credentials ∧
      (step services connection event).2.session.authTime =
        connection.session.authTime := by
  cases event with
  | written error => exact ⟨rfl, rfl⟩
  | read completion =>
      change (connection.session.handleReadCallback services
          completion).session.credentials = _ ∧
        (connection.session.handleReadCallback services
          completion).session.authTime = _
      cases connection.session.handleReadCallback_cases services completion with
      | readError _ hsession => rw [hsession]; exact ⟨rfl, rfl⟩
      | answered _ _ _ _ hsession => rw [hsession]; exact ⟨rfl, rfl⟩
      | incomplete _ _ _ _ hsession => rw [hsession]; exact ⟨rfl, rfl⟩
      | expired _ _ _ _ hsession => rw [hsession]; exact ⟨rfl, rfl⟩
      | served _ _ hserved =>
          rw [hserved]
          obtain ⟨_, hcredentials, hauthTime⟩ :=
            Session.serveRequest_sameClient services _ completion _
          exact ⟨hcredentials, hauthTime⟩

theorem after_client (services : Services H) (session : Session)
    (events : List (SessionEvent H)) :
    (after services session events).session.credentials =
        session.credentials ∧
      (after services session events).session.authTime =
        session.authTime := by
  let client : Connection → Prop := fun connection =>
    connection.session.credentials = session.credentials ∧
      connection.session.authTime = session.authTime
  have hstep : ∀ connection (event : SessionEvent H), client connection →
      client (step services connection event).2 := by
    rintro connection event ⟨hcredentials, hauthTime⟩
    obtain ⟨hcredentials', hauthTime'⟩ := step_client services connection event
    exact ⟨hcredentials'.trans hcredentials, hauthTime'.trans hauthTime⟩
  exact Machine.final_invariant hstep ⟨rfl, rfl⟩ events

end Connection

/-- A header that begins with `Basic ` and decodes to a user name without a
colon, a colon and the password of that user. -/
theorem Session.hasCredentials_iff {credentials : Credentials}
    {request : Request} :
    HasCredentials credentials request ↔
      ∃ encoded username password,
        request.find authorizationField = some ("Basic ".toList ++ encoded) ∧
          Base64.decode encoded = username ++ ':' :: password ∧
          ':' ∉ username ∧ credentials[username]? = some password := by
  constructor
  · rintro ⟨authHeader, hheader, hvalid⟩
    unfold validHeader at hvalid
    split at hvalid
    next hbasic =>
      simp only at hvalid
      split at hvalid
      next => cases hvalid
      next i hfind =>
        obtain ⟨hsplit, hcolon⟩ := Text.find_eq_some hfind
        rw [accepts, beq_iff_eq] at hvalid
        refine ⟨authHeader.drop 6, _, _, ?_, hsplit, hcolon, hvalid⟩
        rw [← hbasic, List.take_append_drop, hheader]
    next => cases hvalid
  · rintro ⟨encoded, username, password, hheader, hdecode, hcolon, haccepts⟩
    refine ⟨_, hheader, ?_⟩
    have hbasic : ("Basic ".toList ++ encoded).take 6 = "Basic ".toList :=
      List.take_left' rfl
    have hencoded : ("Basic ".toList ++ encoded).drop 6 = encoded :=
      List.drop_left' rfl
    simp only [validHeader, hbasic, hencoded, hdecode, if_true,
      Text.find_append_cons hcolon]
    simp [accepts, haccepts]

namespace Connection

variable {H : Type}

/-- Whatever completes and whenever, a handler is only called on a request that
the same callback found not expired and with valid credentials. -/
theorem handled_authorized (services : Services H) (session : Session)
    (events : List (SessionEvent H)) (callback : Callback H)
    (hmem : callback ∈ trace services session events) (handler : H)
    (request : Request)
    (hexit : callback.exit = some (.handled handler request)) :
    ∃ completion encoded username password,
      callback.event = .read completion ∧ completion.error = none ∧
      services.put (callback.before.buffer ++ completion.bytes) =
        .done request ∧
      (completion.now - callback.before.lastAuthTime).tdiv 1000000000 ≤
        session.authTime.toInt ∧
      request.find "Authorization".toList =
        some ("Basic ".toList ++ encoded) ∧
      Base64.decode encoded = username ++ ':' :: password ∧
      ':' ∉ username ∧ session.credentials[username]? = some password := by
  obtain ⟨before, event, rest, rfl, rfl⟩ := Machine.mem_outputs_iff.mp hmem
  obtain ⟨hcredentials, hauthTime⟩ := after_client services session before
  cases event with
  | written error => cases hexit
  | read completion =>
      obtain ⟨⟨herror, hput⟩, hfresh, hvalid, _⟩ :=
        Session.exit_handled_iff.mp (Option.some.inj hexit)
      obtain ⟨encoded, username, password, hheader, hdecode, hcolon,
        haccepts⟩ := Session.hasCredentials_iff.mp hvalid
      rw [after] at hcredentials hauthTime
      rw [hcredentials] at haccepts
      rw [Session.Fresh, hauthTime] at hfresh
      exact ⟨completion, encoded, username, password, rfl, herror, hput,
        hfresh, hheader, hdecode, hcolon, haccepts⟩

/-! ### One request of a registered user -/

def tariqBytes : Text :=
  "GET / HTTP/1.1\r\nAuthorization: Basic dGFyaXE6MTIz\r\n\r\n".toList

def tariqRequest : Request where
  methodString := "GET".toList
  target := ['/']
  version := 11
  fields := [("Authorization".toList, "Basic dGFyaXE6MTIz".toList)]
  body := []

/-- A parser that reports an error until the header is complete. -/
def tariqServices : Services Unit where
  put := fun bytes =>
    if tariqBytes <+: bytes then .done tariqRequest
    else .error "need more".toList
  getRequestHandler := fun _ => some ()

def tariqSession : Session :=
  .make (Std.TreeMap.insert ∅ "tariq".toList "123".toList) 10 0

/-- A read of these bytes, the given number of seconds after the session was
constructed. -/
def tariqRead (bytes : Text) (seconds : ℤ) : SessionEvent Unit :=
  .read ⟨none, bytes, seconds * 1000000000, seconds * 1000000000,
    fun _ _ response => response⟩

theorem handled_authorized_tariq :
    ∃ callback ∈ trace tariqServices tariqSession [tariqRead tariqBytes 5],
      ∃ completion encoded username password,
        callback.event = .read completion ∧ completion.error = none ∧
        tariqServices.put (callback.before.buffer ++ completion.bytes) =
          .done tariqRequest ∧
        (completion.now - callback.before.lastAuthTime).tdiv 1000000000 ≤
          tariqSession.authTime.toInt ∧
        tariqRequest.find "Authorization".toList =
          some ("Basic ".toList ++ encoded) ∧
        Base64.decode encoded = username ++ ':' :: password ∧
        ':' ∉ username ∧
        tariqSession.credentials[username]? = some password := by
  let callback :=
    (step tariqServices (start tariqSession) (tariqRead tariqBytes 5)).1
  have hmem : callback ∈
      trace tariqServices tariqSession [tariqRead tariqBytes 5] :=
    List.mem_cons_self
  have hexit : callback.exit = some (.handled () tariqRequest) := by
    decide +kernel
  exact ⟨callback, hmem, handled_authorized tariqServices tariqSession _
    callback hmem () tariqRequest hexit⟩

end Connection

end Swifties
