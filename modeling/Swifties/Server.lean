import Swifties.SessionRuns

/-!
# The accepting server

`start_accept` constructs the next session and waits for a client;
`handle_accept` starts that session and constructs the one after it.  The clock
of a session therefore runs from the end of the previous accept.
-/

namespace Swifties

/-- The server between two accepts, with the session that waits for a client. -/
structure Server where
  credentials : Credentials
  authTime : Int16
  newSession : Session

structure AcceptCompletion where
  error : Option Text
  now : ℤ

namespace Server

def startAccept (credentials : Credentials) (authTime : Int16) (now : ℤ) :
    Server where
  credentials := credentials
  authTime := authTime
  newSession := .make credentials authTime now

def handleAccept (server : Server) (accept : AcceptCompletion) :
    Option Session × Server :=
  (if accept.error = none then some server.newSession else none,
    startAccept server.credentials server.authTime accept.now)

/-- The time at which the waiting session was constructed: the end of the last
accept, with or without an error, or the start of the server. -/
def constructionTime : ℤ → List AcceptCompletion → ℤ
  | start, [] => start
  | _, accept :: accepts => constructionTime accept.now accepts

theorem final_newSession (credentials : Credentials) (authTime : Int16)
    (start : ℤ) (accepts : List AcceptCompletion) :
    (Machine.final handleAccept (startAccept credentials authTime start)
      accepts).newSession =
        .make credentials authTime (constructionTime start accepts) := by
  induction accepts generalizing start with
  | nil => rfl
  | cons accept accepts ih => exact ih accept.now

end Server

namespace Connection

variable {H : Type} {services : Services H}

theorem final_lastAuthTime {connection : Connection}
    {events : List (SessionEvent H)}
    (hwaiting : ∀ callback ∈ Machine.outputs (step services) connection events,
      ∀ exit, callback.exit = some exit → exit = .incomplete) :
    (Machine.final (step services) connection events).session.lastAuthTime =
      connection.session.lastAuthTime := by
  induction events generalizing connection with
  | nil => rfl
  | cons event events ih =>
      have hstep : (step services connection event).2.session.lastAuthTime =
          connection.session.lastAuthTime := by
        cases event with
        | written error => rfl
        | read completion =>
            have hexit : (connection.session.handleReadCallback services
                completion).exit = .incomplete :=
              hwaiting _ List.mem_cons_self _ rfl
            change (connection.session.handleReadCallback services
              completion).session.lastAuthTime = _
            cases connection.session.handleReadCallback_cases services
                completion with
            | readError _ hsession => rw [hsession]
            | answered _ _ _ _ hsession => rw [hsession]
            | incomplete _ _ _ _ hsession => rw [hsession]
            | expired _ _ hother =>
                rw [hexit] at hother
                cases hother
            | served _ _ hserved =>
                rw [hserved, Session.serveRequest_exit] at hexit
                split at hexit
                next => split at hexit <;> cases hexit
                next => cases hexit
      rw [Machine.final, ← hstep]
      exact ih fun callback hmem =>
        hwaiting callback (List.mem_cons_of_mem _ hmem)

end Connection

namespace Server

variable {H : Type}

/-- The first complete request of an accepted connection, with valid
credentials, gets past the expiry check and is not refused exactly when it
completes within the authorization time of the construction of its session,
whenever the connection was accepted. -/
theorem first_request_served_iff {services : Services H}
    {credentials : Credentials} {authTime : Int16} {start : ℤ}
    {accepts : List AcceptCompletion} {accept : AcceptCompletion}
    {session : Session} {events : List (SessionEvent H)}
    {completion : ReadCompletion H} {request : Request}
    (haccepted : (handleAccept (Machine.final handleAccept
      (startAccept credentials authTime start) accepts) accept).1 =
        some session)
    (hwaiting : ∀ callback ∈ Connection.trace services session events,
      ∀ exit, callback.exit = some exit → exit = .incomplete)
    (hcompletes : Session.Completes services
      (Connection.after services session events).session completion request)
    (hvalid : Session.HasCredentials credentials request) :
    let exit := ((Connection.after services session
      events).session.handleReadCallback services completion).exit
    (exit ≠ .expired request ∧ exit ≠ .unauthorized request) ↔
      (completion.now - constructionTime start accepts).tdiv 1000000000 ≤
        authTime.toInt := by
  have hsession : session =
      .make credentials authTime (constructionTime start accepts) := by
    rw [handleAccept, final_newSession] at haccepted
    split at haccepted
    next => exact (Option.some.inj haccepted).symm
    next => cases haccepted
  obtain ⟨hcredentials, hauthTime⟩ :=
    Connection.after_client services session events
  have hclock := Connection.final_lastAuthTime hwaiting
  rw [← Connection.after] at hclock
  have hfresh : (Connection.after services session
      events).session.Fresh completion ↔
        (completion.now - constructionTime start accepts).tdiv 1000000000 ≤
          authTime.toInt := by
    rw [Session.Fresh, Session.elapsed, hclock, hauthTime, hsession]
    rfl
  rw [← hfresh]
  constructor
  · rintro ⟨hexpired, _⟩
    by_contra hstale
    exact hexpired (Session.exit_expired_iff.mpr ⟨hcompletes, hstale⟩)
  · intro hfresh
    have hread : Session.HasCredentials
        (Connection.after services session events).session.credentials
        request := by
      rw [hcredentials, hsession]
      exact hvalid
    rw [Session.exit_of_completes hcompletes, if_pos hfresh, if_pos hread]
    split <;> simp

theorem tariqRequest_hasCredentials :
    Session.HasCredentials Connection.tariqSession.credentials
      Connection.tariqRequest :=
  ⟨"Basic dGFyaXE6MTIz".toList, by decide +kernel, by decide +kernel⟩

theorem first_request_served_iff_tariq :
    let completion : ReadCompletion Unit :=
      ⟨none, Connection.tariqBytes, 5000000000, 5000000000,
        fun _ _ response => response⟩
    let exit := (Connection.tariqSession.handleReadCallback
      Connection.tariqServices completion).exit
    (exit ≠ .expired Connection.tariqRequest ∧
        exit ≠ .unauthorized Connection.tariqRequest) ↔
      (completion.now - constructionTime 0 []).tdiv 1000000000 ≤
        (10 : Int16).toInt := by
  intro completion exit
  have haccepted : (handleAccept (Machine.final handleAccept
      (startAccept Connection.tariqSession.credentials 10 0) [])
        ⟨none, 3000000000⟩).1 = some Connection.tariqSession := rfl
  have hwaiting : ∀ callback ∈ Connection.trace Connection.tariqServices
      Connection.tariqSession [], ∀ exit, callback.exit = some exit →
        exit = .incomplete := by
    intro callback hmem
    cases hmem
  have hcompletes : Session.Completes Connection.tariqServices
      Connection.tariqSession completion Connection.tariqRequest :=
    ⟨rfl, by decide +kernel⟩
  exact first_request_served_iff haccepted hwaiting hcompletes
    tariqRequest_hasCredentials

theorem not_first_request_served_idle :
    ¬ ∀ (services : Services Unit) (credentials : Credentials)
        (authTime : Int16) (start : ℤ) (accepts : List AcceptCompletion)
        (accept : AcceptCompletion) (session : Session)
        (events : List (SessionEvent Unit)) (completion : ReadCompletion Unit)
        (request : Request),
      (handleAccept (Machine.final handleAccept
        (startAccept credentials authTime start) accepts) accept).1 =
          some session →
      (∀ callback ∈ Connection.trace services session events,
        ∀ exit, callback.exit = some exit → exit = .incomplete) →
      Session.Completes services
        (Connection.after services session events).session completion
        request →
      Session.HasCredentials credentials request →
      completion.now - accept.now ≤ authTime.toInt * 1000000000 →
      ((Connection.after services session events).session.handleReadCallback
        services completion).exit ≠ .expired request := by
  intro hclaim
  let completion : ReadCompletion Unit :=
    ⟨none, Connection.tariqBytes, 101000000000, 101000000000,
      fun _ _ response => response⟩
  have hcompletes : Session.Completes Connection.tariqServices
      Connection.tariqSession completion Connection.tariqRequest :=
    ⟨rfl, by decide +kernel⟩
  have hexpired := hclaim Connection.tariqServices
    Connection.tariqSession.credentials 10 0 [] ⟨none, 100000000000⟩
    Connection.tariqSession [] completion Connection.tariqRequest rfl
    (fun callback hmem => by cases hmem) hcompletes
    tariqRequest_hasCredentials (by decide)
  exact hexpired (by decide +kernel)

end Server

end Swifties
