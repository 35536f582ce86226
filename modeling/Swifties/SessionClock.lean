import Swifties.SessionReplay

/-!
# The clock of a session

The authorization time counts from the construction of the session, from the
last request with valid credentials, or from the last time it had run out.  With
the bytes received so far this decides every callback.
-/

namespace Swifties

/-- The time that a callback sets the clock of the session to, if it does. -/
def Callback.clock? {H : Type} (callback : Callback H) : Option ℤ :=
  match callback.event, callback.exit with
  | .read completion, some (.expired _) => some completion.now
  | .read completion, some (.notFound _) => some completion.authNow
  | .read completion, some (.handled _ _) => some completion.authNow
  | _, _ => none

namespace Session

variable {H : Type}

/-- What the clock reads at the end of a callback. -/
def Clocks (session : Session) (completion : ReadCompletion H)
    (outcome : Outcome H) : Prop :=
  outcome.session.lastAuthTime =
    match outcome.exit with
    | .expired _ => completion.now
    | .notFound _ | .handled _ _ => completion.authNow
    | _ => session.lastAuthTime

theorem serveRequest_clocks (services : Services H) (session : Session)
    (completion : ReadCompletion H) (request : Request) :
    Clocks session completion
      (session.serveRequest services completion request) := by
  unfold serveRequest authenticate
  cases request.find authorizationField with
  | none => rfl
  | some authHeader =>
      simp only
      cases validHeader session.credentials authHeader with
      | false => rfl
      | true =>
          simp only [if_true]
          cases services.getRequestHandler request.target <;> rfl

theorem requestParsed_clocks (services : Services H) (session : Session)
    (completion : ReadCompletion H) (request : Request) :
    Clocks session completion
      (session.requestParsed services completion request) := by
  by_cases hfresh : session.Fresh completion
  · rw [requestParsed_fresh hfresh]
    exact serveRequest_clocks services session completion request
  · rw [requestParsed_expired hfresh]
    rfl

theorem handleReadCallback_clocks (services : Services H) (session : Session)
    (completion : ReadCompletion H) :
    Clocks session completion
      (session.handleReadCallback services completion) := by
  unfold handleReadCallback
  cases completion.error with
  | some message => rfl
  | none =>
      simp only
      cases services.put (session.buffer ++ completion.bytes) with
      | error | incomplete | throws => rfl
      | done request => exact requestParsed_clocks services _ completion request

variable {services : Services H} {session : Session}
  {completion : ReadCompletion H} {request : Request}

theorem exit_unauthorized_iff :
    (session.handleReadCallback services completion).exit =
        .unauthorized request ↔
      Completes services session completion request ∧
        session.Fresh completion ∧
        ¬ HasCredentials session.credentials request := by
  constructor
  · intro hexit
    have hcompletes := completes_of_exit (by rw [hexit]; rfl)
    rw [exit_of_completes hcompletes] at hexit
    split_ifs at hexit with hfresh hvalid
    · split at hexit <;> cases hexit
    · exact ⟨hcompletes, hfresh, hvalid⟩
  · rintro ⟨hcompletes, hfresh, hvalid⟩
    rw [exit_of_completes hcompletes, if_pos hfresh, if_neg hvalid]

theorem exit_notFound_iff :
    (session.handleReadCallback services completion).exit =
        .notFound request ↔
      Completes services session completion request ∧
        session.Fresh completion ∧
        HasCredentials session.credentials request ∧
        services.getRequestHandler request.target = none := by
  constructor
  · intro hexit
    have hcompletes := completes_of_exit (by rw [hexit]; rfl)
    rw [exit_of_completes hcompletes] at hexit
    split_ifs at hexit with hfresh hvalid
    split at hexit
    next hnone => exact ⟨hcompletes, hfresh, hvalid, hnone⟩
    next => cases hexit
  · rintro ⟨hcompletes, hfresh, hvalid, hnone⟩
    rw [exit_of_completes hcompletes, if_pos hfresh, if_pos hvalid, hnone]

end Session

namespace Connection

variable {H : Type}

/-- The time from which a session counts after these callbacks. -/
def clock (start : ℤ) (callbacks : List (Callback H)) : ℤ :=
  (callbacks.filterMap Callback.clock?).getLast?.getD start

theorem clock_cons (start : ℤ) (callback : Callback H)
    (callbacks : List (Callback H)) :
    clock start (callback :: callbacks) =
      clock (callback.clock?.getD start) callbacks := by
  rw [clock, List.filterMap_cons]
  cases hclock : callback.clock? with
  | none => rfl
  | some time =>
      simp only [Option.getD_some]
      rw [clock, List.getLast?_cons, Option.getD_some]

theorem step_clock (services : Services H) (connection : Connection)
    (event : SessionEvent H) :
    (step services connection event).2.session.lastAuthTime =
      (step services connection event).1.clock?.getD
        connection.session.lastAuthTime := by
  cases event with
  | written error => rfl
  | read completion =>
      have hclocks := Session.handleReadCallback_clocks services
        connection.session completion
      rw [Session.Clocks] at hclocks
      change (connection.session.handleReadCallback services
          completion).session.lastAuthTime =
        (Callback.clock? ⟨connection.session, .read completion,
          some (connection.session.handleReadCallback services completion).exit,
          []⟩).getD connection.session.lastAuthTime
      rw [hclocks]
      cases (connection.session.handleReadCallback services completion).exit <;>
        rfl

theorem final_clock (services : Services H) (connection : Connection)
    (events : List (SessionEvent H)) :
    (Machine.final (step services) connection events).session.lastAuthTime =
      clock connection.session.lastAuthTime
        (Machine.outputs (step services) connection events) := by
  induction events generalizing connection with
  | nil => rfl
  | cons event events ih =>
      rw [Machine.final, Machine.outputs, clock_cons, ih, step_clock]

/-- After any run of a session: what the next callback does with a request is
decided by the bytes received, the time since the clock was set, the credentials
and the target. -/
theorem exit_iff_clock (services : Services H) (credentials : Credentials)
    (authTime : Int16) (start : ℤ) (events : List (SessionEvent H))
    (completion : ReadCompletion H) (request : Request) :
    let session := Session.make credentials authTime start
    let exit := ((after services session events).session.handleReadCallback
      services completion).exit
    let elapsed := (completion.now -
      clock start (trace services session events)).tdiv 1000000000
    let completes := completion.error = none ∧
      services.put (received events ++ completion.bytes) = .done request
    (exit = .expired request ↔ completes ∧ authTime.toInt < elapsed) ∧
    (exit = .unauthorized request ↔ completes ∧ elapsed ≤ authTime.toInt ∧
      ¬ Session.HasCredentials credentials request) ∧
    (exit = .notFound request ↔ completes ∧ elapsed ≤ authTime.toInt ∧
      Session.HasCredentials credentials request ∧
      services.getRequestHandler request.target = none) ∧
    ∀ handler, exit = .handled handler request ↔
      completes ∧ elapsed ≤ authTime.toInt ∧
      Session.HasCredentials credentials request ∧
      services.getRequestHandler request.target = some handler := by
  intro session exit elapsed completes
  have hbuffer := after_buffer services session events
  have hclock := final_clock services (.start session) events
  obtain ⟨hcredentials, hauthTime⟩ :=
    after_client services session events
  have hcompletes : Session.Completes services
      (after services session events).session completion request ↔
        completes := by
    rw [Session.Completes, hbuffer]
    rfl
  have hfresh : (after services session events).session.Fresh completion ↔
      elapsed ≤ authTime.toInt := by
    have hlast : (after services session events).session.lastAuthTime =
        clock start (trace services session events) := hclock
    rw [Session.Fresh, Session.elapsed, hauthTime, hlast]
    rfl
  refine ⟨?_, ?_, ?_, ?_⟩
  · rw [Session.exit_expired_iff, hcompletes, hfresh, not_le]
  · rw [Session.exit_unauthorized_iff, hcompletes, hfresh, hcredentials]
    rfl
  · rw [Session.exit_notFound_iff, hcompletes, hfresh, hcredentials]
    rfl
  · intro handler
    rw [Session.exit_handled_iff, hcompletes, hfresh, hcredentials]
    rfl

end Connection

end Swifties
