import Swifties.IoServiceRuns
import Swifties.SessionReplay

/-!
# Clients without credentials

A client that never presents valid credentials has no part in what the server
does for the others: its sessions see neither the files nor the handlers, and
leaving them out of a run changes nothing for anybody else.
-/

namespace Swifties

open FileTree

namespace Session

variable {H : Type} {services services' : Services H} {session : Session}
  {completion : ReadCompletion H}

/-- The request that the read completes, if it does, has no valid
credentials. -/
def Refuses (services : Services H) (session : Session)
    (completion : ReadCompletion H) : Prop :=
  ∀ request, Completes services session completion request →
    ¬ HasCredentials session.credentials request

theorem serveRequest_refused {request : Request}
    (hinvalid : ¬ HasCredentials session.credentials request) :
    serveRequest services session completion request =
      .of (session.write unauthorizedResponse) (.unauthorized request)
        (some 1) := by
  rw [serveRequest]
  split
  next => rfl
  next authHeader hheader =>
    have hfalse : validHeader session.credentials authHeader ≠ true :=
      fun hvalid => hinvalid ⟨authHeader, hheader, hvalid⟩
    simp only [authenticate, hfalse]
    rfl

/-- A callback that refuses uses neither the dispatcher nor the handlers. -/
theorem handleReadCallback_refused (hput : services'.put = services.put)
    (hrefuses : Refuses services session completion)
    (handleRequest : H → Request → Response → Response) :
    session.handleReadCallback services'
        { completion with handleRequest := handleRequest } =
      session.handleReadCallback services completion := by
  obtain ⟨error, bytes, now, authNow, behaviour⟩ := completion
  cases error with
  | some message => rfl
  | none =>
      cases hdone : services.put (session.buffer ++ bytes) with
      | done request =>
          let read := { session with buffer := session.buffer ++ bytes }
          let before : ReadCompletion H := ⟨none, bytes, now, authNow, behaviour⟩
          let after : ReadCompletion H :=
            ⟨none, bytes, now, authNow, handleRequest⟩
          have hinvalid : ¬ HasCredentials read.credentials request :=
            hrefuses request ⟨rfl, hdone⟩
          have hbefore : Completes services session before request :=
            ⟨rfl, hdone⟩
          have hafter : Completes services' session after request := by
            rw [Completes, hput]
            exact ⟨rfl, hdone⟩
          rw [handleReadCallback_completes hbefore,
            handleReadCallback_completes hafter]
          by_cases hfresh : read.Fresh before
          · have hfresh' : read.Fresh after := hfresh
            rw [requestParsed_fresh hfresh, requestParsed_fresh hfresh',
              serveRequest_refused hinvalid, serveRequest_refused hinvalid]
          · have hfresh' : ¬ read.Fresh after := hfresh
            rw [requestParsed_expired hfresh, requestParsed_expired hfresh']
      | _ => simp only [handleReadCallback, hput, hdone]

end Session

namespace Completion

theorem received_cons (completion : Completion)
    (completions : List Completion) :
    received (completion :: completions) =
      received [completion] ++ received completions := by
  cases completion <;> simp [received]

end Completion

namespace IoService

variable {services services' : Services RequestHandler} {fs : FileSystem}
  {connection : Connection} {completion : Completion}
  {credentials : Credentials}

def Refuses (services : Services RequestHandler) (connection : Connection)
    (completion : Completion) : Prop :=
  ∀ error bytes now authNow, completion = .read error bytes now authNow →
    connection.session.Refuses services
      ⟨error, bytes, now, authNow, Completion.replyOf (.empty [])⟩

/-- What a connection does where there are no files. -/
def alone (services : Services RequestHandler) (connection : Connection)
    (completion : Completion) : Invocation × Connection :=
  (invocation services (.empty []) connection completion,
    (connection.step services (completion.event (.empty []))).2)

theorem step_refused (hput : services'.put = services.put)
    (hrefuses : Refuses services connection completion) (fs : FileSystem) :
    (invocation services' fs connection completion,
        (connection.step services' (completion.event fs)).2) =
      alone services connection completion := by
  cases completion with
  | written error => rfl
  | read error bytes now authNow =>
      have hcallback := Session.handleReadCallback_refused hput
        (hrefuses error bytes now authNow rfl) (Completion.replyOf fs)
      simp only [alone, invocation, Completion.event, Connection.step]
      rw [← hcallback]

theorem act_refused (hput : services'.put = services.put)
    (hrefuses : Refuses services connection completion) (fs : FileSystem) :
    act services' fs connection completion =
      .ok ((alone services connection completion).1,
        (alone services connection completion).2, fs) := by
  obtain ⟨hinvocation, hnext⟩ :=
    Prod.mk.inj (step_refused hput hrefuses fs)
  have hcall : (invocation services (.empty []) connection completion).call =
      none := by
    rw [Option.eq_none_iff_forall_ne_some]
    intro call hcall
    obtain ⟨error, bytes, now, authNow, rfl, hexit, _⟩ :=
      call_eq_some_iff.mp hcall
    obtain ⟨hcompletes, _, hvalid, _⟩ := Session.exit_handled_iff.mp hexit
    exact hrefuses error bytes now authNow rfl _ hcompletes hvalid
  simp only [act, hinvocation, hnext, hcall]
  rfl

/-- No request that the bytes begin with has valid credentials. -/
def Anonymous (services : Services RequestHandler) (credentials : Credentials)
    (bytes : Text) : Prop :=
  ∀ part request, part <+: bytes → services.put part = .done request →
    ¬ Session.HasCredentials credentials request

theorem Anonymous.refuses {bytes : Text}
    (hanonymous : Anonymous services connection.session.credentials
      (connection.session.buffer ++ Completion.received [completion] ++ bytes)) :
    Refuses services connection completion := by
  rintro error read now authNow rfl request ⟨rfl, hdone⟩
  refine hanonymous _ request ?_ hdone
  simp [Completion.received]

theorem step_session (services : Services RequestHandler) (fs : FileSystem)
    (connection : Connection) (completion : Completion) :
    let next := (connection.step services (completion.event fs)).2
    next.session.buffer =
        connection.session.buffer ++ Completion.received [completion] ∧
      next.session.credentials = connection.session.credentials := by
  refine ⟨?_, (Connection.step_client services connection _).1⟩
  rw [Connection.step_buffer]
  cases completion <;> rfl

/-- A connection all of whose bytes are anonymous refuses all along. -/
theorem Anonymous.along {completions : List Completion}
    (hanonymous : Anonymous services connection.session.credentials
      (connection.session.buffer ++ Completion.received completions)) :
    Machine.Along (Refuses services) (alone services) connection
      completions := by
  induction completions generalizing connection with
  | nil => trivial
  | cons completion completions ih =>
      rw [Completion.received_cons, ← List.append_assoc] at hanonymous
      refine ⟨hanonymous.refuses, ih ?_⟩
      obtain ⟨hbuffer, hcredentials⟩ :=
        step_session services (.empty []) connection completion
      change Anonymous services (connection.step services _).2.session.credentials
        ((connection.step services _).2.session.buffer ++ _)
      rwa [hbuffer, hcredentials]

/-! ## What a stranger sees -/

/-- What a client without valid credentials gets to see is the same whatever
files there are, whatever the config routes to which handler, and whatever
other clients do in between. -/
theorem stranger_sees_alone (hput : services'.put = services.put)
    {pool pool' last last' : Pool FileSystem Server Connection}
    {events events' : List Event}
    {invocations invocations' : List (Option (ℕ × Invocation))} {i j : ℕ}
    (hmember : pool.members[i]? = some connection)
    (hmember' : pool'.members[j]? = some connection)
    (hevents : Pool.eventsOf j events' = Pool.eventsOf i events)
    (hanonymous : Anonymous services connection.session.credentials
      (connection.session.buffer ++
        Completion.received (Pool.eventsOf i events)))
    (hrun : Machine.run (step services) pool events = .ok (invocations, last))
    (hrun' : Machine.run (step services') pool' events' =
      .ok (invocations', last')) :
    Pool.outputsOf j invocations' = Pool.outputsOf i invocations ∧
      last'.members[j]? = last.members[i]? := by
  obtain ⟨houtputs, hlast⟩ := Pool.run_alone
    (fun fs _ _ hrefuses => act_refused rfl hrefuses fs) hmember
    hanonymous.along hrun
  rw [← hevents] at hanonymous
  obtain ⟨houtputs', hlast'⟩ := Pool.run_alone
    (fun fs _ _ hrefuses => act_refused hput hrefuses fs) hmember'
    hanonymous.along hrun'
  rw [houtputs, hlast, houtputs', hlast', hevents]
  exact ⟨rfl, rfl⟩

/-- The request with a password that is not that of the user. -/
def strangerBytes : Text :=
  "POST /api/Shoes HTTP/1.1\r\nAuthorization: Basic dGFyaXE6OTk5\r\n\r\n".toList

def strangerRequest : Request :=
  { shoesRequest with
    fields := [("Authorization".toList, "Basic dGFyaXE6OTk5".toList)] }

def doorServices : Services RequestHandler where
  put := fun bytes =>
    if strangerBytes <+: bytes then .done strangerRequest
    else shoesServices.put bytes
  getRequestHandler := shoesServices.getRequestHandler

theorem doorServices_anonymous {bytes : Text}
    (hbytes : ¬ shoesBytes <+: bytes) : Anonymous doorServices tariq bytes := by
  intro part request hpart hput
  simp only [doorServices, shoesServices] at hput
  split at hput
  next =>
    cases hput
    rintro ⟨authHeader, hfind, hvalid⟩
    have hheader : strangerRequest.find Session.authorizationField =
        some "Basic dGFyaXE6OTk5".toList := by decide +kernel
    rw [hheader, Option.some_inj] at hfind
    subst hfind
    revert hvalid
    decide +kernel
  next =>
    split at hput
    next hstart => exact (hbytes (hstart.trans hpart)).elim
    next => cases hput

theorem stranger_sees_alone_shoes :
    let connection := Connection.start (.make tariq 10 0)
    let pool : Pool FileSystem Server Connection :=
      ⟨.empty ["srv".toList], Server.startAccept tariq 10 0, [connection]⟩
    let pool' : Pool FileSystem Server Connection :=
      ⟨.empty [], Server.startAccept tariq 10 0, [connection, connection]⟩
    let services' := { doorServices with getRequestHandler := fun _ => none }
    let events : List Event :=
      [.act 0 (.read none strangerBytes 5 5), .join ⟨none, 5⟩]
    let events' : List Event :=
      [.act 0 (.read none shoesBytes 4 4),
        .act 1 (.read none strangerBytes 5 5)]
    ∃ invocations last invocations' last',
      Machine.run (step doorServices) pool events = .ok (invocations, last) ∧
      Machine.run (step services') pool' events' = .ok (invocations', last') ∧
      Pool.outputsOf 1 invocations' = Pool.outputsOf 0 invocations ∧
        last'.members[1]? = last.members[0]? := by
  intro connection pool pool' services' events events'
  have hok : (Machine.run (step doorServices) pool events).toBool = true := by
    decide +kernel
  have hok' : (Machine.run (step services') pool' events').toBool = true := by
    decide +kernel
  obtain ⟨⟨invocations, last⟩, hrun⟩ := Machine.exists_of_toBool hok
  obtain ⟨⟨invocations', last'⟩, hrun'⟩ := Machine.exists_of_toBool hok'
  have hput : services'.put = doorServices.put := rfl
  have hevents : Pool.eventsOf 1 events' = Pool.eventsOf 0 events := by
    simp [events, events', Pool.eventsOf]
  refine ⟨invocations, last, invocations', last', hrun, hrun',
    stranger_sees_alone hput rfl rfl hevents ?_ hrun hrun'⟩
  exact doorServices_anonymous (by decide +kernel)

/-! ## A server without strangers -/

/-- Of a stranger, no bytes so far or to come have valid credentials. -/
structure Strange (services : Services RequestHandler)
    (credentials : Credentials) (stranger : ℕ → Bool)
    (pool : Pool FileSystem Server Connection) (events : List Event) :
    Prop where
  listener : ∃ authTime now,
    pool.listener = Server.startAccept credentials authTime now
  member : ∀ (i : ℕ) (connection : Connection), stranger i = true →
    pool.members[i]? = some connection →
    connection.session.credentials = credentials ∧
      Anonymous services credentials (connection.session.buffer ++
        Completion.received (Pool.eventsOf i events))
  absent : ∀ i : ℕ, stranger i = true → pool.members[i]? = none →
    Anonymous services credentials
      (Completion.received (Pool.eventsOf i events))

variable {stranger : ℕ → Bool} {pool next : Pool FileSystem Server Connection}
  {event : Event} {events : List Event}

theorem Strange.quiet
    (hstrange : Strange services credentials stranger pool (event :: events)) :
    Pool.Quiet (rules services) stranger pool event := by
  rintro i completion connection rfl hi hmember
  obtain ⟨hcredentials, hanonymous⟩ := hstrange.member i connection hi hmember
  rw [Pool.eventsOf, if_pos rfl, Completion.received_cons,
    ← List.append_assoc, ← hcredentials] at hanonymous
  exact ⟨_, _, act_refused rfl hanonymous.refuses pool.shared⟩

theorem Strange.step {invocation : Option (ℕ × Invocation)}
    (hstrange : Strange services credentials stranger pool (event :: events))
    (hpossible : Possible pool event)
    (hstep : IoService.step services pool event = .ok (invocation, next)) :
    Strange services credentials stranger next events := by
  obtain ⟨⟨authTime, now, hlistener⟩, hmember, habsent⟩ := hstrange
  rcases Pool.step_cases hstep with ⟨accept, rfl, rfl, rfl⟩ |
    ⟨i, completion, rfl, hnone, rfl, rfl⟩ |
    ⟨i, completion, connection, done, connection', fs, rfl, hconnection,
      haction, rfl, rfl⟩
  · refine ⟨⟨authTime, accept.now, by rw [hlistener]; rfl⟩, ?_, ?_⟩
    · intro i connection hi hjoined
      rw [hlistener] at hjoined
      rcases member_of_join hjoined with hold | ⟨hnone, rfl⟩
      · exact hmember i connection hi hold
      · exact ⟨rfl, habsent i hi hnone⟩
    · intro i hi hjoined
      rw [List.getElem?_eq_none_iff] at hjoined
      apply habsent i hi
      rw [List.getElem?_eq_none_iff]
      simp only [List.length_append] at hjoined
      omega
  · obtain ⟨connection, hconnection, _⟩ := hpossible
    rw [hnone] at hconnection
    cases hconnection
  · refine ⟨⟨authTime, now, hlistener⟩, ?_, ?_⟩
    · intro j other hj hother
      by_cases heq : i = j
      · subst heq
        obtain ⟨hcredentials, hanonymous⟩ :=
          hmember i connection hj hconnection
        have hindex := (List.getElem?_eq_some_iff.mp hconnection).1
        rw [List.getElem?_set_self hindex, Option.some_inj] at hother
        obtain ⟨hbuffer, hsame⟩ :=
          step_session services pool.shared connection completion
        rw [← hother, (act_eq_ok haction).2.1, hbuffer, hsame]
        rw [Pool.eventsOf, if_pos rfl, Completion.received_cons,
          ← List.append_assoc] at hanonymous
        exact ⟨hcredentials, hanonymous⟩
      · rw [List.getElem?_set_ne heq] at hother
        have hbefore := hmember j other hj hother
        rwa [Pool.eventsOf, if_neg heq] at hbefore
    · intro j hj hother
      have hne : i ≠ j := by
        rintro rfl
        simp only [List.getElem?_eq_none_iff, List.length_set] at hother
        rw [List.getElem?_eq_none hother] at hconnection
        cases hconnection
      rw [List.getElem?_set_ne hne] at hother
      have hbefore := habsent j hj hother
      rwa [Pool.eventsOf, if_neg hne] at hbefore

theorem Strange.before
    (hstrange : Strange services credentials stranger pool events)
    (hpossible : Machine.Before Possible (IoService.step services) pool events) :
    Machine.Before (Pool.Quiet (rules services) stranger)
      (IoService.step services) pool events := by
  induction events generalizing pool with
  | nil => trivial
  | cons event events ih =>
      refine ⟨hstrange.quiet, fun invocation next hstep => ?_⟩
      exact ih (hstrange.step hpossible.1 hstep) (hpossible.2 _ _ hstep)

/-- Whatever the clients without valid credentials send and whenever, the server
ends up as if they had never sent anything: with the same files, the same
connections to all others, having done the same for them, and it fails in the
one run exactly if it does in the other. -/
theorem run_without_strangers {authTime : Int16} {now : ℤ} {fs : FileSystem}
    (hpossible : Machine.Before Possible (IoService.step services)
      (start credentials authTime now fs) events)
    (hanonymous : ∀ i, stranger i = true →
      Anonymous services credentials
        (Completion.received (Pool.eventsOf i events))) :
    (∀ fault, Machine.run (IoService.step services)
        (start credentials authTime now fs) events = .error fault →
      Machine.run (IoService.step services) (start credentials authTime now fs)
        (Pool.without stranger events) = .error fault) ∧
    ∀ invocations last, Machine.run (IoService.step services)
        (start credentials authTime now fs) events = .ok (invocations, last) →
      ∃ invocations' last', Machine.run (IoService.step services)
          (start credentials authTime now fs)
          (Pool.without stranger events) = .ok (invocations', last') ∧
        Pool.outputsWithout stranger invocations' =
          Pool.outputsWithout stranger invocations ∧
        Pool.SameBut stranger last last' := by
  have hstrange : Strange services credentials stranger
      (start credentials authTime now fs) events := by
    refine ⟨⟨authTime, now, rfl⟩, ?_, fun i hi _ => hanonymous i hi⟩
    intro i connection _ hmember
    cases hmember
  exact Pool.run_without (.refl stranger _) (hstrange.before hpossible)

/-- A stranger sends the request too late for the timer, and it is refused again
after a user has been served. -/
theorem run_without_strangers_shoes :
    let events : List Event :=
      [.join ⟨none, 0⟩, .join ⟨none, 15000000000⟩,
        .act 0 (.read none strangerBytes 20000000000 20000000000),
        .act 1 (.read none shoesBytes 21000000000 21000000000),
        .act 0 (.read none ['\n'] 22000000000 22000000000)]
    let stranger : ℕ → Bool := fun i => i == 0
    (∀ fault, Machine.run (step doorServices) shoesStart events =
        .error fault →
      Machine.run (step doorServices) shoesStart
        (Pool.without stranger events) = .error fault) ∧
    ∀ invocations last, Machine.run (step doorServices) shoesStart events =
        .ok (invocations, last) →
      ∃ invocations' last', Machine.run (step doorServices) shoesStart
          (Pool.without stranger events) = .ok (invocations', last') ∧
        Pool.outputsWithout stranger invocations' =
          Pool.outputsWithout stranger invocations ∧
        Pool.SameBut stranger last last' := by
  intro events stranger
  apply run_without_strangers
  · decide +kernel
  · intro i hi
    rw [beq_iff_eq] at hi
    rw [hi]
    exact doorServices_anonymous (by decide +kernel)

end IoService

end Swifties
