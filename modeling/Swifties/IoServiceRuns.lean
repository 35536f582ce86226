import Swifties.ApiFrames
import Swifties.IoService

/-!
# Runs of the whole server

The callbacks of different sessions interleave in any order.  Each session still
runs as it would alone, the calls of the handlers take place one after the
other, and only a request with valid credentials gets as far as the files.
-/

namespace Swifties

open FileTree

namespace IoService

variable {services : Services RequestHandler}
  {pool next last : Pool FileSystem Server Connection}
  {events : List Event} {invocations : List (Option (ℕ × Invocation))}

/-! ## The calls of the handlers -/

/-- The calls of the handlers take place one after the other: each finds the
files as those in front of it, of whatever sessions, have left them, and the
response that it leaves is the one that is written.  A run that fails does so in
the call of the next callback, on the files that the calls before it have
left. -/
theorem run_serial :
    (∀ invocations last,
      Machine.run (step services) pool events = .ok (invocations, last) →
      Machine.run serve pool.shared
          (Pool.callsOf Invocation.call invocations) =
        .ok (Pool.callsOf Invocation.reply invocations, last.shared)) ∧
    ∀ fault, Machine.run (step services) pool events = .error fault →
      ∃ before i completion after invocations next connection call,
        events = before ++ .act i completion :: after ∧
        Machine.run (step services) pool before = .ok (invocations, next) ∧
        Machine.run serve pool.shared
            (Pool.callsOf Invocation.call invocations) =
          .ok (Pool.callsOf Invocation.reply invocations, next.shared) ∧
        next.members[i]? = some connection ∧
        (invocation services next.shared connection completion).call =
          some call ∧
        serve next.shared call = .error fault := by
  have hact : ∀ fs connection completion done next fs',
      (rules services).act fs connection completion = .ok (done, next, fs') →
        Machine.run serve fs done.call.toList =
          .ok (done.reply.toList, fs') :=
    fun _ _ _ _ _ _ haction => (act_eq_ok haction).2.2
  constructor
  · intro invocations last hrun
    exact Pool.run_calls hact hrun
  · intro fault hrun
    obtain ⟨before, i, completion, after, invocations, next, connection, rfl,
      hbefore, hmember, haction⟩ := Pool.run_eq_error hrun
    obtain ⟨call, hcall, hserve⟩ := act_eq_error haction
    exact ⟨before, i, completion, after, invocations, next, connection, call,
      rfl, hbefore, Pool.run_calls hact hbefore, hmember, hcall, hserve⟩

/-! ## The sessions one by one -/

/-- Every connection is one that its session could have got to alone, and the
next session to accept is as the server makes it. -/
structure Reachable (services : Services RequestHandler)
    (credentials : Credentials) (authTime : Int16)
    (pool : Pool FileSystem Server Connection) : Prop where
  listener : ∃ now, pool.listener = Server.startAccept credentials authTime now
  member : ∀ (i : ℕ) (connection : Connection),
    pool.members[i]? = some connection →
    ∃ now events, connection =
      Connection.after services (.make credentials authTime now) events

theorem listen_joined {credentials : Credentials} {authTime : Int16} {now : ℤ}
    {accept : AcceptCompletion} {joined : Connection}
    (hjoined : ((rules services).listen
      (Server.startAccept credentials authTime now) accept).1 = some joined) :
    joined = Connection.start (.make credentials authTime now) := by
  simp only [rules, Server.handleAccept, Option.map_eq_some_iff,
    Option.ite_none_right_eq_some] at hjoined
  obtain ⟨session, ⟨_, hsession⟩, rfl⟩ := hjoined
  cases hsession
  rfl

/-- The member at an index, behind an accept: one that was there, or the session
that waited for a client. -/
theorem member_of_join {credentials : Credentials} {authTime : Int16} {now : ℤ}
    {accept : AcceptCompletion} {members : List Connection} {i : ℕ}
    {connection : Connection}
    (hmember : (members ++ ((rules services).listen
      (Server.startAccept credentials authTime now) accept).1.toList)[i]? =
        some connection) :
    members[i]? = some connection ∨ members[i]? = none ∧
      connection = Connection.start (.make credentials authTime now) := by
  rw [List.getElem?_append] at hmember
  split at hmember
  next => exact .inl hmember
  next hindex =>
    right
    refine ⟨List.getElem?_eq_none (not_lt.mp hindex), ?_⟩
    exact listen_joined (Option.mem_toList.mp (List.mem_of_getElem? hmember))

/-- What holds of every new session and is kept by every callback, with the
callbacks of the session so far in view. -/
theorem run_outputs {credentials : Credentials} {authTime : Int16} {now : ℤ}
    {fs : FileSystem} {Inv : List Invocation → Connection → Prop}
    {Q : List Invocation → Invocation → Prop}
    (hstart : ∀ now, Inv [] (Connection.start (.make credentials authTime now)))
    (hact : ∀ past fs connection completion done next fs',
      Inv past connection →
      act services fs connection completion = .ok (done, next, fs') →
        Q past done ∧ Inv (past ++ [done]) next)
    (hrun : Machine.run (step services) (start credentials authTime now fs)
      events = .ok (invocations, pool)) {i : ℕ}
    {before after : List Invocation} {done : Invocation}
    (hdone : Pool.outputsOf i invocations = before ++ done :: after) :
    Q before done := by
  have hlisten : ∀ (listener : Server) (accept : AcceptCompletion),
      (∃ now, listener = Server.startAccept credentials authTime now) →
      (∃ now, ((rules services).listen listener accept).2 =
          Server.startAccept credentials authTime now) ∧
        ∀ joined, ((rules services).listen listener accept).1 = some joined →
          Inv [] joined := by
    rintro listener accept ⟨now, rfl⟩
    refine ⟨⟨accept.now, rfl⟩, fun joined hjoined => ?_⟩
    rw [listen_joined hjoined]
    exact hstart now
  exact Pool.run_outputs hlisten hact ⟨now, rfl⟩ rfl hrun hdone

theorem Reachable.start (services : Services RequestHandler)
    (credentials : Credentials) (authTime : Int16) (now : ℤ)
    (fs : FileSystem) :
    Reachable services credentials authTime
      (start credentials authTime now fs) := by
  refine ⟨⟨now, rfl⟩, fun i connection hmember => ?_⟩
  cases hmember

theorem Reachable.step {credentials : Credentials} {authTime : Int16}
    {event : Event} {invocation : Option (ℕ × Invocation)}
    (hreachable : Reachable services credentials authTime pool)
    (hstep : step services pool event = .ok (invocation, next)) :
    Reachable services credentials authTime next := by
  obtain ⟨⟨now, hlistener⟩, hmember⟩ := hreachable
  rcases Pool.step_cases hstep with ⟨accept, rfl, rfl, rfl⟩ |
    ⟨_, _, _, _, rfl, rfl⟩ |
    ⟨i, completion, connection, done, connection', fs, rfl, hconnection,
      haction, rfl, rfl⟩
  · constructor
    · exact ⟨accept.now, by rw [hlistener]; rfl⟩
    · intro i connection hi
      rw [hlistener] at hi
      rcases member_of_join hi with hold | ⟨_, rfl⟩
      · exact hmember i connection hold
      · exact ⟨now, [], rfl⟩
  · exact ⟨⟨now, hlistener⟩, hmember⟩
  · refine ⟨⟨now, hlistener⟩, fun j other hj => ?_⟩
    by_cases heq : i = j
    · subst heq
      have hindex := (List.getElem?_eq_some_iff.mp hconnection).1
      rw [List.getElem?_set_self hindex, Option.some_inj] at hj
      subst hj
      obtain ⟨time, events, hafter⟩ := hmember i connection hconnection
      refine ⟨time, events ++ [completion.event pool.shared], ?_⟩
      rw [(act_eq_ok haction).2.1, Connection.after, Machine.final_append,
        hafter]
      rfl
    · rw [List.getElem?_set_ne heq] at hj
      exact hmember j other hj

theorem Reachable.run {credentials : Credentials} {authTime : Int16}
    (hreachable : Reachable services credentials authTime pool)
    (hrun : Machine.run (IoService.step services) pool events =
      .ok (invocations, last)) : Reachable services credentials authTime last :=
  Machine.run_invariant (P := fun _ _ => True)
    (fun _ _ _ _ hreachable _ hstep => hreachable.step hstep) hreachable
    (Machine.before_of_forall fun _ _ => trivial) hrun

/-- In every state that the server gets to, each connection is in a state that
its session gets to by itself, whatever the other sessions do. -/
theorem run_reachable {credentials : Credentials} {authTime : Int16} {now : ℤ}
    {fs : FileSystem}
    (hrun : Machine.run (IoService.step services)
      (start credentials authTime now fs) events = .ok (invocations, pool)) :
    Reachable services credentials authTime pool :=
  (Reachable.start services credentials authTime now fs).run hrun

/-! ### One request of a registered user -/

def shoesBytes : Text :=
  "POST /api/Shoes HTTP/1.1\r\nAuthorization: Basic dGFyaXE6MTIz\r\n\r\n".toList

def shoesRequest : Request where
  methodString := "POST".toList
  target := "/api/Shoes".toList
  version := 11
  fields := [("Authorization".toList, "Basic dGFyaXE6MTIz".toList)]
  body := []

def shoesServices : Services RequestHandler where
  put := fun bytes =>
    if shoesBytes <+: bytes then .done shoesRequest
    else .error "need more".toList
  getRequestHandler := fun _ =>
    some (.api ⟨⟨⟨"data/".toList⟩⟩, "/api".toList⟩)

def tariq : Credentials := Std.TreeMap.insert ∅ "tariq".toList "123".toList

def shoesStart : Pool FileSystem Server Connection :=
  start tariq 10 0 (.empty ["srv".toList])

/-- A client is accepted and sends the request. -/
def shoesEvents : List Event :=
  [.join ⟨none, 0⟩, .act 0 (.read none shoesBytes 5 5)]

theorem run_reachable_shoes :
    ∃ invocations pool, Machine.run (IoService.step shoesServices) shoesStart
        shoesEvents = .ok (invocations, pool) ∧
      Reachable shoesServices tariq 10 pool := by
  have hok : (Machine.run (IoService.step shoesServices) shoesStart
      shoesEvents).toBool = true := by
    decide +kernel
  obtain ⟨⟨invocations, pool⟩, hrun⟩ := Machine.exists_of_toBool hok
  exact ⟨invocations, pool, hrun, run_reachable hrun⟩

/-! ## What changes the files -/

/-- The callback found the session not expired and the credentials of the
request valid, and called the handler of its target. -/
structure Authorized (services : Services RequestHandler)
    (credentials : Credentials) (authTime : Int16) (connection : Connection)
    (bytes : Text) (now : ℤ) (request : Request) (handler : RequestHandler) :
    Prop where
  put : services.put (connection.session.buffer ++ bytes) = .done request
  fresh : (now - connection.session.lastAuthTime).tdiv 1000000000 ≤
    authTime.toInt
  credentials : ∃ encoded username password,
    request.find "Authorization".toList =
        some ("Basic ".toList ++ encoded) ∧
      Base64.decode encoded = username ++ ':' :: password ∧
      ':' ∉ username ∧ credentials[username]? = some password
  handler : services.getRequestHandler request.target = some handler

theorem Reachable.authorized {credentials : Credentials} {authTime : Int16}
    (hreachable : Reachable services credentials authTime pool) {i : ℕ}
    {connection : Connection} {completion : Completion}
    {call : RequestHandler × Request × Response}
    (hmember : pool.members[i]? = some connection)
    (hcall : (invocation services pool.shared connection completion).call =
      some call) :
    ∃ bytes now authNow, completion = .read none bytes now authNow ∧
      Authorized services credentials authTime connection bytes now call.2.1
        call.1 := by
  obtain ⟨error, bytes, now, authNow, rfl, hexit, _⟩ :=
    call_eq_some_iff.mp hcall
  obtain ⟨⟨rfl, hput⟩, hfresh, hvalid, hhandler⟩ :=
    Session.exit_handled_iff.mp hexit
  obtain ⟨time, events, rfl⟩ := hreachable.member i connection hmember
  obtain ⟨hcredentials, hauthTime⟩ :=
    Connection.after_client services (.make credentials authTime time) events
  rw [Session.Fresh, hauthTime] at hfresh
  rw [hcredentials] at hvalid
  exact ⟨bytes, now, authNow, rfl, hput, hfresh,
    Session.hasCredentials_iff.mp hvalid, hhandler⟩

/-- Only an API handler touches the files. -/
theorem serve_unchanged {fs fs' : FileSystem}
    {call : RequestHandler × Request × Response} {answer : Response}
    (hserve : serve fs call = .ok (answer, fs')) (hchanged : fs' ≠ fs) :
    ∃ api, call.1 = .api api ∧ answer.result = .ok ∧
      (call.2.1.method = .post ∨ call.2.1.method = .put ∨
        call.2.1.method = .delete) := by
  obtain ⟨handler, req, res⟩ := call
  cases handler with
  | api api =>
      refine ⟨api, rfl, ?_, ?_⟩
      · by_contra hrefused
        exact hchanged (RequestHandlerAPI.handleRequest_unchanged hserve
          (.inr hrefused))
      · by_contra hreads
        apply hchanged
        apply RequestHandlerAPI.handleRequest_unchanged hserve
        left
        cases hmethod : req.method <;> simp_all
  | _ =>
      cases hserve
      exact (hchanged rfl).elim

/-- In every state that the server gets to, a callback that changes the files
has called an API handler, for a `POST`, `PUT` or `DELETE`, on behalf of a user
of the config: the request has the user's credentials and the session was not
expired. -/
theorem changed_by_authorized {credentials : Credentials} {authTime : Int16}
    {now : ℤ} {fs : FileSystem} {event : Event}
    {invocation : Option (ℕ × Invocation)}
    (hrun : Machine.run (IoService.step services)
      (start credentials authTime now fs) events = .ok (invocations, pool))
    (hstep : IoService.step services pool event = .ok (invocation, next))
    (hchanged : next.shared ≠ pool.shared) :
    ∃ i connection bytes now authNow request api,
      event = .act i (.read none bytes now authNow) ∧
      pool.members[i]? = some connection ∧
      (request.method = .post ∨ request.method = .put ∨
        request.method = .delete) ∧
      Authorized services credentials authTime connection bytes now request
        (.api api) := by
  have hreachable :=
    (Reachable.start services credentials authTime now fs).run hrun
  rcases Pool.step_cases hstep with ⟨_, rfl, rfl, rfl⟩ |
    ⟨_, _, _, _, rfl, rfl⟩ |
    ⟨i, completion, connection, done, connection', fs', rfl, hmember, haction,
      rfl, rfl⟩
  · exact (hchanged rfl).elim
  · exact (hchanged rfl).elim
  · obtain ⟨rfl, _, hcalls⟩ := act_eq_ok haction
    cases hcall : (IoService.invocation services pool.shared connection
        completion).call with
    | none =>
        rw [hcall, Option.toList_none, Machine.run, Except.ok.injEq,
          Prod.mk.injEq] at hcalls
        exact (hchanged hcalls.2.symm).elim
    | some call =>
        obtain ⟨bytes, now, authNow, rfl, hauthorized⟩ :=
          hreachable.authorized hmember hcall
        rw [hcall, Option.toList_some, Machine.run_cons_eq_ok_iff] at hcalls
        obtain ⟨answer, _, _, hserve, hnil, _⟩ := hcalls
        cases hnil
        obtain ⟨api, hapi, _, hmethod⟩ := serve_unchanged hserve hchanged
        rw [hapi] at hauthorized
        exact ⟨i, connection, bytes, now, authNow, call.2.1, api, rfl, hmember,
          hmethod, hauthorized⟩

theorem changed_by_authorized_shoes :
    ∃ invocations pool invocation next,
      Machine.run (IoService.step shoesServices) shoesStart
        [.join ⟨none, 0⟩] = .ok (invocations, pool) ∧
      IoService.step shoesServices pool (.act 0 (.read none shoesBytes 5 5)) =
        .ok (invocation, next) ∧
      ∃ i connection bytes now authNow request api,
        Pool.Event.act 0 (.read none shoesBytes 5 5) =
          (.act i (.read none bytes now authNow) : Event) ∧
        pool.members[i]? = some connection ∧
        (request.method = .post ∨ request.method = .put ∨
          request.method = .delete) ∧
        Authorized shoesServices tariq 10 connection bytes now request
          (.api api) := by
  let pool : Pool FileSystem Server Connection :=
    ⟨.empty ["srv".toList], Server.startAccept tariq 10 0,
      [Connection.start (.make tariq 10 0)]⟩
  have hrun : Machine.run (IoService.step shoesServices) shoesStart
      [.join ⟨none, 0⟩] = .ok ([none], pool) := rfl
  have hfile : (IoService.step shoesServices pool
      (.act 0 (.read none shoesBytes 5 5))).map
        (fun result => result.2.shared.exists? "data/Shoes/1".toList) =
      .ok true := by
    decide +kernel
  obtain ⟨⟨invocation, next⟩, hstep, hexists⟩ := Machine.map_eq_ok_iff.mp hfile
  refine ⟨_, pool, invocation, next, hrun, hstep,
    changed_by_authorized hrun hstep fun hsame => ?_⟩
  rw [hsame] at hexists
  revert hexists
  decide +kernel

end IoService

end Swifties
