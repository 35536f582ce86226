import Swifties.Dispatcher
import Swifties.Pool
import Swifties.Server

/-!
# The server as a whole

`io_service.run()` runs the callbacks of the acceptor and of all sessions, one
after the other, in whatever order their operations complete.  The sessions
share the dispatcher and, through its handlers, the file system; every handler
runs within the read callback that calls it.  A fault of a handler ends the
process.
-/

namespace Swifties

open FileTree

/-- An operation of a session that has completed. -/
inductive Completion where
  | read (error : Option Text) (bytes : Text) (now authNow : ℤ)
  | written (error : Option Text)

namespace Completion

/-- What a handler leaves in the response, on the files there are. -/
def replyOf (fs : FileSystem) (handler : RequestHandler) (req : Request)
    (res : Response) : Response :=
  match handler.handleRequest req res fs with
  | .ok (answer, _) => answer
  | .error _ => res

def event (fs : FileSystem) : Completion → SessionEvent RequestHandler
  | .read error bytes now authNow =>
      .read ⟨error, bytes, now, authNow, replyOf fs⟩
  | .written error => .written error

/-- The bytes that `buffer_.commit` adds. -/
def received : List Completion → Text
  | [] => []
  | .read error bytes _ _ :: completions =>
      (if error = none then bytes else []) ++ received completions
  | .written _ :: completions => received completions

end Completion

/-- One callback of a session: the session before it, what had completed, and
what the callback did. -/
structure Invocation where
  before : Session
  completion : Completion
  exit : Option (Exit RequestHandler)
  operations : List Operation

namespace Invocation

/-- The call of `handleRequest` that the callback makes, if it makes one. -/
def call (invocation : Invocation) :
    Option (RequestHandler × Request × Response) :=
  match invocation.exit with
  | some (.handled handler req) =>
      some (handler, req, invocation.before.response)
  | _ => none

/-- The response that the callback begins to write. -/
def response? (invocation : Invocation) : Option Response :=
  invocation.operations.findSome? fun
    | .asyncWrite response => some response
    | _ => none

/-- What the call left in the response. -/
def reply (invocation : Invocation) : Option Response :=
  invocation.call.bind fun _ => invocation.response?

end Invocation

namespace IoService

abbrev Event := Pool.Event AcceptCompletion Completion

def serve (fs : FileSystem) (call : RequestHandler × Request × Response) :
    Except Fault (Response × FileSystem) :=
  call.1.handleRequest call.2.1 call.2.2 fs

def invocation (services : Services RequestHandler) (fs : FileSystem)
    (connection : Connection) (completion : Completion) : Invocation :=
  let callback := (connection.step services (completion.event fs)).1
  ⟨connection.session, completion, callback.exit, callback.operations⟩

def act (services : Services RequestHandler) (fs : FileSystem)
    (connection : Connection) (completion : Completion) :
    Except Fault (Invocation × Connection × FileSystem) :=
  let done := invocation services fs connection completion
  let next := (connection.step services (completion.event fs)).2
  match done.call with
  | none => .ok (done, next, fs)
  | some call => (serve fs call).map fun answer => (done, next, answer.2)

def rules (services : Services RequestHandler) :
    Pool.Rules FileSystem Server Connection AcceptCompletion Completion
      Invocation Fault where
  listen := fun server accept =>
    let (session, server) := server.handleAccept accept
    (session.map Connection.start, server)
  act := act services

/-- The server when its constructor has returned. -/
def start (credentials : Credentials) (authTime : Int16) (now : ℤ)
    (fs : FileSystem) : Pool FileSystem Server Connection where
  shared := fs
  listener := Server.startAccept credentials authTime now
  members := []

abbrev step (services : Services RequestHandler) :=
  Pool.step (rules services)

/-- There is always an accept under way; of a session, only operations that it
has started can complete. -/
def Possible (pool : Pool FileSystem Server Connection) : Event → Prop
  | .join _ => True
  | .act i completion =>
      ∃ connection, pool.members[i]? = some connection ∧
        connection.Enabled (completion.event pool.shared)

instance (pool : Pool FileSystem Server Connection) (event : Event) :
    Decidable (Possible pool event) :=
  match event with
  | .join _ => .isTrue trivial
  | .act i completion =>
      decidable_of_iff
        (pool.members[i]?.any fun connection =>
          match completion with
          | .read _ _ _ _ => decide (0 < connection.reads)
          | .written _ => decide (0 < connection.writes)) (by
        rw [Option.any_eq_true]
        cases completion <;>
          simp [Possible, Completion.event, Connection.Enabled])

end IoService

namespace Session

variable {H : Type} {services : Services H} {session : Session}
  {completion : ReadCompletion H} {request : Request} {handler : H}

/-- A handler is called on the response of the session as it was, and what it
leaves there is written. -/
theorem operations_of_handled
    (hexit : (session.handleReadCallback services completion).exit =
      .handled handler request) :
    (session.handleReadCallback services completion).operations =
      [.asyncWrite
        (completion.handleRequest handler request session.response)] := by
  obtain ⟨hcompletes, hfresh, ⟨authHeader, hheader, hvalid⟩, hhandler⟩ :=
    exit_handled_iff.mp hexit
  let read := { session with buffer := session.buffer ++ completion.bytes }
  have hread : read.Fresh completion := hfresh
  have hcredentials : validHeader read.credentials authHeader = true := hvalid
  rw [handleReadCallback_completes hcompletes, requestParsed_fresh hread]
  simp only [serveRequest, hheader, authenticate, hcredentials, if_true,
    hhandler]
  rfl

end Session

namespace IoService

variable {services : Services RequestHandler} {fs fs' : FileSystem}
  {connection next : Connection} {completion : Completion}
  {done : Invocation} {call : RequestHandler × Request × Response}

theorem call_eq_some_iff :
    (invocation services fs connection completion).call = some call ↔
      ∃ error bytes now authNow, completion = .read error bytes now authNow ∧
        (connection.session.handleReadCallback services
          ⟨error, bytes, now, authNow, Completion.replyOf fs⟩).exit =
            .handled call.1 call.2.1 ∧
        call.2.2 = connection.session.response := by
  cases completion with
  | written error =>
      apply iff_of_false
      · intro hcall
        cases hcall
      · rintro ⟨_, _, _, _, hread, _⟩
        cases hread
  | read error bytes now authNow =>
      let read : ReadCompletion RequestHandler :=
        ⟨error, bytes, now, authNow, Completion.replyOf fs⟩
      change Invocation.call ⟨connection.session, _,
        some (connection.session.handleReadCallback services read).exit, _⟩ =
          some call ↔ _
      rw [Invocation.call]
      constructor
      · intro hcall
        split at hcall
        next handler req hexit =>
          cases hcall
          exact ⟨error, bytes, now, authNow, rfl, Option.some.inj hexit, rfl⟩
        next => cases hcall
      · rintro ⟨_, _, _, _, heq, hexit, hres⟩
        cases heq
        simp only [read, hexit, ← hres]

theorem response_of_call
    (hcall : (invocation services fs connection completion).call = some call) :
    (invocation services fs connection completion).response? =
      some (Completion.replyOf fs call.1 call.2.1 call.2.2) := by
  obtain ⟨error, bytes, now, authNow, rfl, hexit, hres⟩ :=
    call_eq_some_iff.mp hcall
  have hoperations := Session.operations_of_handled hexit
  change List.findSome? _ (connection.session.handleReadCallback services
    ⟨error, bytes, now, authNow, Completion.replyOf fs⟩).operations = _
  rw [hoperations, hres]
  rfl

theorem replyOf_of_serve {call : RequestHandler × Request × Response}
    {answer : Response} (hserve : serve fs call = .ok (answer, fs')) :
    Completion.replyOf fs call.1 call.2.1 call.2.2 = answer := by
  rw [serve] at hserve
  rw [Completion.replyOf, hserve]

/-- The callback is a step of the session alone, and its call, if it makes one,
changes the files. -/
theorem act_eq_ok
    (hact : act services fs connection completion = .ok (done, next, fs')) :
    done = invocation services fs connection completion ∧
      next = (connection.step services (completion.event fs)).2 ∧
      Machine.run serve fs done.call.toList =
        .ok (done.reply.toList, fs') := by
  simp only [act] at hact
  split at hact
  next hcall =>
    cases hact
    refine ⟨rfl, rfl, ?_⟩
    rw [Invocation.reply, hcall]
    rfl
  next call hcall =>
    rw [Machine.map_eq_ok_iff] at hact
    obtain ⟨⟨answer, written⟩, hanswer, hok⟩ := hact
    cases hok
    refine ⟨rfl, rfl, ?_⟩
    rw [Invocation.reply, response_of_call hcall, hcall,
      replyOf_of_serve hanswer]
    simp [Machine.run, hanswer]

/-- Only the call of a handler can fail. -/
theorem act_eq_error {fault : Fault}
    (hact : act services fs connection completion = .error fault) :
    ∃ call, (invocation services fs connection completion).call = some call ∧
      serve fs call = .error fault := by
  simp only [act] at hact
  split at hact
  next => cases hact
  next call hcall =>
    refine ⟨call, hcall, ?_⟩
    cases hserve : serve fs call with
    | error other =>
        rw [hserve] at hact
        cases hact
        rfl
    | ok answer =>
        rw [hserve] at hact
        cases hact

end IoService

end Swifties
