import Swifties.IoServiceRuns
import Swifties.ResponseReuse

/-!
# The fields of what is written

A session keeps one response object.  Its error pages replace the object, and
the handlers set the type and the length of the content in whatever is there.
So every response that is written tells the length of its body, once, and the
fields of a refusal stay until the next error page.
-/

namespace Swifties

open FileTree

namespace Response

def names (res : Response) : List Field := res.fields.map Prod.fst

/-- No field is there twice, and the length is that of the body. -/
structure Framed (res : Response) : Prop where
  nodup : res.names.Nodup
  length : res.find .contentLength = some (Text.decimal res.body.length)

/-- The fields that only a refusal sets. -/
def challenge (res : Response) : Option Text × Option Text :=
  (res.find .server, res.find .wwwAuthenticate)

/-- Of the fields, at most the type and the length of the content were set. -/
structure Describes (res answer : Response) : Prop where
  nodup : res.names.Nodup → answer.names.Nodup
  challenge_eq : answer.challenge = res.challenge

theorem names_set (res : Response) (field : Field) (value : Text) :
    (res.set field value).names =
      (res.names.filter fun name => decide (name ≠ field)) ++ [field] := by
  rw [names, set, List.map_append, names, List.filter_map]
  rfl

theorem nodup_set {res : Response} (hnodup : res.names.Nodup) (field : Field)
    (value : Text) : (res.set field value).names.Nodup := by
  rw [names_set, List.nodup_append]
  refine ⟨hnodup.filter _, List.nodup_singleton field, ?_⟩
  intro name hname other hother
  rw [List.mem_singleton] at hother
  rw [hother]
  simpa using (List.mem_filter.mp hname).2

theorem Describes.of_fields {res answer : Response}
    (hfields : answer.fields = res.fields) : Describes res answer := by
  constructor
  · rw [names, names, hfields]
    exact id
  · simp only [challenge, find, hfields]

theorem Describes.set {res answer : Response} (hdescribes : Describes res answer)
    {field : Field} (hfield : field = .contentType ∨ field = .contentLength)
    (value : Text) : Describes res (answer.set field value) := by
  constructor
  · intro hnodup
    exact nodup_set (hdescribes.nodup hnodup) field value
  · have hserver : field ≠ .server := by
      rcases hfield with rfl | rfl <;> decide
    have hauthenticate : field ≠ .wwwAuthenticate := by
      rcases hfield with rfl | rfl <;> decide
    rw [← hdescribes.challenge_eq, challenge, find_set_of_ne _ hserver,
      find_set_of_ne _ hauthenticate, challenge]

theorem Describes.trans {first second third : Response}
    (hfirst : Describes first second) (hsecond : Describes second third) :
    Describes first third := by
  constructor
  · intro hnodup
    exact hsecond.nodup (hfirst.nodup hnodup)
  · rw [hsecond.challenge_eq, hfirst.challenge_eq]

theorem Describes.preparePayload {res answer : Response}
    (hdescribes : Describes res answer) :
    Describes res answer.preparePayload :=
  hdescribes.set (.inr rfl) _

theorem framed_preparePayload {res : Response} (hnodup : res.names.Nodup) :
    res.preparePayload.Framed := by
  constructor
  · exact nodup_set hnodup _ _
  · exact find_set_self _ _ _

theorem describes_reply (res : Response) (status : Status) (body : Text) :
    Describes res (res.reply status body) := by
  refine Describes.preparePayload ?_
  exact .of_fields rfl

/-- An error page of a session has no field but its length. -/
theorem framed_make_reply (status : Status) (version : ℕ) (body : Text) :
    ((Response.make status version).reply status body).Framed ∧
      ((Response.make status version).reply status body).challenge =
        (none, none) := by
  constructor
  · exact framed_preparePayload List.nodup_nil
  · exact (describes_reply (Response.make status version) status
      body).challenge_eq

end Response

namespace Session

/-- The fields of a refusal. -/
def refusal : Option Text × Option Text :=
  (some "Beast".toList, some "Basic realm=\"User Visible Realm\"".toList)

theorem unauthorizedResponse_framed : unauthorizedResponse.Framed := by
  constructor
  · decide
  · exact Response.find_set_self _ _ _

theorem unauthorizedResponse_challenge :
    unauthorizedResponse.challenge = refusal := by
  decide

end Session

/-! ## The handlers -/

namespace RequestHandler

open Response

variable {req : Request} {res answer : Response} {fs next : FileSystem}

/-- What every handler does to the response: it sets the type and the length of
the content, the length last and to that of the body. -/
structure Fills (res answer : Response) : Prop where
  describes : Describes res answer
  prepared : ∃ filled : Response, Describes res filled ∧
    answer = filled.preparePayload

theorem Fills.of_describes {filled : Response}
    (hdescribes : Describes res filled) : Fills res filled.preparePayload :=
  ⟨hdescribes.preparePayload, filled, hdescribes, rfl⟩

theorem Fills.framed (hfills : Fills res answer) (hnodup : res.names.Nodup) :
    answer.Framed := by
  obtain ⟨filled, hdescribes, rfl⟩ := hfills.prepared
  exact framed_preparePayload (hdescribes.nodup hnodup)

theorem fills_plainReply (status : Status) (body : Text) (req : Request)
    (res : Response) : Fills res (plainReply status body req res) := by
  apply Fills.of_describes
  refine Describes.set (Describes.set ?_ (.inl rfl) _) (.inr rfl) _
  exact .of_fields rfl

theorem fills_static (handler : RequestHandlerStatic) (req : Request)
    (res : Response) (fs : FileSystem) :
    Fills res (handler.handleRequest req res fs) := by
  have htyped : ∀ (filled : Response) (value body : Text),
      Describes res filled →
      Fills res (Response.preparePayload
        { filled.set .contentType value with body := body }) := by
    intro filled value body hfilled
    apply Fills.of_describes
    exact (hfilled.set (.inl rfl) value).trans (.of_fields rfl)
  unfold RequestHandlerStatic.handleRequest
  simp only
  split
  next body _ =>
    apply htyped
    refine Describes.set ?_ (.inr rfl) _
    exact .of_fields rfl
  next =>
    apply htyped
    exact .of_fields rfl

theorem describes_typed (req : Request) (res : Response) :
    Describes res (RequestHandlerAPI.typed req res) := by
  refine Describes.set ?_ (.inl rfl) _
  exact .of_fields rfl

theorem fills_of_replies
    {branch : Response → Except Fault (Response × FileSystem)}
    (hreplies : RequestHandlerAPI.Replies branch)
    (hanswer : branch (RequestHandlerAPI.typed req res) = .ok (answer, next)) :
    Fills res answer := by
  obtain ⟨reply, hreply⟩ := hreplies
  rw [hreply, Machine.map_eq_ok_iff] at hanswer
  obtain ⟨r, _, hr⟩ := hanswer
  obtain ⟨rfl, _⟩ := Prod.mk.inj hr
  exact .of_describes ((describes_typed req res).trans (.of_fields rfl))

theorem fills_api {handler : RequestHandlerAPI}
    (hanswer : handler.handleRequest req res fs = .ok (answer, next)) :
    Fills res answer := by
  cases hmethod : req.method with
  | post =>
      rw [RequestHandlerAPI.handleRequest, hmethod] at hanswer
      exact fills_of_replies (handler.handlePost_replies req fs) hanswer
  | get =>
      rw [RequestHandlerAPI.handleRequest, hmethod] at hanswer
      exact fills_of_replies (handler.handleGet_replies req fs) hanswer
  | delete =>
      rw [RequestHandlerAPI.handleRequest, hmethod] at hanswer
      exact fills_of_replies (handler.handleDelete_replies req fs) hanswer
  | other =>
      rw [RequestHandlerAPI.handleRequest, hmethod] at hanswer
      cases hanswer
      exact .of_describes ((describes_typed req res).trans (.of_fields rfl))
  | put =>
      -- An update leaves the body, but its length is taken all the same.
      rw [RequestHandlerAPI.handleRequest_put hmethod] at hanswer
      cases hrecord : handler.record? req.target with
      | none =>
          rw [hrecord] at hanswer
          cases hanswer
          exact .of_describes ((describes_typed req res).trans (.of_fields rfl))
      | some record =>
          rw [hrecord, Machine.map_eq_ok_iff] at hanswer
          obtain ⟨result, _, hresult⟩ := hanswer
          obtain ⟨rfl, _⟩ := Prod.mk.inj hresult
          have htyped := describes_typed req res
          cases result.1 with
          | true => exact .of_describes (htyped.trans (.of_fields rfl))
          | false => exact .of_describes (htyped.trans (.of_fields rfl))

theorem handleRequest_fills {handler : RequestHandler}
    (hanswer : handler.handleRequest req res fs = .ok (answer, next)) :
    Fills res answer := by
  cases handler with
  | api handler => exact fills_api hanswer
  | static handler =>
      cases hanswer
      exact fills_static handler req res fs
  | sleep =>
      cases hanswer
      apply Fills.of_describes
      refine Describes.trans (Describes.set ?_ (.inl rfl) _) (.of_fields rfl)
      exact .of_fields rfl
  | echo | health | notFound =>
      cases hanswer
      exact fills_plainReply _ _ req res

end RequestHandler

/-! ## The callbacks -/

/-- Whether the callback leaves the fields of a refusal in the response; none if
it leaves these fields as they were. -/
def Exit.refuses {H : Type} : Exit H → Option Bool
  | .unauthorized _ | .expired _ => some true
  | .badRequest | .exception | .notFound _ => some false
  | .readError | .incomplete | .handled _ _ => none

namespace Session

variable {H : Type} {services : Services H} {session : Session}
  {completion : ReadCompletion H} {request : Request} {handler : H}

/-- What is in the response at the end of a callback, by its exit. -/
def Leaves (session : Session) (completion : ReadCompletion H)
    (outcome : Outcome H) : Prop :=
  match outcome.exit with
  | .readError | .incomplete =>
      outcome.session.response = session.response ∧
        ∀ response, .asyncWrite response ∉ outcome.operations
  | .badRequest | .exception | .notFound _ =>
      ∃ status body, outcome.session.response =
        (Response.make status 11).reply status body
  | .unauthorized _ | .expired _ =>
      outcome.session.response = unauthorizedResponse
  | .handled handler request =>
      outcome.session.response =
        completion.handleRequest handler request session.response

theorem serveRequest_leaves (services : Services H) (session : Session)
    (completion : ReadCompletion H) (request : Request) :
    Leaves session completion
        (session.serveRequest services completion request) ∧
      (session.serveRequest services completion request).operations =
        [.asyncWrite (session.serveRequest services completion
          request).session.response] := by
  unfold serveRequest authenticate
  cases request.find authorizationField with
  | none => exact ⟨rfl, rfl⟩
  | some authHeader =>
      simp only
      cases validHeader session.credentials authHeader with
      | false => exact ⟨rfl, rfl⟩
      | true =>
          simp only [if_true]
          cases services.getRequestHandler request.target with
          | none => exact ⟨⟨_, _, rfl⟩, rfl⟩
          | some handler => exact ⟨rfl, rfl⟩

theorem requestParsed_leaves (services : Services H) (session : Session)
    (completion : ReadCompletion H) (request : Request) :
    Leaves session completion
        (session.requestParsed services completion request) ∧
      ∀ response, .asyncWrite response ∈
          (session.requestParsed services completion request).operations →
        response = (session.requestParsed services completion
          request).session.response := by
  by_cases hfresh : session.Fresh completion
  · rw [requestParsed_fresh hfresh]
    obtain ⟨hleaves, hwrites⟩ :=
      serveRequest_leaves services session completion request
    refine ⟨hleaves, ?_⟩
    rw [hwrites]
    simp
  · rw [requestParsed_expired hfresh]
    refine ⟨rfl, ?_⟩
    simp [Outcome.of]

theorem handleReadCallback_leaves (services : Services H) (session : Session)
    (completion : ReadCompletion H) :
    Leaves session completion
        (session.handleReadCallback services completion) ∧
      ∀ response, .asyncWrite response ∈
          (session.handleReadCallback services completion).operations →
        response = (session.handleReadCallback services
          completion).session.response := by
  unfold handleReadCallback
  cases completion.error with
  | some message => exact ⟨⟨rfl, by simp [Outcome.of]⟩, by simp [Outcome.of]⟩
  | none =>
      simp only
      cases services.put (session.buffer ++ completion.bytes) with
      | error message => exact ⟨⟨_, _, rfl⟩, by simp [Outcome.of, write]⟩
      | incomplete =>
          exact ⟨⟨rfl, by simp [Outcome.of]⟩, by simp [Outcome.of]⟩
      | throws => exact ⟨⟨_, _, rfl⟩, by simp [Outcome.of, write]⟩
      | done request => exact requestParsed_leaves services _ completion request

/-- Where the handler that is called fills the response, the response is framed
when it is written, and of the fields of a refusal the exit tells. -/
theorem Leaves.response {outcome : Outcome H}
    (hleaves : Leaves session completion outcome)
    (hnodup : session.response.names.Nodup)
    (hfills : ∀ handler request, outcome.exit = .handled handler request →
      RequestHandler.Fills session.response
        (completion.handleRequest handler request session.response)) :
    outcome.session.response.names.Nodup ∧
      (∀ response, .asyncWrite response ∈ outcome.operations →
        outcome.session.response.Framed) ∧
      outcome.session.response.challenge =
        match outcome.exit.refuses with
        | some true => refusal
        | some false => (none, none)
        | none => session.response.challenge := by
  rw [Leaves] at hleaves
  cases hexit : outcome.exit with
  | readError | incomplete =>
      rw [hexit] at hleaves
      rw [hleaves.1]
      exact ⟨hnodup, fun response hwrite => (hleaves.2 response hwrite).elim,
        rfl⟩
  | badRequest | exception | notFound =>
      rw [hexit] at hleaves
      obtain ⟨status, body, hpage⟩ := hleaves
      obtain ⟨hframed, hchallenge⟩ :=
        Response.framed_make_reply status 11 body
      rw [hpage]
      exact ⟨hframed.nodup, fun _ _ => hframed, hchallenge⟩
  | unauthorized | expired =>
      rw [hexit] at hleaves
      have hframed := unauthorizedResponse_framed
      rw [hleaves]
      exact ⟨hframed.nodup, fun _ _ => hframed,
        unauthorizedResponse_challenge⟩
  | handled handler request =>
      rw [hexit] at hleaves
      have hfilled := hfills handler request hexit
      have hframed := hfilled.framed hnodup
      rw [hleaves]
      exact ⟨hframed.nodup, fun _ _ => hframed,
        hfilled.describes.challenge_eq⟩

end Session

namespace IoService

variable {services : Services RequestHandler} {fs fs' : FileSystem}
  {connection next : Connection} {completion : Completion} {done : Invocation}

theorem replyOf_fills {handler : RequestHandler} {req : Request}
    {res : Response} {replies : List Response}
    (hserve : Machine.run serve fs [(handler, req, res)] =
      .ok (replies, fs')) :
    RequestHandler.Fills res (Completion.replyOf fs handler req res) := by
  obtain ⟨answer, after, _, hanswer, _⟩ := Machine.run_cons_eq_ok_iff.mp hserve
  rw [serve] at hanswer
  rw [Completion.replyOf, hanswer]
  exact RequestHandler.handleRequest_fills hanswer

/-- What a callback of the server does to the response of its session. -/
theorem act_response
    (hnodup : connection.session.response.names.Nodup)
    (hact : act services fs connection completion = .ok (done, next, fs')) :
    next.session.response.names.Nodup ∧
      (∀ res, .asyncWrite res ∈ done.operations →
        res = next.session.response ∧ res.Framed) ∧
      next.session.response.challenge =
        match done.exit.bind Exit.refuses with
        | some true => Session.refusal
        | some false => (none, none)
        | none => connection.session.response.challenge := by
  obtain ⟨rfl, rfl, hcalls⟩ := act_eq_ok hact
  cases completion with
  | written error =>
      refine ⟨hnodup, ?_, rfl⟩
      cases error <;>
        simp [invocation, Connection.step, Completion.event,
          Session.handleWriteCallback]
  | read error bytes now authNow =>
      let completion : ReadCompletion RequestHandler :=
        ⟨error, bytes, now, authNow, Completion.replyOf fs⟩
      obtain ⟨hleaves, hwrites⟩ := Session.handleReadCallback_leaves services
        connection.session completion
      have hfills : ∀ handler request,
          (connection.session.handleReadCallback services completion).exit =
            .handled handler request →
          RequestHandler.Fills connection.session.response
            (Completion.replyOf fs handler request
              connection.session.response) := by
        intro handler request hexit
        have hcall : (invocation services fs connection
            (.read error bytes now authNow)).call =
              some (handler, request, connection.session.response) :=
          call_eq_some_iff.mpr ⟨error, bytes, now, authNow, rfl, hexit, rfl⟩
        rw [hcall] at hcalls
        exact replyOf_fills hcalls
      obtain ⟨hnames, hframed, hchallenge⟩ := hleaves.response hnodup hfills
      refine ⟨hnames, fun res hres => ?_, hchallenge⟩
      have hwritten := hwrites res hres
      refine ⟨hwritten, ?_⟩
      rw [hwritten]
      exact hframed res hres

/-! ## Whole runs -/

/-- Whether a refusal came last among the callbacks that put its fields into the
response or took them out. -/
def refusedLast (past : List Invocation) : Bool :=
  (past.filterMap fun done => done.exit.bind Exit.refuses).getLast?.getD false

theorem refusedLast_append (past : List Invocation) (done : Invocation) :
    refusedLast (past ++ [done]) =
      match done.exit.bind Exit.refuses with
      | some refused => refused
      | none => refusedLast past := by
  rw [refusedLast, List.filterMap_append]
  cases hexit : done.exit.bind Exit.refuses with
  | none => simp [hexit, refusedLast]
  | some refused => simp [hexit]

/-- The fields of a refusal are in the response exactly if a refusal came last. -/
structure Carries (past : List Invocation) (connection : Connection) : Prop where
  nodup : connection.session.response.names.Nodup
  challenge_eq : connection.session.response.challenge =
    if refusedLast past then Session.refusal else (none, none)

theorem Carries.start (credentials : Credentials) (authTime : Int16)
    (now : ℤ) :
    Carries [] (Connection.start (.make credentials authTime now)) :=
  ⟨List.nodup_nil, rfl⟩

theorem Carries.act {past : List Invocation}
    (hcarries : Carries past connection)
    (hact : act services fs connection completion = .ok (done, next, fs')) :
    (∀ res, .asyncWrite res ∈ done.operations → res.Framed ∧
      res.challenge = if refusedLast (past ++ [done]) then Session.refusal
        else (none, none)) ∧
      Carries (past ++ [done]) next := by
  obtain ⟨hnodup, hwrites, hchallenge⟩ := act_response hcarries.nodup hact
  have hnext : next.session.response.challenge =
      if refusedLast (past ++ [done]) then Session.refusal
        else (none, none) := by
    rw [hchallenge, refusedLast_append]
    cases done.exit.bind Exit.refuses with
    | none => exact hcarries.challenge_eq
    | some refused => cases refused <;> rfl
  refine ⟨fun res hres => ?_, hnodup, hnext⟩
  obtain ⟨rfl, hframed⟩ := hwrites res hres
  exact ⟨hframed, hnext⟩

variable {credentials : Credentials} {authTime : Int16} {now : ℤ}
  {pool : Pool FileSystem Server Connection} {events : List Event}
  {invocations : List (Option (ℕ × Invocation))}

/-- Whatever happens to the sessions of a server: of what a session writes, the
fields of a refusal depend on the callbacks of the session alone. -/
theorem run_carries
    (hrun : Machine.run (step services) (start credentials authTime now fs)
      events = .ok (invocations, pool)) {i : ℕ} {before after : List Invocation}
    (hdone : Pool.outputsOf i invocations = before ++ done :: after) :
    ∀ res, .asyncWrite res ∈ done.operations → res.Framed ∧
      res.challenge = if refusedLast (before ++ [done]) then Session.refusal
        else (none, none) := by
  exact run_outputs (Carries.start credentials authTime)
    (fun _ _ _ _ _ _ _ hcarries hact => hcarries.act hact) hrun hdone

theorem asyncWrite_of_response? {res : Response}
    (hres : done.response? = some res) : .asyncWrite res ∈ done.operations := by
  obtain ⟨operation, hmem, hoperation⟩ :=
    List.exists_of_findSome?_eq_some hres
  cases operation with
  | asyncWrite response =>
      cases hoperation
      exact hmem
  | asyncRead | shutdown => cases hoperation

/-- Every response that the server writes, in whatever session and whatever the
handlers of the session did before, names each field once and tells the length
of its own body. -/
theorem run_framed
    (hrun : Machine.run (step services) (start credentials authTime now fs)
      events = .ok (invocations, pool)) {i : ℕ}
    (hdone : some (i, done) ∈ invocations) {res : Response}
    (hwrite : .asyncWrite res ∈ done.operations) :
    (res.fields.map Prod.fst).Nodup ∧
      res.find .contentLength = some (Text.decimal res.body.length) := by
  obtain ⟨before, after, houtputs⟩ :=
    List.append_of_mem (Pool.mem_outputsOf_iff.mpr hdone)
  obtain ⟨hframed, _⟩ := run_carries hrun houtputs res hwrite
  exact ⟨hframed.nodup, hframed.length⟩

theorem run_framed_shoes :
    ∃ invocations pool done res,
      Machine.run (step shoesServices) shoesStart shoesEvents =
        .ok (invocations, pool) ∧
      some (0, done) ∈ invocations ∧ .asyncWrite res ∈ done.operations ∧
      (res.fields.map Prod.fst).Nodup ∧
        res.find .contentLength = some (Text.decimal res.body.length) := by
  have hshown : (Machine.run (step shoesServices) shoesStart shoesEvents).map
      (fun run => (Pool.outputsOf 0 run.1).map fun done =>
        done.response?.map Response.result) = .ok [some .ok] := by
    decide +kernel
  obtain ⟨⟨invocations, pool⟩, hrun, houtputs⟩ :=
    Machine.map_eq_ok_iff.mp hshown
  obtain ⟨done, rest, hcons, hresult, _⟩ := List.map_eq_cons_iff.mp houtputs
  obtain ⟨res, hres, _⟩ := Option.map_eq_some_iff.mp hresult
  have hdone : done ∈ Pool.outputsOf 0 invocations := by
    rw [hcons]
    exact List.mem_cons_self
  have hmem := Pool.mem_outputsOf_iff.mp hdone
  have hwrite := asyncWrite_of_response? hres
  exact ⟨invocations, pool, done, res, hrun, hmem, hwrite,
    run_framed hrun hmem hwrite⟩

/-- A session writes the fields of a refusal with its refusals, and with what
its handlers answer behind one, until an error page takes them out. -/
theorem run_challenge
    (hrun : Machine.run (step services) (start credentials authTime now fs)
      events = .ok (invocations, pool)) {i : ℕ} {before after : List Invocation}
    (hdone : Pool.outputsOf i invocations = before ++ done :: after)
    {res : Response} (hwrite : .asyncWrite res ∈ done.operations) :
    res.find .server =
        (if refusedLast (before ++ [done]) then some "Beast".toList
        else none) ∧
      res.find .wwwAuthenticate =
        if refusedLast (before ++ [done]) then
          some "Basic realm=\"User Visible Realm\"".toList
        else none := by
  obtain ⟨_, hchallenge⟩ := run_carries hrun hdone res hwrite
  cases hrefused : refusedLast (before ++ [done]) with
  | true =>
      rw [hrefused, if_pos rfl] at hchallenge
      exact Prod.mk.inj hchallenge
  | false =>
      rw [hrefused, if_neg Bool.false_ne_true] at hchallenge
      exact Prod.mk.inj hchallenge

/-- The client sends the request after the authorization time, and again. -/
def lateEvents : List Event :=
  [.join ⟨none, 0⟩, .act 0 (.read none shoesBytes 20000000000 20000000000),
    .act 0 (.read none ['\n'] 21000000000 21000000000)]

/-- The record is made, and the answer asks for the credentials. -/
theorem run_challenge_late :
    ∃ invocations pool expired done res,
      Machine.run (step shoesServices) shoesStart lateEvents =
        .ok (invocations, pool) ∧
      Pool.outputsOf 0 invocations = [expired, done] ∧
      .asyncWrite res ∈ done.operations ∧ res.result = .ok ∧
      res.find .server = some "Beast".toList ∧
      res.find .wwwAuthenticate =
        some "Basic realm=\"User Visible Realm\"".toList := by
  have hshown : (Machine.run (step shoesServices) shoesStart lateEvents).map
      (fun run => (Pool.outputsOf 0 run.1).map fun done =>
        (done.response?.map Response.result, done.exit.bind Exit.refuses)) =
      .ok [(some .unauthorized, some true), (some .ok, none)] := by
    decide +kernel
  obtain ⟨⟨invocations, pool⟩, hrun, hmap⟩ := Machine.map_eq_ok_iff.mp hshown
  obtain ⟨expired, _, houtputs, hexpired, hrest⟩ :=
    List.map_eq_cons_iff.mp hmap
  obtain ⟨done, rest, rfl, hserved, hnil⟩ := List.map_eq_cons_iff.mp hrest
  rw [List.map_eq_nil_iff] at hnil
  subst hnil
  obtain ⟨hresponse, hkept⟩ := Prod.mk.inj hserved
  obtain ⟨res, hres, hok⟩ := Option.map_eq_some_iff.mp hresponse
  have hwrite := asyncWrite_of_response? hres
  have hlast : refusedLast ([expired] ++ [done]) = true := by
    rw [refusedLast_append, hkept]
    change (([expired].filterMap fun done =>
      done.exit.bind Exit.refuses).getLast?.getD false) = true
    simp [(Prod.mk.inj hexpired).2]
  have hsplit : Pool.outputsOf 0 invocations = [expired] ++ done :: [] :=
    houtputs
  have hchallenge := run_challenge hrun hsplit hwrite
  rw [hlast] at hchallenge
  exact ⟨invocations, pool, expired, done, res, hrun, houtputs, hwrite, hok,
    hchallenge⟩

end IoService

end Swifties
