import Swifties.ApiRecords
import Swifties.RequestHandlers

/-!
# Responses that are used again

A session hands its one response object to every handler.  A handler overwrites
the status, the body and the content type of it, whatever they were, except
that an update of a record leaves the body as it is.
-/

namespace Swifties

open FileTree

namespace Response

def find (res : Response) (field : Field) : Option Text :=
  (res.fields.find? fun entry => decide (entry.1 = field)).map Prod.snd

/-- What a client sees of a response. -/
def shown (res : Response) : Status × Text × Option Text :=
  (res.result, res.body, res.find .contentType)

theorem find_set_self (res : Response) (field : Field) (value : Text) :
    (res.set field value).find field = some value := by
  have hnone : ((res.fields.filter fun entry => decide (entry.1 ≠ field)).find?
      fun entry => decide (entry.1 = field)) = none := by
    rw [List.find?_eq_none]
    intro entry hmem
    simpa using List.of_mem_filter hmem
  rw [find, set, List.find?_append, hnone]
  simp

theorem find_set_of_ne (res : Response) {field other : Field}
    (hne : other ≠ field) (value : Text) :
    (res.set other value).find field = res.find field := by
  have hkept : ((res.fields.filter fun entry => decide (entry.1 ≠ other)).find?
      fun entry => decide (entry.1 = field)) =
        res.fields.find? fun entry => decide (entry.1 = field) := by
    rw [List.find?_filter]
    congr 1
    funext entry
    rw [decide_eq_decide, decide_eq_true_eq, decide_eq_true_eq]
    constructor
    · exact And.right
    · rintro rfl
      exact ⟨hne.symm, rfl⟩
  rw [find, set, List.find?_append, hkept]
  simp [hne, find]

theorem shown_set_contentType (res : Response) (version : ℕ)
    (status : Status) (value body : Text) :
    shown ⟨version, status, (res.set .contentType value).fields, body⟩ =
      (status, body, some value) := by
  rw [← find_set_self res .contentType value]
  rfl

@[simp] theorem shown_preparePayload (res : Response) :
    res.preparePayload.shown = res.shown := by
  rw [shown, preparePayload, contentLength, find_set_of_ne res (by decide)]
  rfl

@[simp] theorem shown_reply (res : Response) (status : Status) (body : Text) :
    (res.reply status body).shown = (status, body, res.find .contentType) := by
  rw [reply, shown_preparePayload]
  rfl

end Response

namespace RequestHandlerAPI

theorem find_typed (req : Request) (res : Response) :
    (typed req res).find .contentType = some "application/json".toList :=
  Response.find_set_self _ _ _

/-- A branch that sets the status and the body, both without a look at the
response. -/
def Replies (branch : Response → Except Fault (Response × FileSystem)) :
    Prop :=
  ∃ reply : Except Fault ((Status × Text) × FileSystem), ∀ res,
    branch res = reply.map fun r => (res.reply r.1.1 r.1.2, r.2)

variable {handler : RequestHandlerAPI} {req : Request} {fs : FileSystem}

theorem handlePost_replies (handler : RequestHandlerAPI) (req : Request)
    (fs : FileSystem) :
    Replies fun res => handler.handlePost req res fs := by
  cases hcreate : handler.crudHandler.create (req.target.afterLast '/')
      req.body fs with
  | error fault =>
      refine ⟨.error fault, fun res => ?_⟩
      simp only [handlePost, hcreate]
      rfl
  | ok created =>
      refine ⟨.ok ((.ok, created.1), created.2), fun res => ?_⟩
      simp only [handlePost, hcreate]
      rfl

theorem handleGet_replies (handler : RequestHandlerAPI) (req : Request)
    (fs : FileSystem) :
    Replies fun res => handler.handleGet req res fs := by
  unfold Replies handleGet
  cases handler.removePrefix req.target with
  | none => exact ⟨.ok ((.notFound, _), fs), fun res => rfl⟩
  | some entityId =>
      simp only
      split
      next =>
        cases Text.lexicalCast (entityId.afterLast '/') with
        | none => exact ⟨.ok ((.notFound, _), fs), fun res => rfl⟩
        | some id =>
            simp only
            split
            next => exact ⟨.ok ((.ok, _), fs), fun res => rfl⟩
            next => exact ⟨.ok ((.notFound, _), fs), fun res => rfl⟩
      next =>
        cases handler.list entityId fs with
        | error fault => exact ⟨.error fault, fun res => rfl⟩
        | ok body => exact ⟨.ok ((.ok, body), fs), fun res => rfl⟩

theorem handleDelete_replies (handler : RequestHandlerAPI) (req : Request)
    (fs : FileSystem) :
    Replies fun res => handler.handleDelete req res fs := by
  unfold Replies handleDelete
  cases handler.removePrefix req.target with
  | none => exact ⟨.ok ((.notFound, _), fs), fun res => rfl⟩
  | some entityId =>
      simp only
      cases Text.lexicalCast (entityId.afterLast '/') with
      | none => exact ⟨.ok ((.badRequest, _), fs), fun res => rfl⟩
      | some id =>
          simp only
          cases handler.crudHandler.delete (entityId.beforeLast '/') id fs with
          | error fault => exact ⟨.error fault, fun res => rfl⟩
          | ok result =>
              obtain ⟨success, removed⟩ := result
              cases success with
              | false => exact ⟨.ok ((.notFound, _), removed), fun res => rfl⟩
              | true => exact ⟨.ok ((.ok, _), removed), fun res => rfl⟩

/-- An update does so too, where there is no record to update. -/
theorem handlePut_replies
    (habsent : ∀ entity id, handler.record? req.target = some (entity, id) →
      handler.crudHandler.exists? entity id fs = false) :
    Replies fun res => handler.handlePut req res fs := by
  refine ⟨.ok ((.notFound, "Invalid Request".toList), fs), fun res => ?_⟩
  simp only [handlePut]
  cases hstart : handler.removePrefix req.target with
  | none => rfl
  | some entityId =>
      cases hcast : Text.lexicalCast (entityId.afterLast '/') with
      | none => simp [hcast, Except.map]
      | some id =>
          have hnone := habsent (entityId.beforeLast '/') id
            (record?_eq_some_iff.mpr ⟨entityId, hstart, hcast, rfl⟩)
          simp [hcast, CRUDHandler.update, hnone, bind, Except.bind, Except.map]

theorem Replies.shown_eq
    {branch : Response → Except Fault (Response × FileSystem)}
    (hreplies : Replies branch) (req : Request) (res res' : Response) :
    (branch (typed req res)).map (fun answer => answer.1.shown) =
      (branch (typed req res')).map fun answer => answer.1.shown := by
  obtain ⟨reply, hreply⟩ := hreplies
  rw [hreply, hreply]
  cases reply with
  | error fault => rfl
  | ok r => simp [Except.map, find_typed]

end RequestHandlerAPI

namespace RequestHandler

/-- The status, the body and the content type of the answer do not depend on
the response that the handler is given. -/
def IgnoresResponse (handler : RequestHandler) (req : Request)
    (fs : FileSystem) : Prop :=
  ∀ res res' : Response,
    (handler.handleRequest req res fs).map (fun answer => answer.1.shown) =
      (handler.handleRequest req res' fs).map fun answer => answer.1.shown

/-- The request is an update of a record that is there. -/
def UpdatesRecord (handler : RequestHandler) (req : Request)
    (fs : FileSystem) : Prop :=
  ∃ api entity id, handler = .api api ∧ req.method = .put ∧
    api.record? req.target = some (entity, id) ∧
    api.crudHandler.exists? entity id fs = true

variable {req : Request} {fs : FileSystem}

theorem shown_plainReply (status : Status) (body : Text) (req : Request)
    (res : Response) :
    (plainReply status body req res).shown =
      (status, body, some "text/plain".toList) := by
  rw [plainReply, Response.shown_preparePayload, Response.contentLength,
    Response.shown, Response.find_set_of_ne _ (by decide),
    Response.find_set_self]
  rfl

theorem shown_static (handler : RequestHandlerStatic) (req : Request)
    (fs : FileSystem) (res res' : Response) :
    (handler.handleRequest req res fs).shown =
      (handler.handleRequest req res' fs).shown := by
  unfold RequestHandlerStatic.handleRequest
  simp only
  split
  next body _ =>
    simp only [Response.shown_preparePayload, Response.shown_set_contentType]
    rfl
  next =>
    simp only [Response.shown_preparePayload, Response.shown_set_contentType]
    rfl

theorem shown_sleep (req : Request) (res : Response) :
    (RequestHandlerSleep.handleRequest req res).shown =
      (.ok, "Processed after a delay".toList, some "text/plain".toList) := by
  rw [RequestHandlerSleep.handleRequest, Response.shown_preparePayload,
    Response.shown_set_contentType]
  rfl

theorem body_of_shown {first second : Except Fault (Response × FileSystem)}
    (hshown : first.map (fun answer => answer.1.shown) =
      second.map fun answer => answer.1.shown) :
    first.map (fun answer => answer.1.body) =
      second.map fun answer => answer.1.body := by
  have hbodies := congrArg (Except.map fun shown => shown.2.1) hshown
  cases first <;> cases second <;> exact hbodies

theorem ignoresResponse_api {handler : RequestHandlerAPI}
    (habsent : req.method = .put → ∀ entity id,
      handler.record? req.target = some (entity, id) →
      handler.crudHandler.exists? entity id fs = false) :
    IgnoresResponse (.api handler) req fs := by
  intro res res'
  simp only [handleRequest, RequestHandlerAPI.handleRequest]
  cases hmethod : req.method with
  | post => exact (handler.handlePost_replies req fs).shown_eq req res res'
  | get => exact (handler.handleGet_replies req fs).shown_eq req res res'
  | put =>
      exact (RequestHandlerAPI.handlePut_replies (habsent hmethod)).shown_eq req
        res res'
  | delete => exact (handler.handleDelete_replies req fs).shown_eq req res res'
  | other =>
      have hother : RequestHandlerAPI.Replies fun res : Response =>
          .ok (res.reply .badRequest
            "\x7b\"error\": \"Unsupported HTTP method\"\x7d".toList, fs) :=
        ⟨.ok ((.badRequest, _), fs), fun res => rfl⟩
      exact hother.shown_eq req res res'

/-- Exactly the updates of a record show what was in the response before. -/
theorem ignoresResponse_iff (handler : RequestHandler) (req : Request)
    (fs : FileSystem) :
    handler.IgnoresResponse req fs ↔ ¬ handler.UpdatesRecord req fs := by
  constructor
  · rintro hignores ⟨api, entity, id, rfl, hput, hrecord, hexists⟩
    rw [CRUDHandler.exists?_eq, Option.isSome_iff_exists] at hexists
    obtain ⟨node, hnode⟩ := hexists
    have hbody : ∀ res : Response,
        ((RequestHandler.api api).handleRequest req res fs).map
          (fun answer => answer.1.body) = .ok res.body := by
      intro res
      obtain ⟨answer, next, hanswer, hok, _⟩ :=
        RequestHandlerAPI.put_present hput hrecord hnode res
      rw [handleRequest, hanswer]
      rcases RequestHandlerAPI.put_ok_cases hput hanswer with ⟨hnot, _⟩ |
        ⟨_, _, _, _, _, _, rfl⟩
      · exact (hnot hok).elim
      · rfl
    let first := Response.make .ok 11
    let second : Response := { first with body := ['x'] }
    have hsame := body_of_shown (hignores first second)
    rw [hbody, hbody] at hsame
    cases hsame
  · intro hnot
    cases handler with
    | static handler =>
        intro res res'
        simp only [handleRequest, Except.map, Except.ok.injEq]
        exact shown_static handler req fs res res'
    | echo =>
        intro res res'
        simp only [handleRequest, Except.map, RequestHandlerEcho.handleRequest,
          shown_plainReply]
    | health =>
        intro res res'
        simp only [handleRequest, Except.map,
          RequestHandlerHealth.handleRequest, shown_plainReply]
    | sleep =>
        intro res res'
        simp only [handleRequest, Except.map, shown_sleep]
    | notFound =>
        intro res res'
        simp only [handleRequest, Except.map, RequestHandler404.handleRequest,
          shown_plainReply]
    | api handler =>
        apply ignoresResponse_api
        intro hput entity id hrecord
        by_contra hexists
        rw [Bool.not_eq_false] at hexists
        exact hnot ⟨handler, entity, id, rfl, hput, hrecord, hexists⟩

/-- The answer to an update has the body of the answer before it. -/
theorem not_ignoresResponse_update :
    let handler : RequestHandlerAPI := ⟨⟨⟨"data/".toList⟩⟩, "/api".toList⟩
    let put : Request := ⟨"PUT".toList, "/api/Shoes/1".toList, 11, [], ['y']⟩
    let used := (Response.make .ok 11).reply .ok ['O', 'K']
    ∃ fs, (handler.handleRequest
          ⟨"POST".toList, "/api/Shoes".toList, 11, [], ['x']⟩ (.make .ok 11)
          (FileSystem.empty ["srv".toList])).map Prod.snd = .ok fs ∧
      (handler.handleRequest put (.make .ok 11) fs).map
          (fun answer => answer.1.body) = .ok [] ∧
      (handler.handleRequest put used fs).map
          (fun answer => answer.1.body) = .ok ['O', 'K'] ∧
      ¬ IgnoresResponse (.api handler) put fs := by
  intro handler put used
  have hbodies : (handler.handleRequest
      ⟨"POST".toList, "/api/Shoes".toList, 11, [], ['x']⟩ (.make .ok 11)
      (FileSystem.empty ["srv".toList])).map (fun created =>
        ((handler.handleRequest put (.make .ok 11) created.2).map
            (fun answer => answer.1.body),
          (handler.handleRequest put used created.2).map
            (fun answer => answer.1.body))) = .ok (.ok [], .ok ['O', 'K']) := by
    decide +kernel
  obtain ⟨⟨created, fs⟩, hcreated, hput⟩ := Machine.map_eq_ok_iff.mp hbodies
  obtain ⟨hfresh, hused⟩ := Prod.mk.inj hput
  refine ⟨fs, ?_, hfresh, hused, fun hignores => ?_⟩
  · rw [hcreated]
    rfl
  · have hbody := body_of_shown (hignores (.make .ok 11) used)
    simp only [handleRequest] at hbody
    have hsame := hfresh.symm.trans (hbody.trans hused)
    cases hsame

end RequestHandler

end Swifties
