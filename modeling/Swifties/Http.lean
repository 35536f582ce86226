import Swifties.Text

/-!
# Requests and responses

The parts of a Beast message that the server reads or writes.  Fields keep
their order; a request is searched by name without regard to letter case, and
a response only ever carries the four fields below.
-/

namespace Swifties

inductive Verb where
  | get
  | post
  | put
  | delete
  | other
deriving DecidableEq, Repr

inductive Status where
  | ok
  | badRequest
  | unauthorized
  | notFound
  | internalServerError
deriving DecidableEq, Repr

inductive Field where
  | contentType
  | contentLength
  | server
  | wwwAuthenticate
deriving DecidableEq, Repr

structure Request where
  methodString : Text
  target : Text
  version : ℕ
  fields : List (Text × Text)
  body : Text
deriving DecidableEq, Repr

namespace Request

/-- `other` stands for every verb that no handler asks for. -/
def method (req : Request) : Verb :=
  if req.methodString = "GET".toList then .get
  else if req.methodString = "POST".toList then .post
  else if req.methodString = "PUT".toList then .put
  else if req.methodString = "DELETE".toList then .delete
  else .other

def sameName (a b : Text) : Bool := a.map Char.toLower == b.map Char.toLower

def find (req : Request) (name : Text) : Option Text :=
  (req.fields.find? fun field => sameName field.1 name).map Prod.snd

def set (req : Request) (name value : Text) : Request :=
  { req with
    fields := (req.fields.filter fun field => !sameName field.1 name) ++
      [(name, value)] }

end Request

structure Response where
  version : ℕ
  result : Status
  fields : List (Field × Text)
  body : Text
deriving DecidableEq, Repr

namespace Response

def make (status : Status) (version : ℕ) : Response where
  version := version
  result := status
  fields := []
  body := []

def set (res : Response) (field : Field) (value : Text) : Response :=
  { res with
    fields := (res.fields.filter fun entry => decide (entry.1 ≠ field)) ++
      [(field, value)] }

def contentLength (res : Response) (n : ℕ) : Response :=
  res.set .contentLength (Text.decimal n)

def preparePayload (res : Response) : Response :=
  res.contentLength res.body.length

def reply (res : Response) (status : Status) (body : Text) : Response :=
  preparePayload { res with result := status, body := body }

@[simp] theorem set_result (res : Response) (field : Field) (value : Text) :
    (res.set field value).result = res.result := rfl

@[simp] theorem set_body (res : Response) (field : Field) (value : Text) :
    (res.set field value).body = res.body := rfl

@[simp] theorem preparePayload_result (res : Response) :
    res.preparePayload.result = res.result := rfl

@[simp] theorem preparePayload_body (res : Response) :
    res.preparePayload.body = res.body := rfl

@[simp] theorem reply_result (res : Response) (status : Status)
    (body : Text) : (res.reply status body).result = status := rfl

@[simp] theorem reply_body (res : Response) (status : Status) (body : Text) :
    (res.reply status body).body = body := rfl

end Response

end Swifties
