import Swifties.RequestHandlerAPI

/-!
# The request handlers

The handlers a location can name, and the one for everything else.  The static
handler maps the target into its root and serves the file found there; the
others answer from the request alone.
-/

namespace Swifties

open FileTree

def mappings : List (Text × Text) :=
  [("gif".toList, "image/gif".toList), ("htm".toList, "text/html".toList),
    ("html".toList, "text/html".toList), ("jpg".toList, "image/jpeg".toList),
    ("png".toList, "image/png".toList),
    ("pdf".toList, "application/pdf".toList)]

def extensionToType (extension : Text) : Text :=
  match mappings.find? fun m => m.1 == extension with
  | some m => m.2
  | none => "text/plain".toList

structure RequestHandlerStatic where
  root : Text
  pathPrefix : Text
deriving DecidableEq, Repr

namespace RequestHandlerStatic

/-- The two `replace` calls: the prefix by the root, then the first character
by `../`. -/
def uri (handler : RequestHandlerStatic) (target : Text) : Text :=
  "../".toList ++
    (handler.root ++ target.drop handler.pathPrefix.length).drop 1

/-- The last branch is that of a path which is not one of a regular file, and
again that of a regular file which cannot be opened. -/
def handleRequest (handler : RequestHandlerStatic) (req : Request)
    (res : Response) (fs : FileSystem) : Response :=
  let uri := handler.uri req.target
  match fs.status uri with
  | some (.file body) =>
      let extension :=
        match uri.findLastOf '.' with
        | some cursor => uri.drop (cursor + 1)
        | none => []
      let res := Response.contentLength
        { res with result := .ok, version := req.version } body.length
      Response.preparePayload
        { res.set .contentType (extensionToType extension) with body := body }
  | _ =>
      Response.preparePayload
        { Response.set { res with result := .notFound, version := req.version }
            .contentType "text/plain".toList with
          body := "File not found".toList }

end RequestHandlerStatic

def requestToString (req : Request) : Text :=
  req.methodString ++ [' '] ++ req.target ++ " HTTP/".toList ++
    Text.decimal (req.version / 10 : ℕ) ++ ['.'] ++
    Text.decimal (req.version % 10 : ℕ) ++ ['\r', '\n'] ++
    (req.fields.flatMap fun field =>
      field.1 ++ ": ".toList ++ field.2 ++ ['\r', '\n']) ++
    ['\r', '\n'] ++ req.body

/-- What the echo, health and 404 handlers do with their own status and body. -/
def plainReply (status : Status) (body : Text) (req : Request)
    (res : Response) : Response :=
  Response.preparePayload
    (Response.contentLength
      (Response.set
        { res with version := req.version, result := status, body := body }
        .contentType "text/plain".toList)
      body.length)

def RequestHandlerEcho.handleRequest (req : Request) (res : Response) :
    Response :=
  plainReply .ok (requestToString req) req res

def RequestHandlerHealth.handleRequest (req : Request) (res : Response) :
    Response :=
  plainReply .ok "OK".toList req res

def RequestHandler404.handleRequest (req : Request) (res : Response) :
    Response :=
  plainReply .notFound "Invalid request type, Handler not found".toList req res

def RequestHandlerSleep.handleRequest (req : Request) (res : Response) :
    Response :=
  Response.preparePayload
    { Response.set { res with result := .ok, version := req.version }
        .contentType "text/plain".toList with
      body := "Processed after a delay".toList }

inductive RequestHandler where
  | static (handler : RequestHandlerStatic)
  | echo
  | api (handler : RequestHandlerAPI)
  | health
  | sleep
  | notFound
deriving DecidableEq, Repr

namespace RequestHandler

def handleRequest (handler : RequestHandler) (req : Request)
    (res : Response) (fs : FileSystem) :
    Except Fault (Response × FileSystem) :=
  match handler with
  | .static handler => .ok (handler.handleRequest req res fs, fs)
  | .echo => .ok (RequestHandlerEcho.handleRequest req res, fs)
  | .api handler => handler.handleRequest req res fs
  | .health => .ok (RequestHandlerHealth.handleRequest req res, fs)
  | .sleep => .ok (RequestHandlerSleep.handleRequest req res, fs)
  | .notFound => .ok (RequestHandler404.handleRequest req res, fs)

end RequestHandler

end Swifties
