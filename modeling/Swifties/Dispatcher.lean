import Swifties.ConfigTree
import Swifties.RequestHandlers
import Swifties.RoutingTable

/-!
# The request handler dispatcher

`initRequestHandlers` registers the locations of the first `server` block in
order, and the 404 handler for `/` if nothing else took it.  Reading a token
that is not there, or following a null `child_block_`, has no defined result:
the functions below are `none` where that happens.
-/

namespace Swifties

open BlockGrammar RoutingTable

namespace RequestHandlerDispatcher

abbrev Handlers := Table Char RequestHandler

def rootLoop : Text → NginxConfig → Option Text
  | root, [] => some root
  | root, statement :: rest =>
      match statement.tokens with
      | [] => none
      | [first, second] =>
          rootLoop (if first = "root".toList then second else root) rest
      | _ => rootLoop root rest

/-- The handler that `registerPath` makes for a type; the inner `none` is an
unknown type. -/
def makeHandler (pathUri handlerType : Text) (config : NginxConfig) :
    Option (Option RequestHandler) :=
  if handlerType = "StaticHandler".toList then
    (rootLoop ['/'] config).map fun root => some (.static ⟨root, pathUri⟩)
  else if handlerType = "EchoHandler".toList then some (some .echo)
  else if handlerType = "APIHandler".toList then
    (rootLoop ['/'] config).map fun root =>
      some (.api ⟨⟨⟨root⟩⟩, pathUri⟩)
  else if handlerType = "HealthHandler".toList then some (some .health)
  else if handlerType = "SleepHandler".toList then some (some .sleep)
  else some none

def registerPath (handlers : Handlers) (pathUri handlerType : Text)
    (config : NginxConfig) : Option (Bool × Handlers) :=
  let pathUri := pathUri.stripTrailingSlashes
  if handlers.contains pathUri then some (false, handlers)
  else
    match makeHandler pathUri handlerType config with
    | none => none
    | some none => some (false, handlers)
    | some (some handler) => some (true, handlers.insert pathUri handler)

def registerLocations : Handlers → NginxConfig → Option (ℕ × Handlers)
  | handlers, [] => some (0, handlers)
  | handlers, statement :: rest =>
      match statement.tokens with
      | [] => none
      | first :: arguments =>
          if first ≠ "location".toList then registerLocations handlers rest
          else
            match arguments, statement.childBlock with
            | pathUri :: handlerType :: _, some block =>
                match registerPath handlers pathUri handlerType block with
                | none => none
                | some (registered, handlers) =>
                    (registerLocations handlers rest).map fun result =>
                      (result.1 + registered.toNat, result.2)
            | _, _ => none

/-- The loop over the top-level statements, which stops after the first
`server` statement of one token. -/
def registerServer (handlers : Handlers) :
    NginxConfig → Option (ℕ × Handlers)
  | [] => some (0, handlers)
  | statement :: rest =>
      match statement.tokens with
      | [] => none
      | first :: arguments =>
          if first = "server".toList ∧ arguments = [] then
            match statement.childBlock with
            | none => none
            | some block => registerLocations handlers block
          else registerServer handlers rest

def initRequestHandlers (handlers : Handlers) (config : NginxConfig) :
    Option (ℕ × Handlers) :=
  (registerServer handlers config).map fun result =>
    (result.1,
      if result.2.contains ['/'] then result.2
      else result.2.insert ['/'] .notFound)

def getRequestHandler (handlers : Handlers) (target : Text) :
    Option RequestHandler :=
  longestMatch handlers target.stripTrailingSlashes

end RequestHandlerDispatcher

end Swifties
