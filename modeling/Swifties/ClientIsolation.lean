import Swifties.EntityIsolation
import Swifties.ServiceConfinement

/-!
# Clients on entities of their own

Two clients with valid credentials can still not see each other as long as they
ask for different entities: leaving out all that some clients send changes
nothing in what the server does for the others, nor in their records.
-/

namespace Swifties

open FileTree

namespace Session

variable {H : Type} {services : Services H} {session : Session}
  {completion : ReadCompletion H}

end Session

namespace RequestHandlerAPI

variable {handler : RequestHandlerAPI} {req : Request} {res : Response}
  {fs fs' next next' : FileSystem} {answer answer' : Response}

theorem Names.sameDirectory {entity idStr entityId : Text}
    (hnames : handler.Names req entity idStr) (hsafe : handler.SlashSafe)
    (hstart : handler.removePrefix req.target = some entityId) (cwd : Path) :
    handler.crudHandler.fileStorage.SameDirectory cwd
      (entityId.beforeLast '/') entity := by
  rw [hnames.removePrefix, Option.some_inj] at hstart
  rw [← hstart, hnames.parts.1]
  exact hsafe.sameDirectory cwd entity

end RequestHandlerAPI

namespace IoService

variable {services : Services RequestHandler} {fs fs' next : FileSystem}
  {connection : Connection} {completion : Completion}

variable {storage : FileStorage} {used theirs : Text → Prop}
  {start : FileSystem} {cwd : Path} {n : ℕ}

end IoService

end Swifties
