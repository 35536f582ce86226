import Swifties.Base64Decoding
import Swifties.ConfigLayout
import Swifties.ConfigNumbers
import Swifties.ConfigReprint
import Swifties.DispatcherRuns
import Swifties.SessionClock
import Swifties.SessionCredentials
import Swifties.Startup

/-!
# From a deployment to the running server

A deployment says what a config is written for: a port, a timer, users and
locations.  Printed as a config and read back by `main`, it becomes a server
with exactly this port, this timer, these users and these routes.
-/

namespace Swifties

open BlockGrammar RequestHandlerDispatcher RoutingTable

inductive LocationType where
  | static (root : Text)
  | echo
  | api (root : Text)
  | health
  | sleep
deriving DecidableEq, Repr

namespace LocationType

def name : LocationType → Text
  | .static _ => "StaticHandler".toList
  | .echo => "EchoHandler".toList
  | .api _ => "APIHandler".toList
  | .health => "HealthHandler".toList
  | .sleep => "SleepHandler".toList

def root? : LocationType → Option Text
  | .static root => some root
  | .api root => some root
  | _ => none

def handler (path : Text) : LocationType → RequestHandler
  | .static root => .static ⟨root, path⟩
  | .echo => .echo
  | .api root => .api ⟨⟨⟨root⟩⟩, path⟩
  | .health => .health
  | .sleep => .sleep

def block (type : LocationType) : NginxConfig :=
  type.root?.toList.map fun root => .simple ["root".toList, root]

end LocationType

/-- A port and a timer in the ranges that the server keeps, and users, paths and
roots that can be written without quotes. -/
structure Deployment where
  port : ℕ
  timer : ℕ
  users : List (Text × Text)
  locations : List (Text × LocationType)
  port_le : port ≤ 65535
  timer_le : timer ≤ 32767
  user_token : ∀ user ∈ users,
    ':' ∉ user.1 ∧ WordToken (user.1 ++ ':' :: user.2)
  location_token : ∀ location ∈ locations,
    WordToken location.1 ∧ ∀ root ∈ location.2.root?, WordToken root

namespace Deployment

def userStatement (user : Text × Text) : NginxConfigStatement :=
  .simple [user.1 ++ ':' :: user.2]

def locationStatement (location : Text × LocationType) : NginxConfigStatement :=
  .block ["location".toList, location.1, location.2.name] location.2.block

def config (d : Deployment) : NginxConfig :=
  [.simple ["port".toList, Text.decimal d.port],
    .simple ["timer".toList, Text.decimal d.timer],
    .block ["credentials".toList] (d.users.map userStatement),
    .block ["server".toList] (d.locations.map locationStatement)]

def text (d : Deployment) : Text := NginxConfig.toString 0 d.config

/-- The handler of the first location with the longest path that the target
begins with, or the 404 handler where there is none. -/
inductive Serves (d : Deployment) (target : Text) : RequestHandler → Prop
  | location {before after : List (Text × LocationType)} {path : Text}
      {type : LocationType} : d.locations = before ++ (path, type) :: after →
      path.stripTrailingSlashes <+: target.stripTrailingSlashes →
      (∀ other ∈ d.locations,
        other.1.stripTrailingSlashes <+: target.stripTrailingSlashes →
        other.1.stripTrailingSlashes.length ≤
          path.stripTrailingSlashes.length) →
      (∀ earlier ∈ before,
        earlier.1.stripTrailingSlashes ≠ path.stripTrailingSlashes) →
      Serves d target (type.handler path.stripTrailingSlashes)
  | nothing : (∀ other ∈ d.locations, other.1.stripTrailingSlashes ≠ [] →
      ¬ other.1.stripTrailingSlashes <+: target.stripTrailingSlashes) →
      Serves d target .notFound

/-! ## The text is read back -/

theorem wordToken_alphanum {v : Text} (hne : v ≠ [])
    (hall : v.all Char.isAlphanum = true) : WordToken v := by
  have hplain : PlainWord v := by
    refine ⟨hne, fun c hc hmem => ?_⟩
    have halpha := List.all_eq_true.mp hall c hc
    simp only [List.mem_cons, List.not_mem_nil, or_false] at hmem
    rcases hmem with rfl | rfl | rfl | rfl | rfl | rfl | rfl | rfl | rfl | rfl <;>
      cases halpha
  exact hplain.wordToken

theorem wordToken_decimal (n : ℕ) : WordToken (Text.decimal n) := by
  apply wordToken_alphanum (Text.decimal_ne_nil n)
  rw [List.all_eq_true]
  intro c hc
  have hdigit : c.isDigit = true := Text.isDigit_of_mem_toDigits hc
  simp [Char.isAlphanum, hdigit]

theorem wordToken_name (type : LocationType) : WordToken type.name := by
  cases type <;> exact wordToken_alphanum (List.cons_ne_nil _ _) rfl

theorem wordToken_location : WordToken "location".toList :=
  wordToken_alphanum (List.cons_ne_nil _ _) rfl

theorem wordToken_root : WordToken "root".toList :=
  wordToken_alphanum (List.cons_ne_nil _ _) rfl

theorem printableTokens {tokens : List Text} (hne : tokens ≠ [])
    (hwords : ∀ token ∈ tokens, WordToken token) : PrintableTokens tokens :=
  ⟨hne, fun token hmem => .inl (hwords token hmem)⟩

theorem printable_map {β : Type} {f : β → NginxConfigStatement} {xs : List β}
    (hprintable : ∀ x ∈ xs, PrintableStatement (f x)) : Printable (xs.map f) := by
  induction xs with
  | nil => trivial
  | cons x xs ih =>
      rw [List.forall_mem_cons] at hprintable
      exact ⟨hprintable.1, ih hprintable.2⟩

variable (d : Deployment)

theorem printable : Printable d.config := by
  have husers : Printable (d.users.map userStatement) := by
    apply printable_map
    intro user huser
    apply printableTokens (List.cons_ne_nil _ _)
    rw [List.forall_mem_singleton]
    exact (d.user_token user huser).2
  have hlocations : Printable (d.locations.map locationStatement) := by
    apply printable_map
    intro location hlocation
    obtain ⟨hpath, hroot⟩ := d.location_token location hlocation
    refine ⟨printableTokens (List.cons_ne_nil _ _) ?_, ?_⟩
    · simp only [List.forall_mem_cons]
      exact ⟨wordToken_location, hpath, wordToken_name _, by simp⟩
    · apply printable_map
      intro root hmem
      apply printableTokens (List.cons_ne_nil _ _)
      simp only [List.forall_mem_cons]
      exact ⟨wordToken_root, hroot root (by simpa using hmem), by simp⟩
  have hport : WordToken "port".toList :=
    wordToken_alphanum (List.cons_ne_nil _ _) rfl
  have htimer : WordToken "timer".toList :=
    wordToken_alphanum (List.cons_ne_nil _ _) rfl
  have hcredentials : WordToken "credentials".toList :=
    wordToken_alphanum (List.cons_ne_nil _ _) rfl
  have hserver : WordToken "server".toList :=
    wordToken_alphanum (List.cons_ne_nil _ _) rfl
  refine ⟨printableTokens (by simp) ?_, printableTokens (by simp) ?_,
    ⟨printableTokens (by simp) ?_, husers⟩,
    ⟨printableTokens (by simp) ?_, hlocations⟩, trivial⟩
  · simp only [List.forall_mem_cons]
    exact ⟨hport, wordToken_decimal _, by simp⟩
  · simp only [List.forall_mem_cons]
    exact ⟨htimer, wordToken_decimal _, by simp⟩
  · rwa [List.forall_mem_singleton]
  · rwa [List.forall_mem_singleton]

theorem parseText_text : parseText d.text = some (.returned true d.config) := by
  have hspells := spells_config (printable_iff.mp d.printable).1 0 .nil
  rw [List.append_nil, List.append_nil] at hspells
  exact hspells.parseText d.printable

/-! ## What is read out of it -/

theorem atoi_decimal {n : ℕ} (hle : n ≤ 65535) :
    Text.atoi (Text.decimal n) = n :=
  Text.atoi_eq_of_digitsValue? (Text.digitsValue?_toDigits n) hle

theorem getConfigPort_config : d.config.getConfigPort = d.port := by
  have hle := d.port_le
  have hown : NginxConfig.ownNumber "port".toList d.config =
      some (d.port : ℤ) := by
    rw [config, NginxConfig.ownNumber, if_pos rfl, atoi_decimal hle]
    exact congrArg some (if_pos (by omega))
  rw [NginxConfig.getConfigPort, NginxConfig.getNumber, hown]

theorem getAuthTime_config : d.config.getAuthTime = d.timer := by
  have hle := d.timer_le
  have hown : NginxConfig.ownNumber "timer".toList d.config =
      some (d.timer : ℤ) := by
    rw [config, NginxConfig.ownNumber, if_neg (by decide),
      NginxConfig.ownNumber, if_pos rfl, atoi_decimal (by omega)]
    exact congrArg some (if_pos (by omega))
  rw [NginxConfig.getAuthTime, NginxConfig.getNumber, hown]

theorem credentialEntries_users :
    credentialEntries (d.users.map userStatement) = d.users := by
  have hentry : ∀ user ∈ d.users,
      credentialEntry? (userStatement user) = some user := by
    intro user huser
    have hfind := Text.find_append_cons (t := user.2) (d.user_token user huser).1
    simp [ credentialEntry?, userStatement, NginxConfigStatement.tokens,
      Statement.words, hfind]
  rw [credentialEntries, List.filterMap_map]
  exact (List.filterMap_congr hentry).trans List.filterMap_some

theorem getCredentials_config :
    ∃ credentials, d.config.getCredentials = some credentials ∧
      ∀ user : Text, credentials[user]? = lastPassword d.users user := by
  refine ⟨(d.users.map userStatement).foldl NginxConfig.addCredential ∅, ?_,
    fun user => ?_⟩
  · simp [config, NginxConfig.getCredentials,
      NginxConfig.statementCredentials]
  · rw [foldl_addCredential_getElem?, credentialEntries_users]
    simp

def route (location : Text × LocationType) : Text × RequestHandler :=
  (location.1.stripTrailingSlashes,
    location.2.handler location.1.stripTrailingSlashes)

theorem makeHandler_block (path : Text) (type : LocationType) :
    makeHandler path type.name type.block = some (some (type.handler path)) := by
  cases type <;> rfl

theorem route?_locationStatement (location : Text × LocationType) :
    route? (locationStatement location) = some (route location) := by
  simp only [route?, locationStatement, NginxConfigStatement.tokens,
    NginxConfigStatement.childBlock, Statement.words, Statement.body?,
    makeHandler_block]
  rfl

theorem locations_config :
    RequestHandlerDispatcher.locations d.config =
      d.locations.map locationStatement := by
  have hserver : serverBlock d.config = d.locations.map locationStatement := by
    have hport : isServer (.simple ["port".toList, Text.decimal d.port]) =
        false := by
      simp [isServer, NginxConfigStatement.tokens, Statement.words]
    have htimer : isServer (.simple ["timer".toList, Text.decimal d.timer]) =
        false := by
      simp [isServer, NginxConfigStatement.tokens, Statement.words]
    simp only [serverBlock, config, List.find?_cons, hport, htimer]
    rfl
  rw [RequestHandlerDispatcher.locations, hserver, List.filter_eq_self]
  intro statement hmem
  obtain ⟨location, _, rfl⟩ := List.mem_map.mp hmem
  rfl

theorem routes_config : routes d.config = d.locations.map route := by
  rw [routes, locations_config, List.filterMap_map, ← List.filterMap_eq_map]
  exact List.filterMap_congr fun location _ =>
    route?_locationStatement location

theorem dispatchable : Dispatchable d.config := by
  refine ⟨(printable_iff.mp d.printable).1, ?_, ?_⟩
  · intro statement hfind
    have hmem := List.mem_of_find?_eq_some hfind
    have hserver := List.find?_some hfind
    simp only [config, List.mem_cons, List.not_mem_nil, or_false] at hmem
    rcases hmem with rfl | rfl | rfl | rfl
    · simp [isServer, NginxConfigStatement.tokens, Statement.words] at hserver
    · simp [isServer, NginxConfigStatement.tokens, Statement.words] at hserver
    · exact Option.some_ne_none _
    · exact Option.some_ne_none _
  · intro statement hmem
    rw [locations_config] at hmem
    obtain ⟨location, _, rfl⟩ := List.mem_map.mp hmem
    exact ⟨le_rfl, Option.some_ne_none _⟩

/-! ## The running server -/

theorem serves_of_config {d : Deployment} {target : Text}
    {handler : RequestHandler}
    (hserves : RequestHandlerDispatcher.Serves d.config
      target.stripTrailingSlashes handler) : d.Serves target handler := by
  have hmatches : ∀ other ∈ d.locations,
      other.1.stripTrailingSlashes ≠ [] →
      other.1.stripTrailingSlashes <+: target.stripTrailingSlashes →
      Matches d.config target.stripTrailingSlashes
        other.1.stripTrailingSlashes := by
    intro other hother hne hstart
    refine ⟨?_, hne, hstart⟩
    rw [routes_config, List.map_map]
    exact List.mem_map.mpr ⟨other, hother, rfl⟩
  cases hserves with
  | @route path handler hpath hlongest hfirst =>
      rw [firstRoute_iff, routes_config, Option.map_eq_some_iff] at hfirst
      obtain ⟨found, hfind, rfl⟩ := hfirst
      rw [List.find?_map, Option.map_eq_some_iff] at hfind
      obtain ⟨⟨given, type⟩, hfind, rfl⟩ := hfind
      obtain ⟨heq, before, after, hsplit, hbefore⟩ :=
        List.find?_eq_some_iff_append.mp hfind
      have hgiven : given.stripTrailingSlashes = path :=
        of_decide_eq_true heq
      subst hgiven
      refine .location hsplit hpath.2.2 ?_ ?_
      · intro other hother hstart
        by_cases hempty : other.1.stripTrailingSlashes = []
        · simp [hempty]
        · exact hlongest _ (hmatches other hother hempty hstart)
      · intro earlier hearlier
        have hother := hbefore earlier hearlier
        rw [Bool.not_eq_true'] at hother
        exact of_decide_eq_false hother
  | fallback hnone =>
      exact .nothing fun other hother hne hstart =>
        hnone _ (hmatches other hother hne hstart)

theorem exists_serves {config : NginxConfig} {handlers : Handlers}
    (hroutes : HoldsRoutes config handlers) {target : Text}
    (htarget : target.head? = some '/') :
    ∃ handler, getRequestHandler handlers target = some handler ∧
      RequestHandlerDispatcher.Serves config target.stripTrailingSlashes
        handler := by
  have huri := slash_prefix_of_head? htarget
  have hroot : handlers.contains ['/'] = true := by
    rw [Std.TreeMap.contains_eq_isSome_getElem?, hroutes, if_pos rfl]
    simp
  obtain ⟨handler, hhandler⟩ := getRequestHandler_isSome hroot htarget
  obtain ⟨path, hpath, hlongest⟩ := longestMatch_eq_some_iff.mp hhandler
  exact ⟨handler, hhandler,
    serves_of_longestMatch hroutes huri hpath hlongest⟩

theorem storedTimer_config : (storedTimer d.config).toInt = d.timer := by
  have htimer := d.timer_le
  rw [← d.getAuthTime_config, storedTimer_toInt_eq_iff, d.getAuthTime_config]
  · omega
  · rw [d.getAuthTime_config]
    omega

theorem serving_text :
    ∃ credentials handlers,
      main d.text = some (.serving (Int16.ofInt d.port) (storedTimer d.config)
        credentials handlers) ∧
      (∀ user : Text, credentials[user]? = lastPassword d.users user) ∧
      HoldsRoutes d.config handlers := by
  obtain ⟨credentials, hcredentials, hlookup⟩ := d.getCredentials_config
  obtain ⟨handlers, hinit, hroutes⟩ := initRequestHandlers_eq d.dispatchable
  refine ⟨credentials, handlers, ?_, hlookup, hroutes⟩
  rw [main, d.parseText_text]
  simp only [startUp, d.getConfigPort_config, d.storedTimer_config,
    hcredentials, hinit]
  rw [if_neg (by omega), if_neg (by omega)]

/-- The printed deployment starts a server that listens on its port, keeps its
timer, knows the last password of each user, and serves every target by the
location it belongs to. -/
theorem main_text :
    ∃ port authTime credentials handlers,
      main d.text = some (.serving port authTime credentials handlers) ∧
      port.toUInt16.toNat = d.port ∧ authTime.toInt = d.timer ∧
      (∀ user : Text, credentials[user]? = lastPassword d.users user) ∧
      ∀ target : Text, target.head? = some '/' →
        ∃ handler, getRequestHandler handlers target = some handler ∧
          d.Serves target handler := by
  obtain ⟨credentials, handlers, hmain, hlookup, hroutes⟩ := d.serving_text
  have hport := d.port_le
  refine ⟨_, _, credentials, handlers, hmain, ?_, d.storedTimer_config, hlookup,
    fun target htarget => ?_⟩
  · rw [Int16.ofInt_eq_ofNat, Int16.toUInt16_ofNat', UInt16.toNat_ofNat',
      Nat.mod_eq_of_lt (by omega)]
  · obtain ⟨handler, hhandler, hserves⟩ := exists_serves hroutes htarget
    exact ⟨handler, hhandler, serves_of_config hserves⟩

/-! ## Logging in -/

theorem passwordOf_append {user : Text} (huser : ':' ∉ user) (password : Text) :
    passwordOf (user ++ ':' :: password) = password := by
  rw [passwordOf, userOf_append huser]
  simp

theorem hasCredentials_of_find {credentials : Credentials} {request : Request}
    {value : Text}
    (hheader : request.find Session.authorizationField = some value) :
    Session.HasCredentials credentials request ↔
      Session.validHeader credentials value = true := by
  constructor
  · intro ⟨authHeader, hfind, haccepts⟩
    rw [hheader, Option.some.injEq] at hfind
    rwa [hfind]
  · intro haccepts
    exact ⟨value, hheader, haccepts⟩

theorem validHeader_encode {credentials : Credentials} {user password : Text}
    (padded : Bool) (huser : ':' ∉ user)
    (hbytes : ∀ c ∈ user ++ ':' :: password, c.toNat < 256) :
    Session.validHeader credentials ("Basic ".toList ++
        Base64.encode padded (user ++ ':' :: password)) = true ↔
      credentials[user]? = some password := by
  have hdecode := Base64.decode_encode padded hbytes
  rw [validHeader_iff, List.drop_left' (show "Basic ".toList.length = 6 from rfl),
    hdecode, userOf_append huser, passwordOf_append huser]
  constructor
  · intro hvalid
    exact hvalid.2.2
  · intro hlookup
    exact ⟨List.prefix_append _ _, by simp, hlookup⟩

theorem hasCredentials_encode {credentials : Credentials} {request : Request}
    {padded : Bool} {user password : Text}
    (hheader : request.find "Authorization".toList = some ("Basic ".toList ++
      Base64.encode padded (user ++ ':' :: password)))
    (huser : ':' ∉ user)
    (hbytes : ∀ c ∈ user ++ ':' :: password, c.toNat < 256) :
    Session.HasCredentials credentials request ↔
      credentials[user]? = some password := by
  rw [← validHeader_encode padded huser hbytes]
  exact hasCredentials_of_find hheader

/-- Whatever a session of the running server has done so far: as long as the
timer has not run out, a request that names a user and a password reaches the
handler of its target if the password is the last one of the user, and is
refused otherwise. -/
theorem login_iff {d : Deployment} {port authTime : Int16}
    {credentials : Credentials} {handlers : Handlers}
    (hmain : main d.text =
      some (.serving port authTime credentials handlers))
    {put : Text → PutResult} {start : ℤ}
    {events : List (SessionEvent RequestHandler)}
    {completion : ReadCompletion RequestHandler} {request : Request} :
    let services : Services RequestHandler := ⟨put, getRequestHandler handlers⟩
    let session := (Connection.after services
      (.make credentials authTime start) events).session
    let exit := (session.handleReadCallback services completion).exit
    Session.Completes services session completion request →
    0 ≤ completion.now - session.lastAuthTime →
    completion.now - session.lastAuthTime ≤ d.timer * 1000000000 →
    request.target.head? = some '/' →
    ∀ padded user password, ':' ∉ user →
      (∀ c ∈ user ++ ':' :: password, c.toNat < 256) →
      request.find "Authorization".toList = some ("Basic ".toList ++
        Base64.encode padded (user ++ ':' :: password)) →
      (lastPassword d.users user = some password →
        ∃ handler, exit = .handled handler request ∧
          d.Serves request.target handler) ∧
      (lastPassword d.users user ≠ some password →
        exit = .unauthorized request) := by
  intro services session exit hcompletes hnonneg hle htarget padded user
    password huser hbytes hheader
  obtain ⟨_, _, hserving, hlookup, hroutes⟩ := d.serving_text
  rw [hmain, Option.some.injEq, StartResult.serving.injEq] at hserving
  obtain ⟨_, rfl, rfl, rfl⟩ := hserving
  obtain ⟨hcredentials, hauthTime⟩ := Connection.after_client services
    (.make credentials (storedTimer d.config) start) events
  have hfresh : session.Fresh completion := by
    rw [Session.Fresh, Session.elapsed, Session.nanosecondsPerSecond,
      Int.tdiv_eq_ediv_of_nonneg hnonneg, hauthTime]
    change _ ≤ (storedTimer d.config).toInt
    rw [d.storedTimer_config]
    omega
  have hvalid : Session.HasCredentials session.credentials request ↔
      lastPassword d.users user = some password := by
    rw [hcredentials, ← hlookup]
    exact hasCredentials_encode hheader huser hbytes
  have hexit := Session.exit_of_completes hcompletes
  rw [if_pos hfresh] at hexit
  constructor
  · intro hlast
    obtain ⟨handler, hhandler, hserves⟩ := exists_serves hroutes htarget
    rw [if_pos (hvalid.mpr hlast)] at hexit
    simp only [services, hhandler] at hexit
    exact ⟨handler, hexit, serves_of_config hserves⟩
  · intro hlast
    rwa [if_neg fun hhas => hlast (hvalid.mp hhas)] at hexit

def echoDeployment : Deployment where
  port := 40000
  timer := 10
  users := [("tariq".toList, "123".toList)]
  locations := [("/echo/".toList, .echo)]
  port_le := by decide
  timer_le := by decide
  user_token := by
    rw [List.forall_mem_singleton]
    exact ⟨by decide, PlainWord.wordToken ⟨by simp, by simp⟩⟩
  location_token := by
    rw [List.forall_mem_singleton]
    refine ⟨PlainWord.wordToken ⟨by simp, by simp⟩, fun root hroot => ?_⟩
    cases hroot

/-- A request that comes too late for the timer is refused; asked again, it logs
the user in. -/
theorem login_iff_echo :
    ∃ port authTime credentials handlers,
      main echoDeployment.text =
        some (.serving port authTime credentials handlers) ∧
      let services : Services RequestHandler :=
        ⟨Connection.tariqServices.put, getRequestHandler handlers⟩
      let late : ReadCompletion RequestHandler :=
        ⟨none, Connection.tariqBytes, 20000000000, 20000000000,
          fun _ _ res => res⟩
      let exit := ((Connection.after services (.make credentials authTime 0)
        [.read late]).session.handleReadCallback services
          ⟨none, ['\n'], 25000000000, 0, fun _ _ res => res⟩).exit
      (lastPassword echoDeployment.users "tariq".toList = some "123".toList →
        ∃ handler, exit = .handled handler Connection.tariqRequest ∧
          echoDeployment.Serves Connection.tariqRequest.target handler) ∧
      (lastPassword echoDeployment.users "tariq".toList ≠
          some "123".toList →
        exit = .unauthorized Connection.tariqRequest) := by
  obtain ⟨credentials, handlers, hmain, _⟩ := echoDeployment.serving_text
  refine ⟨_, _, credentials, handlers, hmain, ?_⟩
  intro services late exit
  let start := Session.make credentials (storedTimer echoDeployment.config) 0
  let session := (Connection.after services start [.read late]).session
  have hput : ∀ bytes, services.put (Connection.tariqBytes ++ bytes) =
      .done Connection.tariqRequest := by
    intro bytes
    have hstart : Connection.tariqBytes <+: Connection.tariqBytes ++ bytes :=
      List.prefix_append _ _
    simp only [services, Connection.tariqServices, if_pos hstart]
  have hlate : Session.Completes services start late Connection.tariqRequest := by
    refine ⟨rfl, ?_⟩
    have hwhole := hput []
    rwa [List.append_nil] at hwhole
  have hstale : ¬ start.Fresh late := by
    have htimer : start.authTime.toInt = 10 := echoDeployment.storedTimer_config
    rw [Session.Fresh, htimer]
    change ¬ (20000000000 - 0 : ℤ).tdiv 1000000000 ≤ 10
    decide
  have hlast : session.lastAuthTime = 20000000000 := by
    have hclock := Session.handleReadCallback_clocks services start late
    rwa [Session.Clocks, Session.exit_expired_iff.mpr ⟨hlate, hstale⟩]
      at hclock
  have hbuffer : session.buffer = Connection.tariqBytes := by
    rw [Connection.after_buffer, Connection.received, if_pos rfl]
    exact List.append_nil _
  refine login_iff hmain ⟨rfl, ?_⟩ ?_ ?_ rfl false "tariq".toList "123".toList
    (by decide) (by simp) (by decide +kernel)
  · change services.put (session.buffer ++ ['\n']) = _
    rw [hbuffer]
    exact hput _
  · change (0 : ℤ) ≤ 25000000000 - session.lastAuthTime
    rw [hlast]
    decide
  · change (25000000000 : ℤ) - session.lastAuthTime ≤ (10 : ℕ) * 1000000000
    rw [hlast]
    decide

end Deployment

end Swifties
