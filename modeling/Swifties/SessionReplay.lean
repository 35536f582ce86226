import Swifties.SessionRuns

/-!
# Requests that are handled after a refusal

Nothing is ever consumed from `buffer_`, so every callback parses the request
at the start of the connection again.  Only an incomplete request and an
expired session start another read, which leaves one way to come back to a
request that was answered: the read that `is_session_expired` starts completes
within the new session.
-/

namespace Swifties
namespace Connection

variable {H : Type}

/-- The parser decides the first request from its own bytes: more bytes behind
it change nothing. -/
def PrefixStable (services : Services H) : Prop :=
  ∀ bytes more request, services.put bytes = .done request →
    services.put (bytes ++ more) = .done request

def Refused (callback : Callback H) (request : Request) : Prop :=
  callback.exit = some (.expired request) ∨
    callback.exit = some (.unauthorized request)

/-- No request is handed to a handler after it was refused, or twice. -/
def HandedOnce (callbacks : List (Callback H)) : Prop :=
  callbacks.Pairwise fun earlier later => ∀ handler request,
    later.exit = some (.handled handler request) →
      ¬ Refused earlier request ∧
        ∀ other, earlier.exit ≠ some (.handled other request)

/-- After a request was refused because the session had expired, a read
completes within the new session, and the request has valid credentials and a
handler. -/
def ServedAfterExpiry (services : Services H) (session : Session)
    (events : List (SessionEvent H)) : Prop :=
  ∃ before expired between completion rest request handler,
    events = before ++ .read expired :: between ++ .read completion :: rest ∧
      Session.Completes services (after services session before).session
        expired request ∧
      ¬ (after services session before).session.Fresh expired ∧
      completion.error = none ∧
      (after services session
        (before ++ .read expired :: between)).session.Fresh completion ∧
      Session.HasCredentials session.credentials request ∧
      services.getRequestHandler request.target = some handler

/-! ## The bytes of the buffer -/

def received : List (SessionEvent H) → Text
  | [] => []
  | .read completion :: events =>
      (if completion.error = none then completion.bytes else []) ++
        received events
  | .written _ :: events => received events

theorem received_append (before rest : List (SessionEvent H)) :
    received (before ++ rest) = received before ++ received rest := by
  induction before with
  | nil => rfl
  | cons event before ih =>
      cases event with
      | read completion => simp [received, ih]
      | written error => simp [received, ih]

theorem step_buffer (services : Services H) (connection : Connection)
    (event : SessionEvent H) :
    (step services connection event).2.session.buffer =
      connection.session.buffer ++ received [event] := by
  cases event with
  | written error => simp [step, received]
  | read completion =>
      change (connection.session.handleReadCallback services
        completion).session.buffer = _
      cases connection.session.handleReadCallback_cases services completion with
      | readError herror hsession => simp [hsession, received, herror]
      | answered herror _ _ _ hsession => simp [hsession, received, herror]
      | incomplete herror _ _ _ hsession => simp [hsession, received, herror]
      | expired hcompletes _ _ _ hsession =>
          simp [hsession, received, hcompletes.1]
      | served hcompletes _ hserved =>
          rw [hserved, (Session.serveRequest_sameClient _ _ _ _).buffer_eq]
          simp [received, hcompletes.1]

theorem after_buffer (services : Services H) (session : Session)
    (events : List (SessionEvent H)) :
    (after services session events).session.buffer =
      session.buffer ++ received events := by
  have hfinal : ∀ (connection : Connection),
      (Machine.final (step services) connection events).session.buffer =
        connection.session.buffer ++ received events := by
    induction events with
    | nil => simp [Machine.final, received]
    | cons event events ih =>
        intro connection
        have happend := received_append [event] events
        rw [List.singleton_append] at happend
        rw [Machine.final, ih, step_buffer, happend, List.append_assoc]
  exact hfinal (start session)

theorem completes_stable {services : Services H}
    (hstable : PrefixStable services) {session : Session}
    {before : List (SessionEvent H)} {earlier later : ReadCompletion H}
    {request : Request} (between : List (SessionEvent H))
    (hcompletes : Session.Completes services
      (after services session before).session earlier request)
    (herror : later.error = none) :
    Session.Completes services
      (after services session (before ++ .read earlier :: between)).session
      later request := by
  obtain ⟨hearlier, hput⟩ := hcompletes
  refine ⟨herror, ?_⟩
  have hmore := hstable _ (received between ++ later.bytes) _ hput
  rw [after_buffer] at hmore ⊢
  rw [received_append]
  simpa [received, hearlier] using hmore

/-! ## The reads that a run starts -/

def startsRead : Exit H → Bool
  | .incomplete => true
  | .expired _ => true
  | _ => false

theorem step_reads (services : Services H) (connection : Connection)
    (completion : ReadCompletion H) :
    (step services connection (.read completion)).2.reads =
      connection.reads - 1 +
        if startsRead (connection.session.handleReadCallback services
          completion).exit then 1 else 0 := by
  simp only [step]
  cases connection.session.handleReadCallback_cases services completion with
  | readError _ _ hexit hoperations =>
      simp [hexit, hoperations, startsRead]
  | answered _ _ hexit hoperations _ =>
      rcases hexit with hexit | hexit <;>
        simp [hexit, hoperations, startsRead, isRead]
  | incomplete _ _ hexit hoperations _ =>
      simp [hexit, hoperations, startsRead, isRead]
  | expired _ _ hexit hoperations _ =>
      rw [hexit, hoperations]
      rfl
  | served _ _ hserved =>
      obtain ⟨response, hoperations⟩ := Session.serveRequest_operations services
        { connection.session with
          buffer := connection.session.buffer ++ completion.bytes }
        completion _
      rw [hserved, hoperations, Session.serveRequest_exit]
      split
      next => split <;> simp [startsRead, isRead]
      next => simp [startsRead, isRead]

theorem no_read {services : Services H} {connection : Connection}
    {before rest : List (SessionEvent H)} {completion : ReadCompletion H}
    (hreads : connection.reads = 0) :
    ¬ Machine.Along Enabled (step services) connection
      (before ++ .read completion :: rest) := by
  intro halong
  induction before generalizing connection with
  | nil =>
      have henabled : 0 < connection.reads := halong.1
      omega
  | cons event before ih =>
      cases event with
      | read other =>
          have henabled : 0 < connection.reads := halong.1
          omega
      | written error =>
          have hnext : (step services connection
            (.written error)).2.reads = 0 := hreads
          exact ih hnext halong.2

theorem startsRead_before {services : Services H} {connection : Connection}
    {before rest : List (SessionEvent H)} {completion : ReadCompletion H}
    (hreads : connection.reads ≤ 1)
    (halong : Machine.Along Enabled (step services) connection
      (before ++ .read completion :: rest)) :
    ∀ callback ∈ Machine.outputs (step services) connection before, ∀ exit,
      callback.exit = some exit → startsRead exit = true := by
  induction before generalizing connection with
  | nil => simp [Machine.outputs]
  | cons event before ih =>
      intro callback hmem exit hexit
      rw [Machine.outputs, List.mem_cons] at hmem
      cases event with
      | written error =>
          rcases hmem with rfl | hmem
          · cases hexit
          · have hnext : (step services connection
              (.written error)).2.reads ≤ 1 := hreads
            exact ih hnext halong.2 callback hmem exit hexit
      | read other =>
          have hnext := step_reads services connection other
          have henabled : 0 < connection.reads := halong.1
          by_cases hstarts : startsRead (connection.session.handleReadCallback
              services other).exit = true
          · rw [if_pos hstarts] at hnext
            rcases hmem with rfl | hmem
            · cases hexit
              exact hstarts
            · exact ih (by omega) halong.2 callback hmem exit hexit
          · rw [if_neg hstarts] at hnext
            exact (no_read (by omega) halong.2).elim

/-- In a run that only completes operations under way, no request is handled
after a refusal or twice, unless a read completes within the session that
follows an expired one. -/
theorem handed_once_iff {services : Services H}
    (hstable : PrefixStable services) {session : Session}
    {events : List (SessionEvent H)}
    (hallowed : Machine.Along Enabled (step services) (start session) events) :
    HandedOnce (trace services session events) ↔
      ¬ ServedAfterExpiry services session events := by
  rw [HandedOnce, trace, Machine.outputs_pairwise_iff]
  constructor
  · rintro honce ⟨before, expired, between, completion, rest, request, handler,
      rfl, hcompletes, hexpired, herror, hfresh, hvalid, hhandler⟩
    have hrefused := Session.exit_expired_iff.mpr ⟨hcompletes, hexpired⟩
    have hlater := completes_stable hstable between hcompletes herror
    rw [← (after_client services session
      (before ++ .read expired :: between)).1] at hvalid
    have hhanded := Session.exit_handled_iff.mpr
      ⟨hlater, hfresh, hvalid, hhandler⟩
    have hearlier : (step services (after services session before)
        (.read expired)).1 ∈ Machine.outputs (step services) (start session)
          (before ++ .read expired :: between) :=
      Machine.mem_outputs_iff.mpr ⟨before, _, between, rfl, rfl⟩
    have hpair := honce _ (.read completion) rest rfl _ hearlier handler request
      (congrArg some hhanded)
    exact hpair.1 (.inl (congrArg some hrefused))
  · rintro hnever before event rest rfl earlier hearlier handler request hlater
    cases event with
    | written error => cases hlater
    | read completion =>
        obtain ⟨⟨herror, _⟩, hfresh, hvalid, hhandler⟩ :=
          Session.exit_handled_iff.mp (Option.some.inj hlater)
        have hstarts := startsRead_before le_rfl hallowed earlier hearlier
        refine ⟨?_, fun other hother => by cases hstarts _ hother⟩
        rintro (hexpired | hunauthorized)
        · obtain ⟨start', event, between, rfl, rfl⟩ :=
            Machine.mem_outputs_iff.mp hearlier
          cases event with
          | written error => cases hexpired
          | read expired =>
              obtain ⟨hcompletes, hstale⟩ :=
                Session.exit_expired_iff.mp (Option.some.inj hexpired)
              rw [← after, (after_client services session _).1] at hvalid
              exact hnever ⟨start', expired, between, completion, rest,
                request, handler, by simp, hcompletes, hstale, herror, hfresh,
                hvalid, hhandler⟩
        · cases hstarts _ hunauthorized

theorem tariqServices_prefixStable : PrefixStable tariqServices := by
  intro bytes more request hdone
  simp only [tariqServices] at hdone ⊢
  split at hdone
  next hstart =>
    rw [if_pos (hstart.trans (List.prefix_append bytes more))]
    exact hdone
  next => cases hdone

theorem handed_once_iff_tariq :
    let events := [tariqRead tariqBytes 20, tariqRead ['\n'] 21]
    HandedOnce (trace tariqServices tariqSession events) ↔
      ¬ ServedAfterExpiry tariqServices tariqSession events := by
  intro events
  have hreads : 0 < (step tariqServices (start tariqSession)
      (tariqRead tariqBytes 20)).2.reads := by decide +kernel
  exact handed_once_iff tariqServices_prefixStable
    ⟨Nat.one_pos, hreads, trivial⟩

theorem not_handed_once_tariq :
    ¬ ∀ (services : Services Unit) (session : Session)
        (events : List (SessionEvent Unit)), PrefixStable services →
      Machine.Along Enabled (step services) (start session) events →
      HandedOnce (trace services session events) := by
  intro hclaim
  let first := step tariqServices (start tariqSession) (tariqRead tariqBytes 20)
  let second := step tariqServices first.2 (tariqRead ['\n'] 21)
  have hallowed : Machine.Along Enabled (step tariqServices)
      (start tariqSession) [tariqRead tariqBytes 20, tariqRead ['\n'] 21] :=
    ⟨Nat.one_pos, show 0 < first.2.reads by decide +kernel, trivial⟩
  have honce : HandedOnce [first.1, second.1] :=
    hclaim tariqServices tariqSession _ tariqServices_prefixStable hallowed
  have hfirst : first.1.exit = some (.expired tariqRequest) := by
    decide +kernel
  have hsecond : second.1.exit = some (.handled () tariqRequest) := by
    decide +kernel
  have hpair := (List.pairwise_cons.mp honce).1 second.1 List.mem_cons_self ()
    tariqRequest hsecond
  exact hpair.1 (.inl hfirst)

end Connection
end Swifties
