import Swifties.SessionRuns

/-!
# Reads and writes under way

A read callback is meant to start one read or one write.  Where the header of a
request is complete and its body is not, the callback starts a read but falls
off its end; where the session has expired, both `is_session_expired` and
`send_unauthorized_response` start an operation, and the next callback may
assign the response that is still being written.
-/

namespace Swifties

namespace Session

variable {H : Type} {services : Services H} {session : Session}
  {completion : ReadCompletion H}

theorem serveRequest_returned (services : Services H) (session : Session)
    (completion : ReadCompletion H) (request : Request) :
    (serveRequest services session completion request).returned ≠ none := by
  unfold serveRequest
  split
  next => simp [Outcome.of]
  next authHeader _ =>
    by_cases hvalid : validHeader session.credentials authHeader = true
    · simp only [authenticate, hvalid, if_true]
      cases services.getRequestHandler request.target <;> simp [Outcome.of]
    · simp only [authenticate, hvalid]
      simp [Outcome.of]

/-- Only the callback that waits for the rest of a body reaches its end
without a return statement. -/
theorem handleReadCallback_returned_iff :
    (session.handleReadCallback services completion).returned ≠ none ↔
      ¬ (completion.error = none ∧
        services.put (session.buffer ++ completion.bytes) = .incomplete) := by
  cases herror : completion.error with
  | some message => simp [handleReadCallback, herror, Outcome.of]
  | none =>
      cases hput : services.put (session.buffer ++ completion.bytes) with
      | error message =>
          simp [handleReadCallback, herror, hput, Outcome.of]
      | incomplete => simp [handleReadCallback, herror, hput, Outcome.of]
      | throws => simp [handleReadCallback, herror, hput, Outcome.of]
      | done request =>
          have hreturned : (session.handleReadCallback services
              completion).returned ≠ none := by
            rw [handleReadCallback_completes ⟨herror, hput⟩, requestParsed]
            simp only
            split
            next => simp [Outcome.of]
            next => exact serveRequest_returned _ _ _ _
          simpa using hreturned

end Session

namespace Connection

variable {H : Type}

/-- A read callback reaches a return statement and starts one read or one
write, or nothing on a read error. -/
def OneOperation (services : Services H) (callback : Callback H) : Prop :=
  match callback.event with
  | .written _ => True
  | .read completion =>
      (callback.before.handleReadCallback services completion).returned ≠
          none ∧
        (completion.error ≠ none ∧ callback.operations = [] ∨
          ∃ operation, (isRead operation = true ∨ isWrite operation = true) ∧
            callback.operations = [operation])

/-- The step keeps to one operation, does not assign the response while it is
being written, and leaves at most one write under way.  Assigning the response
and starting its write go together. -/
structure Orderly (services : Services H) (connection : Connection)
    (event : SessionEvent H) : Prop where
  one : OneOperation services (step services connection event).1
  unassigned : 0 < connection.writes →
    ∀ operation ∈ (step services connection event).1.operations,
      isWrite operation = false
  writes : (step services connection event).2.writes ≤ 1

/-- The bytes read so far decide what to do, and a request that they complete
does not find the session expired. -/
def Decided (services : Services H) (connection : Connection) :
    SessionEvent H → Prop
  | .written _ => True
  | .read completion =>
      completion.error = none →
        services.put (connection.session.buffer ++ completion.bytes) ≠
            .incomplete ∧
          ∀ request,
            services.put (connection.session.buffer ++ completion.bytes) =
              .done request → connection.session.Fresh completion

theorem decided_of_one {services : Services H} {connection : Connection}
    {event : SessionEvent H}
    (hone : OneOperation services (step services connection event).1) :
    Decided services connection event := by
  cases event with
  | written error => trivial
  | read completion =>
      intro herror
      obtain ⟨hreturned, hoperations⟩ := hone
      change (connection.session.handleReadCallback services
        completion).returned ≠ none at hreturned
      rw [Session.handleReadCallback_returned_iff] at hreturned
      refine ⟨fun hput => hreturned ⟨herror, hput⟩, fun request hput => ?_⟩
      by_contra hexpired
      have hexit : (connection.session.handleReadCallback services
          completion).operations =
            [.asyncRead, .asyncWrite Session.unauthorizedResponse] := by
        have hcompletes : Session.Completes services connection.session
            completion request := ⟨herror, hput⟩
        have hread : ¬ Session.Fresh
            { connection.session with
              buffer := connection.session.buffer ++ completion.bytes }
            completion := hexpired
        rw [Session.handleReadCallback_completes hcompletes,
          Session.requestParsed_expired hread]
        rfl
      rcases hoperations with ⟨hfailed, _⟩ | ⟨operation, _, hsingle⟩
      · exact hfailed herror
      · rw [step, hexit] at hsingle
        cases hsingle

/-- All operations under way together. -/
def underWay (connection : Connection) : ℕ :=
  connection.reads + connection.writes

theorem step_of_operations {services : Services H} {connection : Connection}
    {completion : ReadCompletion H} {operations : List Operation}
    (hoperations : (connection.session.handleReadCallback services
      completion).operations = operations)
    (hwritten : connection.writes = 0)
    (hreturned : (connection.session.handleReadCallback services
      completion).returned ≠ none)
    (hone : completion.error ≠ none ∧ operations = [] ∨
      ∃ operation, (isRead operation = true ∨ isWrite operation = true) ∧
        operations = [operation]) :
    Orderly services connection (.read completion) := by
  subst hoperations
  refine ⟨⟨hreturned, hone⟩, ?_, ?_⟩
  · rw [hwritten]
    intro hpos
    exact (Nat.lt_irrefl 0 hpos).elim
  · change connection.writes + _ ≤ 1
    rw [hwritten, Nat.zero_add]
    rcases hone with ⟨_, hnone⟩ | ⟨operation, _, hsingle⟩
    · rw [hnone]
      exact Nat.zero_le 1
    · rw [hsingle]
      exact List.countP_le_length

theorem orderly_of_decided {services : Services H} {connection : Connection}
    {event : SessionEvent H} (hone : connection.underWay ≤ 1)
    (henabled : connection.Enabled event)
    (hdecided : Decided services connection event) :
    Orderly services connection event := by
  unfold underWay at hone
  cases event with
  | written error =>
      refine ⟨trivial, fun _ operation hmem => ?_, ?_⟩
      · cases error with
        | none =>
            rw [List.mem_singleton.mp hmem]
            rfl
        | some message => cases hmem
      · change connection.writes - 1 ≤ 1
        omega
  | read completion =>
      change 0 < connection.reads at henabled
      have hwritten : connection.writes = 0 := by omega
      have hreturned := Session.handleReadCallback_returned_iff.mpr
        fun hincomplete => (hdecided hincomplete.1).1 hincomplete.2
      cases connection.session.handleReadCallback_cases services completion with
      | readError herror _ _ hoperations =>
          exact step_of_operations hoperations hwritten hreturned
            (.inl ⟨herror, rfl⟩)
      | answered _ _ _ hoperations _ =>
          exact step_of_operations hoperations hwritten hreturned
            (.inr ⟨_, .inr rfl, rfl⟩)
      | incomplete _ _ _ hoperations _ =>
          exact step_of_operations hoperations hwritten hreturned
            (.inr ⟨_, .inl rfl, rfl⟩)
      | expired hcompletes hexpired _ _ _ =>
          exact (hexpired ((hdecided hcompletes.1).2 _ hcompletes.2)).elim
      | served _ _ hserved =>
          obtain ⟨response, hoperations⟩ :=
            Session.serveRequest_operations services
              { connection.session with
                buffer := connection.session.buffer ++ completion.bytes }
              completion _
          rw [← hserved] at hoperations
          exact step_of_operations hoperations hwritten hreturned
            (.inr ⟨_, .inr rfl, rfl⟩)

theorem underWay_le {services : Services H} {connection : Connection}
    {event : SessionEvent H} (hone : connection.underWay ≤ 1)
    (henabled : connection.Enabled event)
    (horderly : Orderly services connection event) :
    (step services connection event).2.underWay ≤ 1 := by
  unfold underWay at hone ⊢
  cases event with
  | written error =>
      change connection.reads + (connection.writes - 1) ≤ 1
      omega
  | read completion =>
      change 0 < connection.reads at henabled
      obtain ⟨_, hoperations⟩ := horderly.one
      simp only [step] at hoperations ⊢
      rcases hoperations with ⟨_, hnone⟩ | ⟨operation, _, hsingle⟩
      · rw [hnone, List.countP_nil, List.countP_nil]
        omega
      · rw [hsingle]
        cases operation <;> simp [isRead, isWrite] <;> omega

/-- In a run that only completes operations under way, every callback starts
one operation and returns, with at most one write at a time and no response
assigned under a write, exactly if no read leaves the body of a request
incomplete and none completes a request on an expired session. -/
theorem orderly_iff {services : Services H} {session : Session}
    {events : List (SessionEvent H)}
    (hallowed : Machine.Along Enabled (step services) (start session) events) :
    Machine.Along (Orderly services) (step services) (start session) events ↔
      Machine.Along (Decided services) (step services) (start session)
        events := by
  constructor
  · intro horderly
    have hstep : ∀ connection (event : SessionEvent H), True →
        Orderly services connection event →
        Decided services connection event ∧ True :=
      fun _ _ _ h => ⟨decided_of_one h.one, trivial⟩
    exact Machine.Along.of_invariant hstep trivial horderly
  · intro hdecided
    have hstep : ∀ connection (event : SessionEvent H),
        connection.underWay ≤ 1 →
        connection.Enabled event ∧ Decided services connection event →
        Orderly services connection event ∧
          (step services connection event).2.underWay ≤ 1 := by
      intro connection event hone hevent
      have horderly := orderly_of_decided hone hevent.1 hevent.2
      exact ⟨horderly, underWay_le hone hevent.1 horderly⟩
    exact Machine.Along.of_invariant hstep le_rfl (hallowed.and hdecided)

theorem orderly_iff_tariq :
    Machine.Along (Orderly tariqServices) (step tariqServices)
        (start tariqSession) [tariqRead tariqBytes 5, .written none] ↔
      Machine.Along (Decided tariqServices) (step tariqServices)
        (start tariqSession) [tariqRead tariqBytes 5, .written none] := by
  apply orderly_iff
  have hwrites : 0 < (step tariqServices (start tariqSession)
      (tariqRead tariqBytes 5)).2.writes := by decide +kernel
  exact ⟨Nat.one_pos, hwrites, trivial⟩

/-- A request that arrives too late is answered while another read is started;
when that read completes, the response is assigned again and a second write
started before the first one has completed. -/
theorem not_orderly_tariq :
    let events := [tariqRead tariqBytes 20, tariqRead ['\n'] 21]
    Machine.Along Enabled (step tariqServices) (start tariqSession) events ∧
      (after tariqServices tariqSession events).writes = 2 ∧
      ¬ Machine.Along (Orderly tariqServices) (step tariqServices)
        (start tariqSession) events := by
  intro events
  have hwrites : (after tariqServices tariqSession events).writes = 2 := by
    decide +kernel
  have hreads : 0 < (step tariqServices (start tariqSession)
      (tariqRead tariqBytes 20)).2.reads := by decide +kernel
  refine ⟨⟨Nat.one_pos, hreads, trivial⟩, hwrites, fun horderly => ?_⟩
  have hle : (after tariqServices tariqSession events).writes ≤ 1 :=
    horderly.2.1.writes
  omega

end Connection
end Swifties
