import Swifties.SessionReplay

/-!
# Requests that arrive in pieces

Every callback parses the whole buffer with a new parser, which stops after the
header.  A piece of a header is taken for a bad request, and a request with a
body is never done, so that only a request without a body that arrives in one
read is handled.
-/

namespace Swifties

theorem Session.handleReadCallback_putError {H : Type} {services : Services H}
    {session : Session} {completion : ReadCompletion H} {message : Text}
    (herror : completion.error = none)
    (hput : services.put (session.buffer ++ completion.bytes) =
      .error message) :
    session.handleReadCallback services completion =
      Outcome.of
        (write { session with buffer := session.buffer ++ completion.bytes }
          ((Response.make .badRequest 11).reply .badRequest
            "Bad request".toList)) .badRequest (some 1) := by
  simp only [handleReadCallback, herror, hput]

namespace Connection

variable {H : Type}

/-- What the parser makes of the parts of a request: more bytes are needed
within the header, and behind it the parser is done only if no body follows. -/
structure ParsesHeader (services : Services H) (header body : Text)
    (request : Request) : Prop where
  needMore : ∀ bytes more, bytes ≠ [] → more ≠ [] → bytes ++ more = header →
    ∃ message, services.put bytes = .error message
  noBody : body = [] → services.put header = .done request
  withBody : body ≠ [] → ∀ part, part <+: body →
    services.put (header ++ part) = .incomplete

def handed (handler : H) (request : Request) (callback : Callback H) : Prop :=
  callback.exit = some (.handled handler request)

/-- The session asks for every one of the reads, hands the request to the
handler at one of them and nothing to any handler at the others, and has started
no write before. -/
def HandedWhole (services : Services H) (session : Session)
    (reads : List (ReadCompletion H)) (handler : H) (request : Request) :
    Prop :=
  Machine.Along Enabled (step services) (start session)
      (reads.map SessionEvent.read) ∧
    ∃ earlier callback later,
      trace services session (reads.map SessionEvent.read) =
        earlier ++ callback :: later ∧
      handed handler request callback ∧
      (∀ other ∈ earlier ++ later, ∀ handler' request',
        ¬ handed handler' request' other) ∧
      ∀ other ∈ earlier, ∀ operation ∈ other.operations,
        isWrite operation = false

theorem received_reads {reads : List (ReadCompletion H)}
    (hok : ∀ completion ∈ reads, completion.error = none) :
    received (reads.map SessionEvent.read) =
      reads.flatMap fun completion => completion.bytes := by
  induction reads with
  | nil => rfl
  | cons completion reads ih =>
      have hrest := ih fun other hmem => hok other (List.mem_cons_of_mem _ hmem)
      rw [List.map_cons, received, if_pos (hok completion List.mem_cons_self),
        hrest, List.flatMap_cons]

section

variable {services : Services H} {session : Session} {header body : Text}
  {request : Request} {handler : H} {reads : List (ReadCompletion H)}

/-- The bytes of a part of the request that is not the whole of it do not
complete a request, nor do those of a request with a body. -/
theorem ParsesHeader.not_done
    (hparser : ParsesHeader services header body request) {bytes more : Text}
    (hne : bytes ≠ []) (hsplit : bytes ++ more = header ++ body)
    (hpart : body ≠ [] ∨ more ≠ []) (other : Request) :
    services.put bytes ≠ .done other := by
  intro hdone
  rcases List.append_eq_append_iff.mp hsplit with
    ⟨rest, hheader, hmore⟩ | ⟨part, hbytes, hbody⟩
  · by_cases hrest : rest = []
    · rw [hrest, List.append_nil] at hheader
      rw [hrest, List.nil_append] at hmore
      have hbody : body ≠ [] := by
        rcases hpart with hbody | hmoreNe
        · exact hbody
        · rwa [← hmore]
      have hput := hparser.withBody hbody [] List.nil_prefix
      rw [List.append_nil, hheader, hdone] at hput
      cases hput
    · obtain ⟨message, hput⟩ := hparser.needMore bytes rest hne hrest
        hheader.symm
      rw [hdone] at hput
      cases hput
  · have hbodyNe : body ≠ [] := by
      rcases hpart with hbodyNe | hmoreNe
      · exact hbodyNe
      · rw [hbody]
        simp [hmoreNe]
    have hput := hparser.withBody hbodyNe part ⟨more, hbody.symm⟩
    rw [← hbytes, hdone] at hput
    cases hput

/-- A request with a body is never handed to a handler. -/
theorem body_eq_nil_of_handedWhole
    (hparser : ParsesHeader services header body request)
    (hbuffer : session.buffer = [])
    (hreads : (reads.flatMap fun completion => completion.bytes) =
      header ++ body)
    (hok : ∀ completion ∈ reads, completion.error = none ∧
      completion.bytes ≠ [] ∧ session.Fresh completion)
    (hhanded : HandedWhole services session reads handler request) :
    body = [] := by
  by_contra hbody
  obtain ⟨_, earlier, callback, later, htrace, hcallback, _⟩ := hhanded
  have hmem : callback ∈ trace services session (reads.map SessionEvent.read) := by
    rw [htrace]
    simp
  obtain ⟨before, event, rest, hevents, rfl⟩ := Machine.mem_outputs_iff.mp hmem
  obtain ⟨front, back, rfl, hfront, hback⟩ := List.map_eq_append_iff.mp hevents
  obtain ⟨completion, tail, rfl, rfl, _⟩ := List.map_eq_cons_iff.mp hback
  obtain ⟨⟨_, hput⟩, _⟩ := Session.exit_handled_iff.mp (Option.some.inj hcallback)
  have hfrontOk : ∀ other ∈ front, other.error = none :=
    fun other hother => (hok other (List.mem_append_left _ hother)).1
  have hnonempty := (hok completion (by simp)).2.1
  rw [← after, after_buffer, hbuffer, List.nil_append, ← hfront,
    received_reads hfrontOk] at hput
  have hsplit : ((front.flatMap fun other => other.bytes) ++
      completion.bytes) ++ (tail.flatMap fun other => other.bytes) =
        header ++ body := by
    rw [← hreads, List.flatMap_append, List.flatMap_cons, List.append_assoc]
  exact hparser.not_done (by simp [hnonempty]) hsplit (.inl hbody) request hput

/-- A request in several pieces is refused at the first one. -/
theorem length_eq_one_of_handedWhole
    (hparser : ParsesHeader services header [] request)
    (hbuffer : session.buffer = [])
    (hreads : (reads.flatMap fun completion => completion.bytes) = header)
    (hok : ∀ completion ∈ reads, completion.error = none ∧
      completion.bytes ≠ [] ∧ session.Fresh completion)
    (hhanded : HandedWhole services session reads handler request) :
    reads.length = 1 := by
  obtain ⟨_, earlier, callback, later, htrace, hcallback, _, hquiet⟩ := hhanded
  cases reads with
  | nil =>
      rw [List.map_nil, trace, Machine.outputs] at htrace
      simp at htrace
  | cons first reads =>
      cases reads with
      | nil => rfl
      | cons second reads =>
          exfalso
          obtain ⟨herror, hfirst, _⟩ := hok first List.mem_cons_self
          have hsecond := (hok second (by simp)).2.1
          have hmore : second.bytes ++
              (reads.flatMap fun completion => completion.bytes) ≠ [] := by
            simp [hsecond]
          obtain ⟨message, hput⟩ := hparser.needMore first.bytes _ hfirst hmore
            (by rw [← hreads, List.flatMap_cons, List.flatMap_cons])
          rw [← List.nil_append first.bytes, ← hbuffer] at hput
          have hbad := Session.handleReadCallback_putError herror hput
          rw [List.map_cons, trace, Machine.outputs] at htrace
          cases earlier with
          | nil =>
              rw [List.nil_append, List.cons.injEq] at htrace
              rw [handed, ← htrace.1] at hcallback
              simp only [step, start, hbad] at hcallback
              cases hcallback
          | cons bad earlier =>
              rw [List.cons_append, List.cons.injEq] at htrace
              have hwrite := hquiet bad List.mem_cons_self
              rw [← htrace.1] at hwrite
              simp only [step, start, hbad] at hwrite
              have hstarted := hwrite _ List.mem_cons_self
              cases hstarted

/-- A request is handed whole to its handler exactly if it has no body and
arrives in one read. -/
theorem handed_whole_iff
    (hparser : ParsesHeader services header body request)
    (hbuffer : session.buffer = [])
    (hvalid : Session.HasCredentials session.credentials request)
    (hhandler : services.getRequestHandler request.target = some handler)
    (hreads : (reads.flatMap fun completion => completion.bytes) =
      header ++ body)
    (hok : ∀ completion ∈ reads, completion.error = none ∧
      completion.bytes ≠ [] ∧ session.Fresh completion) :
    HandedWhole services session reads handler request ↔
      body = [] ∧ reads.length = 1 := by
  constructor
  · intro hhanded
    have hbody := body_eq_nil_of_handedWhole hparser hbuffer hreads hok hhanded
    subst hbody
    rw [List.append_nil] at hreads
    exact ⟨rfl, length_eq_one_of_handedWhole hparser hbuffer hreads hok hhanded⟩
  · rintro ⟨rfl, hlength⟩
    obtain ⟨completion, rfl⟩ := List.length_eq_one_iff.mp hlength
    obtain ⟨herror, _, hfresh⟩ := hok completion List.mem_cons_self
    rw [List.flatMap_singleton, List.append_nil] at hreads
    have hput : services.put (session.buffer ++ completion.bytes) =
        .done request := by
      rw [hbuffer, List.nil_append, hreads]
      exact hparser.noBody rfl
    have hexit := Session.exit_handled_iff.mpr
      ⟨⟨herror, hput⟩, hfresh, hvalid, hhandler⟩
    refine ⟨⟨Nat.one_pos, trivial⟩, [],
      (step services (start session) (.read completion)).1, [], rfl,
      congrArg some hexit, ?_, ?_⟩
    · simp
    · simp

end

theorem tariqServices_parsesHeader :
    ParsesHeader tariqServices tariqBytes [] tariqRequest where
  needMore := by
    intro bytes more _ hmore hsplit
    have hnot : ¬ tariqBytes <+: bytes := by
      intro hstart
      have hle := hstart.length_le
      have hlength := congrArg List.length hsplit
      have hpos := List.length_pos_iff.mpr hmore
      rw [List.length_append] at hlength
      omega
    exact ⟨_, if_neg hnot⟩
  noBody := by
    intro _
    unfold tariqServices
    simp only [if_pos List.prefix_rfl]
  withBody := fun hbody => (hbody rfl).elim

def tariqPiece (bytes : Text) : ReadCompletion Unit :=
  ⟨none, bytes, 5000000000, 5000000000, fun _ _ response => response⟩

theorem tariqPiece_fresh (bytes : Text) :
    tariqSession.Fresh (tariqPiece bytes) := by
  change (5000000000 - 0 : ℤ).tdiv 1000000000 ≤ (10 : Int16).toInt
  decide

theorem handed_whole_iff_tariq :
    HandedWhole tariqServices tariqSession [tariqPiece tariqBytes] ()
        tariqRequest ↔
      ([] : Text) = [] ∧ [tariqPiece tariqBytes].length = 1 := by
  apply handed_whole_iff tariqServices_parsesHeader rfl
  · exact ⟨_, rfl, by decide +kernel⟩
  · rfl
  · rfl
  · intro completion hmem
    rw [List.mem_singleton.mp hmem]
    exact ⟨rfl, by decide +kernel, tariqPiece_fresh _⟩

/-- The same request in two pieces is answered with a bad request. -/
theorem not_handed_whole_tariq :
    let reads := [tariqPiece (tariqBytes.take 4), tariqPiece (tariqBytes.drop 4)]
    (reads.flatMap fun completion => completion.bytes) = tariqBytes ∧
      (tariqSession.handleReadCallback tariqServices
        (tariqPiece (tariqBytes.take 4))).session.response.result =
          .badRequest ∧
      ¬ HandedWhole tariqServices tariqSession reads () tariqRequest := by
  intro reads
  have hbytes : (reads.flatMap fun completion => completion.bytes) =
      tariqBytes := by simp [reads, tariqPiece]
  refine ⟨hbytes, by decide +kernel, fun hhanded => ?_⟩
  have hlength := length_eq_one_of_handedWhole tariqServices_parsesHeader rfl
    hbytes ?_ hhanded
  · cases hlength
  · simp only [reads, List.forall_mem_cons]
    exact ⟨⟨rfl, by decide +kernel, tariqPiece_fresh _⟩,
      ⟨rfl, by decide +kernel, tariqPiece_fresh _⟩, by simp⟩

end Connection
end Swifties
