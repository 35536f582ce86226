import Swifties.Machine

/-!
# Members of a pool

Any number of members step on one shared state, one at a time and in any order,
while a listener takes in new ones.  A member sees the shared state and its own.
The rules below say what can be concluded about a run of the pool from what a
single step of a member does: about the shared state, about one member alone,
and about a run in which some of the members are left out.
-/

namespace Swifties

structure Pool (γ τ σ : Type) where
  shared : γ
  listener : τ
  members : List σ

namespace Pool

inductive Event (α ε : Type) where
  | join (arrival : α)
  | act (i : ℕ) (e : ε)

structure Rules (γ τ σ α ε ω φ : Type) where
  listen : τ → α → Option σ × τ
  act : γ → σ → ε → Except φ (ω × σ × γ)

variable {γ τ σ α ε ω φ : Type}

/-- A step of a member that is not there does nothing. -/
def step (rules : Rules γ τ σ α ε ω φ) (pool : Pool γ τ σ) :
    Event α ε → Except φ (Option (ℕ × ω) × Pool γ τ σ)
  | .join arrival =>
      let (joined, listener) := rules.listen pool.listener arrival
      .ok (none, ⟨pool.shared, listener, pool.members ++ joined.toList⟩)
  | .act i e =>
      match pool.members[i]? with
      | none => .ok (none, pool)
      | some member =>
          (rules.act pool.shared member e).map fun result =>
            (some (i, result.1),
              ⟨result.2.2, pool.listener, pool.members.set i result.2.1⟩)

def eventsOf (i : ℕ) : List (Event α ε) → List ε
  | [] => []
  | .join _ :: es => eventsOf i es
  | .act j e :: es => if j = i then e :: eventsOf i es else eventsOf i es

def outputsOf (i : ℕ) : List (Option (ℕ × ω)) → List ω
  | [] => []
  | none :: os => outputsOf i os
  | some (j, o) :: os => if j = i then o :: outputsOf i os else outputsOf i os

variable {rules : Rules γ τ σ α ε ω φ} {pool next last : Pool γ τ σ}
  {es : List (Event α ε)} {os : List (Option (ℕ × ω))} {i : ℕ} {e : ε}
  {member : σ}

theorem step_act (hmember : pool.members[i]? = some member) :
    step rules pool (.act i e) =
      (rules.act pool.shared member e).map fun result =>
        (some (i, result.1),
          ⟨result.2.2, pool.listener, pool.members.set i result.2.1⟩) := by
  rw [step, hmember]

/-- All that a step can do: take in an arrival, nothing where no member is, or
one action of a member. -/
theorem step_cases {event : Event α ε} {o : Option (ℕ × ω)}
    (hstep : step rules pool event = .ok (o, next)) :
    (∃ arrival, event = .join arrival ∧ o = none ∧
      next = ⟨pool.shared, (rules.listen pool.listener arrival).2,
        pool.members ++ (rules.listen pool.listener arrival).1.toList⟩) ∨
    (∃ i e, event = .act i e ∧ pool.members[i]? = none ∧ o = none ∧
      next = pool) ∨
    ∃ i e member output member' shared,
      event = .act i e ∧ pool.members[i]? = some member ∧
        rules.act pool.shared member e = .ok (output, member', shared) ∧
        o = some (i, output) ∧
        next = ⟨shared, pool.listener, pool.members.set i member'⟩ := by
  cases event with
  | join arrival =>
      cases hstep
      exact .inl ⟨arrival, rfl, rfl, rfl⟩
  | act i e =>
      right
      cases hmember : pool.members[i]? with
      | none =>
          rw [step, hmember] at hstep
          cases hstep
          exact .inl ⟨i, e, rfl, hmember, rfl, rfl⟩
      | some member =>
          rw [step_act hmember, Machine.map_eq_ok_iff] at hstep
          obtain ⟨⟨output, member', shared⟩, hact, hnext⟩ := hstep
          cases hnext
          exact .inr ⟨i, e, member, output, member', shared, rfl, hmember,
            hact, rfl, rfl⟩

theorem step_eq_error {event : Event α ε} {fault : φ}
    (hstep : step rules pool event = .error fault) :
    ∃ (i : ℕ) (e : ε) (member : σ), event = .act i e ∧
      pool.members[i]? = some member ∧
      rules.act pool.shared member e = .error fault := by
  cases event with
  | join arrival => cases hstep
  | act i e =>
      cases hmember : pool.members[i]? with
      | none =>
          rw [step, hmember] at hstep
          cases hstep
      | some member =>
          rw [step_act hmember] at hstep
          cases haction : rules.act pool.shared member e with
          | error other =>
              rw [haction] at hstep
              cases hstep
              exact ⟨i, e, member, rfl, hmember, haction⟩
          | ok result =>
              rw [haction] at hstep
              cases hstep

/-- A run that fails does so in the action of a member, behind the events that
it has got through. -/
theorem run_eq_error {fault : φ}
    (hrun : Machine.run (step rules) pool es = .error fault) :
    ∃ before i e after os next member,
      es = before ++ .act i e :: after ∧
      Machine.run (step rules) pool before = .ok (os, next) ∧
      next.members[i]? = some member ∧
      rules.act next.shared member e = .error fault := by
  induction es generalizing pool with
  | nil => cases hrun
  | cons event es ih =>
      cases hstep : step rules pool event with
      | error other =>
          obtain ⟨i, e, member, rfl, hmember, haction⟩ := step_eq_error hstep
          rw [Machine.run, hstep] at hrun
          cases hrun
          exact ⟨[], i, e, es, [], pool, member, rfl, rfl, hmember, haction⟩
      | ok result =>
          obtain ⟨o, next⟩ := result
          rw [Machine.run_cons_eq_error hstep] at hrun
          obtain ⟨before, i, e, after, os, failing, member, rfl, hbefore,
            hmember, haction⟩ := ih hrun
          exact ⟨event :: before, i, e, after, o :: os, failing, member, rfl,
            Machine.run_cons_eq_ok_iff.mpr ⟨o, next, os, hstep, hbefore, rfl⟩,
            hmember, haction⟩

/-! ## The shared state of a run -/

section

variable {κ ρ : Type} {serve : γ → κ → Except φ (ρ × γ)}
  {call : ω → Option κ} {reply : ω → Option ρ}

def callsOf (call : ω → Option κ) (os : List (Option (ℕ × ω))) : List κ :=
  os.flatMap fun o => (o.bind fun output => call output.2).toList

theorem step_serial
    (hact : ∀ shared member e output member' shared',
      rules.act shared member e = .ok (output, member', shared') →
        Machine.run serve shared (call output).toList =
          .ok ((reply output).toList, shared'))
    {event : Event α ε} {o : Option (ℕ × ω)}
    (hstep : step rules pool event = .ok (o, next)) :
    Machine.run serve pool.shared (callsOf call [o]) =
      .ok (callsOf reply [o], next.shared) := by
  rcases step_cases hstep with ⟨arrival, _, rfl, rfl⟩ |
    ⟨i, e, _, _, rfl, rfl⟩ |
    ⟨i, e, member, output, member', shared, _, _, haction, rfl, rfl⟩
  · rfl
  · rfl
  · simpa [callsOf] using hact _ _ _ _ _ _ haction

/-- Where each action of a member is a call on the shared state, or none, a run
of the pool makes its calls one after the other, whoever makes them. -/
theorem run_calls
    (hact : ∀ shared member e output member' shared',
      rules.act shared member e = .ok (output, member', shared') →
        Machine.run serve shared (call output).toList =
          .ok ((reply output).toList, shared'))
    (hrun : Machine.run (step rules) pool es = .ok (os, last)) :
    Machine.run serve pool.shared (callsOf call os) =
      .ok (callsOf reply os, last.shared) := by
  induction es generalizing pool os with
  | nil =>
      cases hrun
      rfl
  | cons event es ih =>
      obtain ⟨o, next, rest, hstep, hrest, rfl⟩ :=
        Machine.run_cons_eq_ok_iff.mp hrun
      have hcalls := Machine.run_append (step_serial hact hstep) (ih hrest)
      simpa [callsOf] using hcalls

theorem mem_callsOf_iff {call : ω → Option κ} {k : κ} :
    k ∈ callsOf call os ↔
      ∃ i output, some (i, output) ∈ os ∧ call output = some k := by
  simp only [callsOf, List.mem_flatMap, Option.mem_toList,
    Option.bind_eq_some_iff]
  constructor
  · rintro ⟨_, hmem, ⟨i, output⟩, rfl, hcall⟩
    exact ⟨i, output, hmem, hcall⟩
  · rintro ⟨i, output, hmem, hcall⟩
    exact ⟨_, hmem, (i, output), rfl, hcall⟩

end

/-! ## One member alone -/

/-- A member whose actions do not depend on the shared state and leave it alone
steps as it would by itself, and the others do not touch it. -/
theorem run_alone {alone : σ → ε → ω × σ} {P : σ → ε → Prop}
    (halone : ∀ shared member e, P member e →
      rules.act shared member e =
        .ok ((alone member e).1, (alone member e).2, shared))
    (hmember : pool.members[i]? = some member)
    (halong : Machine.Along P alone member (eventsOf i es))
    (hrun : Machine.run (step rules) pool es = .ok (os, last)) :
    outputsOf i os = Machine.outputs alone member (eventsOf i es) ∧
      last.members[i]? =
        some (Machine.final alone member (eventsOf i es)) := by
  induction es generalizing pool os member with
  | nil =>
      cases hrun
      exact ⟨rfl, hmember⟩
  | cons event es ih =>
      obtain ⟨o, next, rest, hstep, hrest, rfl⟩ :=
        Machine.run_cons_eq_ok_iff.mp hrun
      rcases step_cases hstep with ⟨arrival, rfl, rfl, rfl⟩ |
        ⟨j, e, rfl, hnone, rfl, rfl⟩ |
        ⟨j, e, other, output, other', shared, rfl, hother, haction, rfl, rfl⟩
      · have hindex := (List.getElem?_eq_some_iff.mp hmember).1
        have hkept : (pool.members ++
            (rules.listen pool.listener arrival).1.toList)[i]? =
              some member := by
          rw [List.getElem?_append_left hindex, hmember]
        have htail := ih hkept halong hrest
        exact htail
      · have hne : j ≠ i := by
          rintro rfl
          rw [hmember] at hnone
          cases hnone
        rw [eventsOf, if_neg hne] at halong ⊢
        have htail := ih hmember halong hrest
        exact htail
      · by_cases heq : j = i
        · subst heq
          rw [eventsOf, if_pos rfl] at halong ⊢
          rw [hmember] at hother
          cases hother
          rw [halone _ _ _ halong.1] at haction
          cases haction
          have hindex := (List.getElem?_eq_some_iff.mp hmember).1
          obtain ⟨houtputs, hlast⟩ :=
            ih (List.getElem?_set_self hindex) halong.2 hrest
          rw [outputsOf, if_pos rfl, houtputs]
          exact ⟨rfl, hlast⟩
        · rw [eventsOf, if_neg heq] at halong ⊢
          rw [outputsOf, if_neg heq]
          have hkept : (pool.members.set j other')[i]? = some member := by
            rw [List.getElem?_set_ne heq, hmember]
          exact ih hkept halong hrest

/-! ## What each member puts out -/

/-- The outputs so far of a pool, of which each member knows its own. -/
structure Follows (Listening : τ → Prop) (Inv : List ω → σ → Prop)
    (past : ℕ → List ω) (pool : Pool γ τ σ) : Prop where
  listening : Listening pool.listener
  member : ∀ i member, pool.members[i]? = some member → Inv (past i) member
  absent : ∀ i, pool.members[i]? = none → past i = []

section

variable {Listening : τ → Prop} {Inv : List ω → σ → Prop}
  {Q : List ω → ω → Prop} {past : ℕ → List ω}

theorem Follows.join {listener : τ} {joined : Option σ}
    (hfollows : Follows Listening Inv past pool)
    (hlistening : Listening listener)
    (hjoined : ∀ member, joined = some member → Inv [] member) :
    Follows Listening Inv past
      ⟨pool.shared, listener, pool.members ++ joined.toList⟩ where
  listening := hlistening
  member k member hmember := by
    cases hold : pool.members[k]? with
    | some other =>
        have hindex := (List.getElem?_eq_some_iff.mp hold).1
        rw [List.getElem?_append_left hindex, hold] at hmember
        cases hmember
        exact hfollows.member k member hold
    | none =>
        rw [List.getElem?_append_right (List.getElem?_eq_none_iff.mp hold)]
          at hmember
        have hjoin := List.mem_of_getElem? hmember
        rw [Option.mem_toList] at hjoin
        rw [hfollows.absent k hold]
        exact hjoined member hjoin
  absent k hk := by
    apply hfollows.absent k
    rw [List.getElem?_eq_none_iff] at hk ⊢
    rw [List.length_append] at hk
    omega

theorem Follows.act {j : ℕ} {output : ω} {member' : σ}
    (hfollows : Follows Listening Inv past pool) (shared : γ)
    (hmember : pool.members[j]? = some member)
    (hInv : Inv (past j ++ [output]) member') :
    Follows Listening Inv (Function.update past j (past j ++ [output]))
      ⟨shared, pool.listener, pool.members.set j member'⟩ where
  listening := hfollows.listening
  member k other hother := by
    by_cases hk : k = j
    · subst hk
      have hindex := (List.getElem?_eq_some_iff.mp hmember).1
      rw [List.getElem?_set_self hindex] at hother
      cases hother
      rwa [Function.update_self]
    · rw [List.getElem?_set_ne (Ne.symm hk)] at hother
      rw [Function.update_of_ne hk]
      exact hfollows.member k other hother
  absent k hk := by
    by_cases heq : k = j
    · subst heq
      have hindex := (List.getElem?_eq_some_iff.mp hmember).1
      rw [List.getElem?_set_self hindex] at hk
      cases hk
    · rw [List.getElem?_set_ne (Ne.symm heq)] at hk
      rw [Function.update_of_ne heq]
      exact hfollows.absent k hk

theorem outputs_from
    (hlisten : ∀ listener arrival, Listening listener →
      Listening (rules.listen listener arrival).2 ∧
        ∀ joined, (rules.listen listener arrival).1 = some joined →
          Inv [] joined)
    (hact : ∀ past shared member e output member' shared', Inv past member →
      rules.act shared member e = .ok (output, member', shared') →
        Q past output ∧ Inv (past ++ [output]) member')
    (hfollows : Follows Listening Inv past pool)
    (hrun : Machine.run (step rules) pool es = .ok (os, last)) (i : ℕ)
    {before after : List ω} {output : ω}
    (houtputs : outputsOf i os = before ++ output :: after) :
    Q (past i ++ before) output := by
  induction es generalizing pool os past before with
  | nil =>
      cases hrun
      simp [outputsOf] at houtputs
  | cons event es ih =>
      obtain ⟨o, next, rest, hstep, hrest, rfl⟩ :=
        Machine.run_cons_eq_ok_iff.mp hrun
      rcases step_cases hstep with ⟨arrival, rfl, rfl, rfl⟩ |
        ⟨j, e, rfl, hnone, rfl, rfl⟩ |
        ⟨j, e, member, result, member', shared, rfl, hmember, haction, rfl, rfl⟩
      · obtain ⟨hnext, hjoined⟩ :=
          hlisten pool.listener arrival hfollows.listening
        exact ih (hfollows.join hnext hjoined) hrest houtputs
      · exact ih hfollows hrest houtputs
      · obtain ⟨hQ, hInv⟩ :=
          hact _ _ _ _ _ _ _ (hfollows.member j member hmember) haction
        have hgrown := hfollows.act shared hmember hInv
        by_cases heq : j = i
        · subst heq
          rw [outputsOf, if_pos rfl] at houtputs
          cases before with
          | nil =>
              cases houtputs
              simpa using hQ
          | cons first before =>
              obtain ⟨rfl, hlater⟩ := List.cons.inj houtputs
              have htail := ih hgrown hrest hlater
              rwa [Function.update_self, List.append_assoc,
                List.singleton_append] at htail
        · rw [outputsOf, if_neg heq] at houtputs
          have htail := ih hgrown hrest houtputs
          rwa [Function.update_of_ne (Ne.symm heq)] at htail

/-- What an action makes of a relation between the outputs of a member so far
and its state: each output of each member is as the outputs in front of it
demand. -/
theorem run_outputs
    (hlisten : ∀ listener arrival, Listening listener →
      Listening (rules.listen listener arrival).2 ∧
        ∀ joined, (rules.listen listener arrival).1 = some joined →
          Inv [] joined)
    (hact : ∀ past shared member e output member' shared', Inv past member →
      rules.act shared member e = .ok (output, member', shared') →
        Q past output ∧ Inv (past ++ [output]) member')
    (hlistening : Listening pool.listener) (hempty : pool.members = [])
    (hrun : Machine.run (step rules) pool es = .ok (os, last)) {i : ℕ}
    {before after : List ω} {output : ω}
    (houtputs : outputsOf i os = before ++ output :: after) :
    Q before output := by
  have hfollows : Follows Listening Inv (fun _ => []) pool :=
    ⟨hlistening, by simp [hempty], fun _ _ => rfl⟩
  exact outputs_from hlisten hact hfollows hrun i houtputs

end

theorem mem_outputsOf_iff {o : ω} :
    o ∈ outputsOf i os ↔ some (i, o) ∈ os := by
  induction os with
  | nil => simp [outputsOf]
  | cons first os ih =>
      cases first with
      | none => simp [outputsOf, ih]
      | some other =>
          rw [outputsOf]
          split
          next heq =>
            subst heq
            simp [ih, Prod.ext_iff]
          next hne => simp [ih, Prod.ext_iff, Ne.symm hne]

/-! ## A run without some of the members -/

def without (absent : ℕ → Bool) : List (Event α ε) → List (Event α ε)
  | [] => []
  | .join arrival :: es => .join arrival :: without absent es
  | .act i e :: es =>
      if absent i then without absent es else .act i e :: without absent es

def outputsWithout (absent : ℕ → Bool) : List (Option (ℕ × ω)) → List (ℕ × ω)
  | [] => []
  | none :: os => outputsWithout absent os
  | some (i, o) :: os =>
      if absent i then outputsWithout absent os
      else (i, o) :: outputsWithout absent os

/-- Nothing but the states of the absent members tells the pools apart. -/
structure SameBut (absent : ℕ → Bool) (pool other : Pool γ τ σ) : Prop where
  shared : other.shared = pool.shared
  listener : other.listener = pool.listener
  length : other.members.length = pool.members.length
  member : ∀ i, absent i = false → other.members[i]? = pool.members[i]?

/-- An action of an absent member succeeds and leaves the shared state alone. -/
def Quiet (rules : Rules γ τ σ α ε ω φ) (absent : ℕ → Bool)
    (pool : Pool γ τ σ) (event : Event α ε) : Prop :=
  ∀ i e member, event = .act i e → absent i = true →
    pool.members[i]? = some member →
    ∃ output member',
      rules.act pool.shared member e = .ok (output, member', pool.shared)

variable {absent : ℕ → Bool} {other : Pool γ τ σ}

theorem SameBut.refl (absent : ℕ → Bool) (pool : Pool γ τ σ) :
    SameBut absent pool pool := ⟨rfl, rfl, rfl, fun _ _ => rfl⟩

theorem SameBut.join (hsame : SameBut absent pool other) (listener : τ)
    (joined : List σ) :
    SameBut absent ⟨pool.shared, listener, pool.members ++ joined⟩
      ⟨other.shared, listener, other.members ++ joined⟩ := by
  refine ⟨hsame.shared, rfl, by simp [hsame.length], fun i hi => ?_⟩
  simp only [List.getElem?_append, hsame.length, hsame.member i hi]

theorem SameBut.set (hsame : SameBut absent pool other) (shared : γ) (i : ℕ)
    (member : σ) :
    SameBut absent ⟨shared, pool.listener, pool.members.set i member⟩
      ⟨shared, other.listener, other.members.set i member⟩ := by
  refine ⟨rfl, hsame.listener, by simp [hsame.length], fun j hj => ?_⟩
  simp only [List.getElem?_set, hsame.length, hsame.member j hj]

/-- An absent member steps in the one pool only. -/
theorem SameBut.set_absent (hsame : SameBut absent pool other)
    (hi : absent i = true) (member : σ) :
    SameBut absent ⟨pool.shared, pool.listener, pool.members.set i member⟩
      other := by
  refine ⟨hsame.shared, hsame.listener, by simp [hsame.length], fun j hj => ?_⟩
  have hne : i ≠ j := by
    rintro rfl
    rw [hi] at hj
    cases hj
  rw [hsame.member j hj, List.getElem?_set_ne hne]

/-- The members that are not absent step in both pools alike. -/
theorem SameBut.step_kept (rules : Rules γ τ σ α ε ω φ)
    (hsame : SameBut absent pool other) {event : Event α ε}
    (hevent : ∀ i e, event = .act i e → absent i = false) :
    (∀ fault, step rules pool event = .error fault →
      step rules other event = .error fault) ∧
    ∀ o next, step rules pool event = .ok (o, next) →
      ∃ next', step rules other event = .ok (o, next') ∧
        SameBut absent next next' := by
  cases event with
  | join arrival =>
      refine ⟨fun _ hfault => (nomatch hfault), fun o next hstep => ?_⟩
      cases hstep
      rw [step, hsame.listener]
      exact ⟨_, rfl, hsame.join _ _⟩
  | act i e =>
      have hi := hevent i e rfl
      cases hmember : pool.members[i]? with
      | none =>
          have hother := hsame.member i hi
          rw [hmember] at hother
          simp only [step, hmember, hother]
          refine ⟨fun _ hfault => (nomatch hfault), fun o next hstep => ?_⟩
          cases hstep
          exact ⟨_, rfl, hsame⟩
      | some member =>
          have hother := hsame.member i hi
          rw [hmember] at hother
          rw [step_act hmember, step_act hother, hsame.shared]
          cases rules.act pool.shared member e with
          | error fault =>
              refine ⟨fun _ hfault => hfault, fun o next hstep => ?_⟩
              cases hstep
          | ok result =>
              refine ⟨fun _ hfault => (nomatch hfault), fun o next hstep => ?_⟩
              cases hstep
              exact ⟨_, rfl, hsame.set _ _ _⟩

theorem SameBut.step_absent (hsame : SameBut absent pool other) {i : ℕ} {e : ε}
    (hquiet : Quiet rules absent pool (.act i e)) (hi : absent i = true) :
    ∃ o next, step rules pool (.act i e) = .ok (o, next) ∧
      SameBut absent next other ∧
      ∀ os, outputsWithout absent (o :: os) = outputsWithout absent os := by
  cases hmember : pool.members[i]? with
  | none =>
      refine ⟨none, pool, ?_, hsame, fun _ => rfl⟩
      rw [step, hmember]
  | some member =>
      obtain ⟨output, member', haction⟩ := hquiet i e member rfl hi hmember
      refine ⟨some (i, output), _, ?_, hsame.set_absent hi member', fun os => ?_⟩
      · rw [step_act hmember, haction]
        rfl
      · rw [outputsWithout, if_pos hi]

theorem without_cons {event : Event α ε}
    (hevent : ∀ i e, event = .act i e → absent i = false) :
    without absent (event :: es) = event :: without absent es := by
  cases event with
  | join arrival => rfl
  | act i e => rw [without, hevent i e rfl, if_neg Bool.false_ne_true]

theorem outputsWithout_cons {o : Option (ℕ × ω)}
    {rest rest' : List (Option (ℕ × ω))}
    (hrest : outputsWithout absent rest' = outputsWithout absent rest) :
    outputsWithout absent (o :: rest') = outputsWithout absent (o :: rest) := by
  cases o with
  | none => exact hrest
  | some output => simp only [outputsWithout, hrest]

/-- Members whose actions neither fail nor change the shared state can be left
out of a run: it ends alike, and the others put out the same. -/
theorem run_without (hsame : SameBut absent pool other)
    (hquiet : Machine.Before (Quiet rules absent) (step rules) pool es) :
    (∀ fault, Machine.run (step rules) pool es = .error fault →
      Machine.run (step rules) other (without absent es) = .error fault) ∧
    ∀ os last, Machine.run (step rules) pool es = .ok (os, last) →
      ∃ os' last', Machine.run (step rules) other (without absent es) =
          .ok (os', last') ∧
        outputsWithout absent os' = outputsWithout absent os ∧
        SameBut absent last last' := by
  induction es generalizing pool other with
  | nil =>
      constructor
      · intro fault hfault
        cases hfault
      · intro os last hrun
        cases hrun
        exact ⟨[], other, rfl, rfl, hsame⟩
  | cons event es ih =>
      by_cases hkept : ∀ i e, event = .act i e → absent i = false
      · obtain ⟨hfaults, hsteps⟩ := hsame.step_kept rules hkept
        rw [without_cons hkept]
        cases hstep : step rules pool event with
        | error fault =>
            simp only [Machine.run, hstep, hfaults fault hstep]
            constructor
            · intro fault hfault
              exact hfault
            · intro os last hrun
              cases hrun
        | ok result =>
            obtain ⟨o, next⟩ := result
            obtain ⟨next', hstep', hnext⟩ := hsteps o next hstep
            obtain ⟨hrunFaults, hruns⟩ := ih hnext (hquiet.2 o next hstep)
            constructor
            · intro fault hfault
              rw [Machine.run_cons_eq_error hstep] at hfault
              rw [Machine.run_cons_eq_error hstep']
              exact hrunFaults fault hfault
            · intro os last hrun
              obtain ⟨_, _, rest, hstep'', hrest, rfl⟩ :=
                Machine.run_cons_eq_ok_iff.mp hrun
              rw [hstep] at hstep''
              cases hstep''
              obtain ⟨rest', last', hrest', houtputs, hlast⟩ := hruns rest last hrest
              exact ⟨o :: rest', last',
                Machine.run_cons_eq_ok_iff.mpr
                  ⟨o, next', rest', hstep', hrest', rfl⟩,
                outputsWithout_cons houtputs, hlast⟩
      · push Not at hkept
        obtain ⟨i, e, rfl, hi⟩ := hkept
        rw [Bool.ne_false_iff] at hi
        obtain ⟨o, next, hstep, hnext, hskip⟩ := hsame.step_absent hquiet.1 hi
        obtain ⟨hrunFaults, hruns⟩ := ih hnext (hquiet.2 o next hstep)
        rw [without, if_pos hi]
        constructor
        · intro fault hfault
          rw [Machine.run_cons_eq_error hstep] at hfault
          exact hrunFaults fault hfault
        · intro os last hrun
          obtain ⟨_, _, rest, hstep', hrest, rfl⟩ :=
            Machine.run_cons_eq_ok_iff.mp hrun
          rw [hstep] at hstep'
          cases hstep'
          rw [hskip]
          exact hruns rest last hrest

/-- The pools differ in the absent members, and in the shared state as far as
the view allows. -/
structure ViewBut (absent : ℕ → Bool) (V : γ → γ → Prop)
    (pool other : Pool γ τ σ) : Prop where
  same : SameBut absent ⟨other.shared, pool.listener, pool.members⟩ other
  view : V pool.shared other.shared

section

variable {V V' : γ → γ → Prop}

theorem ViewBut.step_kept (rules : Rules γ τ σ α ε ω φ) {event : Event α ε}
    (hviews : ViewBut absent V pool other)
    (hmono : ∀ shared shared', V shared shared' → V' shared shared')
    (hevent : ∀ i e, event = .act i e → absent i = false)
    (hact : ∀ i e member, event = .act i e →
      pool.members[i]? = some member →
      ∃ output member' left left',
        rules.act pool.shared member e = .ok (output, member', left) ∧
        rules.act other.shared member e = .ok (output, member', left') ∧
        V' left left') :
    ∃ o next next', step rules pool event = .ok (o, next) ∧
      step rules other event = .ok (o, next') ∧
      ViewBut absent V' next next' := by
  cases event with
  | join arrival =>
      have hlistener : other.listener = pool.listener := hviews.same.listener
      let listener := (rules.listen pool.listener arrival).2
      let joined := (rules.listen pool.listener arrival).1.toList
      refine ⟨none, _, ⟨other.shared, listener, other.members ++ joined⟩, rfl,
        ?_, hviews.same.join listener joined, hmono _ _ hviews.view⟩
      rw [step, hlistener]
  | act i e =>
      have hmembers : other.members[i]? = pool.members[i]? :=
        hviews.same.member i (hevent i e rfl)
      cases hmember : pool.members[i]? with
      | none =>
          rw [hmember] at hmembers
          refine ⟨none, pool, other, ?_, ?_, hviews.same, hmono _ _ hviews.view⟩
          · rw [step, hmember]
          · rw [step, hmembers]
      | some member =>
          rw [hmember] at hmembers
          obtain ⟨output, member', left, left', haction, haction', hleft⟩ :=
            hact i e member rfl hmember
          refine ⟨some (i, output),
            ⟨left, pool.listener, pool.members.set i member'⟩,
            ⟨left', other.listener, other.members.set i member'⟩, ?_, ?_,
            hviews.same.set left' i member', hleft⟩
          · rw [step_act hmember, haction]
            rfl
          · rw [step_act hmembers, haction']
            rfl

theorem ViewBut.step_absent (rules : Rules γ τ σ α ε ω φ) {i : ℕ} {e : ε}
    (hviews : ViewBut absent V pool other)
    (hmono : ∀ shared shared', V shared shared' → V' shared shared')
    (hi : absent i = true)
    (hact : ∀ member, pool.members[i]? = some member →
      ∃ output member' left,
        rules.act pool.shared member e = .ok (output, member', left) ∧
        V' left other.shared) :
    ∃ o next, step rules pool (.act i e) = .ok (o, next) ∧
      ViewBut absent V' next other ∧
      ∀ os, outputsWithout absent (o :: os) = outputsWithout absent os := by
  cases hmember : pool.members[i]? with
  | none =>
      refine ⟨none, pool, ?_, ⟨hviews.same, hmono _ _ hviews.view⟩,
        fun _ => rfl⟩
      rw [step, hmember]
  | some member =>
      obtain ⟨output, member', left, haction, hleft⟩ := hact member hmember
      refine ⟨some (i, output),
        ⟨left, pool.listener, pool.members.set i member'⟩, ?_,
        ⟨hviews.same.set_absent hi member', hleft⟩, fun os => ?_⟩
      · rw [step_act hmember, haction]
        rfl
      · rw [outputsWithout, if_pos hi]

end

end Pool
end Swifties
