import Mathlib

/-!
# Runs of step machines

A machine reads events one at a time.  A step may fault, which ends the run, or
give an output and the next state; a machine whose steps never fault is given
by a plain function.  The rules below lift what one step preserves to whole
runs: an invariant, a condition met before every step, and a simulation of a
faulting machine by one that never faults.
-/

namespace Swifties
namespace Machine

variable {σ τ ε ω φ : Type}

theorem bind_eq_ok_iff {x : Except φ σ} {f : σ → Except φ τ} {t : τ} :
    (x >>= f) = .ok t ↔ ∃ s, x = .ok s ∧ f s = .ok t := by
  cases x with
  | error fault =>
      apply iff_of_false
      · intro h
        cases h
      · rintro ⟨s, h, _⟩
        cases h
  | ok s => simp [bind, Except.bind]

theorem map_eq_ok_iff {x : Except φ σ} {f : σ → τ} {t : τ} :
    x.map f = .ok t ↔ ∃ s, x = .ok s ∧ f s = t := by
  cases x <;> simp [Except.map]

theorem exists_of_toBool {x : Except φ σ} (hok : x.toBool = true) :
    ∃ s, x = .ok s := by
  cases x with
  | error fault => cases hok
  | ok s => exact ⟨s, rfl⟩

/-- All outputs of a run and its last state, or the fault that ended it. -/
def run (step : σ → ε → Except φ (ω × σ)) :
    σ → List ε → Except φ (List ω × σ)
  | s, [] => .ok ([], s)
  | s, e :: es =>
      match step s e with
      | .error fault => .error fault
      | .ok (o, next) =>
          match run step next es with
          | .error fault => .error fault
          | .ok (os, last) => .ok (o :: os, last)

theorem run_cons_eq_ok_iff {step : σ → ε → Except φ (ω × σ)} {s last : σ}
    {e : ε} {es : List ε} {os : List ω} :
    run step s (e :: es) = .ok (os, last) ↔
      ∃ o next rest, step s e = .ok (o, next) ∧
        run step next es = .ok (rest, last) ∧ os = o :: rest := by
  rw [run]
  cases hs : step s e with
  | error fault => simp
  | ok result =>
      obtain ⟨o, next⟩ := result
      cases hrun : run step next es with
      | error fault => simp [hrun]
      | ok result =>
          simp only [hrun, Except.ok.injEq, Prod.mk.injEq]
          constructor
          · rintro ⟨rfl, rfl⟩
            exact ⟨o, next, result.1, ⟨rfl, rfl⟩, hrun, rfl⟩
          · rintro ⟨_, _, rest, ⟨rfl, rfl⟩, hrest, rfl⟩
            rw [hrun] at hrest
            cases hrest
            exact ⟨rfl, rfl⟩

theorem run_cons_eq_error {step : σ → ε → Except φ (ω × σ)} {s next : σ}
    {e : ε} {es : List ε} {o : ω} {fault : φ} (hstep : step s e = .ok (o, next)) :
    run step s (e :: es) = .error fault ↔ run step next es = .error fault := by
  rw [run, hstep]
  cases hrun : run step next es <;> simp [hrun]

theorem run_append {step : σ → ε → Except φ (ω × σ)} {s middle last : σ}
    {es more : List ε} {os rest : List ω}
    (hrun : run step s es = .ok (os, middle))
    (hmore : run step middle more = .ok (rest, last)) :
    run step s (es ++ more) = .ok (os ++ rest, last) := by
  induction es generalizing s os with
  | nil =>
      cases hrun
      exact hmore
  | cons e es ih =>
      obtain ⟨o, next, tail, hstep, htail, rfl⟩ := run_cons_eq_ok_iff.mp hrun
      exact run_cons_eq_ok_iff.mpr ⟨o, next, _, hstep, ih htail, rfl⟩

/-- What is not the same after a run, some step of it has changed. -/
theorem run_changed {α : Type} {view : σ → α}
    {step : σ → ε → Except φ (ω × σ)} {s last : σ} {es : List ε} {os : List ω}
    (hrun : run step s es = .ok (os, last)) (hchanged : view last ≠ view s) :
    ∃ before e after rest middle o next, es = before ++ e :: after ∧
      run step s before = .ok (rest, middle) ∧
      step middle e = .ok (o, next) ∧ view next ≠ view middle := by
  induction es generalizing s os with
  | nil =>
      cases hrun
      exact (hchanged rfl).elim
  | cons e es ih =>
      obtain ⟨o, next, rest, hstep, hrest, rfl⟩ := run_cons_eq_ok_iff.mp hrun
      by_cases hsame : view next = view s
      · rw [← hsame] at hchanged
        obtain ⟨before, e', after, rest', middle, o', next', rfl, hbefore,
          hlater⟩ := ih hrest hchanged
        exact ⟨e :: before, e', after, o :: rest', middle, o', next', rfl,
          run_cons_eq_ok_iff.mpr ⟨o, next, rest', hstep, hbefore, rfl⟩, hlater⟩
      · exact ⟨[], e, es, [], s, o, next, rfl, rfl, hstep, hsame⟩

def outputs (step : τ → ε → ω × τ) : τ → List ε → List ω
  | _, [] => []
  | t, e :: es => (step t e).1 :: outputs step (step t e).2 es

def final (step : τ → ε → ω × τ) : τ → List ε → τ
  | t, [] => t
  | t, e :: es => final step (step t e).2 es

/-- The condition holds before every step of the run. -/
def Along (P : τ → ε → Prop) (step : τ → ε → ω × τ) : τ → List ε → Prop
  | _, [] => True
  | t, e :: es => P t e ∧ Along P step (step t e).2 es

theorem Along.and_forall {P : τ → ε → Prop} {step : τ → ε → ω × τ}
    {Q : ε → Prop} {t : τ} {es : List ε} (hQ : ∀ e ∈ es, Q e)
    (halong : Along P step t es) :
    Along (fun t e => Q e ∧ P t e) step t es := by
  induction es generalizing t with
  | nil => trivial
  | cons e es ih =>
      refine ⟨⟨hQ e (by simp), halong.1⟩, ih (fun e' he' => ?_) halong.2⟩
      exact hQ e' (List.mem_cons_of_mem e he')

theorem final_invariant {step : τ → ε → ω × τ} {Inv : τ → Prop}
    (hstep : ∀ t e, Inv t → Inv (step t e).2) {t : τ} (ht : Inv t)
    (es : List ε) : Inv (final step t es) := by
  induction es generalizing t with
  | nil => exact ht
  | cons e es ih => exact ih (hstep t e ht)

theorem final_append {step : τ → ε → ω × τ} (t : τ) (es more : List ε) :
    final step t (es ++ more) = final step (final step t es) more := by
  induction es generalizing t with
  | nil => rfl
  | cons e es ih => exact ih (step t e).2

theorem Along.and {P Q : τ → ε → Prop} {step : τ → ε → ω × τ} {t : τ}
    {es : List ε} (hP : Along P step t es) (hQ : Along Q step t es) :
    Along (fun t e => P t e ∧ Q t e) step t es := by
  induction es generalizing t with
  | nil => trivial
  | cons e es ih => exact ⟨⟨hP.1, hQ.1⟩, ih hP.2 hQ.2⟩

theorem Along.mono {P Q : τ → ε → Prop} {step : τ → ε → ω × τ}
    (himp : ∀ t e, P t e → Q t e) {t : τ} {es : List ε}
    (hP : Along P step t es) : Along Q step t es := by
  induction es generalizing t with
  | nil => trivial
  | cons e es ih => exact ⟨himp t e hP.1, ih hP.2⟩

/-- What an invariant makes of a condition holds before every step where the
condition does. -/
theorem Along.of_invariant {P Q : τ → ε → Prop} {step : τ → ε → ω × τ}
    {Inv : τ → Prop}
    (hstep : ∀ t e, Inv t → P t e → Q t e ∧ Inv (step t e).2) {t : τ}
    {es : List ε} (hinv : Inv t) (halong : Along P step t es) :
    Along Q step t es := by
  induction es generalizing t with
  | nil => trivial
  | cons e es ih =>
      obtain ⟨hQ, hnext⟩ := hstep t e hinv halong.1
      exact ⟨hQ, ih hnext halong.2⟩

theorem mem_outputs_iff {step : τ → ε → ω × τ} {t : τ} {es : List ε} {o : ω} :
    o ∈ outputs step t es ↔
      ∃ before e after, es = before ++ e :: after ∧
        o = (step (final step t before) e).1 := by
  induction es generalizing t with
  | nil => simp [outputs]
  | cons e es ih =>
      rw [outputs, List.mem_cons, ih]
      constructor
      · rintro (rfl | ⟨before, e', after, rfl, rfl⟩)
        · exact ⟨[], e, es, rfl, rfl⟩
        · exact ⟨e :: before, e', after, rfl, rfl⟩
      · rintro ⟨before, e', after, heq, rfl⟩
        cases before with
        | nil =>
            cases heq
            exact .inl rfl
        | cons first before =>
            cases heq
            exact .inr ⟨before, e', after, rfl, rfl⟩

/-- A relation holds between all outputs in order when it holds between those
before each step and the output of the step. -/
theorem outputs_pairwise_iff {step : τ → ε → ω × τ} {R : ω → ω → Prop}
    {t : τ} {es : List ε} :
    (outputs step t es).Pairwise R ↔
      ∀ before e after, es = before ++ e :: after →
        ∀ o ∈ outputs step t before,
          R o (step (final step t before) e).1 := by
  induction es generalizing t with
  | nil => simp [outputs]
  | cons first es ih =>
      rw [outputs, List.pairwise_cons, ih]
      constructor
      · rintro ⟨hfirst, hrest⟩ before e after heq o ho
        cases before with
        | nil => cases ho
        | cons first before =>
            cases heq
            rcases List.mem_cons.mp ho with rfl | ho
            · exact hfirst _ (mem_outputs_iff.mpr ⟨before, e, after, rfl, rfl⟩)
            · exact hrest before e after rfl o ho
      · intro hall
        constructor
        · intro o ho
          obtain ⟨before, e, after, rfl, rfl⟩ := mem_outputs_iff.mp ho
          exact hall (first :: before) e after rfl _ List.mem_cons_self
        · intro before e after heq o ho
          subst heq
          exact hall (first :: before) e after rfl o
            (List.mem_cons_of_mem _ ho)

def Before (P : σ → ε → Prop) (step : σ → ε → Except φ (ω × σ)) :
    σ → List ε → Prop
  | _, [] => True
  | s, e :: es =>
      P s e ∧ ∀ o next, step s e = .ok (o, next) → Before P step next es

instance decidableBefore (P : σ → ε → Prop) [∀ s e, Decidable (P s e)]
    (step : σ → ε → Except φ (ω × σ)) :
    ∀ s es, Decidable (Before P step s es)
  | _, [] => .isTrue trivial
  | s, e :: es =>
      match hstep : step s e with
      | .error _ =>
          decidable_of_iff (P s e) <| by
            simp [Before, hstep]
      | .ok (_, next) =>
          haveI : Decidable (Before P step next es) :=
            decidableBefore P step next es
          decidable_of_iff (P s e ∧ Before P step next es) <| by
            simp [Before, hstep]

theorem run_error_iff {step : σ → ε → Except φ (ω × σ)}
    {P : σ → ε → Prop} {fault : φ}
    (hstep : ∀ s e, step s e = .error fault ↔ ¬ P s e) (s : σ)
    (es : List ε) :
    run step s es = .error fault ↔ ¬ Before P step s es := by
  induction es generalizing s with
  | nil => simp [run, Before]
  | cons e es ih =>
      have hiff := hstep s e
      rw [run, Before]
      cases hs : step s e with
      | error other =>
          rw [hs, Except.error.injEq] at hiff
          simp [hiff]
      | ok result =>
          obtain ⟨o, next⟩ := result
          have hP : P s e := by
            by_contra hnot
            rw [hiff.mpr hnot] at hs
            cases hs
          have hrest : Before P step next es ↔
              ∀ o' next',
                (.ok (o, next) : Except φ (ω × σ)) = .ok (o', next') →
                  Before P step next' es := by
            constructor
            · rintro hbefore o' next' heq
              cases heq
              exact hbefore
            · intro hall
              exact hall o next rfl
          rw [← hrest, and_iff_right hP, ← ih next]
          cases hrun : run step next es <;> simp [hrun]

theorem before_of_invariant {step : σ → ε → Except φ (ω × σ)}
    {P : σ → ε → Prop} {Inv : σ → Prop} {Q : ε → Prop}
    (hsafe : ∀ s e, Inv s → Q e → P s e)
    (hstep : ∀ s e o next, Inv s → Q e → step s e = .ok (o, next) →
      Inv next)
    {s : σ} {es : List ε} (hinv : Inv s) (hQ : ∀ e ∈ es, Q e) :
    Before P step s es := by
  induction es generalizing s with
  | nil => trivial
  | cons e es ih =>
      have he := hQ e List.mem_cons_self
      refine ⟨hsafe s e hinv he, fun o next hnext => ?_⟩
      exact ih (hstep s e o next hinv he hnext) fun e' he' =>
        hQ e' (List.mem_cons_of_mem e he')

theorem before_of_forall {Q : ε → Prop} {step : σ → ε → Except φ (ω × σ)}
    {s : σ} {es : List ε} (hQ : ∀ e ∈ es, Q e) :
    Before (fun _ e => Q e) step s es := by
  induction es generalizing s with
  | nil => trivial
  | cons e es ih =>
      refine ⟨hQ e List.mem_cons_self, fun o next _ => ?_⟩
      exact ih fun e' he' => hQ e' (List.mem_cons_of_mem e he')

theorem Before.mono {P Q : σ → ε → Prop} {step : σ → ε → Except φ (ω × σ)}
    (himp : ∀ s e, P s e → Q s e) {s : σ} {es : List ε}
    (hbefore : Before P step s es) : Before Q step s es := by
  induction es generalizing s with
  | nil => trivial
  | cons e es ih =>
      exact ⟨himp s e hbefore.1, fun o next hnext => ih (hbefore.2 o next hnext)⟩

theorem Before.and_forall {P : σ → ε → Prop} {Q : ε → Prop}
    {step : σ → ε → Except φ (ω × σ)} {s : σ} {es : List ε}
    (hQ : ∀ e ∈ es, Q e) (hbefore : Before P step s es) :
    Before (fun s e => Q e ∧ P s e) step s es := by
  induction es generalizing s with
  | nil => trivial
  | cons e es ih =>
      refine ⟨⟨hQ e List.mem_cons_self, hbefore.1⟩, fun o next hnext => ?_⟩
      exact ih (fun e' he' => hQ e' (List.mem_cons_of_mem e he'))
        (hbefore.2 o next hnext)

theorem run_invariant {step : σ → ε → Except φ (ω × σ)} {Inv : σ → Prop}
    {P : σ → ε → Prop}
    (hstep : ∀ s e o next, Inv s → P s e → step s e = .ok (o, next) →
      Inv next)
    {s last : σ} {es : List ε} {os : List ω} (hinv : Inv s)
    (hbefore : Before P step s es) (hrun : run step s es = .ok (os, last)) :
    Inv last := by
  induction es generalizing s os with
  | nil =>
      cases hrun
      exact hinv
  | cons e es ih =>
      rw [run] at hrun
      cases hs : step s e with
      | error fault =>
          rw [hs] at hrun
          cases hrun
      | ok result =>
          obtain ⟨o, next⟩ := result
          cases hrest : run step next es with
          | error fault =>
              rw [hs] at hrun
              simp only [hrest] at hrun
              cases hrun
          | ok tail =>
              rw [hs] at hrun
              simp only [hrest] at hrun
              cases hrun
              exact ih (hstep s e o next hinv hbefore.1 hs)
                (hbefore.2 o next hs) hrest

end Machine
end Swifties
