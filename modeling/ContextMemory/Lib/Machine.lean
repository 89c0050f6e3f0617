/-
Machines that take one event at a time.

A machine is a partial function from a state and an event to the next state: an event that cannot
happen in a state has no next state. `Reaches next calm s t` says that some run leads from `s` to
`t` and that every state it passes is calm, that is, meets the conditions under which the run is
considered.

The rule for invariants is `Reaches.invariant`: what holds at the start and is kept by each step
between two states of the run holds wherever the run ends. `runsWithin` runs a list of events and
checks the condition on the way.
-/

import Mathlib.Logic.Basic
import Mathlib.Data.Option.Basic

namespace Machine

variable {σ ε : Type} {next : σ → ε → Option σ} {calm : σ → Prop} {s t : σ}

/-- A run from `s` to `t` through states that are calm. -/
inductive Reaches (next : σ → ε → Option σ) (calm : σ → Prop) (s : σ) : σ → Prop where
  | start : calm s → Reaches next calm s s
  | step {t u : σ} (e : ε) : Reaches next calm s t → next t e = some u → calm u →
      Reaches next calm s u

theorem Reaches.last_calm (h : Reaches next calm s t) : calm t := by
  cases h with
  | start hcalm => exact hcalm
  | step _ _ _ hcalm => exact hcalm

/-- **The rule for invariants.** -/
theorem Reaches.invariant (Inv : σ → Prop) (h : Reaches next calm s t) (hstart : Inv s)
    (hstep : ∀ t e u, calm t → Inv t → next t e = some u → calm u → Inv u) : Inv t := by
  induction h with
  | start _ => exact hstart
  | step e hrun hnext hcalm ih => exact hstep _ e _ hrun.last_calm ih hnext hcalm

/-- A second run continues the first. -/
theorem Reaches.append {u : σ} (h : Reaches next calm s t) (h' : Reaches next calm t u) :
    Reaches next calm s u := by
  induction h' with
  | start _ => exact h
  | step e _ hnext hcalm ih => exact .step e ih hnext hcalm

/-! ### Runs that check themselves -/

/-- The state after a list of events, when every state on the way passes the check. -/
def runsWithin (next : σ → ε → Option σ) (check : σ → Bool) : σ → List ε → Option σ
  | s, [] => if check s then some s else none
  | s, e :: es => if check s then (next s e).bind fun t => runsWithin next check t es else none

theorem check_of_runsWithin {check : σ → Bool} {es : List ε}
    (h : runsWithin next check s es = some t) : check s = true := by
  cases es with
  | nil => exact (Option.ite_none_right_eq_some.mp h).1
  | cons e es => exact (Option.ite_none_right_eq_some.mp h).1

theorem reaches_of_runsWithin {check : σ → Bool} (hcheck : ∀ u, check u = true → calm u)
    {es : List ε} (h : runsWithin next check s es = some t) : Reaches next calm s t := by
  induction es generalizing s with
  | nil =>
      obtain ⟨hs, heq⟩ := Option.ite_none_right_eq_some.mp h
      cases heq
      exact .start (hcheck _ hs)
  | cons e es ih =>
      obtain ⟨hs, hbind⟩ := Option.ite_none_right_eq_some.mp h
      obtain ⟨u, hu, hrest⟩ := Option.bind_eq_some_iff.mp hbind
      have hfirst : Reaches next calm s u :=
        .step e (.start (hcheck _ hs)) hu (hcheck _ (check_of_runsWithin hrest))
      exact hfirst.append (ih hrest)

end Machine
