/-
Programs over durable state whose operations can fail.

A `Prog σ ε α` reads and writes a state `σ` and runs against a script of faults,
one for each store operation it performs. An operation proceeds, is refused
(raises, no effect), is lost (takes effect and raises all the same), or finds the
process dead. An exhausted script injects nothing, so the empty script is the
fault-free run, and a script of the right length stops a program between any two
of its operations.

The judgment about programs is `Triple P p Q C`: from a state satisfying `P`, under *every* script,
a normal return satisfies `Q` and every other exit leaves a state satisfying the crash condition
`C`.

The rules follow the program constructors; loops have one invariant rule each.
-/

import Mathlib.Logic.Basic
import Mathlib.Data.List.Basic

namespace Faulty

/-- What the environment does to one store operation. -/
inductive Fault (ε : Type) where
  | none
  | refuse (error : ε)
  | lose (error : ε)
  | die
deriving DecidableEq, Repr

/-- How a program ends. `died` is the end of the process: no handler runs. -/
inductive Exit (ε α : Type) where
  | ok (value : α)
  | raised (error : ε)
  | died
deriving DecidableEq, Repr

def Exit.isOk {ε α : Type} : Exit ε α → Bool
  | .ok _ => true
  | _ => false

/-- The exit, the state it leaves and the part of the script not consumed. -/
structure Outcome (σ ε α : Type) where
  exit : Exit ε α
  state : σ
  faults : List (Fault ε)

/-- A program over state `σ` raising errors `ε`. -/
def Prog (σ ε α : Type) : Type := σ → List (Fault ε) → Outcome σ ε α

variable {σ τ ε α β : Type}

namespace Prog

def pure (value : α) : Prog σ ε α := fun s fs => ⟨.ok value, s, fs⟩

def bind (p : Prog σ ε α) (f : α → Prog σ ε β) : Prog σ ε β := fun s fs =>
  match p s fs with
  | ⟨.ok value, s', fs'⟩ => f value s' fs'
  | ⟨.raised error, s', fs'⟩ => ⟨.raised error, s', fs'⟩
  | ⟨.died, s', fs'⟩ => ⟨.died, s', fs'⟩

instance : Monad (Prog σ ε) where
  pure := pure
  bind := bind

/-- One store operation: it consumes one fault of the script. -/
def op (f : σ → Except ε (α × σ)) : Prog σ ε α := fun s fs =>
  match fs with
  | .refuse error :: rest => ⟨.raised error, s, rest⟩
  | .die :: rest => ⟨.died, s, rest⟩
  | .lose error :: rest =>
      match f s with
      | .ok (_, s') => ⟨.raised error, s', rest⟩
      | .error refused => ⟨.raised refused, s, rest⟩
  | rest =>
      match f s with
      | .ok (value, s') => ⟨.ok value, s', rest.tail⟩
      | .error refused => ⟨.raised refused, s, rest.tail⟩

/-- A computation on the state that touches no store: it may raise, and what it
did to the state in memory stays done. -/
def ofState (f : σ → Except ε α × σ) : Prog σ ε α := fun s fs =>
  match f s with
  | (.ok value, s') => ⟨.ok value, s', fs⟩
  | (.error error, s') => ⟨.raised error, s', fs⟩

/-- `try p except e: h e`. A dead process runs no handler. -/
def catchAll (p : Prog σ ε α) (h : ε → Prog σ ε α) : Prog σ ε α := fun s fs =>
  match p s fs with
  | ⟨.raised error, s', fs'⟩ => h error s' fs'
  | other => other

/-- `for x in xs: f x`. -/
def forEach (f : β → Prog σ ε Unit) : List β → Prog σ ε Unit
  | [] => pure ()
  | x :: xs => bind (f x) fun _ => forEach f xs

/-- Run a program on a component of a larger state. -/
def zoom (view : σ → τ) (put : σ → τ → σ) (p : Prog τ ε α) : Prog σ ε α := fun s fs =>
  let out := p (view s) fs
  ⟨out.exit, put s out.state, out.faults⟩

theorem bind_ok {p : Prog σ ε α} {f : α → Prog σ ε β} {s s' : σ} {fs fs' : List (Fault ε)}
    {value : α} (h : p s fs = ⟨.ok value, s', fs'⟩) : (p >>= f) s fs = f value s' fs' := by
  change bind p f s fs = _
  simp only [bind, h]

theorem bind_raised {p : Prog σ ε α} {f : α → Prog σ ε β} {s s' : σ} {fs fs' : List (Fault ε)}
    {error : ε} (h : p s fs = ⟨.raised error, s', fs'⟩) :
    (p >>= f) s fs = ⟨.raised error, s', fs'⟩ := by
  change bind p f s fs = _
  simp only [bind, h]

/-- A sequence that returned did so part by part. -/
theorem bind_eq_ok {p : Prog σ ε α} {f : α → Prog σ ε β} {s s'' : σ} {fs fs'' : List (Fault ε)}
    {value : β} (h : (p >>= f) s fs = ⟨.ok value, s'', fs''⟩) :
    ∃ a s' fs', p s fs = ⟨.ok a, s', fs'⟩ ∧ f a s' fs' = ⟨.ok value, s'', fs''⟩ := by
  change bind p f s fs = _ at h
  unfold bind at h
  split at h
  · rename_i a s' fs' heq
    exact ⟨a, s', fs', heq, h⟩
  · cases h
  · cases h

/-- Sequences agree where their second parts do. -/
theorem bind_congr {p : Prog σ ε α} {f g : α → Prog σ ε β} {s : σ} {fs : List (Fault ε)}
    (h : ∀ a s' fs', p s fs = ⟨.ok a, s', fs'⟩ → f a s' fs' = g a s' fs') :
    (p >>= f) s fs = (p >>= g) s fs := by
  change bind p f s fs = bind p g s fs
  unfold bind
  split
  · rename_i a s' fs' heq
    exact h a s' fs' heq
  · rfl
  · rfl

theorem catchAll_ok {p : Prog σ ε α} {h : ε → Prog σ ε α} {s s' : σ} {fs fs' : List (Fault ε)}
    {value : α} (hp : p s fs = ⟨.ok value, s', fs'⟩) :
    catchAll p h s fs = ⟨.ok value, s', fs'⟩ := by
  simp only [catchAll, hp]

theorem catchAll_raised {p : Prog σ ε α} {h : ε → Prog σ ε α} {s s' : σ}
    {fs fs' : List (Fault ε)} {error : ε} (hp : p s fs = ⟨.raised error, s', fs'⟩) :
    catchAll p h s fs = h error s' fs' := by
  simp only [catchAll, hp]

/-- An operation that returned performed its function. -/
theorem op_eq_ok {f : σ → Except ε (α × σ)} {s s' : σ} {fs fs' : List (Fault ε)} {value : α}
    (h : op f s fs = ⟨.ok value, s', fs'⟩) : f s = .ok (value, s') := by
  unfold op at h
  split at h
  · cases h
  · cases h
  · split at h <;> cases h
  · split at h
    · rename_i heq
      cases h
      exact heq
    · cases h

/-- Every error is handled inside the program. -/
def NeverRaises (p : Prog σ ε α) : Prop :=
  ∀ s fs error, (p s fs).exit ≠ .raised error

theorem NeverRaises.pure (value : α) : NeverRaises (Pure.pure value : Prog σ ε α) := by
  intro s fs error h
  cases h

/-- A sequence does not raise if neither part does where it runs. -/
theorem bind_not_raised {p : Prog σ ε α} {f : α → Prog σ ε β} {s : σ} {fs : List (Fault ε)}
    (hp : ∀ error, (p s fs).exit ≠ .raised error)
    (hf : ∀ a, (p s fs).exit = .ok a →
      ∀ error, (f a (p s fs).state (p s fs).faults).exit ≠ .raised error) :
    ∀ error, ((p >>= f) s fs).exit ≠ .raised error := by
  intro error h
  change (bind p f s fs).exit = _ at h
  unfold bind at h
  split at h
  · rename_i a s' fs' heq
    rw [heq] at hf
    exact hf a rfl error h
  · rename_i raised s' fs' heq
    exact hp raised (by rw [heq])
  · cases h

theorem NeverRaises.bind {p : Prog σ ε α} {f : α → Prog σ ε β} (hp : NeverRaises p)
    (hf : ∀ a, NeverRaises (f a)) : NeverRaises (p >>= f) :=
  fun s fs => bind_not_raised (hp s fs) fun a _ => hf a _ _

theorem NeverRaises.catchAll {p : Prog σ ε α} {h : ε → Prog σ ε α}
    (hh : ∀ error, NeverRaises (h error)) : NeverRaises (Prog.catchAll p h) := by
  intro s fs error hexit
  unfold Prog.catchAll at hexit
  split at hexit
  · exact hh _ _ _ _ hexit
  · rename_i hne
    exact hne error _ _ (by rw [← hexit])

@[simp] theorem pure_apply (value : α) (s : σ) (fs : List (Fault ε)) :
    (Pure.pure value : Prog σ ε α) s fs = ⟨.ok value, s, fs⟩ := rfl

@[simp] theorem op_nil (f : σ → Except ε (α × σ)) (s : σ) :
    op f s [] = match f s with
      | .ok (value, s') => ⟨.ok value, s', []⟩
      | .error refused => ⟨.raised refused, s, []⟩ := rfl

end Prog

/-! ### Triples with a crash condition -/

/-- What a triple says of one outcome. -/
def Holds (Q : α → σ → Prop) (C : σ → Prop) (out : Outcome σ ε α) : Prop :=
  match out.exit with
  | .ok value => Q value out.state
  | .raised _ => C out.state
  | .died => C out.state

/-- The same condition on every exit is a condition on the state left. -/
theorem Holds.always {P : σ → Prop} {out : Outcome σ ε α} (h : Holds (fun _ => P) P out) :
    P out.state := by
  unfold Holds at h
  split at h <;> exact h

/-- From `P`, under every script, a return satisfies `Q` and any other exit `C`. -/
def Triple (P : σ → Prop) (p : Prog σ ε α) (Q : α → σ → Prop) (C : σ → Prop) : Prop :=
  ∀ s fs, P s → Holds Q C (p s fs)

namespace Triple

variable {P P' C C' : σ → Prop} {Q Q' : α → σ → Prop}

theorem pure {value : α} (h : ∀ s, P s → Q value s) :
    Triple P (Pure.pure value : Prog σ ε α) Q C :=
  fun s _ hs => h s hs

/-- Nothing is claimed, so nothing has to be known about the program. -/
theorem trivial (p : Prog σ ε α) :
    Triple (fun _ => True) p (fun _ _ => True) (fun _ => True) := by
  intro s fs _
  unfold Holds
  split <;> exact True.intro

theorem bind {p : Prog σ ε α} {f : α → Prog σ ε β} {R : α → σ → Prop} {Q : β → σ → Prop}
    (hp : Triple P p R C) (hf : ∀ a, Triple (R a) (f a) Q C) : Triple P (p >>= f) Q C := by
  intro s fs hs
  have hout := hp s fs hs
  change Holds Q C (Prog.bind p f s fs)
  unfold Prog.bind
  split
  · rename_i value s' fs' heq
    rw [heq] at hout
    exact hf value s' fs' hout
  · rename_i error s' fs' heq
    rw [heq] at hout
    exact hout
  · rename_i s' fs' heq
    rw [heq] at hout
    exact hout

theorem weaken {p : Prog σ ε α} (h : Triple P p Q C) (hP : ∀ s, P' s → P s)
    (hQ : ∀ a s, Q a s → Q' a s) (hC : ∀ s, C s → C' s) : Triple P' p Q' C' := by
  intro s fs hs
  have hout := h s fs (hP s hs)
  unfold Holds at hout ⊢
  split <;> simp_all

/-- It is enough to start from one state at a time. -/
theorem of_state {p : Prog σ ε α} (h : ∀ s, P s → Triple (fun t => t = s) p Q C) :
    Triple P p Q C :=
  fun s fs hs => h s hs s fs rfl

/-- Both the refused and the performed operation end in `C` when they do not
return. -/
theorem op {f : σ → Except ε (α × σ)} (hC : ∀ s, P s → C s)
    (hf : ∀ s value s', P s → f s = .ok (value, s') → Q value s' ∧ C s') :
    Triple P (Prog.op f) Q C := by
  intro s fs hs
  unfold Prog.op
  split
  · exact hC s hs
  · exact hC s hs
  · split
    · rename_i heq
      exact (hf s _ _ hs heq).2
    · exact hC s hs
  · split
    · rename_i heq
      exact (hf s _ _ hs heq).1
    · exact hC s hs

theorem ofState {f : σ → Except ε α × σ}
    (hok : ∀ s value s', P s → f s = (.ok value, s') → Q value s')
    (herr : ∀ s error s', P s → f s = (.error error, s') → C s') :
    Triple P (Prog.ofState f) Q C := by
  intro s fs hs
  unfold Prog.ofState
  split
  · rename_i heq
    exact hok s _ _ hs heq
  · rename_i heq
    exact herr s _ _ hs heq

theorem catchAll {p : Prog σ ε α} {h : ε → Prog σ ε α} {R : σ → Prop}
    (hp : Triple P p Q R) (hh : ∀ e, Triple R (h e) Q C) (hC : ∀ s, R s → C s) :
    Triple P (Prog.catchAll p h) Q C := by
  intro s fs hs
  have hout := hp s fs hs
  unfold Prog.catchAll
  split
  · rename_i error s' fs' heq
    rw [heq] at hout
    exact hh error s' fs' hout
  · rename_i hne
    unfold Holds at hout ⊢
    split
    · rename_i heq
      rw [heq] at hout
      exact hout
    · rename_i error heq
      exact absurd (by rw [← heq]) (hne error _ _)
    · rename_i heq
      rw [heq] at hout
      exact hC _ hout

/-- The loop invariant `I` speaks of the elements already handled. -/
theorem forEach {f : β → Prog σ ε Unit} (I : List β → σ → Prop) (xs : List β)
    (step : ∀ done x rest, xs = done ++ x :: rest →
      Triple (I done) (f x) (fun _ => I (done ++ [x])) C) :
    Triple (I []) (Prog.forEach f xs) (fun _ => I xs) C := by
  suffices H : ∀ rest done, xs = done ++ rest →
      Triple (I done) (Prog.forEach f rest) (fun _ => I xs) C from H xs [] rfl
  intro rest
  induction rest with
  | nil =>
      intro done hxs
      rw [List.append_nil] at hxs
      subst hxs
      exact pure fun s hs => hs
  | cons x rest ih =>
      intro done hxs
      refine bind (step done x rest hxs) fun _ => ih (done ++ [x]) ?_
      rw [hxs, List.append_assoc]
      rfl

/-- A program on a component keeps every property of the rest of the state. -/
theorem zoom {view : σ → τ} {put : σ → τ → σ} {p : Prog τ ε α} {P' : τ → Prop}
    {Q' : α → τ → Prop} {C' : τ → Prop} (hp : Triple P' p Q' C')
    (hP : ∀ s, P s → P' (view s)) (hQ : ∀ s t a, P s → Q' a t → Q a (put s t))
    (hC : ∀ s t, P s → C' t → C (put s t)) : Triple P (Prog.zoom view put p) Q C := by
  intro s fs hs
  have hout := hp (view s) fs (hP s hs)
  unfold Holds at hout ⊢
  unfold Prog.zoom
  dsimp only
  split <;> simp_all

end Triple

end Faulty
