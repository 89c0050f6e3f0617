/-
Logs of changes that record states.

Commits are numbered. Each changes the states of some keys, and logs for each of them the state
after the commit; `past n` is the state of every key after commit `n`. Such a log is read without
regard to what the changes did: of several entries of a key the last one counts, and a key without
an entry has not changed. So the entries of some commits, over the states before the first of them,
give the states after the last (`replay`), whatever was logged twice and whatever the log holds of
other commits.
-/

import Mathlib.Data.List.Induction
import Mathlib.Logic.Function.Basic
import Mathlib.Order.Basic

namespace Changelog

variable {κ σ : Type} {past past' : Nat → κ → σ} {n m : Nat}

/-- A key that a commit changed, and its state from then on. -/
structure Entry (κ σ : Type) where
  sequence : Nat
  key : κ
  state : σ

/-- The log says what commit `n + 1` changed: the states of its entries are those after it, and a
key without an entry kept its state. -/
structure Logged (past : Nat → κ → σ) (log : List (Entry κ σ)) (n : Nat) : Prop where
  state : ∀ e ∈ log, e.sequence = n + 1 → e.state = past (n + 1) e.key
  kept : ∀ key, (∀ e ∈ log, e.sequence = n + 1 → e.key ≠ key) → past (n + 1) key = past n key

variable {log log' : List (Entry κ σ)}

/-- Only the entries of the commit itself matter, and the states around it. -/
theorem Logged.congr (h : Logged past log n)
    (hlog : ∀ e, e.sequence = n + 1 → (e ∈ log' ↔ e ∈ log))
    (hbefore : past' n = past n) (hafter : past' (n + 1) = past (n + 1)) :
    Logged past' log' n where
  state e he hsequence := by
    rw [hafter]
    exact h.state e ((hlog e hsequence).mp he) hsequence
  kept key hnone := by
    rw [hafter, hbefore]
    exact h.kept key fun e he hsequence => hnone e ((hlog e hsequence).mpr he) hsequence

/-- A key that no commit of a stretch changed. -/
theorem unchanged {key : κ} (hle : n ≤ m)
    (hkept : ∀ k, n ≤ k → k < m → past (k + 1) key = past k key) : past m key = past n key := by
  induction hle with
  | refl => rfl
  | step hle ih =>
      rw [hkept _ hle (Nat.lt_succ_self _)]
      exact ih fun k hk hlt => hkept k hk (Nat.lt_succ_of_lt hlt)

variable [DecidableEq κ]

/-- The last state that the entries give a key. -/
def resolve (entries : List (Entry κ σ)) : κ → Option σ :=
  entries.foldl (fun states e => Function.update states e.key (some e.state)) fun _ => none

/-- In order of the commits, a key is resolved to its latest entry. -/
theorem resolve_spec {entries : List (Entry κ σ)}
    (hsorted : entries.Pairwise fun a b => a.sequence ≤ b.sequence) (key : κ) :
    (resolve entries key = none ∧ ∀ e ∈ entries, e.key ≠ key) ∨
      ∃ e ∈ entries, e.key = key ∧ resolve entries key = some e.state ∧
        ∀ e' ∈ entries, e'.key = key → e'.sequence ≤ e.sequence := by
  induction entries using List.reverseRecOn with
  | nil => exact .inl ⟨rfl, fun e he => by cases he⟩
  | append_singleton entries last ih =>
      obtain ⟨hbefore, -, hlast⟩ := List.pairwise_append.mp hsorted
      have hstep : resolve (entries ++ [last]) =
          Function.update (resolve entries) last.key (some last.state) := by
        rw [resolve, List.foldl_append]
        rfl
      rw [hstep]
      by_cases hkey : last.key = key
      · refine .inr ⟨last, List.mem_append_right _ List.mem_cons_self, hkey, ?_, fun e he _ => ?_⟩
        · rw [← hkey]
          exact Function.update_self ..
        · rcases List.mem_append.mp he with he | he
          · exact hlast e he last List.mem_cons_self
          · exact Nat.le_of_eq (congrArg Entry.sequence (List.mem_singleton.mp he))
      · rw [Function.update_of_ne (Ne.symm hkey)]
        rcases ih hbefore with ⟨hnone, hother⟩ | ⟨e, he, hsame, hstate, hlatest⟩
        · refine .inl ⟨hnone, fun e he => ?_⟩
          rcases List.mem_append.mp he with he | he
          · exact hother e he
          · rw [List.mem_singleton.mp he]
            exact hkey
        · refine .inr ⟨e, List.mem_append_left _ he, hsame, hstate, fun e' he' hsame' => ?_⟩
          rcases List.mem_append.mp he' with he' | he'
          · exact hlatest e' he' hsame'
          · exact absurd ((List.mem_singleton.mp he') ▸ hsame') hkey

/-- **Replay.** The entries of the commits after `n` up to `m`, in their order,
give the states after `m` from those after `n`. -/
theorem replay {entries : List (Entry κ σ)} (hle : n ≤ m)
    (hsorted : entries.Pairwise fun a b => a.sequence ≤ b.sequence)
    (hrange : ∀ e ∈ entries, n < e.sequence ∧ e.sequence ≤ m)
    (hlogged : ∀ k, n ≤ k → k < m → Logged past entries k) (key : κ) :
    (resolve entries key).getD (past n key) = past m key := by
  rcases resolve_spec hsorted key with ⟨hnone, hother⟩ | ⟨e, he, rfl, hstate, hlatest⟩
  · rw [hnone, Option.getD_none]
    exact (unchanged hle fun k hk hlt =>
      (hlogged k hk hlt).kept key fun e he _ => hother e he).symm
  · obtain ⟨hlow, hhigh⟩ := hrange e he
    obtain ⟨k, hk⟩ : ∃ k, e.sequence = k + 1 := ⟨e.sequence - 1, by omega⟩
    have hafter : past m e.key = past (k + 1) e.key :=
      unchanged (by omega) fun j hj hlt =>
        (hlogged j (by omega) hlt).kept e.key fun e' he' hsequence hkey => by
          have hle' := hlatest e' he' hkey
          omega
    rw [hstate, Option.getD_some, hafter]
    exact (hlogged k (by omega) (by omega)).state e he hk

end Changelog
