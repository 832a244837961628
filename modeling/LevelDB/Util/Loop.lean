import Mathlib.Logic.Function.Basic

/-!
# Loops bounded by fuel

The `while` and `for (;;)` loops of the sources are modelled by functions recursive on a `fuel`
argument, which return some value when the fuel runs out: `head_` for the skiplist's searches,
`false` for `ReadRecord`, `kEof` for `ReadPhysicalRecord`.  That value may also be one the loop
returns through its own exit, so that "more fuel changes nothing" does not by itself say that
the loop ends: a loop stuck at one state returns the same value for every fuel.

Here a loop is given by its round, which either leaves the loop with a result or goes round
again from a new state; `exitWithin` runs the rounds and returns `none` only where the fuel
runs out first.  "The loop leaves through its exit within `n` rounds, with result `a`" is
`exitWithin round n s = some a`.

## Main definitions

* `Loop.exitWithin` — the result a loop leaves with within `fuel` rounds, if it leaves.

## Main results

* `Loop.exitWithin_mono`, `Loop.exitWithin_det` — more rounds leave with the same result.
* `Loop.eq_of_exitWithin` — a loop on fuel returns the result it leaves with.
* `Loop.exitWithin_map` — a loop whose rounds follow another's leaves with the image of its
  result.
-/

namespace LevelDB

namespace Loop

variable {σ τ α β : Type*}

/-- Run the loop whose round is `round` from `s` for at most `fuel` rounds: the result a round
leaves with, or `none` where the fuel runs out first. -/
def exitWithin (round : σ → α ⊕ σ) : ℕ → σ → Option α
  | 0, _ => none
  | fuel + 1, s =>
    match round s with
    | .inl a => some a
    | .inr s' => exitWithin round fuel s'

@[simp] theorem exitWithin_zero (round : σ → α ⊕ σ) (s : σ) : exitWithin round 0 s = none := rfl

theorem exitWithin_succ_of_inl {round : σ → α ⊕ σ} {s : σ} {a : α} (h : round s = .inl a)
    (fuel : ℕ) : exitWithin round (fuel + 1) s = some a := by
  simp only [exitWithin, h]

theorem exitWithin_succ_of_inr {round : σ → α ⊕ σ} {s s' : σ} (h : round s = .inr s')
    (fuel : ℕ) : exitWithin round (fuel + 1) s = exitWithin round fuel s' := by
  simp only [exitWithin, h]

/-- A loop that leaves within `n` rounds leaves with the same result within more. -/
theorem exitWithin_mono {round : σ → α ⊕ σ} : ∀ {n m : ℕ} {s : σ} {a : α},
    exitWithin round n s = some a → n ≤ m → exitWithin round m s = some a
  | 0, _, _, _, h, _ => nomatch h
  | _ + 1, 0, _, _, _, hle => absurd hle (Nat.not_succ_le_zero _)
  | n + 1, m + 1, s, a, h, hle => by
    cases hr : round s with
    | inl b => rwa [exitWithin_succ_of_inl hr] at h ⊢
    | inr s' =>
      rw [exitWithin_succ_of_inr hr] at h ⊢
      exact exitWithin_mono h (Nat.le_of_succ_le_succ hle)

/-- A loop leaves with one result whatever the fuel it leaves within. -/
theorem exitWithin_det {round : σ → α ⊕ σ} {n m : ℕ} {s : σ} {a b : α}
    (ha : exitWithin round n s = some a) (hb : exitWithin round m s = some b) : a = b :=
  Option.some.inj ((exitWithin_mono ha (Nat.le_max_left n m)).symm.trans
    (exitWithin_mono hb (Nat.le_max_right n m)))

/-- A loop run on fuel whose every round is `round` returns, for any fuel it leaves within,
the result it leaves with, whatever it returns where the fuel runs out. -/
theorem eq_of_exitWithin {round : σ → α ⊕ σ} {loop : ℕ → σ → α}
    (h : ∀ fuel s, loop (fuel + 1) s = Sum.elim id (loop fuel) (round s)) :
    ∀ {n : ℕ} {s : σ} {a : α}, exitWithin round n s = some a → loop n s = a
  | 0, _, _, hs => nomatch hs
  | n + 1, s, a, hs => by
    rw [h]
    cases hr : round s with
    | inl b => rw [exitWithin_succ_of_inl hr] at hs; exact Option.some.inj hs
    | inr s' => rw [exitWithin_succ_of_inr hr] at hs; exact eq_of_exitWithin h hs

/-- **A loop whose rounds follow another's**, state by state through `f` and result by result
through `g`, leaves within as many rounds, with the image of the other's result. -/
theorem exitWithin_map {round : σ → α ⊕ σ} {round' : τ → β ⊕ τ} (f : σ → τ) (g : α → β)
    (h : ∀ s, round' (f s) = Sum.map g f (round s)) :
    ∀ (fuel : ℕ) (s : σ), exitWithin round' fuel (f s) = (exitWithin round fuel s).map g
  | 0, _ => rfl
  | fuel + 1, s => by
    cases hr : round s with
    | inl a =>
      rw [exitWithin_succ_of_inl hr, exitWithin_succ_of_inl (by rw [h, hr]; rfl)]; rfl
    | inr s' =>
      rw [exitWithin_succ_of_inr hr, exitWithin_succ_of_inr (by rw [h, hr]; rfl)]
      exact exitWithin_map f g h fuel s'

end Loop

end LevelDB
