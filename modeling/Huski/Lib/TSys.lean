import Huski.Lib.Checked

/-!
# Labelled transition systems with reverting steps

A system is a set of initial states and a partial step function per label: a
label is one transaction, a failing step is a reverted transaction and changes
nothing. Reachability is taken relative to a condition on the steps of a run
(`ReachableBy`), so that a claim about all runs and a claim about the runs whose
transactions meet a condition are the same induction.
-/

open Solidity

/-- A labelled transition system whose steps may revert. -/
structure TSys (S L : Type) where
  init : S → Prop
  step : S → L → Result S

namespace TSys

variable {S L : Type} {M : TSys S L}

/-- The states of the runs all of whose steps meet `ok`. -/
inductive ReachableBy (M : TSys S L) (ok : S → L → Prop) : S → Prop
  | init {σ} : M.init σ → ReachableBy M ok σ
  | step {σ l σ'} : ReachableBy M ok σ → ok σ l → M.step σ l = .ok σ' →
      ReachableBy M ok σ'

/-- The states of all runs. -/
abbrev Reachable (M : TSys S L) : S → Prop := M.ReachableBy fun _ _ => True

/-- An inductive invariant, relative to a condition on the steps. -/
structure Inductive (M : TSys S L) (ok : S → L → Prop) (P : S → Prop) : Prop where
  init : ∀ σ, M.init σ → P σ
  step : ∀ σ l σ', P σ → ok σ l → M.step σ l = .ok σ' → P σ'

/-- What is inductive holds in every state of every run. -/
theorem Inductive.invariant {ok : S → L → Prop} {P : S → Prop}
    (h : M.Inductive ok P) {σ : S} (hreach : M.ReachableBy ok σ) : P σ := by
  induction hreach with
  | init hi => exact h.init _ hi
  | step _ hok hstep ih => exact h.step _ _ _ ih hok hstep

/-- Fewer conditions on the steps reach more states. -/
theorem ReachableBy.mono {ok ok' : S → L → Prop} (hsub : ∀ σ l, ok σ l → ok' σ l)
    {σ : S} (hreach : M.ReachableBy ok σ) : M.ReachableBy ok' σ := by
  induction hreach with
  | init hi => exact .init hi
  | step _ hok hstep ih => exact .step ih (hsub _ _ hok) hstep

theorem ReachableBy.reachable {ok : S → L → Prop} {σ : S}
    (hreach : M.ReachableBy ok σ) : M.Reachable σ :=
  hreach.mono fun _ _ _ => trivial

/-- The same steps from one state. -/
def startAt (M : TSys S L) (σ₀ : S) : TSys S L where
  init σ := σ = σ₀
  step := M.step

/-- The same system with a test before each step. -/
def guarded (M : TSys S L) (check : S → L → Bool) : TSys S L where
  init := M.init
  step σ l := do
    require (check σ l = true) ""
    M.step σ l

/-- What passes the tests is a run whose steps meet what is tested. -/
theorem reachableBy_of_guarded {ok : S → L → Prop} {check : S → L → Bool}
    (hcheck : ∀ σ l, check σ l = true → ok σ l) {σ : S} (h : (M.guarded check).Reachable σ) :
    M.ReachableBy ok σ := by
  induction h with
  | init hi => exact .init hi
  | step _ _ hstep ih =>
      simp only [guarded, bind_eq_ok, require_eq_ok] at hstep
      obtain ⟨_, hpass, hstep⟩ := hstep
      exact .step ih (hcheck _ _ hpass) hstep

/-! ## Runs -/

/-- Run the labels in order; the first revert stops the run. -/
def run (M : TSys S L) : S → List L → Result S
  | σ, [] => .ok σ
  | σ, l :: rest => do
      let σ' ← M.step σ l
      M.run σ' rest

/-- A successful run from a reachable state ends in a reachable state. -/
theorem run_reachableBy {ok : S → L → Prop} {σ σ' : S} {labels : List L}
    (hreach : M.ReachableBy ok σ) (hok : ∀ τ, ∀ l ∈ labels, ok τ l)
    (hrun : M.run σ labels = .ok σ') : M.ReachableBy ok σ' := by
  induction labels generalizing σ with
  | nil =>
      simp only [run, Except.ok.injEq] at hrun
      exact hrun ▸ hreach
  | cons l rest ih =>
      simp only [run, bind_eq_ok] at hrun
      obtain ⟨σ₁, hstep, hrest⟩ := hrun
      have hfirst : ok σ l := hok σ l List.mem_cons_self
      exact ih (.step hreach hfirst hstep)
        (fun τ k hk => hok τ k (List.mem_cons_of_mem l hk)) hrest

/-- Run the labels, take one more step, and test the two last states. -/
def lastStep (M : TSys S L) (σ : S) (labels : List L) (l : L) (test : S → S → Bool) : Bool :=
  match M.run σ labels with
  | .ok σ₁ =>
      match M.step σ₁ l with
      | .ok σ₂ => test σ₁ σ₂
      | .error _ => false
  | .error _ => false

/-- A run that passes the test, by its first step. -/
theorem lastStep_cons {σ : S} {k l : L} {labels : List L} {test : S → S → Bool}
    (h : M.lastStep σ (k :: labels) l test = true) :
    ∃ σ₁, M.step σ k = .ok σ₁ ∧ M.lastStep σ₁ labels l test = true := by
  unfold lastStep run at h
  cases hstep : M.step σ k with
  | error e =>
      rw [hstep] at h
      cases h
  | ok σ₁ =>
      rw [hstep] at h
      exact ⟨σ₁, rfl, h⟩

theorem lastStep_nil {σ : S} {l : L} {test : S → S → Bool}
    (h : M.lastStep σ [] l test = true) : ∃ σ', M.step σ l = .ok σ' ∧ test σ σ' = true := by
  unfold lastStep run at h
  cases hstep : M.step σ l with
  | error e =>
      simp only [hstep] at h
      cases h
  | ok σ' =>
      simp only [hstep] at h
      exact ⟨σ', rfl, h⟩

/-- A run that passes the test is a reachable step that passes it. -/
theorem lastStep_from {ok : S → L → Prop} {σ : S} {labels : List L} {l : L}
    {test : S → S → Bool} (hreach : M.ReachableBy ok σ) (hok : ∀ τ, ∀ l ∈ labels, ok τ l)
    (h : M.lastStep σ labels l test = true) :
    ∃ σ₁ σ₂, M.ReachableBy ok σ₁ ∧ M.step σ₁ l = .ok σ₂ ∧ test σ₁ σ₂ = true := by
  unfold lastStep at h
  split at h
  · rename_i σ₁ hrun
    split at h
    · rename_i σ₂ hstep
      exact ⟨σ₁, σ₂, run_reachableBy hreach hok hrun, hstep, h⟩
    · cases h
  · cases h

theorem lastStep_reachableBy {ok : S → L → Prop} {σ : S} {labels : List L} {l : L}
    {test : S → S → Bool} (hinit : M.init σ) (hok : ∀ τ, ∀ l ∈ labels, ok τ l)
    (h : M.lastStep σ labels l test = true) :
    ∃ σ₁ σ₂, M.ReachableBy ok σ₁ ∧ M.step σ₁ l = .ok σ₂ ∧ test σ₁ σ₂ = true :=
  lastStep_from (.init hinit) hok h

theorem lastStep_reachable {σ : S} {labels : List L} {l : L} {test : S → S → Bool}
    (hinit : M.init σ) (h : M.lastStep σ labels l test = true) :
    ∃ σ₁ σ₂, M.Reachable σ₁ ∧ M.step σ₁ l = .ok σ₂ ∧ test σ₁ σ₂ = true :=
  lastStep_reachableBy hinit (fun _ _ _ => trivial) h

end TSys
