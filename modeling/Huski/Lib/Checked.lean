import Mathlib

/-!
# Reverting computations and checked 256-bit arithmetic

A call of a contract either returns a value or reverts with a message, and a
reverted call leaves the state of its caller as it was: `Result` is that
alternative, and threading a state through it is the whole semantics of a
transaction. Unsigned words are natural numbers; the operations of `SafeMath`
revert with their own message where the 256-bit operation would wrap.

The lemmas say what a successful computation did (`*_eq_ok`), which is all that
the inversion of a long `do` block needs.
-/

namespace Solidity

/-- The result of a call: a value, or the message it reverted with. -/
abbrev Result (α : Type) := Except String α

/-- An account address: 160 bits. -/
abbrev Address := Fin (2 ^ 160)

instance neZero_addresses : NeZero (2 ^ 160) := ⟨by decide⟩
instance neZero_words : NeZero (2 ^ 256) := ⟨by decide⟩

/-- The number of values of a 256-bit word. -/
def wordSize : Nat := 2 ^ 256

/-- `uint256(-1)`. -/
def maxWord : Nat := 2 ^ 256 - 1

/-- `require(p, message)`. -/
def require (p : Prop) [Decidable p] (message : String) : Result Unit :=
  if p then .ok () else .error message

/-- A call whose revert is replaced by a message of the caller. -/
def lowLevel {α : Type} (message : String) : Result α → Result α
  | .ok a => .ok a
  | .error _ => .error message

/-- Whether a call reverts with the message. -/
def failsWith {α : Type} (message : String) : Result α → Bool
  | .ok _ => false
  | .error e => e = message

namespace SafeMath

/-- The sum, unless it overflows. -/
def add (a b : Nat) : Result Nat :=
  if a + b < wordSize then .ok (a + b) else .error "SafeMath: addition overflow"

/-- `a.sub(b, message)`. -/
def subOr (a b : Nat) (message : String) : Result Nat :=
  if b ≤ a then .ok (a - b) else .error message

/-- The difference, unless it underflows. -/
def sub (a b : Nat) : Result Nat := subOr a b "SafeMath: subtraction overflow"

/-- The product, unless it overflows. -/
def mul (a b : Nat) : Result Nat :=
  if a * b < wordSize then .ok (a * b) else .error "SafeMath: multiplication overflow"

/-- The quotient, unless the divisor is zero. -/
def div (a b : Nat) : Result Nat :=
  if b = 0 then .error "SafeMath: division by zero" else .ok (a / b)

end SafeMath

/-! ## Inversion of successful computations -/

section Inversion

variable {α β : Type}

@[simp] theorem bind_eq_ok {x : Result α} {f : α → Result β} {b : β} :
    (x >>= f) = .ok b ↔ ∃ a, x = .ok a ∧ f a = .ok b := by
  cases x <;> simp [bind, Except.bind]

/-- A sequence fails in its first part or after it. -/
theorem bind_eq_error {x : Result α} {f : α → Result β} {e : String} :
    (x >>= f) = .error e ↔ x = .error e ∨ ∃ a, x = .ok a ∧ f a = .error e := by
  cases x <;> simp [bind, Except.bind]

@[simp] theorem pure_eq_ok {a b : α} : (pure a : Result α) = .ok b ↔ a = b := by
  simp [pure, Except.pure]

@[simp] theorem pure_eq_error {a : α} {e : String} : (pure a : Result α) = .error e ↔ False := by
  simp [pure, Except.pure]

@[simp] theorem require_eq_ok {p : Prop} [Decidable p] {message : String} {u : Unit} :
    require p message = .ok u ↔ p := by
  unfold require
  split <;> simp_all

/-- A check that does not hold fails with its message. -/
theorem require_eq_error {p : Prop} [Decidable p] {message e : String} :
    require p message = .error e ↔ ¬ p ∧ message = e := by
  unfold require
  split <;> simp_all

/-- A low-level call goes through when the call does. -/
@[simp] theorem lowLevel_eq_ok {message : String} {x : Result α} {a : α} :
    lowLevel message x = .ok a ↔ x = .ok a := by
  cases x <;> simp [lowLevel]

/-- A check fails with its own message only. -/
theorem require_ne_error {p : Prop} [Decidable p] {message e : String} (h : message ≠ e) :
    require p message ≠ .error e :=
  fun hrequire => h (require_eq_error.mp hrequire).2

theorem eq_error_of_failsWith {x : Result α} {e : String} (h : failsWith e x = true) :
    x = .error e := by
  cases x with
  | ok a => cases h
  | error m => rw [of_decide_eq_true h]

/-- What a test says of a call on fixed inputs. -/
theorem exists_ok_of_isOk {x : Result α} (h : x.isOk = true) : ∃ a, x = .ok a := by
  cases x with
  | ok a => exact ⟨a, rfl⟩
  | error m => cases h

/-- A result that was returned. -/
theorem toOption_eq_some {x : Result α} {a : α} : x.toOption = some a ↔ x = .ok a := by
  cases x <;> simp [Except.toOption]

/-- Nothing was returned. -/
theorem toOption_eq_none {x : Result α} : x.toOption = none ↔ ¬ ∃ a, x = .ok a := by
  cases x <;> simp [Except.toOption]

/-- A call that does not revert for one given reason does not revert for it
after a successful prefix either. -/
theorem bind_ne_error {x : Result α} {f : α → Result β} {e : String}
    (hx : x ≠ .error e) (hf : ∀ a, x = .ok a → f a ≠ .error e) :
    (x >>= f) ≠ .error e := by
  intro h
  rcases bind_eq_error.mp h with h | ⟨a, ha, h⟩
  · exact hx h
  · exact hf a ha h

end Inversion

/-! ## Loops -/

section Loops

variable {σ α : Type} {f : σ → α → Result σ}

/-- What every step of a loop preserves, the loop preserves. -/
theorem foldlM_induct {P : σ → Prop} (hstep : ∀ s a s', P s → f s a = .ok s' → P s')
    {l : List α} {s s' : σ} (h : l.foldlM f s = .ok s') (hs : P s) : P s' := by
  induction l generalizing s with
  | nil =>
      simp only [List.foldlM_nil, pure_eq_ok] at h
      exact h ▸ hs
  | cons a l ih =>
      simp only [List.foldlM_cons, bind_eq_ok] at h
      obtain ⟨s₁, hfirst, hrest⟩ := h
      exact ih hrest (hstep _ _ _ hs hfirst)

/-- What a step establishes of its element, and the other steps keep, the loop
establishes of every element. -/
theorem foldlM_forall {Q : α → σ → Prop} (hset : ∀ s a s', f s a = .ok s' → Q a s')
    (hkeep : ∀ s a s' b, Q b s → f s a = .ok s' → Q b s')
    {l : List α} {s s' : σ} (h : l.foldlM f s = .ok s') : ∀ a ∈ l, Q a s' := by
  induction l generalizing s with
  | nil => simp
  | cons a l ih =>
      simp only [List.foldlM_cons, bind_eq_ok] at h
      obtain ⟨s₁, hfirst, hrest⟩ := h
      intro b hb
      rcases List.mem_cons.mp hb with rfl | hb
      · exact foldlM_induct (fun s a s' => hkeep s a s' b) hrest (hset _ _ _ hfirst)
      · exact ih hrest b hb

/-- A loop does not revert for a reason none of its steps reverts for. -/
theorem foldlM_ne_error {P : σ → Prop} {e : String}
    (hstep : ∀ s a s', P s → f s a = .ok s' → P s') (hne : ∀ s a, P s → f s a ≠ .error e)
    {l : List α} {s : σ} (hs : P s) : l.foldlM f s ≠ .error e := by
  induction l generalizing s with
  | nil => exact fun h => nomatch h
  | cons a l ih =>
      rw [List.foldlM_cons]
      exact bind_ne_error (hne s a hs) fun s₁ h => ih (hstep _ _ _ hs h)

end Loops

namespace SafeMath

variable {a b c : Nat}

/-- A sum that is returned fits its word. -/
@[simp] theorem add_eq_ok : add a b = .ok c ↔ a + b < wordSize ∧ c = a + b := by
  unfold add
  split <;> simp_all [eq_comm]

/-- A difference that is returned is none of a smaller number. -/
@[simp] theorem subOr_eq_ok {message : String} :
    subOr a b message = .ok c ↔ b ≤ a ∧ c = a - b := by
  unfold subOr
  split <;> simp_all [eq_comm]

@[simp] theorem sub_eq_ok : sub a b = .ok c ↔ b ≤ a ∧ c = a - b := subOr_eq_ok

/-- A product that is returned fits its word. -/
@[simp] theorem mul_eq_ok : mul a b = .ok c ↔ a * b < wordSize ∧ c = a * b := by
  unfold mul
  split <;> simp_all [eq_comm]

/-- A quotient that is returned has a divisor. -/
@[simp] theorem div_eq_ok : div a b = .ok c ↔ b ≠ 0 ∧ c = a / b := by
  unfold div
  split <;> simp_all [eq_comm]

theorem div_eq_error {e : String} :
    div a b = .error e ↔ b = 0 ∧ e = "SafeMath: division by zero" := by
  unfold div
  split <;> simp_all [eq_comm]

theorem sub_eq_error {e : String} :
    sub a b = .error e ↔ a < b ∧ e = "SafeMath: subtraction overflow" := by
  unfold sub subOr
  split <;> simp_all [eq_comm]

theorem subOr_eq_error {message e : String} :
    subOr a b message = .error e ↔ a < b ∧ e = message := by
  unfold subOr
  split <;> simp_all [eq_comm]

theorem subOr_ne_error {message e : String} (h : message ≠ e) : subOr a b message ≠ .error e :=
  fun hsub => h (subOr_eq_error.mp hsub).2.symm

theorem mul_eq_error {e : String} :
    mul a b = .error e ↔ wordSize ≤ a * b ∧ e = "SafeMath: multiplication overflow" := by
  unfold mul
  split <;> simp_all [eq_comm]

theorem add_eq_error {e : String} :
    add a b = .error e ↔ wordSize ≤ a + b ∧ e = "SafeMath: addition overflow" := by
  unfold add
  split <;> simp_all [eq_comm]

theorem add_ne_error {e : String} (h : "SafeMath: addition overflow" ≠ e) : add a b ≠ .error e :=
  fun hadd => h (add_eq_error.mp hadd).2.symm

end SafeMath

end Solidity
