import Mathlib

/-!
# Linear vesting without a stored total

What is locked for an account vests linearly over a term. The account keeps only what rests
and the block of its last release; a release pays the part of the rest that falls to the
blocks since then, out of all blocks left. The parts telescope: as long as no part is counted
from before the term, all releases together stay below the vested part of everything locked.
What an account gives away ends a phase of the account: the releases of ended phases are
bounded by their own locks.
-/

namespace Vesting

/-- The blocks over which locks vest. -/
structure Term where
  start : Nat
  stop : Nat
  proper : start < stop

namespace Term

/-- The length of the term. -/
def length (T : Term) : Nat := T.stop - T.start

/-- How many blocks of the term are over at block `n`. -/
def elapsed (T : Term) (n : Nat) : Nat := min n T.stop - T.start

theorem elapsed_mono (T : Term) {m n : Nat} (h : m ≤ n) : T.elapsed m ≤ T.elapsed n := by
  unfold elapsed
  omega

theorem elapsed_of_le_start (T : Term) {n : Nat} (h : n ≤ T.start) : T.elapsed n = 0 := by
  unfold elapsed
  omega

/-- After the end all of it has passed. -/
theorem elapsed_of_stop_le (T : Term) {n : Nat} (h : T.stop ≤ n) : T.elapsed n = T.length := by
  unfold elapsed length
  omega

/-- A block that is no later than `n`, or than the start, counts for no more than `n`. -/
theorem elapsed_le_of_le_max (T : Term) {m n : Nat} (h : m ≤ max n T.start) :
    T.elapsed m ≤ T.elapsed n := by
  rcases le_max_iff.mp h with hn | hstart
  · exact T.elapsed_mono hn
  · rw [T.elapsed_of_le_start hstart]
    exact Nat.zero_le _

end Term

/-- What was locked for an account, released to it and given away by it, what rests, and the
block of the last release. -/
structure Account where
  locked : Nat := 0
  released : Nat := 0
  given : Nat := 0
  rest : Nat := 0
  last : Nat := 0

/-- What a release at block `n` pays. -/
def Term.vested (T : Term) (n : Nat) (a : Account) : Nat :=
  if n < T.start then 0
  else if T.stop ≤ n then a.rest
  else a.rest * (n - a.last) / (T.stop - a.last)

namespace Account

/-- `x` more is locked. -/
def lock (T : Term) (x : Nat) (a : Account) : Account :=
  { a with locked := a.locked + x, rest := a.rest + x, last := max a.last T.start }

/-- What another account gave away is locked on, after `last`. -/
def receive (T : Term) (x last : Nat) (a : Account) : Account :=
  { a with
    locked := a.locked + x
    rest := a.rest + x
    last := max (max a.last T.start) last }

/-- A release at block `n`. -/
def release (T : Term) (n : Nat) (a : Account) : Account :=
  { a with
    released := a.released + T.vested n a
    rest := a.rest - T.vested n a
    last := n }

/-- All that rests is given away. -/
def give (a : Account) : Account := { a with given := a.given + a.rest, rest := 0, last := 0 }

end Account

section Vested

variable {T : Term} {n : Nat} {a : Account}

/-- No more vests than is left. -/
theorem vested_le : T.vested n a ≤ a.rest := by
  unfold Term.vested
  split
  · exact Nat.zero_le _
  · split
    · exact le_rfl
    · refine Nat.div_le_of_le_mul ?_
      rw [Nat.mul_comm (T.stop - a.last)]
      exact Nat.mul_le_mul_left _ (by omega)

/-- After the end everything is vested. -/
theorem vested_of_stop_le (hstart : T.start ≤ n) (hstop : T.stop ≤ n) : T.vested n a = a.rest := by
  unfold Term.vested
  rw [if_neg (Nat.not_lt.mpr hstart), if_pos hstop]

theorem vested_of_lt_start (h : n < T.start) : T.vested n a = 0 := if_pos h

/-- A release inside the term, cross-multiplied. -/
theorem vested_mul_le (hstart : T.start ≤ n) (hstop : n < T.stop) :
    T.vested n a * (T.stop - a.last) ≤ a.rest * (n - a.last) := by
  unfold Term.vested
  rw [if_neg (Nat.not_lt.mpr hstart), if_neg (Nat.not_le.mpr hstop)]
  exact Nat.div_mul_le_self _ _

end Vested

/-! ## The invariant -/

/-- The books of an account at block `n`. The phase since it last gave everything away locked
`now` and released `out`; the ended phases make up the difference. -/
structure Kept (T : Term) (n : Nat) (a : Account) : Prop where
  balanced : a.rest + a.released + a.given = a.locked
  last_le : a.last ≤ max n T.start
  phases : ∃ now out ended endedOut, a.locked = now + ended ∧ a.released = out + endedOut ∧
    out + a.rest = now ∧ out * T.length ≤ now * T.elapsed a.last ∧
    endedOut * T.length ≤ ended * T.elapsed n

namespace Kept

variable {T : Term} {m n x last : Nat} {a : Account}

theorem empty (T : Term) (n : Nat) : Kept T n {} := by
  refine ⟨rfl, Nat.zero_le _, 0, 0, 0, 0, rfl, rfl, rfl, ?_, ?_⟩
  · simp
  · simp

theorem mono (h : Kept T m a) (hmn : m ≤ n) : Kept T n a := by
  obtain ⟨now, out, ended, endedOut, hlocked, hreleased, hrest, hout, hended⟩ := h.phases
  have hlast := h.last_le
  refine ⟨h.balanced, by omega, now, out, ended, endedOut, hlocked, hreleased, hrest, hout, ?_⟩
  exact hended.trans (Nat.mul_le_mul_left _ (T.elapsed_mono hmn))

/-- The releases stay below the vested part of everything locked. -/
theorem released_le (h : Kept T n a) : a.released * T.length ≤ a.locked * T.elapsed n := by
  obtain ⟨now, out, ended, endedOut, hlocked, hreleased, _, hout, hended⟩ := h.phases
  have hnow : now * T.elapsed a.last ≤ now * T.elapsed n :=
    Nat.mul_le_mul_left _ (T.elapsed_le_of_le_max h.last_le)
  rw [hlocked, hreleased, Nat.add_mul, Nat.add_mul]
  exact Nat.add_le_add (hout.trans hnow) hended

/-- What an account is given is released within the rest of the term. -/
theorem receive (h : Kept T n a) (hlast : last ≤ max n T.start) :
    Kept T n (a.receive T x last) := by
  obtain ⟨now, out, ended, endedOut, hlocked, hreleased, hrest, hout, hended⟩ := h.phases
  have hbalanced := h.balanced
  have hlast' := h.last_le
  refine ⟨?_, ?_, now + x, out, ended, endedOut, ?_, hreleased, ?_, ?_, hended⟩
  · simp only [Account.receive]
    omega
  · simp only [Account.receive]
    omega
  · simp only [Account.receive]
    omega
  · simp only [Account.receive]
    omega
  · have hmono : T.elapsed a.last ≤ T.elapsed (a.receive T x last).last :=
      T.elapsed_mono (by simp only [Account.receive]; omega)
    exact hout.trans (Nat.mul_le_mul (Nat.le_add_right _ _) hmono)

/-- A further lock keeps the bound. -/
theorem lock (h : Kept T n a) : Kept T n (a.lock T x) := by
  have hlock : a.lock T x = a.receive T x 0 := by
    simp [Account.lock, Account.receive]
  rw [hlock]
  exact h.receive (Nat.zero_le _)

/-- Giving everything away keeps the bound. -/
theorem give (h : Kept T n a) : Kept T n a.give := by
  obtain ⟨now, out, ended, endedOut, hlocked, hreleased, hrest, hout, hended⟩ := h.phases
  have hbalanced := h.balanced
  have hnow : now * T.elapsed a.last ≤ now * T.elapsed n :=
    Nat.mul_le_mul_left _ (T.elapsed_le_of_le_max h.last_le)
  -- the phase ends, and its releases are bounded at this block
  refine ⟨?_, Nat.zero_le _, 0, 0, now + ended, out + endedOut, ?_, ?_, rfl, ?_, ?_⟩
  · simp only [Account.give]
    omega
  · simp only [Account.give]
    omega
  · simp only [Account.give]
    omega
  · simp
  · rw [Nat.add_mul, Nat.add_mul]
    exact Nat.add_le_add (hout.trans hnow) hended

/-- A part of the rest for the blocks since the last release keeps the phase below the line:
`r` is released of `r + s` after `x` blocks, and `v` more of the rest `s` after `d` more of the
`d + k` blocks left. -/
theorem phase_step {r s v x d k : Nat} (hpos : 0 < d + k)
    (hr : r * (x + (d + k)) ≤ (r + s) * x) (hv : v * (d + k) ≤ s * d) :
    (r + v) * (x + (d + k)) ≤ (r + s) * (x + d) := by
  have hline : r * (d + k) ≤ s * x := by nlinarith
  have hlater : v * (d + k) * (x + (d + k)) ≤ s * d * (x + (d + k)) :=
    Nat.mul_le_mul_right _ hv
  have hleft : r * (d + k) * k ≤ s * x * k := Nat.mul_le_mul_right _ hline
  refine Nat.le_of_mul_le_mul_right (c := d + k) ?_ hpos
  calc (r + v) * (x + (d + k)) * (d + k)
      = r * (d + k) * (x + d) + r * (d + k) * k + v * (d + k) * (x + (d + k)) := by ring
    _ ≤ r * (d + k) * (x + d) + s * x * k + s * d * (x + (d + k)) := by omega
    _ = (r + s) * (x + d) * (d + k) := by ring

/-- A release that counts no block from before the term. -/
theorem release (h : Kept T n a) (hlast : T.start ≤ n → n < T.stop → T.start ≤ a.last) :
    Kept T n (a.release T n) := by
  obtain ⟨now, out, ended, endedOut, hlocked, hreleased, hrest, hout, hended⟩ := h.phases
  have hbalanced := h.balanced
  have hle := vested_le (T := T) (n := n) (a := a)
  refine ⟨?_, le_max_left _ _, now, out + T.vested n a, ended, endedOut, hlocked, ?_, ?_, ?_,
    hended⟩
  · simp only [Account.release]
    omega
  · simp only [Account.release]
    omega
  · simp only [Account.release]
    omega
  · show (out + T.vested n a) * T.length ≤ now * T.elapsed n
    rcases Nat.lt_or_ge n T.start with hbefore | hstart
    · -- nothing is paid before the term, and nothing was
      have hnone : T.elapsed a.last = 0 :=
        T.elapsed_of_le_start (h.last_le.trans (max_le hbefore.le le_rfl))
      rw [hnone, Nat.mul_zero] at hout
      rw [vested_of_lt_start hbefore, Nat.add_zero]
      exact hout.trans (Nat.zero_le _)
    · rcases Nat.lt_or_ge n T.stop with hinside | hstop
      · have hfrom := hlast hstart hinside
        have hto : a.last ≤ n := h.last_le.trans (max_le le_rfl hstart)
        have hvested := vested_mul_le (a := a) hstart hinside
        obtain ⟨x, hx⟩ := Nat.exists_eq_add_of_le hfrom
        obtain ⟨d, hd⟩ := Nat.exists_eq_add_of_le hto
        obtain ⟨k, hk⟩ := Nat.exists_eq_add_of_le hinside.le
        have hlength : T.length = x + (d + k) := by
          unfold Term.length
          omega
        have hbefore : T.elapsed a.last = x := by
          unfold Term.elapsed
          omega
        have hafter : T.elapsed n = x + d := by
          unfold Term.elapsed
          omega
        have hleft : T.stop - a.last = d + k := by omega
        have hpart : n - a.last = d := by omega
        rw [hlength, hbefore, ← hrest] at hout
        rw [hleft, hpart] at hvested
        rw [hlength, hafter, ← hrest]
        exact phase_step (by omega) hout hvested
      · rw [vested_of_stop_le hstart hstop, T.elapsed_of_stop_le hstop, hrest]

/-- After a release past the term nothing rests. -/
theorem all_released (h : Kept T n a) (hstop : T.stop ≤ n) :
    (a.release T n).released + (a.release T n).given = (a.release T n).locked := by
  have hbalanced := h.balanced
  have hvested : T.vested n a = a.rest := vested_of_stop_le (T.proper.le.trans hstop) hstop
  simp only [Account.release, hvested]
  omega

end Kept

/-! ## The books of all accounts -/

/-- What was locked for each key, released to it and given away by it. -/
structure Books (A : Type) where
  locked : A → Nat := fun _ => 0
  released : A → Nat := fun _ => 0
  given : A → Nat := fun _ => 0

section Books

variable {A : Type} [DecidableEq A]

/-- A lock is booked. -/
def Books.lock (b : Books A) (k : A) (x : Nat) : Books A :=
  { b with locked := Function.update b.locked k (b.locked k + x) }

/-- A release is booked. -/
def Books.release (b : Books A) (k : A) (x : Nat) : Books A :=
  { b with released := Function.update b.released k (b.released k + x) }

/-- A gift is booked. -/
def Books.give (b : Books A) (k : A) (x : Nat) : Books A :=
  { b with given := Function.update b.given k (b.given k + x) }

/-- The account of a key, with what a contract stores of it. -/
def Books.account (b : Books A) (rest last : A → Nat) (k : A) : Account :=
  { locked := b.locked k, released := b.released k, given := b.given k, rest := rest k,
    last := last k }

/-- All books are kept. -/
def AllKept (T : Term) (n : Nat) (b : Books A) (rest last : A → Nat) : Prop :=
  ∀ k, Kept T n (b.account rest last k)

variable {T : Term} {m n x : Nat} {b : Books A} {rest last : A → Nat} {k src dst : A}

omit [DecidableEq A] in
theorem AllKept.mono (h : AllKept T m b rest last) (hmn : m ≤ n) : AllKept T n b rest last :=
  fun k => (h k).mono hmn

theorem AllKept.lock (h : AllKept T n b rest last) :
    AllKept T n (b.lock k x) (Function.update rest k (rest k + x))
      (Function.update last k (max (last k) T.start)) := by
  intro i
  by_cases hi : i = k
  · subst hi
    have hone := (h i).lock (x := x)
    simpa [Books.account, Books.lock, Account.lock] using hone
  · simpa [Books.account, Books.lock, hi] using h i

theorem AllKept.release (h : AllKept T n b rest last)
    (hlast : T.start ≤ n → n < T.stop → T.start ≤ last k) :
    AllKept T n (b.release k (T.vested n (b.account rest last k)))
      (Function.update rest k (rest k - T.vested n (b.account rest last k)))
      (Function.update last k n) := by
  intro i
  by_cases hi : i = k
  · subst hi
    have hone := (h i).release hlast
    simpa [Books.account, Books.release, Account.release] using hone
  · simpa [Books.account, Books.release, hi] using h i

/-- One key gives all it has left to another. -/
theorem AllKept.move (h : AllKept T n b rest last) (hne : src ≠ dst) :
    AllKept T n ((b.give src (rest src)).lock dst (rest src))
      (Function.update (Function.update rest dst (rest dst + rest src)) src 0)
      (Function.update
        (Function.update last dst (max (max (last dst) T.start) (last src))) src 0) := by
  intro i
  by_cases hi : i = src
  · subst hi
    have hgive := (h i).give
    simpa [Books.account, Books.lock, Books.give, Account.give, hne] using hgive
  · by_cases hd : i = dst
    · subst hd
      have hreceive := (h i).receive (x := rest src) (h src).last_le
      simpa [Books.account, Books.lock, Books.give, Account.receive, hi] using hreceive
    · simpa [Books.account, Books.lock, Books.give, hi, hd] using h i

omit [DecidableEq A] in
/-- Nobody was released more than has vested. -/
theorem AllKept.released_le (h : AllKept T n b rest last) (k : A) :
    b.released k * T.length ≤ b.locked k * T.elapsed n :=
  (h k).released_le

/-- After a release past the term everything locked for the key was released or given away. -/
theorem AllKept.all_released (h : AllKept T n b rest last) (hstop : T.stop ≤ n) :
    (b.release k (T.vested n (b.account rest last k))).released k + b.given k = b.locked k := by
  have hall := (h k).all_released hstop
  simpa [Books.account, Books.release, Account.release] using hall

end Books

end Vesting
