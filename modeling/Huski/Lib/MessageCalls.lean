import Huski.Lib.Checked

/-!
# Message calls between contracts

Accounts with code that call each other. A program is the tree of what the code of an account does
next, by what it has read and been answered so far; every account may have any program. A call
runs the code of the callee, which may call back, and a call that fails leaves no trace. The depth
of the call stack is bounded, and that is what makes an execution end.

A program sees the state only through `Chain`, so that the same code runs on two kinds of state.
There are two rules. What the stores of the programs keep, all executions keep (`exec_keeps`,
`answer_keeps`), however the calls are nested. Two systems whose states look alike to the programs
answer them alike (`exec_simulates`).
-/

open Solidity

namespace MessageCalls

abbrev Data := List UInt8

/-- How a call ends, with the data it returned or reverted with. -/
inductive Outcome
  | success (returned : Data)
  | failure (returned : Data)
  deriving DecidableEq

/-- What the code of an account knows of the call it answers. -/
structure Call where
  this : Address
  sender : Address
  value : Nat
  data : Data
  deriving DecidableEq

/-- A call on the call stack: whose code runs, and in which way it was called. -/
structure Message extends Call where
  code : Address
  /-- in a `staticcall`, where nothing may be written -/
  static : Bool := false
  /-- by `delegatecall`, on the account of the caller -/
  delegated : Bool := false
  deriving DecidableEq

/-- What the code does: read, write, look at accounts, call, and end. -/
inductive Program
  | halt (outcome : Outcome)
  | sload (slot : Nat) (next : Nat → Program)
  | sstore (slot word : Nat) (next : Program)
  | isContract (account : Address) (next : Bool → Program)
  | balance (account : Address) (next : Nat → Program)
  | call (target : Address) (value : Nat) (data : Data) (next : Outcome → Program)
  | staticcall (target : Address) (data : Data) (next : Outcome → Program)
  | delegatecall (target : Address) (data : Data) (next : Outcome → Program)

/-- What a contract does with a call. -/
abbrev Contract := Call → Program

/-- What programs see of a state, and what they do to it. -/
structure Chain (σ : Type) where
  load : σ → Address → Nat → Nat
  store : σ → Address → Nat → Nat → σ
  balance : σ → Address → Nat
  /-- pay from one account to another, where the balance is enough -/
  transfer : σ → Address → Address → Nat → Option σ
  /-- a call begins -/
  record : σ → Message → σ

/-- How the calls of a program are answered. -/
abbrev Handler (σ : Type) := Message → σ → σ × Outcome

/-- A call, with value, to another account. -/
def Message.callTo (m : Message) (target : Address) (value : Nat) (data : Data) : Message :=
  { this := target, sender := m.this, value, data, code := target, static := m.static }

/-- A call that may change nothing. -/
def Message.staticcallTo (m : Message) (target : Address) (data : Data) : Message :=
  { this := target, sender := m.this, value := 0, data, code := target, static := true }

/-- Another account's code, with this one's storage. -/
def Message.delegateTo (m : Message) (target : Address) (data : Data) : Message :=
  { m with data, code := target, delegated := true }

section Semantics

variable {σ : Type} (C : Chain σ)

/-- A call that fails leaves the state it began in. -/
def settle (w : σ) (r : σ × Outcome) : σ × Outcome :=
  match r.2 with
  | .success _ => r
  | .failure _ => (w, r.2)

/-- Answer a call with its value paid first. -/
def send (answer : Handler σ) (m : Message) (w : σ) : σ × Outcome :=
  match C.transfer w m.sender m.this m.value with
  | some paid => settle w (answer m paid)
  | none => (w, .failure [])

variable (code : Address → Option Contract)

/-- Run a program in the frame of a message. -/
def exec (answer : Handler σ) (m : Message) : Program → σ → σ × Outcome
  | .halt outcome, w => (w, outcome)
  | .sload slot next, w => exec answer m (next (C.load w m.this slot)) w
  | .sstore slot word next, w =>
      if m.static then (w, .failure []) else exec answer m next (C.store w m.this slot word)
  | .isContract account next, w => exec answer m (next (code account).isSome) w
  | .balance account next, w => exec answer m (next (C.balance w account)) w
  | .call target value data next, w =>
      if m.static ∧ value ≠ 0 then (w, .failure [])
      else
        let r := send C answer (m.callTo target value data) w
        exec answer m (next r.2) r.1
  | .staticcall target data next, w =>
      let r := settle w (answer (m.staticcallTo target data) w)
      exec answer m (next r.2) r.1
  | .delegatecall target data next, w =>
      let r := settle w (answer (m.delegateTo target data) w)
      exec answer m (next r.2) r.1

/-- Answer a call with so many levels of the call stack left. An account without code answers
every call. -/
def answer : Nat → Handler σ
  | 0, _, w => (w, .failure [])
  | depth + 1, m, w =>
      match code m.code with
      | none => (C.record w m, .success [])
      | some contract => exec C code (answer depth) m (contract m.toCall) (C.record w m)

/-- The transactions of a run, each a call from outside: the outcomes, and the state at the end. -/
def run (answer : Handler σ) : List Message → σ → σ × List Outcome
  | [], w => (w, [])
  | m :: rest, w =>
      let r := send C answer m w
      let s := run answer rest r.1
      (s.1, r.2 :: s.2)

end Semantics

/-- A program that touches only some slots of its account and runs only some code on it. -/
def Program.Confined (slots : Nat → Prop) (delegates : Address → Prop) : Program → Prop
  | .halt _ => True
  | .sload slot next => slots slot ∧ ∀ word, (next word).Confined slots delegates
  | .sstore slot _ next => slots slot ∧ next.Confined slots delegates
  | .isContract _ next => ∀ b, (next b).Confined slots delegates
  | .balance _ next => ∀ b, (next b).Confined slots delegates
  | .call _ _ _ next => ∀ o, (next o).Confined slots delegates
  | .staticcall _ _ next => ∀ o, (next o).Confined slots delegates
  | .delegatecall target _ next => delegates target ∧ ∀ o, (next o).Confined slots delegates

theorem Program.confined_of_forall {slots : Nat → Prop} {delegates : Address → Prop}
    (hslots : ∀ s, slots s) (hdelegates : ∀ a, delegates a) (p : Program) :
    p.Confined slots delegates := by
  induction p with
  | halt => trivial
  | sload slot next ih => exact ⟨hslots slot, ih⟩
  | sstore slot word next ih => exact ⟨hslots slot, ih⟩
  | isContract account next ih => exact ih
  | balance account next ih => exact ih
  | call target value data next ih => exact ih
  | staticcall target data next ih => exact ih
  | delegatecall target data next ih => exact ⟨hdelegates target, ih⟩

theorem Program.Confined.mono {slots slots' : Nat → Prop} {delegates delegates' : Address → Prop}
    (hslots : ∀ s, slots s → slots' s) (hdelegates : ∀ a, delegates a → delegates' a) {p : Program}
    (h : p.Confined slots delegates) : p.Confined slots' delegates' := by
  induction p with
  | halt => trivial
  | sload slot next ih => exact ⟨hslots slot h.1, fun word => ih word (h.2 word)⟩
  | sstore slot word next ih => exact ⟨hslots slot h.1, ih h.2⟩
  | isContract account next ih => exact fun b => ih b (h b)
  | balance account next ih => exact fun b => ih b (h b)
  | call target value data next ih => exact fun o => ih o (h o)
  | staticcall target data next ih => exact fun o => ih o (h o)
  | delegatecall target data next ih => exact ⟨hdelegates target h.1, fun o => ih o (h.2 o)⟩

/-! ## What all executions keep -/

section Keeps

variable {σ : Type} {C : Chain σ} {code : Address → Option Contract}

/-- A call that succeeds ends in such a state; one that fails is undone. -/
def Keeps (P : σ → Prop) (r : σ × Outcome) : Prop := ∀ returned, r.2 = .success returned → P r.1

/-- A condition that paying keeps, with the calls that are made where it holds. -/
structure Keeping (C : Chain σ) (P : σ → Prop) (Admits : σ → Message → Prop) : Prop where
  transfer : ∀ w a b v w', C.transfer w a b v = some w' → P w → P w'
  admits : ∀ w m w', C.transfer w m.sender m.this m.value = some w' → Admits w m → Admits w' m

variable {P : σ → Prop} {Admits : σ → Message → Prop} {slots : Nat → Prop}
  {delegates : Address → Prop} {answer : Handler σ} {m : Message} {w : σ} {r : σ × Outcome}

/-- A call that fails leaves nothing behind. -/
theorem keeps_of_failure {reason : Data} : Keeps P (w, .failure reason) := by
  intro returned h
  cases h

theorem keeps_of_state (hw : P w) {outcome : Outcome} : Keeps P (w, outcome) :=
  fun _ _ => hw

theorem Keeps.settle (hr : Keeps P r) (hw : P w) : P (settle w r).1 := by
  unfold MessageCalls.settle
  split
  · rename_i returned hsuccess
    exact hr returned hsuccess
  · exact hw

/-- What the answer keeps, the call keeps. -/
theorem Keeping.send (h : Keeping C P Admits)
    (hanswer : ∀ m w, Admits w m → P w → Keeps P (answer m w)) (hadmits : Admits w m) (hw : P w) :
    P (send C answer m w).1 := by
  unfold MessageCalls.send
  split
  · rename_i paid hpaid
    have hpaidP : P paid := h.transfer w m.sender m.this m.value paid hpaid hw
    exact (hanswer m paid (h.admits w m paid hpaid hadmits) hpaidP).settle hw
  · exact hw

/-- A frame keeps what its stores keep, where the calls it makes are answered so. -/
theorem exec_keeps (h : Keeping C P Admits)
    (hanswer : ∀ m w, Admits w m → P w → Keeps P (answer m w))
    (hstore : m.static = false → ∀ w s v, slots s → P w → P (C.store w m.this s v))
    (hcall : ∀ w target value data, P w → Admits w (m.callTo target value data))
    (hstatic : ∀ w target data, P w → Admits w (m.staticcallTo target data))
    (hdelegate : ∀ w target data, delegates target → P w → Admits w (m.delegateTo target data))
    {p : Program} (hp : p.Confined slots delegates) (hw : P w) :
    Keeps P (exec C code answer m p w) := by
  induction p generalizing w with
  | halt => exact keeps_of_state hw
  | sload slot next ih => exact ih _ (hp.2 _) hw
  | sstore slot word next ih =>
      rw [exec]
      split
      · exact keeps_of_failure
      · rename_i hwritable
        exact ih hp.2 (hstore (Bool.eq_false_iff.mpr hwritable) w slot word hp.1 hw)
  | isContract account next ih => exact ih _ (hp _) hw
  | balance account next ih => exact ih _ (hp _) hw
  | call target value data next ih =>
      rw [exec]
      split
      · exact keeps_of_failure
      · exact ih _ (hp _) (h.send hanswer (hcall w target value data hw) hw)
  | staticcall target data next ih =>
      exact ih _ (hp _) ((hanswer _ w (hstatic w target data hw) hw).settle hw)
  | delegatecall target data next ih =>
      exact ih _ (hp.2 _) ((hanswer _ w (hdelegate w target data hp.1 hw) hw).settle hw)

/-- What the frames keep when their calls do, the answers of all depths keep. -/
theorem answer_keeps
    (hframe : ∀ depth,
      (∀ m w, Admits w m → P w → Keeps P (MessageCalls.answer C code depth m w)) →
      ∀ m w contract, Admits w m → P w → code m.code = some contract →
        Keeps P (exec C code (MessageCalls.answer C code depth) m (contract m.toCall)
          (C.record w m)))
    (hempty : ∀ m w, Admits w m → P w → code m.code = none → P (C.record w m))
    (depth : Nat) : ∀ m w, Admits w m → P w → Keeps P (MessageCalls.answer C code depth m w) := by
  induction depth with
  | zero =>
      intro m w _ hw
      exact keeps_of_failure
  | succ depth ih =>
      intro m w hadmits hw
      rw [MessageCalls.answer]
      split
      · rename_i hnone
        exact keeps_of_state (hempty m w hadmits hw hnone)
      · rename_i contract hcontract
        exact hframe depth ih m w contract hadmits hw hcontract

theorem run_keeps (h : Keeping C P Admits) {transactions : List Message}
    (hanswer : ∀ m w, Admits w m → P w → Keeps P (answer m w))
    (hadmits : ∀ m ∈ transactions, ∀ w, P w → Admits w m) (hw : P w) :
    P (run C answer transactions w).1 := by
  induction transactions generalizing w with
  | nil => exact hw
  | cons m rest ih =>
      have hfirst := h.send hanswer (hadmits m List.mem_cons_self w hw) hw
      exact ih (fun m' hmem => hadmits m' (List.mem_cons_of_mem m hmem)) hfirst

end Keeps

/-! ## Two systems that look alike -/

section Simulation

variable {σ τ : Type} {C : Chain σ} {D : Chain τ} {code code' : Address → Option Contract}

/-- Two results that agree: related states and the same outcome. -/
def Agree (R : σ → τ → Prop) (r : σ × Outcome) (s : τ × Outcome) : Prop :=
  R r.1 s.1 ∧ r.2 = s.2

/-- Related states have the same balances and pay alike. -/
structure Paying (C : Chain σ) (D : Chain τ) (R : σ → τ → Prop) : Prop where
  balance : ∀ w u a, R w u → C.balance w a = D.balance u a
  transfer : ∀ w u a b v, R w u → Option.Rel R (C.transfer w a b v) (D.transfer u a b v)

variable {R : σ → τ → Prop} {Admits : Message → Prop} {slots : Nat → Prop}
  {delegates : Address → Prop} {answer : Handler σ} {answer' : Handler τ} {m : Message}

theorem settle_agree {w : σ} {u : τ} {r : σ × Outcome} {s : τ × Outcome} (hw : R w u)
    (h : Agree R r s) : Agree R (settle w r) (settle u s) := by
  obtain ⟨w', o⟩ := r
  obtain ⟨u', o'⟩ := s
  obtain ⟨hstates, houtcomes⟩ := h
  simp only at houtcomes hstates
  subst houtcomes
  cases o with
  | success => exact ⟨hstates, rfl⟩
  | failure => exact ⟨hw, rfl⟩

theorem send_agree (h : Paying C D R)
    (hanswer : ∀ w u, R w u → Agree R (answer m w) (answer' m u)) {w : σ} {u : τ} (hw : R w u) :
    Agree R (send C answer m w) (send D answer' m u) := by
  have hpaid := h.transfer w u m.sender m.this m.value hw
  unfold send
  generalize C.transfer w m.sender m.this m.value = paid at hpaid ⊢
  generalize D.transfer u m.sender m.this m.value = paid' at hpaid ⊢
  cases hpaid with
  | none => exact ⟨hw, rfl⟩
  | some hrel => exact settle_agree hw (hanswer _ _ hrel)

/-- A program does the same in both systems, where it reads the same, its stores keep the states
alike, and its calls are answered alike. -/
theorem exec_simulates (h : Paying C D R) (hcode : ∀ a, (code a).isSome = (code' a).isSome)
    (hanswer : ∀ m w u, Admits m → R w u → Agree R (answer m w) (answer' m u))
    (hload : ∀ w u s, slots s → R w u → C.load w m.this s = D.load u m.this s)
    (hstore : m.static = false →
      ∀ w u s v, slots s → R w u → R (C.store w m.this s v) (D.store u m.this s v))
    (hcall : ∀ target value data, Admits (m.callTo target value data))
    (hstatic : ∀ target data, Admits (m.staticcallTo target data))
    (hdelegate : ∀ target data, delegates target → Admits (m.delegateTo target data))
    {p : Program} (hp : p.Confined slots delegates) {w : σ} {u : τ} (hw : R w u) :
    Agree R (exec C code answer m p w) (exec D code' answer' m p u) := by
  induction p generalizing w u with
  | halt outcome => exact ⟨hw, rfl⟩
  -- a read of an untouched slot gives the same word on both sides
  | sload slot next ih =>
      rw [exec, exec, hload w u slot hp.1 hw]
      exact ih _ (hp.2 _) hw
  | sstore slot word next ih =>
      rw [exec, exec]
      split
      · exact ⟨hw, rfl⟩
      · rename_i hwritable
        exact ih hp.2 (hstore (Bool.eq_false_iff.mpr hwritable) w u slot word hp.1 hw)
  | isContract account next ih =>
      -- both chains hold the same contracts
      rw [exec, exec, hcode account]
      exact ih _ (hp _) hw
  | balance account next ih =>
      rw [exec, exec, h.balance w u account hw]
      exact ih _ (hp _) hw
  | call target value data next ih =>
      rw [exec, exec]
      split
      · exact ⟨hw, rfl⟩
      -- the value moves first, then the callee runs, on both sides
      · have hsent : Agree R (send C answer (m.callTo target value data) w)
            (send D answer' (m.callTo target value data) u) :=
          send_agree h (fun w u => hanswer _ w u (hcall target value data)) hw
        simp only [hsent.2]
        exact ih _ (hp _) hsent.1
  | staticcall target data next ih =>
      have hsettled := settle_agree hw (hanswer _ w u (hstatic target data) hw)
      rw [exec, exec]
      simp only [hsettled.2]
      exact ih _ (hp _) hsettled.1
  | delegatecall target data next ih =>
      have hsettled := settle_agree hw (hanswer _ w u (hdelegate target data hp.1) hw)
      rw [exec, exec]
      simp only [hsettled.2]
      exact ih _ (hp.2 _) hsettled.1

/-- Runs whose transactions are answered alike agree. -/
theorem run_agree (h : Paying C D R)
    (hanswer : ∀ m w u, Admits m → R w u → Agree R (answer m w) (answer' m u))
    {transactions : List Message} (hadmits : ∀ m ∈ transactions, Admits m) {w : σ} {u : τ}
    (hw : R w u) :
    R (run C answer transactions w).1 (run D answer' transactions u).1 ∧
      (run C answer transactions w).2 = (run D answer' transactions u).2 := by
  induction transactions generalizing w u with
  | nil => exact ⟨hw, rfl⟩
  | cons m rest ih =>
      have hfirst : Agree R (send C answer m w) (send D answer' m u) :=
        send_agree h (fun w u => hanswer m w u (hadmits m List.mem_cons_self)) hw
      have hrest := ih (fun m' hmem => hadmits m' (List.mem_cons_of_mem m hmem)) hfirst.1
      refine ⟨hrest.1, ?_⟩
      show (send C answer m w).2 :: _ = (send D answer' m u).2 :: _
      rw [hfirst.2, hrest.2]

/-- Only the account, the caller and the way of the call matter to the calls of a frame. -/
theorem exec_frame {m' : Message} (hthis : m.this = m'.this) (hstatic : m.static = m'.static)
    (hdelegate : ∀ target data, m.delegateTo target data = m'.delegateTo target data)
    (p : Program) (w : σ) : exec C code answer m p w = exec C code answer m' p w := by
  -- the messages a program sends depend on its own address and the mode only
  have hcall : ∀ target value data, m.callTo target value data = m'.callTo target value data := by
    intro target value data
    unfold Message.callTo
    rw [hthis, hstatic]
  have hstaticcall : ∀ target data, m.staticcallTo target data = m'.staticcallTo target data := by
    intro target data
    unfold Message.staticcallTo
    rw [hthis]
  induction p generalizing w with
  | halt => rfl
  | sload slot next ih =>
      rw [exec, exec, hthis]
      exact ih _ _
  | sstore slot word next ih =>
      rw [exec, exec, hthis, hstatic, ih]
  | isContract account next ih =>
      rw [exec, exec]
      exact ih _ _
  | balance account next ih =>
      rw [exec, exec]
      exact ih _ _
  | call target value data next ih =>
      rw [exec, exec, hcall, hstatic]
      split
      · rfl
      · exact ih _ _
  | staticcall target data next ih =>
      rw [exec, exec, hstaticcall]
      exact ih _ _
  | delegatecall target data next ih =>
      rw [exec, exec, hdelegate]
      exact ih _ _

end Simulation

end MessageCalls
