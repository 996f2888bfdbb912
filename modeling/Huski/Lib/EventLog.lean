import Mathlib

/-!
# Logs of events

A log lists the events of a run, the newest first. What a state variable holds is the value that
the newest event which writes it has written (`lastWrite`), and a log is lawful where every event
was admitted after those before it. So what was checked when an event happened can be read off the
log alone, and a flag that is up tells which event has raised it.
-/

namespace EventLog

variable {E V : Type}

/-- The value that the newest writing event has written. -/
def lastWrite (write : E → Option V) (initial : V) : List E → V
  | [] => initial
  | e :: log => (write e).getD (lastWrite write initial log)

/-- Every event was admitted by the log before it. -/
def Lawful (admits : List E → E → Prop) : List E → Prop
  | [] => True
  | e :: log => admits log e ∧ Lawful admits log

section LastWrite

variable {write : E → Option V} {initial v : V} {e : E} {log : List E}

theorem lastWrite_of_some (h : write e = some v) : lastWrite write initial (e :: log) = v := by
  rw [lastWrite, h, Option.getD_some]

theorem lastWrite_of_none (h : write e = none) :
    lastWrite write initial (e :: log) = lastWrite write initial log := by
  rw [lastWrite, h, Option.getD_none]

/-- A value that is not the initial one was written, and nothing was written since. -/
theorem exists_write (h : lastWrite write initial log = v) (hv : v ≠ initial) :
    ∃ later e earlier, log = later ++ e :: earlier ∧ write e = some v ∧
      ∀ e' ∈ later, write e' = none := by
  induction log with
  | nil => exact absurd h.symm hv
  | cons e log ih =>
      cases hwrite : write e with
      | none =>
          rw [lastWrite_of_none hwrite] at h
          obtain ⟨later, e', earlier, rfl, hwritten, hlater⟩ := ih h
          refine ⟨e :: later, e', earlier, rfl, hwritten, ?_⟩
          intro e₁ hmem
          rcases List.mem_cons.mp hmem with rfl | hmem
          · exact hwrite
          · exact hlater e₁ hmem
      | some u =>
          rw [lastWrite_of_some hwrite] at h
          refine ⟨[], e, log, rfl, h ▸ hwrite, ?_⟩
          intro e' hmem
          cases hmem

/-- Where the value is the initial one and no event writes that again, nothing was written. -/
theorem forall_write_eq_none (hwrite : ∀ e, write e ≠ some initial)
    (h : lastWrite write initial log = initial) : ∀ e ∈ log, write e = none := by
  induction log with
  | nil =>
      intro e hmem
      cases hmem
  | cons e log ih =>
      cases he : write e with
      | none =>
          rw [lastWrite_of_none he] at h
          intro e' hmem
          rcases List.mem_cons.mp hmem with rfl | hmem
          · exact he
          · exact ih h e' hmem
      | some u =>
          rw [lastWrite_of_some he] at h
          subst h
          exact absurd he (hwrite e)

end LastWrite

section Lawful

variable {admits : List E → E → Prop} {e : E} {later earlier log : List E}

theorem Lawful.suffix (h : Lawful admits (later ++ earlier)) : Lawful admits earlier := by
  induction later with
  | nil => exact h
  | cons e later ih => exact ih h.2

/-- Every event of a lawful log was admitted. -/
theorem Lawful.admitted (h : Lawful admits (later ++ e :: earlier)) : admits earlier e :=
  h.suffix.1

/-- Events that lower a flag, and are admitted only where it is up, are no more than those that
raise it. -/
theorem Lawful.countP_le {write : E → Option Bool} {raises uses : E → Bool}
    (hraise : ∀ e, write e = some true → raises e = true)
    (huse : ∀ log e, admits log e → uses e = true →
      write e = some false ∧ lastWrite write false log = true)
    (h : Lawful admits log) :
    log.countP uses + (if lastWrite write false log = true then 1 else 0) ≤ log.countP raises := by
  induction log with
  | nil => exact Nat.le_refl 0
  | cons e log ih =>
      obtain ⟨hadmits, hlog⟩ := h
      have hbefore := ih hlog
      rw [List.countP_cons, List.countP_cons]
      by_cases hu : uses e = true
      -- a use lowers the flag, which an earlier raise had set
      · obtain ⟨hlowers, hup⟩ := huse log e hadmits hu
        rw [lastWrite_of_some hlowers, if_pos hu, if_neg Bool.false_ne_true]
        rw [if_pos hup] at hbefore
        omega
      · rw [if_neg hu]
        cases hwrite : write e with
        | none =>
            rw [lastWrite_of_none hwrite]
            omega
        | some up =>
            rw [lastWrite_of_some hwrite]
            cases up with
            | false =>
                rw [if_neg Bool.false_ne_true]
                omega
            | true =>
                rw [if_pos rfl, if_pos (hraise e hwrite)]
                omega

end Lawful

end EventLog
