/-
# Steady readers

A read may be short, may be interrupted, may fail, and may give nothing while
there is something to come.  A reader is calm for a request if no read made
for it does one of the last two things; it then gives what is asked for from
the front of what is to come (`fill_of_calm`), so what is read from it does
not depend on its plan.  It is steady if it is calm however often the same
number of bytes is asked for.

Whether a read is made before the end depends on how much the reads before
it gave, so calm and steady are said of a reader together with the requests
made to it.  A plan of short and interrupted reads is steady for all of them
(`steadyAt_of_steadyPlan`).
-/
import SealedModules.Stream.Reader

namespace SealedModules.Reader

/-- No read of `want` bytes of `rest` under a plan fails or gives nothing
before the end. -/
def CalmPlan : (plan : List ReadStep) → (rest : Bytes) → (want : Nat) → Prop
  | _, _, 0 => True
  | [], _, _ => True
  | .interrupted :: plan, rest, want => CalmPlan plan rest want
  | .failing _ :: _, _, _ => False
  | .upTo count :: plan, rest, want =>
    let size := min (min count want) rest.length
    if size = 0 then rest = [] else CalmPlan plan (rest.drop size) (want - size)

/-- No read made for `want` bytes fails or gives nothing before the end. -/
def Calm (r : Reader) (want : Nat) : Prop := CalmPlan r.plan r.rest want

/-- The reader after `want` bytes were asked for `n` times. -/
def afterFills (want : Nat) : (n : Nat) → Reader → Reader
  | 0, r => r
  | n + 1, r => afterFills want n (r.fill want).2

/-- No read fails or gives nothing before the end, however often `want` bytes
are asked for. -/
def SteadyAt (want : Nat) (r : Reader) : Prop := ∀ n, (afterFills want n r).Calm want

theorem SteadyAt.calm {want : Nat} {r : Reader} (h : SteadyAt want r) : r.Calm want := h 0

theorem SteadyAt.fill {want : Nat} {r : Reader} (h : SteadyAt want r) :
    SteadyAt want (r.fill want).2 := fun n => h (n + 1)

theorem SteadyAt.of_fill {want : Nat} {r : Reader} (h : r.Calm want)
    (hlater : SteadyAt want (r.fill want).2) : SteadyAt want r
  | 0 => h
  | n + 1 => hlater n

theorem fillFrom_of_calm {plan : List ReadStep} {rest : Bytes} {want : Nat}
    (h : CalmPlan plan rest want) :
    ∃ later, fillFrom plan rest want = (.ok (rest.take want), ⟨rest.drop want, later⟩) := by
  fun_induction fillFrom plan rest want with
  | case1 plan rest => exact ⟨plan, rfl⟩
  | case2 rest want => exact ⟨[], rfl⟩
  | case3 plan rest want hwant ih =>
      rw [CalmPlan] at h
      · exact ih h
      · exact hwant
  | case4 fault plan rest want hwant =>
      rw [CalmPlan] at h
      · exact h.elim
      · exact hwant
  | case5 count plan rest want hwant size hsize =>
      rw [CalmPlan] at h
      · obtain rfl : rest = [] := by rwa [if_pos hsize] at h
        exact ⟨plan, by rw [List.take_nil, List.drop_nil]⟩
      · exact hwant
  | case6 count plan rest want hwant size hsize more reader hrec ih =>
      rw [CalmPlan] at h
      · obtain ⟨later, hfill⟩ := ih (by rwa [if_neg hsize] at h)
        have hsum : size + (want - size) = want := by omega
        rw [List.drop_drop, hsum, hrec] at hfill
        obtain ⟨hmore, rfl⟩ := Prod.mk.inj hfill
        refine ⟨later, ?_⟩
        rw [Except.ok.inj hmore, ← List.take_add, hsum]
      · exact hwant
  | case7 count plan rest want hwant size hsize fault reader hrec ih =>
      rw [CalmPlan] at h
      · obtain ⟨later, hfill⟩ := ih (by rwa [if_neg hsize] at h)
        rw [hrec] at hfill
        cases (Prod.mk.inj hfill).1
      · exact hwant

/-- A calm reader gives what was asked for, as far as there is something. -/
theorem fill_of_calm {r : Reader} {want : Nat} (h : r.Calm want) :
    ∃ later, r.fill want = (.ok (r.rest.take want), ⟨r.rest.drop want, later⟩) :=
  fillFrom_of_calm h

/-! ## Plans that are steady whatever is asked for -/

/-- Every read of the plan is short or interrupted. -/
def SteadyPlan (plan : List ReadStep) : Prop :=
  ∀ step ∈ plan, step = .interrupted ∨ ∃ count, 0 < count ∧ step = .upTo count

theorem calmPlan_of_steadyPlan {plan : List ReadStep} (h : SteadyPlan plan) (rest : Bytes)
    (want : Nat) : CalmPlan plan rest want := by
  induction plan generalizing rest want with
  | nil => cases want <;> trivial
  | cons step plan ih =>
      cases want with
      | zero => trivial
      | succ want =>
          have hplan : SteadyPlan plan := fun s hs => h s (List.mem_cons_of_mem _ hs)
          obtain rfl | ⟨count, hcount, rfl⟩ := h step List.mem_cons_self
          · exact ih hplan rest (want + 1)
          · rw [CalmPlan]
            · split
              · rename_i hsize
                exact List.length_eq_zero_iff.mp (by omega)
              · exact ih hplan _ _
            · exact Nat.succ_ne_zero want

theorem plan_fillFrom_suffix (plan : List ReadStep) (rest : Bytes) (want : Nat) :
    (fillFrom plan rest want).2.plan <:+ plan := by
  fun_induction fillFrom plan rest want with
  | case1 => exact List.suffix_rfl
  | case2 => exact List.suffix_rfl
  | case3 plan rest want hwant ih => exact ih.trans (List.suffix_cons _ _)
  | case4 fault plan rest want hwant => exact List.suffix_cons _ _
  | case5 count plan rest want hwant size hsize => exact List.suffix_cons _ _
  | case6 count plan rest want hwant size hsize more reader hrec ih =>
      rw [hrec] at ih
      exact ih.trans (List.suffix_cons _ _)
  | case7 count plan rest want hwant size hsize fault reader hrec ih =>
      rw [hrec] at ih
      exact ih.trans (List.suffix_cons _ _)

theorem SteadyPlan.fill {r : Reader} (h : SteadyPlan r.plan) (want : Nat) :
    SteadyPlan (r.fill want).2.plan :=
  fun step hstep => h step ((plan_fillFrom_suffix r.plan r.rest want).subset hstep)

theorem steadyAt_of_steadyPlan {r : Reader} (h : SteadyPlan r.plan) (want : Nat) :
    SteadyAt want r := by
  intro n
  induction n generalizing r with
  | zero => exact calmPlan_of_steadyPlan h r.rest want
  | succ n ih => exact ih (h.fill want)

end SealedModules.Reader
