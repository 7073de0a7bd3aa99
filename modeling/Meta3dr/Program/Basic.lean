import Mathlib

/-!
# Command programs

A command program issues commands one at a time, reads the reply of each, and either returns a
value or ends in a command that never returns. What a command does is left to a step function on
states. A run can be cut before any command; the trace of a run lists every command with the
state it was issued in.

## Main definitions

* `Prog C R E α`: programs over commands `C` with replies `R`, exits `E` and results `α`
* `Prog.run`, `Prog.cut`, `Prog.trace`: the end of a run, the state after `n` commands, and the
  commands issued
* `Prog.wp`: every command of the run satisfies `I`, and its end satisfies `Q` or `X`
* `Prog.Only`: every command the program can issue satisfies `P`, every exit `X`

## Main results

* `Prog.run_bind`, `Prog.trace_bind`: runs and traces of a sequence
* `Prog.wp_iff`: what `wp` says of the trace and of the end
* `Prog.wp_bind`, `Prog.wp.mono`: the rules of sequence and consequence
* `Prog.wp.cut`: an invariant of the commands and of the end holds at every cut
* `Prog.Only.wp`: an invariant that the commands of a program keep holds along its run
-/

namespace Program

/-- Programs over commands `C` with replies `R`: a result, an exit that never returns, or a
command and the program that continues with its reply. -/
inductive Prog (C R E α : Type)
  | ret (a : α)
  | exit (e : E)
  | issue (c : C) (k : R → Prog C R E α)

namespace Prog

variable {C R E α β S : Type}

/-- Sequencing; nothing follows an exit. -/
def bind : Prog C R E α → (α → Prog C R E β) → Prog C R E β
  | ret a, f => f a
  | exit e, _ => exit e
  | issue c k, f => issue c fun r => bind (k r) f

instance : Monad (Prog C R E) where
  pure := ret
  bind := bind

/-- Issue one command and return its reply. -/
def call (c : C) : Prog C R E R := issue c ret

@[simp] theorem pure_eq (a : α) : (pure a : Prog C R E α) = ret a := rfl

@[simp] theorem ret_bind (a : α) (f : α → Prog C R E β) : (ret a >>= f) = f a := rfl

@[simp] theorem exit_bind (e : E) (f : α → Prog C R E β) : (exit e >>= f) = exit e := rfl

@[simp] theorem issue_bind (c : C) (k : R → Prog C R E α) (f : α → Prog C R E β) :
    (issue c k >>= f) = issue c fun r => k r >>= f := rfl

@[simp] theorem call_bind (c : C) (f : R → Prog C R E β) : (call c >>= f) = issue c f := rfl

/-- A branch of a program, continued. -/
@[simp] theorem ite_bind (b : Prop) [Decidable b] (p q : Prog C R E α) (f : α → Prog C R E β) :
    ((if b then p else q) >>= f) = if b then p >>= f else q >>= f := by
  split_ifs <;> rfl

variable (step : S → C → R × S)

/-- The end of a run: its result or its exit, and the last state. -/
def run : Prog C R E α → S → Except E α × S
  | ret a, s => (.ok a, s)
  | exit e, s => (.error e, s)
  | issue c k, s => run (k (step s c).1) (step s c).2

/-- The state after `n` commands, or at the end of a shorter run. -/
def cut : ℕ → Prog C R E α → S → S
  | n + 1, issue c k, s => cut n (k (step s c).1) (step s c).2
  | _, _, s => s

/-- The commands of a run, each with the state it was issued in. -/
def trace : Prog C R E α → S → List (S × C)
  | issue c k, s => (s, c) :: trace (k (step s c).1) (step s c).2
  | _, _ => []

@[simp] theorem run_ret (a : α) (s : S) : (ret a : Prog C R E α).run step s = (.ok a, s) := rfl

@[simp] theorem run_exit (e : E) (s : S) :
    (exit e : Prog C R E α).run step s = (.error e, s) := rfl

@[simp] theorem run_issue (c : C) (k : R → Prog C R E α) (s : S) :
    (issue c k).run step s = (k (step s c).1).run step (step s c).2 := rfl

@[simp] theorem cut_zero (p : Prog C R E α) (s : S) : p.cut step 0 s = s := by
  cases p <;> rfl

@[simp] theorem cut_issue (n : ℕ) (c : C) (k : R → Prog C R E α) (s : S) :
    (issue c k).cut step (n + 1) s = (k (step s c).1).cut step n (step s c).2 := rfl

@[simp] theorem trace_issue (c : C) (k : R → Prog C R E α) (s : S) :
    (issue c k).trace step s = (s, c) :: (k (step s c).1).trace step (step s c).2 := rfl

/-- A sequence runs its first program to the end and continues with the result. -/
theorem run_bind (p : Prog C R E α) (f : α → Prog C R E β) (s : S) :
    (p >>= f).run step s = match p.run step s with
      | (.ok a, s') => (f a).run step s'
      | (.error e, s') => (.error e, s') := by
  induction p generalizing s with
  | ret a => rfl
  | exit e => rfl
  | issue c k ih => exact ih _ _

theorem run_eq {p : Prog C R E α} {s : S} {a : Except E α} (h : (p.run step s).1 = a) :
    p.run step s = (a, (p.run step s).2) := Prod.ext h rfl

/-- The commands of a sequence. -/
theorem trace_bind (p : Prog C R E α) (f : α → Prog C R E β) (s : S) :
    (p >>= f).trace step s = p.trace step s ++ match p.run step s with
      | (.ok a, s') => (f a).trace step s'
      | (.error _, _) => [] := by
  induction p generalizing s with
  | ret a => rfl
  | exit e => rfl
  | issue c k ih => exact congrArg _ (ih _ _)

/-- Past its last command a run stays at its end. -/
theorem cut_length (p : Prog C R E α) (s : S) (n : ℕ) (hn : (p.trace step s).length ≤ n) :
    p.cut step n s = (p.run step s).2 := by
  induction p generalizing s n with
  | ret a => cases n <;> rfl
  | exit e => cases n <;> rfl
  | issue c k ih =>
    obtain ⟨n, rfl⟩ : ∃ m, n = m + 1 := ⟨n - 1, by simp at hn; omega⟩
    exact ih _ _ _ (by simpa using hn)

/-- A sequence is cut within its first program, or within the continuation of its result. -/
theorem cut_bind (p : Prog C R E α) (f : α → Prog C R E β) (s : S) (n : ℕ) :
    (p >>= f).cut step n s = p.cut step n s ∨ ∃ a s' m, p.run step s = (.ok a, s') ∧
      (p >>= f).cut step n s = (f a).cut step m s' := by
  induction p generalizing s n with
  | ret a => exact Or.inr ⟨a, s, n, rfl, rfl⟩
  | exit e => exact Or.inl (by cases n <;> rfl)
  | issue c k ih =>
    cases n with
    | zero => exact Or.inl (by simp)
    | succ n => exact ih _ _ _

/-! ## Properties of a run -/

section WP

variable (I : S → C → Prop) (Q : α → S → Prop) (X : E → S → Prop)

/-- Every command of the run is issued in a state with `I`, a result ends in `Q` and an exit
in `X`. -/
def wp : Prog C R E α → S → Prop
  | ret a, s => Q a s
  | exit e, s => X e s
  | issue c k, s => I s c ∧ wp (k (step s c).1) (step s c).2

@[simp] theorem wp_ret (a : α) (s : S) : (ret a).wp step I Q X s ↔ Q a s := Iff.rfl

@[simp] theorem wp_exit (e : E) (s : S) : (exit e).wp step I Q X s ↔ X e s := Iff.rfl

@[simp] theorem wp_issue (c : C) (k : R → Prog C R E α) (s : S) :
    (issue c k).wp step I Q X s ↔ I s c ∧ (k (step s c).1).wp step I Q X (step s c).2 := Iff.rfl

/-- `wp` is a property of the trace and of the end of the run. -/
theorem wp_iff (p : Prog C R E α) (s : S) :
    p.wp step I Q X s ↔ (∀ x ∈ p.trace step s, I x.1 x.2) ∧ match p.run step s with
      | (.ok a, s') => Q a s'
      | (.error e, s') => X e s' := by
  induction p generalizing s with
  | ret a => simp [trace]
  | exit e => simp [trace]
  | issue c k ih => simp only [wp_issue, trace_issue, run_issue, List.forall_mem_cons, ih, and_assoc]

theorem wp.of_ret {step : S → C → R × S} {I : S → C → Prop} {Q : α → S → Prop}
    {X : E → S → Prop} {p : Prog C R E α} {s s' : S} {a : α} (h : p.wp step I Q X s)
    (hr : p.run step s = (.ok a, s')) : Q a s' := by
  have hend := ((wp_iff step I Q X p s).mp h).2
  rwa [hr] at hend

theorem wp.of_exit {step : S → C → R × S} {I : S → C → Prop} {Q : α → S → Prop}
    {X : E → S → Prop} {p : Prog C R E α} {s s' : S} {e : E} (h : p.wp step I Q X s)
    (hr : p.run step s = (.error e, s')) : X e s' := by
  have hend := ((wp_iff step I Q X p s).mp h).2
  rwa [hr] at hend

/-- The rule of sequence. -/
theorem wp_bind (Q' : β → S → Prop) (p : Prog C R E α) (f : α → Prog C R E β) (s : S) :
    (p >>= f).wp step I Q' X s ↔
      p.wp step I (fun a s' => (f a).wp step I Q' X s') X s := by
  induction p generalizing s with
  | ret a => rfl
  | exit e => rfl
  | issue c k ih => exact and_congr Iff.rfl (ih _ _)

variable {step I Q X}

/-- The rule of consequence. -/
theorem wp.mono {I' : S → C → Prop} {Q' : α → S → Prop} {X' : E → S → Prop}
    {p : Prog C R E α} {s : S} (h : p.wp step I Q X s) (hI : ∀ s c, I s c → I' s c)
    (hQ : ∀ a s, Q a s → Q' a s) (hX : ∀ e s, X e s → X' e s) : p.wp step I' Q' X' s := by
  induction p generalizing s with
  | ret a => exact hQ _ _ h
  | exit e => exact hX _ _ h
  | issue c k ih => exact ⟨hI _ _ h.1, ih _ h.2⟩

/-- Two properties of one run hold together. -/
theorem wp.and {I' : S → C → Prop} {Q' : α → S → Prop} {X' : E → S → Prop}
    {p : Prog C R E α} {s : S} (h : p.wp step I Q X s) (h' : p.wp step I' Q' X' s) :
    p.wp step (fun s c => I s c ∧ I' s c) (fun a s => Q a s ∧ Q' a s)
      (fun e s => X e s ∧ X' e s) s := by
  induction p generalizing s with
  | ret a => exact ⟨h, h'⟩
  | exit e => exact ⟨h, h'⟩
  | issue c k ih => exact ⟨⟨h.1, h'.1⟩, ih _ h.2 h'.2⟩

/-- An invariant of every command and of the end holds wherever the run is cut. -/
theorem wp.cut {J : S → Prop} {p : Prog C R E α} {s : S}
    (h : p.wp step (fun s _ => J s) (fun _ s => J s) (fun _ s => J s) s) (n : ℕ) :
    J (p.cut step n s) := by
  induction p generalizing s n with
  | ret a => cases n <;> exact h
  | exit e => cases n <;> exact h
  | issue c k ih =>
    cases n with
    | zero => exact h.1
    | succ n => exact ih _ h.2 n

end WP

/-! ## The commands of a program -/

/-- Every command the program can issue, whatever the replies, satisfies `P`, and every exit it
can end in satisfies `X`. -/
def Only (P : C → Prop) (X : E → Prop) : Prog C R E α → Prop
  | ret _ => True
  | exit e => X e
  | issue c k => P c ∧ ∀ r, Only P X (k r)

section Only

variable {P P' : C → Prop} {X X' : E → Prop}

@[simp] theorem only_ret (a : α) : (ret a : Prog C R E α).Only P X := trivial

@[simp] theorem only_exit (e : E) : (exit e : Prog C R E α).Only P X ↔ X e := Iff.rfl

@[simp] theorem only_issue (c : C) (k : R → Prog C R E α) :
    (issue c k).Only P X ↔ P c ∧ ∀ r, (k r).Only P X := Iff.rfl

@[simp] theorem only_ite (b : Prop) [Decidable b] (p q : Prog C R E α) :
    (if b then p else q).Only P X ↔ (b → p.Only P X) ∧ (¬ b → q.Only P X) := by
  by_cases h : b <;> simp [h]

theorem Only.bind {p : Prog C R E α} {f : α → Prog C R E β} (h : p.Only P X)
    (hf : ∀ a, (f a).Only P X) : (p >>= f).Only P X := by
  induction p with
  | ret a => exact hf a
  | exit e => exact h
  | issue c k ih => exact ⟨h.1, fun r => ih r (h.2 r)⟩

theorem Only.mono {p : Prog C R E α} (h : p.Only P X) (hP : ∀ c, P c → P' c)
    (hX : ∀ e, X e → X' e) : p.Only P' X' := by
  induction p with
  | ret a => trivial
  | exit e => exact hX e h
  | issue c k ih => exact ⟨hP c h.1, fun r => ih r (h.2 r)⟩

/-- An invariant that the commands of a program keep holds along its whole run, with what it
says of each command. -/
theorem Only.wp {step : S → C → R × S} {I : S → C → Prop} {J : S → Prop} {p : Prog C R E α}
    (h : p.Only P X) (hstep : ∀ s c, P c → J s → I s c ∧ J (step s c).2) {s : S} (hs : J s) :
    p.wp step I (fun _ s => J s) (fun e s => X e ∧ J s) s := by
  induction p generalizing s with
  | ret a => exact hs
  | exit e => exact ⟨h, hs⟩
  | issue c k ih => exact ⟨(hstep s c h.1 hs).1, ih _ (h.2 _) (hstep s c h.1 hs).2⟩

theorem Only.of_mem_trace {step : S → C → R × S} {p : Prog C R E α} (h : p.Only P X) {s : S}
    {y : S × C} (hy : y ∈ p.trace step s) : P y.2 := by
  induction p generalizing s with
  | ret a => cases hy
  | exit e => cases hy
  | issue c k ih =>
    rcases List.mem_cons.mp hy with rfl | hy
    · exact h.1
    · exact ih _ (h.2 _) hy

/-- A program without a command is passed over in the search for it. -/
theorem Only.mem_trace_bind {step : S → C → R × S} {p : Prog C R E α} {f : α → Prog C R E β}
    {s s' : S} {a : α} {y : S × C} (h : p.Only P X) (hr : p.run step s = (.ok a, s'))
    (hy : ¬ P y.2) : y ∈ (p >>= f).trace step s ↔ y ∈ (f a).trace step s' := by
  rw [trace_bind, List.mem_append, hr]
  exact or_iff_right fun hp => hy (h.of_mem_trace hp)

/-- A continuation without a command is passed over in the search for it. -/
theorem Only.mem_trace_bind_left {step : S → C → R × S} {p : Prog C R E α}
    {f : α → Prog C R E β} {s : S} {y : S × C} (hf : ∀ a, (f a).Only P X) (hy : ¬ P y.2) :
    y ∈ (p >>= f).trace step s ↔ y ∈ p.trace step s := by
  rw [trace_bind, List.mem_append]
  refine or_iff_left fun hy' => ?_
  split at hy'
  · exact hy ((hf _).of_mem_trace hy')
  · simp at hy'

/-- Nothing follows a program that exits. -/
theorem Only.not_mem_trace_bind {step : S → C → R × S} {p : Prog C R E α} {f : α → Prog C R E β}
    {s : S} {e : E} {y : S × C} (h : p.Only P X) (hr : (p.run step s).1 = .error e)
    (hy : ¬ P y.2) : y ∉ (p >>= f).trace step s := by
  rw [trace_bind, run_eq step hr, List.append_nil]
  exact fun hp => hy (h.of_mem_trace hp)

end Only

end Prog

end Program
