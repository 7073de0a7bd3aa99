import Meta3dr.Program.Triple

/-!
# Programs that fail

A program over commands that can fail ends in a value or in an error. It stops at the first error
that it does not deal with itself, as when it takes back what it has done before it fails.

## Main definitions

* `Trial C R E ε`: programs that return a value or fail with an error
* `Trial.call`, `Trial.attempt`: a command, and a program whose error becomes a value
* `Trial.Triple`: what holds of every command, of a value, of an error and of an exit

## Main results

* `Trial.Triple.bind`, `Trial.Triple.attempt`, `Trial.Triple.forM`: the rules of the syntax
-/

namespace Program

/-- Programs that return a value or fail with an error. -/
abbrev Trial (C R E ε : Type) := ExceptT ε (Prog C R E)

namespace Trial

variable {C R E ε α β S : Type}

/-- A command whose reply is read as a value or an error. -/
def call (c : C) (read : R → Except ε α) : Trial C R E ε α :=
  ExceptT.mk (.issue c fun r => .ret (read r))

/-- The program with its error as a value. -/
def attempt (t : Trial C R E ε α) : Trial C R E ε (Except ε α) :=
  ExceptT.mk (t.run >>= fun r => .ret (.ok r))

/-- A program that never returns. -/
def halt (e : E) : Trial C R E ε α := ExceptT.mk (.exit e)

/-- A property of values and a property of errors. -/
def onResult (Q : α → S → Prop) (F : ε → S → Prop) : Except ε α → S → Prop
  | .ok a, s => Q a s
  | .error e, s => F e s

/-- Run from a state with `P`, the commands of the program satisfy `I`, a value ends in `Q`, an
error in `F` and an exit in `X`. -/
def Triple (step : S → C → R × S) (I : S → C → Prop) (P : S → Prop) (t : Trial C R E ε α)
    (Q : α → S → Prop) (F : ε → S → Prop) (X : E → S → Prop) : Prop :=
  Prog.Triple step I P t.run (onResult Q F) X

namespace Triple

variable {step : S → C → R × S} {I : S → C → Prop} {P P' : S → Prop} {Q Q' : α → S → Prop}
  {F F' : ε → S → Prop} {X X' : E → S → Prop}

theorem pure {a : α} (h : ∀ s, P s → Q a s) :
    Triple step I P (Pure.pure a : Trial C R E ε α) Q F X := h

theorem throw {e : ε} (h : ∀ s, P s → F e s) :
    Triple step I P (MonadExceptOf.throw e : Trial C R E ε α) Q F X := h

theorem halt {e : E} (h : ∀ s, P s → X e s) :
    Triple step I P (Trial.halt e : Trial C R E ε α) Q F X := h

theorem call {c : C} {read : R → Except ε α}
    (h : ∀ s, P s → I s c ∧ onResult Q F (read (step s c).1) (step s c).2) :
    Triple step I P (Trial.call c read : Trial C R E ε α) Q F X := h

/-- The rule of sequence. -/
theorem bind {Q : β → S → Prop} {t : Trial C R E ε α} {f : α → Trial C R E ε β} (M : α → S → Prop)
    (ht : Triple step I P t M F X) (hf : ∀ a, Triple step I (M a) (f a) Q F X) :
    Triple step I P (t >>= f) Q F X := by
  refine Prog.Triple.bind (onResult M F) ht fun r => ?_
  cases r with
  | ok a => exact hf a
  | error e => exact fun s hs => hs

theorem throw_bind {Q : β → S → Prop} {e : ε} {f : α → Trial C R E ε β} (h : ∀ s, P s → F e s) :
    Triple step I P ((MonadExceptOf.throw e : Trial C R E ε α) >>= f) Q F X := h

/-- An error that the program deals with. -/
theorem attempt {Q : Except ε α → S → Prop} {t : Trial C R E ε α}
    (h : Triple step I P t (fun a => Q (.ok a)) (fun e => Q (.error e)) X) :
    Triple step I P (Trial.attempt t) Q F X := by
  refine Prog.Triple.bind (fun r => Q r) (h.mono (fun _ hs => hs) (fun r s hr => ?_)
    fun _ _ hx => hx) fun r s hr => hr
  cases r <;> exact hr

theorem ite {b : Prop} [Decidable b] {t u : Trial C R E ε α} (ht : b → Triple step I P t Q F X)
    (hu : ¬ b → Triple step I P u Q F X) : Triple step I P (if b then t else u) Q F X := by
  by_cases h : b
  · rw [if_pos h]
    exact ht h
  · rw [if_neg h]
    exact hu h

/-- The rule of consequence. -/
theorem mono {t : Trial C R E ε α} (h : Triple step I P t Q F X) (hP : ∀ s, P' s → P s)
    (hQ : ∀ a s, Q a s → Q' a s) (hF : ∀ e s, F e s → F' e s) (hX : ∀ e s, X e s → X' e s) :
    Triple step I P' t Q' F' X' := by
  refine Prog.Triple.mono h hP (fun r s hr => ?_) hX
  cases r with
  | ok a => exact hQ a s hr
  | error e => exact hF e s hr

theorem mono_pre {t : Trial C R E ε α} (h : Triple step I P t Q F X) (hP : ∀ s, P' s → P s) :
    Triple step I P' t Q F X :=
  h.mono hP (fun _ _ hq => hq) (fun _ _ hf => hf) fun _ _ hx => hx

theorem mono_err {t : Trial C R E ε α} (h : Triple step I P t Q F X) (hF : ∀ e s, F e s → F' e s) :
    Triple step I P t Q F' X :=
  h.mono (fun _ hs => hs) (fun _ _ hq => hq) hF fun _ _ hx => hx

/-- Nothing is asked of a run. -/
theorem of_true (t : Trial C R E ε α) :
    Triple step (fun _ _ => True) P t (fun _ _ => True) (fun _ _ => True) fun _ _ => True := by
  intro s _
  refine (Prog.wp_iff ..).mpr ⟨fun _ _ => trivial, ?_⟩
  rcases Prog.run step t.run s with ⟨e | e | a, s'⟩ <;> trivial

/-- A precondition that every step of a loop keeps. -/
theorem forM {l : List α} {f : α → Trial C R E ε PUnit}
    (h : ∀ a ∈ l, Triple step I P (f a) (fun _ => P) F X) :
    Triple step I P (l.forM f) (fun _ => P) F X := by
  induction l with
  | nil => exact pure fun _ hs => hs
  | cons a l ih =>
    exact bind (fun _ => P) (h a List.mem_cons_self) fun _ =>
      ih fun b hb => h b (List.mem_cons_of_mem _ hb)

/-- The end of a run. -/
theorem run {t : Trial C R E ε α} (h : Triple step I P t Q F X) {s : S} (hs : P s) :
    match Prog.run step t.run s with
    | (.ok (.ok a), s') => Q a s'
    | (.ok (.error e), s') => F e s'
    | (.error e, s') => X e s' := by
  have hend := ((Prog.wp_iff _ _ _ _ _ _).mp (h s hs)).2
  rcases hr : Prog.run step t.run s with ⟨r, s'⟩
  rw [hr] at hend
  rcases r with e | (e | a) <;> exact hend

/-- An invariant of the commands and of the end holds wherever the run is cut. -/
theorem cut {J : S → Prop} {t : Trial C R E ε α} (h : Triple step (fun s _ => J s) P t Q F X)
    (hQ : ∀ a s, Q a s → J s) (hF : ∀ e s, F e s → J s) (hX : ∀ e s, X e s → J s) {s : S}
    (hs : P s) (n : ℕ) : J (Prog.cut step n t.run s) := by
  refine Prog.wp.cut ((h s hs).mono (fun _ _ h => h) (fun r s hr => ?_) hX) n
  cases r with
  | ok a => exact hQ a s hr
  | error e => exact hF e s hr

end Triple

end Trial

end Program
